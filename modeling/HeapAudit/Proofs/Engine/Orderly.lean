import HeapAudit.Proofs.Engine.Balance
import HeapAudit.Proofs.Heap.Generations

/-!
Heaps in order: sound blocks, closures whose owners and programs are older than they are, and
counts that are right for the slots together with the references held outside.

Main definitions
* `Block.Sound`, `Closure.Anchored`: what a block has to be, alone and among the others.
* `Heap.Orderly`: the invariant of the engine's heap.
* `Heap.Later`: what old blocks may have become.

Main statements
* `Heap.Orderly.allocateSized`, `Heap.Orderly.update`, `Heap.Orderly.remove`: the three ways a heap
  changes keep it in order.
-/

namespace HeapAudit

/-! ## Blocks by themselves -/

/-- Lengths are true, and only permanent identifiers have blocks. -/
structure Payload.Proper (p : Payload) : Prop where
  declared : ∀ content n, p = .privateText content n → n = content.utf8ByteSize
  idents : ∀ t, p = .identTable t → ∀ entry ∈ t.entries,
    entry.block.isSome → entry.kind.isPermanent

/-- The categories of blocks with a payload. -/
def Category.isSettled (c : Category) : Bool := c.isCounted || c.isOwned || c = .identTable

/-- A block without a payload may have any category. -/
structure Block.Sound (issued : Nat) (b : Block) : Prop where
  carries : b.payload ≠ .blank → b.category.carries b.payload
  /-- Strings without a text are never shared. -/
  bare : b.payload = .blank → b.category = .sharedString ∨ b.category = .mallocString → b.refs = 1
  proper : b.payload.Proper
  size : ∀ items, b.payload = .slots items → b.size = Payload.aggregateSize items.length
  exempt : b.exempt = false
  serial : b.serial ≤ issued
  /-- The last reference takes the block out. -/
  stored : b.category.isCounted → 0 < b.refs

theorem Block.Sound.category_program {issued : Nat} {b : Block} {p : Program}
    (hs : b.Sound issued) (hp : b.payload = .program p) : b.category = .program :=
  Category.carries_program_iff.1 (hp ▸ hs.carries (by simp [hp]))

theorem Block.Sound.mono {issued later : Nat} {b : Block} (hs : b.Sound issued)
    (hl : issued ≤ later) : b.Sound later :=
  { hs with serial := Nat.le_trans hs.serial hl }

/-! ## Old blocks later -/

/-- What a block may have become: closures stay, an object loses its program at most. -/
structure Block.Becomes (a b : Block) : Prop where
  serial : b.serial = a.serial
  category : b.category = a.category
  closure : ∀ c, b.payload = .closure c ↔ a.payload = .closure c
  program : (∃ p, b.payload = .program p) ↔ ∃ p, a.payload = .program p
  object : ∀ new, b.payload = .object new →
    ∃ ob, a.payload = .object ob ∧ (new.program = ob.program ∨ new.program = none)

theorem Block.Becomes.refl (b : Block) : b.Becomes b :=
  ⟨rfl, rfl, fun _ => Iff.rfl, Iff.rfl, fun ob h => ⟨ob, h, .inl rfl⟩⟩

theorem Block.Becomes.of_payload {a b : Block} (hs : b.serial = a.serial)
    (hc : b.category = a.category) (hp : b.payload = a.payload) : a.Becomes b :=
  ⟨hs, hc, fun c => by rw [hp], by rw [hp], fun ob h => ⟨ob, hp ▸ h, .inl rfl⟩⟩

theorem Block.Becomes.trans {a b c : Block} (hab : a.Becomes b) (hbc : b.Becomes c) :
    a.Becomes c := by
  refine ⟨hbc.serial.trans hab.serial, hbc.category.trans hab.category,
    fun d => (hbc.closure d).trans (hab.closure d), hbc.program.trans hab.program, ?_⟩
  intro new hnew
  obtain ⟨mid, hmid, hm⟩ := hbc.object new hnew
  obtain ⟨ob, hob, ho⟩ := hab.object mid hmid
  refine ⟨ob, hob, ?_⟩
  rcases hm with hm | hm
  · rw [hm]
    exact ho
  · exact .inr hm

namespace Heap

/-- Blocks of old serial numbers were there before, under the same handles. -/
structure Later (heap later : Heap) : Prop where
  issued : heap.issued ≤ later.issued
  old : ∀ h b, later.get? h = some b → b.serial ≤ heap.issued →
    ∃ a, heap.get? h = some a ∧ a.Becomes b
  bounded : heap.Bounded → later.Bounded
  /-- Until the words of the generations wrap, issued handles name old blocks only. -/
  known : heap.Bounded → later.issued ≤ 2 ^ 32 → ∀ h, heap.Knows h → later.Knows h ∧
    ∀ b, later.get? h = some b → ∃ a, heap.get? h = some a ∧ a.Becomes b

theorem Later.refl (heap : Heap) : heap.Later heap :=
  ⟨Nat.le_refl _, fun _ b hb _ => ⟨b, hb, .refl b⟩, id,
    fun _ _ _ hk => ⟨hk, fun b hb => ⟨b, hb, .refl b⟩⟩⟩

theorem Later.trans {heap mid later : Heap} (hm : heap.Later mid) (hl : mid.Later later) :
    heap.Later later := by
  refine ⟨Nat.le_trans hm.issued hl.issued, ?_, fun hb => hl.bounded (hm.bounded hb), ?_⟩
  · intro h c hc hs
    obtain ⟨b, hb, hbc⟩ := hl.old h c hc (Nat.le_trans hs hm.issued)
    obtain ⟨a, ha, hab⟩ := hm.old h b hb (by rw [← hbc.serial]; exact hs)
    exact ⟨a, ha, hab.trans hbc⟩
  · intro hbound hfew h hk
    obtain ⟨hkm, hmid⟩ := hm.known hbound (Nat.le_trans hl.issued hfew) h hk
    obtain ⟨hkl, hlater⟩ := hl.known (hm.bounded hbound) hfew h hkm
    refine ⟨hkl, fun c hc => ?_⟩
    obtain ⟨b, hb, hbc⟩ := hlater c hc
    obtain ⟨a, ha, hab⟩ := hmid b hb
    exact ⟨a, ha, hab.trans hbc⟩

end Heap

/-! ## Closures -/

/-- A closure pins the program it was compiled into, or the one its owner runs. -/
theorem Closure.pinned?_eq_some {heap : Heap} {c : Closure} {p : Handle}
    (hp : c.pinned? heap = some p) :
    c.kind = .functional p ∨
      ∃ ob b o, c.owner = some ob ∧ heap.get? ob = some b ∧ b.payload = .object o ∧
        o.program = some p := by
  obtain ⟨kind, owner, args⟩ := c
  cases kind with
  | functional program =>
    cases hp
    exact .inl rfl
  | ownCode index bindable =>
    cases bindable with
    | true => cases hp
    | false =>
      have hp : owner.bind heap.programOf? = some p := hp
      simp only [Option.bind_eq_some_iff, Heap.programOf?, Heap.payload?, Option.map_eq_some_iff,
        Payload.object?_eq_some_iff] at hp
      obtain ⟨ob, rfl, o, ⟨_, ⟨b, hb, rfl⟩, hpay⟩, hprogram⟩ := hp
      exact .inr ⟨ob, b, o, rfl, hb, hpay, hprogram⟩
  | _ => cases hp

/-- A closure made as number `serial` has an older owner. If it pins the program of its owner there
is one, and it is older. Anonymous code names no older block but the program it was compiled into,
and no newer one until the words of the generations wrap. -/
structure Closure.Anchored (heap : Heap) (serial : Nat) (c : Closure) : Prop where
  loaded : ∀ k ∈ c.views, (heap.programOf? k).isSome
  owner : ∀ ob ∈ c.owner, ∀ b, heap.get? ob = some b → b.serial < serial
  older : ∀ p ∈ c.pinned? heap, c.kind ≠ .functional p → ∀ b, heap.get? p = some b →
    b.serial < serial
  compiled : ∀ p ∈ c.pinned? heap, ∀ b, heap.get? p = some b → b.serial < serial →
    ∃ q, b.payload = .program q
  known : heap.issued ≤ 2 ^ 32 → ∀ p, c.kind = .functional p →
    heap.Knows p ∧ ∀ b, heap.get? p = some b → b.serial < serial

theorem Closure.Anchored.congr {heap other : Heap} {serial : Nat} {c : Closure}
    (ha : c.Anchored heap serial) (hl : heap.Later other) (hbound : heap.Bounded)
    (hserial : serial ≤ heap.issued + 1)
    (hv : ∀ k ∈ c.views, heap.programOf? k = other.programOf? k)
    (hsame : ∀ k, k ∈ c.owner ∨ k ∈ c.pinned? heap ∧ c.kind ≠ .functional k → ∀ b,
      other.get? k = some b → ∃ a, heap.get? k = some a ∧ b.serial = a.serial) :
    c.Anchored other serial := by
  refine ⟨?_, ?_, ?_, ?_, ?_⟩
  · intro k hk
    rw [← hv k hk]
    exact ha.loaded k hk
  · intro ob hob b hb
    obtain ⟨a, hg, hs⟩ := hsame ob (.inl hob) b hb
    rw [hs]
    exact ha.owner ob hob a hg
  · intro p hpin hkind b hb
    rw [← Closure.pinned?_congr_views hv] at hpin
    obtain ⟨a, hg, hs⟩ := hsame p (.inr ⟨hpin, hkind⟩) b hb
    rw [hs]
    exact ha.older p hpin hkind a hg
  · intro p hpin b hb hlt
    rw [← Closure.pinned?_congr_views hv] at hpin
    obtain ⟨a, hg, hab⟩ := hl.old p b hb (by omega)
    rw [hab.serial] at hlt
    exact hab.program.2 (ha.compiled p hpin a hg hlt)
  · intro hfew p hkind
    obtain ⟨hknows, holder⟩ := ha.known (Nat.le_trans hl.issued hfew) p hkind
    obtain ⟨hknown, hold⟩ := hl.known hbound hfew p hknows
    refine ⟨hknown, fun b hb => ?_⟩
    obtain ⟨a, hg, hab⟩ := hold b hb
    rw [hab.serial]
    exact holder a hg

theorem Closure.counted_owner_mem_held {c : Closure} {ob : Handle} (ho : ob ∈ c.owner)
    (heap : Heap) : .counted ob .object ∈ c.held heap := by
  simp only [Closure.held, Reference.objects, List.mem_append, List.mem_map]
  exact .inl (.inl ⟨ob, by simpa using ho, rfl⟩)

theorem Closure.pinned_mem_held {heap : Heap} {c : Closure} {p : Handle}
    (hp : p ∈ c.pinned? heap) : .pinned p ∈ c.held heap := by
  simp only [Closure.held, List.mem_append, List.mem_map]
  exact .inr ⟨p, by simpa using hp, rfl⟩

theorem Closure.mem_views_owner {c : Closure} {k : Handle} (hk : k ∈ c.views) : k ∈ c.owner := by
  unfold Closure.views at hk
  split at hk
  · simpa using hk
  · cases hk

namespace Heap

/-- Every block has the payload of its category. -/
def Plain (heap : Heap) : Prop :=
  ∀ h b, heap.get? h = some b → b.category.carries b.payload ∧ b.category.isSettled

variable {heap : Heap} {outside : Multiset Reference} {h : Handle} {b : Block}

theorem Plain.wellFormed (hp : heap.Plain) : heap.WellFormed :=
  fun h b hb => (hp h b hb).1

theorem Plain.allocateSized (hp : heap.Plain) {category : Category} {payload : Payload}
    (size : Nat) (description : String) (hcar : category.carries payload)
    (hset : category.isSettled) :
    (heap.allocateSized category payload size description).1.Plain := by
  intro k c hk
  rcases of_get?_allocateSized hk with ⟨-, rfl⟩ | ⟨-, hk⟩
  · exact ⟨hcar, hset⟩
  · exact hp k c hk

theorem Plain.update (hp : heap.Plain) (hb : heap.get? h = some b) {f : Block → Block}
    (hcar : (f b).category.carries (f b).payload) (hset : (f b).category.isSettled) :
    (heap.update h f).Plain := by
  intro k c hk
  rcases of_get?_update hb hk with ⟨-, rfl⟩ | ⟨-, hk⟩
  · exact ⟨hcar, hset⟩
  · exact hp k c hk

theorem Plain.remove (hp : heap.Plain) {rest : Heap} (hr : heap.remove h = some (b, rest)) :
    rest.Plain :=
  fun k c hk => hp k c (of_get?_remove hr hk).2

/-! ## Heaps in order -/

/-- `outside` are the references that are not in a block. -/
structure Orderly (heap : Heap) (outside : Multiset Reference) : Prop where
  sound : ∀ h b, heap.get? h = some b → b.Sound heap.issued
  anchored : ∀ h b c, heap.get? h = some b → b.payload = .closure c → c.Anchored heap b.serial
  bounded : heap.Bounded
  balanced : heap.Balanced (heap.heldRefs + outside)

@[simp] theorem issued_allocateSized (heap : Heap) (category : Category) (payload : Payload)
    (size : Nat) (description : String) :
    (heap.allocateSized category payload size description).1.issued = heap.issued + 1 := rfl

/-! ## A new block -/

theorem later_allocateSized (heap : Heap) (category : Category) (payload : Payload) (size : Nat)
    (description : String) :
    heap.Later (heap.allocateSized category payload size description).1 := by
  refine ⟨Nat.le_succ _, ?_, fun hbound => hbound.allocateSized _ _ _ _, ?_⟩
  · intro k c hk hs
    rcases of_get?_allocateSized hk with ⟨-, rfl⟩ | ⟨-, hk⟩
    · exact absurd hs (Nat.not_succ_le_self _)
    · exact ⟨c, hk, .refl c⟩
  · intro hbound hfew k hknows
    have hfew : heap.issued < 2 ^ 32 := Nat.lt_of_succ_le hfew
    refine ⟨hknows.allocateSized hbound hfew _ _ _ _, fun c hk => ?_⟩
    rcases of_get?_allocateSized hk with ⟨rfl, -⟩ | ⟨-, hk⟩
    · exact absurd hknows (hbound.not_knows_nextHandle hfew)
    · exact ⟨c, hk, .refl c⟩

/-- A closure outlives the allocation of a block nothing names. -/
theorem anchored_allocateSized {serial : Nat} {c : Closure} {refs : Multiset Reference}
    (ha : c.Anchored heap serial) (category : Category) (payload : Payload) (size : Nat)
    (description : String) (hbound : heap.Bounded) (hserial : serial ≤ heap.issued + 1)
    (hu : Unnamed heap.nextHandle refs) (hc : ∀ ref ∈ c.held heap, ref ∈ refs)
    (hslots : ∀ ref ∈ heap.heldRefs, ref ∈ refs) :
    c.Anchored (heap.allocateSized category payload size description).1 serial := by
  have hob : ∀ ob ∈ c.owner, ob ≠ heap.nextHandle := fun ob ho =>
    hu _ (hc _ (Closure.counted_owner_mem_held ho heap)) (by simp [Reference.counted])
  have hrun : ∀ p ∈ c.pinned? heap, c.kind ≠ .functional p → p ≠ heap.nextHandle := by
    intro p hp hkind
    rcases Closure.pinned?_eq_some hp with hk | ⟨ob, b, o, -, hb, hpay, hprogram⟩
    · exact absurd hk hkind
    · refine hu (.counted p .program) (hslots _ (mem_heldRefs.2 ⟨ob, b, hb, ?_⟩))
        (by simp [Reference.counted])
      simp [hpay, Payload.held, Object.held, hprogram]
  refine ha.congr (later_allocateSized _ _ _ _ _) hbound hserial ?_ ?_
  · intro k hk
    refine (views_congr ?_).1
    exact (payload?_allocateSized_of_ne _ _ _ _ _ (hob k (Closure.mem_views_owner hk))).symm
  · intro k hk b hb
    have hne : k ≠ heap.nextHandle := by
      rcases hk with hk | ⟨hk, hkind⟩
      · exact hob k hk
      · exact hrun k hk hkind
    rcases of_get?_allocateSized hb with ⟨hn, -⟩ | ⟨-, hb⟩
    · exact absurd hn hne
    · exact ⟨b, hb, rfl⟩

/-- A new block takes its slots from outside; its first reference is outside then. -/
theorem Orderly.allocateSized (category : Category) (payload : Payload)
    (ho : heap.Orderly (↑(payload.held heap) + outside)) (size : Nat) (description : String)
    (hcar : payload ≠ .blank → category.carries payload) (hproper : payload.Proper)
    (hsize : ∀ items, payload = .slots items → size = Payload.aggregateSize items.length)
    (hpins : ∀ p, payload = .program p → p.pins = 0 ∧
      (heap.heldRefs + (↑(payload.held heap) + outside)).count (.pinned heap.nextHandle) = 0)
    (hclosure : ∀ c, payload = .closure c → c.Anchored heap (heap.issued + 1)) :
    (heap.allocateSized category payload size description).1.Orderly
      (category.firstReference payload heap.nextHandle + outside) := by
  have hu := ho.balanced.nextHandle_unnamed
  have hheld := heldRefs_allocateSized category payload size description
    (hu.mono fun ref hr => by
      rw [← add_assoc, add_comm heap.heldRefs]
      exact Multiset.mem_add.2 (.inl hr))
  have hslots : ∀ ref ∈ heap.heldRefs, ref ∈ heap.heldRefs + (↑(payload.held heap) + outside) :=
    fun ref hr => Multiset.mem_add.2 (.inl hr)
  refine ⟨?_, ?_, ho.bounded.allocateSized _ _ _ _, ?_⟩
  · intro k c hk
    rw [issued_allocateSized]
    rcases of_get?_allocateSized hk with ⟨-, rfl⟩ | ⟨-, hk⟩
    · exact ⟨hcar, fun _ _ => rfl, hproper, hsize, rfl, Nat.le_refl _, fun _ => Nat.one_pos⟩
    · exact (ho.sound k c hk).mono (Nat.le_succ _)
  · intro k d c hk hp
    rcases of_get?_allocateSized hk with ⟨-, rfl⟩ | ⟨-, hk⟩
    · refine anchored_allocateSized (hclosure c hp) _ _ _ _ ho.bounded (Nat.le_refl _) hu ?_ hslots
      intro ref hr
      have hp : payload = .closure c := hp
      rw [hp]
      exact Multiset.mem_add.2 (.inr (Multiset.mem_add.2 (.inl (Multiset.mem_coe.2 hr))))
    · refine anchored_allocateSized (ho.anchored k d c hk hp) _ _ _ _ ho.bounded
        (Nat.le_succ_of_le (ho.sound k d hk).serial) hu ?_ hslots
      intro ref hr
      exact Multiset.mem_add.2 (.inl (mem_heldRefs.2 ⟨k, d, hk, by rw [hp]; exact hr⟩))
  · rw [hheld]
    have hbal := ho.balanced.allocateSized category payload size description hpins
    rwa [show (↑(payload.held heap) + heap.heldRefs +
        (category.firstReference payload heap.nextHandle + outside) : Multiset Reference) =
      category.firstReference payload heap.nextHandle +
        (heap.heldRefs + (↑(payload.held heap) + outside))
      by abel]

/-! ## A changed block -/

/-- Every block of a heap with one block changed was there before. -/
theorem becomes_of_update (hb : heap.get? h = some b) {f : Block → Block} (hf : b.Becomes (f b))
    (k : Handle) (c : Block) (hk : (heap.update h f).get? k = some c) :
    ∃ a, heap.get? k = some a ∧ a.Becomes c := by
  rcases of_get?_update hb hk with ⟨rfl, rfl⟩ | ⟨-, hk⟩
  · exact ⟨b, hb, hf⟩
  · exact ⟨c, hk, .refl c⟩

theorem later_update (hb : heap.get? h = some b) {f : Block → Block} (hf : b.Becomes (f b)) :
    heap.Later (heap.update h f) := by
  have hold := becomes_of_update hb hf
  exact ⟨Nat.le_of_eq (issued_update heap h f).symm, fun k c hk _ => hold k c hk,
    fun hbound => hbound.of_generation? (generation?_update heap h f) (issued_update heap h f),
    fun _ _ k hk => ⟨hk.of_generation? (generation?_update heap h f), hold k⟩⟩

/-- A block may change as long as nothing that depends on it notices; what leaves its slots is
outside then. -/
theorem Orderly.update (ho : heap.Orderly outside) (hb : heap.get? h = some b)
    {f : Block → Block} (hf : b.Becomes (f b)) (hsound : (f b).Sound heap.issued)
    (hviews : ∀ k c, (heap.update h f).get? k = some c → ∀ v ∈ c.payload.views,
      heap.programOf? v = (heap.update h f).programOf? v ∧
        heap.sentenceOf? v = (heap.update h f).sentenceOf? v)
    {more : Multiset Reference}
    (hbal : ∀ rest, heap.heldRefs = ↑(b.payload.held heap) + rest →
      (heap.update h f).Balanced (↑((f b).payload.held heap) + rest + more)) :
    (heap.update h f).Orderly more := by
  have hget : (heap.update h f).get? h = some (f b) := by rw [get?_update, if_pos rfl, hb]; rfl
  have hback := becomes_of_update hb hf
  refine ⟨?_, ?_, (later_update hb hf).bounded ho.bounded, ?_⟩
  · intro k c hk
    rw [issued_update]
    rcases of_get?_update hb hk with ⟨-, rfl⟩ | ⟨-, hk⟩
    · exact hsound
    · exact ho.sound k c hk
  · intro k d c hk hp
    obtain ⟨a, ha, had⟩ := hback k d hk
    rw [had.serial]
    refine (ho.anchored k a c ha ((had.closure c).1 hp)).congr (later_update hb hf) ho.bounded
      (Nat.le_succ_of_le (ho.sound k a ha).serial) ?_ ?_
    · intro v hv
      exact (hviews k d hk v (by rw [hp]; exact hv)).1
    · intro v _ e he
      obtain ⟨x, hx, hxe⟩ := hback v e he
      exact ⟨x, hx, hxe.serial⟩
  · obtain ⟨rest, hold, hnew⟩ := heldRefs_update hb f fun k c hk hne => hviews k c (by
      rw [get?_update, if_neg hne]
      exact hk)
    have hself : (f b).payload.held (heap.update h f) = (f b).payload.held heap :=
      (Payload.held_congr (hviews h (f b) hget)).symm
    rw [hnew, hself]
    exact hbal rest hold

/-- One reference more, held outside. -/
theorem Orderly.incRef (ho : heap.Orderly outside) (hb : heap.get? h = some b)
    (hc : b.category.isCounted)
    (ht : b.category = .sharedString ∨ b.category = .mallocString → b.payload ≠ .blank) :
    (heap.incRef h).Orderly (.counted h b.category ::ₘ outside) := by
  have hs := ho.sound h b hb
  refine ho.update hb (.of_payload rfl rfl rfl)
    ⟨hs.carries, fun hp hst => absurd hp (ht hst), hs.proper, hs.size, hs.exempt, hs.serial,
      fun _ => Nat.succ_pos _⟩
    (fun _ _ _ v _ => views_update hb rfl rfl v) ?_
  intro rest hrest
  have hbal := ho.balanced.incRef hb hc
  rwa [hrest, ← Multiset.add_cons] at hbal

theorem Orderly.recount_of_uncounted (ho : heap.Orderly outside) (hb : heap.get? h = some b)
    (hc : ¬ b.category.isCounted) (count : Nat → Nat) :
    (heap.update h fun b => { b with refs := count b.refs }).Orderly outside := by
  have hs := ho.sound h b hb
  refine ho.update hb (.of_payload rfl rfl rfl)
    ⟨hs.carries, fun hp hst => absurd (Category.isCounted_of_string hst) hc, hs.proper, hs.size,
      hs.exempt, hs.serial, fun hcounted => absurd hcounted hc⟩
    (fun _ _ _ v _ => views_update hb rfl rfl v) ?_
  intro rest hrest
  have hbal := ho.balanced.recount_of_uncounted hb hc count
  rwa [hrest] at hbal

/-- One reference less, that was held outside and not the last. -/
theorem Orderly.decRef (ho : heap.Orderly (.counted h b.category ::ₘ outside))
    (hb : heap.get? h = some b) (hmore : 1 < b.refs) :
    (heap.update h fun b => { b with refs := b.refs - 1 }).Orderly outside := by
  have hs := ho.sound h b hb
  have hbal := ho.balanced
  rw [Multiset.add_cons] at hbal
  have hbare : b.payload = .blank →
      ¬ (b.category = .sharedString ∨ b.category = .mallocString) := by
    intro hp hst
    have hrefs := hbal.counted h b hb (Category.isCounted_of_string hst)
    rw [hs.bare hp hst, hp, Multiset.count_cons_self] at hrefs
    simp only [Payload.surplus] at hrefs
    omega
  refine ho.update hb (.of_payload rfl rfl rfl)
    ⟨hs.carries, fun hp hst => absurd hst (hbare hp), hs.proper, hs.size, hs.exempt, hs.serial,
      fun _ => Nat.sub_pos_of_lt hmore⟩
    (fun _ _ _ v _ => views_update hb rfl rfl v) ?_
  intro rest hrest
  have hless := hbal.decRef hb
  rwa [hrest] at hless

/-- References move between a block and the outside. -/
theorem Orderly.setPayload (ho : heap.Orderly outside) (hb : heap.get? h = some b)
    {payload : Payload} (hbecomes : b.Becomes { b with payload })
    (hcar : b.category.carries payload) (hold : b.payload ≠ .blank) (hnew : payload ≠ .blank)
    (hproper : payload.Proper)
    (hsize : ∀ items, payload ≠ .slots items) (hpins : ∀ p, payload ≠ .program p)
    (hviews : ∀ k c, (heap.setPayload h payload).get? k = some c → ∀ v ∈ c.payload.views,
      heap.programOf? v = (heap.setPayload h payload).programOf? v ∧
        heap.sentenceOf? v = (heap.setPayload h payload).sentenceOf? v)
    {more : Multiset Reference}
    (hmove : ↑(b.payload.held heap) + outside = ↑(payload.held heap) + more) :
    (heap.setPayload h payload).Orderly more := by
  have hs := ho.sound h b hb
  refine ho.update hb hbecomes
    ⟨fun _ => hcar, fun h => absurd h hnew, hproper, fun items h => absurd h (hsize items),
      hs.exempt, hs.serial, hs.stored⟩
    hviews ?_
  intro rest hrest
  have hbal := ho.balanced
  rw [hrest, add_right_comm, hmove] at hbal
  rw [add_right_comm]
  refine hbal.update_of_same hb rfl rfl ?_ fun p hp => absurd hp (hpins p)
  rw [Payload.surplus_eq_zero hold, Payload.surplus_eq_zero hnew]

/-- One closure more on a program; the pin is outside. -/
theorem Orderly.pin (ho : heap.Orderly outside) {p : Program} (hb : heap.get? h = some b)
    (hp : b.payload = .program p) :
    (heap.setPayload h (.program { p with pins := p.pins + 1 })).Orderly
      (.pinned h ::ₘ outside) := by
  have hs := ho.sound h b hb
  refine ho.update hb ⟨rfl, rfl, fun c => by simp [hp], by simp [hp], fun ob h => by cases h⟩
    ⟨fun _ => by rw [hs.category_program hp]; rfl, by simp, ⟨by simp, by simp⟩, by simp,
      hs.exempt, hs.serial, hs.stored⟩
    (fun _ _ _ v _ => views_update hb (by rw [hp]; rfl) (by rw [hp]; rfl) v) ?_
  intro rest hrest
  have hbal := ho.balanced.pin hb hp
  rw [hrest, ← Multiset.add_cons, hp] at hbal
  exact hbal

/-- One closure less on a program; the pin was outside. -/
theorem Orderly.unpin (ho : heap.Orderly (.pinned h ::ₘ outside)) {p : Program}
    (hb : heap.get? h = some b) (hp : b.payload = .program p) :
    (heap.setPayload h (.program { p with pins := p.pins - 1 })).Orderly outside := by
  have hs := ho.sound h b hb
  refine ho.update hb ⟨rfl, rfl, fun c => by simp [hp], by simp [hp], fun ob h => by cases h⟩
    ⟨fun _ => by rw [hs.category_program hp]; rfl, by simp, ⟨by simp, by simp⟩, by simp,
      hs.exempt, hs.serial, hs.stored⟩
    (fun _ _ _ v _ => views_update hb (by rw [hp]; rfl) (by rw [hp]; rfl) v) ?_
  intro rest hrest
  have hbal := ho.balanced
  rw [Multiset.add_cons] at hbal
  have hless := hbal.unpin hb hp
  rw [hrest, hp] at hless
  exact hless

/-- A pin of something that is no program is forgotten. -/
theorem Orderly.forget_pin (ho : heap.Orderly (.pinned h ::ₘ outside))
    (hn : ∀ b p, heap.get? h = some b → b.payload ≠ .program p) : heap.Orderly outside := by
  refine ⟨ho.sound, ho.anchored, ho.bounded, ?_⟩
  have hbal := ho.balanced
  rw [Multiset.add_cons] at hbal
  exact hbal.forget_pin hn

/-! ## A block less -/

theorem later_remove {rest : Heap} (hr : heap.remove h = some (b, rest)) : heap.Later rest := by
  have hold : ∀ k c, rest.get? k = some c → ∃ a, heap.get? k = some a ∧ a.Becomes c :=
    fun k c hk => ⟨c, (of_get?_remove hr hk).2, .refl c⟩
  exact ⟨Nat.le_of_eq (issued_remove hr).symm, fun k c hk _ => hold k c hk,
    fun hbound => hbound.of_generation? (generation?_remove hr) (issued_remove hr),
    fun _ _ k hk => ⟨hk.of_generation? (generation?_remove hr), hold k⟩⟩

/-- A block that only its last holder named goes; what was in its slots is outside then. -/
theorem Orderly.remove {rest : Heap} {last : Reference} (ho : heap.Orderly (last ::ₘ outside))
    (hr : heap.remove h = some (b, rest)) (hl : last.target = h)
    (hu : Unnamed h (heap.heldRefs + outside)) :
    rest.Orderly (↑(b.payload.held heap) + outside) := by
  have hheld := heldRefs_remove hr (hu.mono fun ref hm => Multiset.mem_add.2 (.inl hm))
  refine ⟨?_, ?_, (later_remove hr).bounded ho.bounded, ?_⟩
  · intro k c hk
    rw [issued_remove hr]
    exact ho.sound k c (of_get?_remove hr hk).2
  · intro k d c hk hp
    have hk' := (of_get?_remove hr hk).2
    refine (ho.anchored k d c hk' hp).congr (later_remove hr) ho.bounded
      (Nat.le_succ_of_le (ho.sound k d hk').serial) ?_ ?_
    · intro v hv
      refine (views_congr ?_).1
      have hm : Reference.counted v .object ∈ heap.heldRefs :=
        mem_heldRefs.2 ⟨k, d, hk', by
          rw [hp]
          exact Closure.counted_owner_mem_held (Closure.mem_views_owner hv) heap⟩
      have hne : v ≠ h := hu _ (Multiset.mem_add.2 (.inl hm)) (by simp [Reference.counted])
      unfold payload?
      rw [get?_remove hr, if_neg hne]
    · exact fun v _ e he => ⟨e, (of_get?_remove hr he).2, rfl⟩
  · have hbal := ho.balanced
    rw [Multiset.add_cons] at hbal
    have hrest := hbal.remove hr hl hu
    rwa [hheld, show (↑(b.payload.held heap) + rest.heldRefs + outside : Multiset Reference) =
      rest.heldRefs + (↑(b.payload.held heap) + outside) by abel] at hrest

end Heap

end HeapAudit
