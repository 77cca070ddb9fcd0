import HeapAudit.Proofs.Engine.Releasing

/-!
What a release leaves of an engine. Blocks go, and those that stay have lower counts and fewer
pins; nothing else changes. What the blocks hold that have gone is then missing from the slots.

Main definitions
* `Block.core`: a block but for its counts.
* `Heap.Remnant`, `Engine.Remnant`: what is left of a heap, of an engine.
* `Heap.heldIn`: the references that some of the blocks hold.
* `Engine.removed`, `Engine.gone`, `Engine.lost`: the handles of the blocks that have gone, these
  blocks, and the references they held.

Main statements
* `Engine.remnant_settle`: settling one reference leaves a remnant, and takes out at most the block
  behind it.
* `Engine.Remnant.sum_stock`: what is left and what has gone is all there was.
* `Engine.Remnant.heldRefs_eq`, `Engine.Remnant.refs_add`: the references before are those after
  and those that were given back or went with their blocks.
-/

namespace HeapAudit

/-! ## Blocks but for their counts -/

/-- A payload without the pins of a program. -/
def Payload.unpinned : Payload → Payload
  | .program p => .program { p with pins := 0 }
  | p => p

/-- A block without its stored count and without pins. -/
def Block.core (b : Block) : Block := { b with refs := 0, payload := b.payload.unpinned }

namespace Payload

theorem held_unpinned (heap : Heap) (p : Payload) : p.unpinned.held heap = p.held heap := by
  cases p <;> rfl

theorem object?_unpinned (p : Payload) : p.unpinned.object? = p.object? := by
  cases p <;> rfl

theorem sentence?_unpinned (p : Payload) : p.unpinned.sentence? = p.sentence? := by
  cases p <;> rfl

theorem stringCost?_unpinned (p : Payload) : p.unpinned.stringCost? = p.stringCost? := by
  cases p <;> rfl

theorem unpinned_eq_sharedText_iff {p : Payload} {text : String} :
    p.unpinned = .sharedText text ↔ p = .sharedText text := by
  cases p <;> simp [unpinned]

end Payload

theorem Counters.adding_unpinned (c : Counters) (category : Category) (size : Nat) (p : Payload) :
    c.adding category size p.unpinned = c.adding category size p := by
  cases p <;> rfl

namespace Block

variable {b d : Block}

theorem core_core (b : Block) : b.core.core = b.core := by
  simp only [core, Block.mk.injEq, true_and]
  cases b.payload <;> rfl

theorem category_of_core (h : d.core = b.core) : d.category = b.category := by
  show d.core.category = b.core.category
  rw [h]

theorem size_of_core (h : d.core = b.core) : d.size = b.size := by
  show d.core.size = b.core.size
  rw [h]

theorem unpinned_of_core (h : d.core = b.core) : d.payload.unpinned = b.payload.unpinned := by
  show d.core.payload = b.core.payload
  rw [h]

theorem held_of_core (h : d.core = b.core) (heap : Heap) :
    d.payload.held heap = b.payload.held heap := by
  rw [← d.payload.held_unpinned, unpinned_of_core h, b.payload.held_unpinned]

theorem ofBlock_of_core (h : d.core = b.core) : Counters.ofBlock d = Counters.ofBlock b := by
  rw [Counters.ofBlock, ← Counters.adding_unpinned, category_of_core h, size_of_core h,
    unpinned_of_core h, Counters.adding_unpinned]
  rfl

/-- Counts and pins are all that is missing. -/
theorem eq_of_core (h : d.core = b.core) (hrefs : d.refs = b.refs)
    (hpins : ∀ p q, d.payload = .program p → b.payload = .program q → p.pins = q.pins) : d = b := by
  obtain ⟨category, size, refs, description, serial, tick, exempt, scratch, payload⟩ := d
  obtain ⟨category', size', refs', description', serial', tick', exempt', scratch', payload'⟩ := b
  simp only [core, Block.mk.injEq, true_and] at h hrefs hpins ⊢
  obtain ⟨rfl, rfl, rfl, rfl, rfl, rfl, rfl, hpay⟩ := h
  refine ⟨rfl, rfl, hrefs, rfl, rfl, rfl, rfl, rfl, ?_⟩
  cases payload with
  | program p =>
    cases payload' with
    | program q =>
      obtain ⟨filename, inherits, functions, names, strings, lines, pins, nf, nv⟩ := p
      obtain ⟨filename', inherits', functions', names', strings', lines', pins', nf', nv'⟩ := q
      have hp := hpins _ _ rfl rfl
      simp only [Payload.unpinned, Payload.program.injEq, Program.mk.injEq] at hpay hp ⊢
      obtain ⟨rfl, rfl, rfl, rfl, rfl, rfl, -, rfl, rfl⟩ := hpay
      exact ⟨rfl, rfl, rfl, rfl, rfl, rfl, hp, rfl, rfl⟩
    | _ => cases hpay
  | _ =>
    cases payload' <;> first | exact hpay | cases hpay

end Block

/-! ## Heaps -/

namespace Heap

/-- What is left of a heap. Blocks that carry no count keep the one they have. -/
structure Remnant (heap rest : Heap) : Prop where
  generation : ∀ i, rest.generation? i = heap.generation? i
  issued : rest.issued = heap.issued
  tick : rest.tick = heap.tick
  block : ∀ h d, rest.get? h = some d → ∃ b, heap.get? h = some b ∧ d.core = b.core ∧
    (¬ b.category.isCounted → d.refs = b.refs)

variable {heap mid rest : Heap} {h : Handle} {b d : Block}

theorem Remnant.refl (heap : Heap) : heap.Remnant heap :=
  ⟨fun _ => rfl, rfl, rfl, fun _ d hd => ⟨d, hd, rfl, fun _ => rfl⟩⟩

theorem Remnant.trans (hm : heap.Remnant mid) (hr : mid.Remnant rest) : heap.Remnant rest := by
  refine ⟨fun i => (hr.generation i).trans (hm.generation i), hr.issued.trans hm.issued,
    hr.tick.trans hm.tick, fun h d hd => ?_⟩
  obtain ⟨c, hc, hdc, hrefs⟩ := hr.block h d hd
  obtain ⟨b, hb, hcb, hrefs'⟩ := hm.block h c hc
  refine ⟨b, hb, hdc.trans hcb, fun hn => ?_⟩
  rw [hrefs (by rwa [Block.category_of_core hcb]), hrefs' hn]

theorem isLive_update (heap : Heap) (h : Handle) (f : Block → Block) (k : Handle) :
    (heap.update h f).isLive k = heap.isLive k := by
  unfold isLive
  rw [get?_update]
  split
  · rename_i hk
    rw [hk, Option.isSome_map]
  · rfl

theorem remnant_update (hb : heap.get? h = some b) {f : Block → Block} (hcore : (f b).core = b.core)
    (hrefs : ¬ b.category.isCounted → (f b).refs = b.refs) : heap.Remnant (heap.update h f) := by
  refine ⟨heap.generation?_update h f, heap.issued_update h f, heap.tick_update h f, ?_⟩
  intro k d hd
  rcases of_get?_update hb hd with ⟨rfl, rfl⟩ | ⟨-, hd⟩
  · exact ⟨b, hb, hcore, hrefs⟩
  · exact ⟨d, hd, rfl, fun _ => rfl⟩

theorem remnant_remove (hr : heap.remove h = some (b, rest)) : heap.Remnant rest :=
  ⟨generation?_remove hr, issued_remove hr, tick_remove hr,
    fun _ d hd => ⟨d, (of_get?_remove hr hd).2, rfl, fun _ => rfl⟩⟩

theorem Remnant.isLive (hr : heap.Remnant rest) (hl : rest.isLive h) : heap.isLive h := by
  obtain ⟨d, hd⟩ := isLive_iff.1 hl
  obtain ⟨b, hb, -⟩ := hr.block h d hd
  exact isLive_iff.2 ⟨b, hb⟩

/-- The blocks that are left, but for their counts. -/
theorem Remnant.stock_core (hr : heap.Remnant rest) :
    rest.stock.map (fun p => (p.1, p.2.core)) =
      (heap.stock.filter fun p => rest.isLive p.1).map fun p => (p.1, p.2.core) := by
  have hinj : ∀ (heap : Heap), ∀ p ∈ heap.stock, ∀ q ∈ heap.stock,
      (p.1, p.2.core) = (q.1, q.2.core) → p = q := by
    rintro heap ⟨h, b⟩ hp ⟨k, c⟩ hq heq
    obtain rfl : h = k := congrArg Prod.fst heq
    rw [mem_stock] at hp hq
    rw [hp] at hq
    cases hq
    rfl
  have hnodup : ((heap.stock.filter fun p => rest.isLive p.1).map
      fun p => (p.1, p.2.core)).Nodup :=
    Multiset.Nodup.map_on
      (fun p hp q hq => hinj heap p (Multiset.mem_of_mem_filter hp) q
        (Multiset.mem_of_mem_filter hq)) (heap.nodup_stock.filter _)
  refine (Multiset.Nodup.ext (Multiset.Nodup.map_on (hinj rest) rest.nodup_stock) hnodup).2 ?_
  rintro ⟨h, c⟩
  simp only [Multiset.mem_map, Multiset.mem_filter, Prod.exists, mem_stock, Prod.mk.injEq]
  constructor
  · rintro ⟨k, d, hd, rfl, rfl⟩
    obtain ⟨b, hb, hcore, -⟩ := hr.block k d hd
    exact ⟨k, b, ⟨hb, isLive_iff.2 ⟨d, hd⟩⟩, rfl, hcore.symm⟩
  · rintro ⟨k, b, ⟨hb, hl⟩, rfl, rfl⟩
    obtain ⟨d, hd⟩ := isLive_iff.1 hl
    obtain ⟨b', hb', hcore, -⟩ := hr.block k d hd
    rw [hb] at hb'
    cases hb'
    exact ⟨k, d, hd, rfl, hcore⟩

open Classical in
/-- The references in the slots of the blocks of `S`. -/
noncomputable def heldIn (heap : Heap) (S : Set Handle) : Multiset Reference :=
  (heap.stock.filter fun p => p.1 ∈ S).bind fun p => ↑(p.2.payload.held heap)

theorem mem_heldIn {S : Set Handle} {ref : Reference} :
    ref ∈ heap.heldIn S ↔ ∃ k b, k ∈ S ∧ heap.get? k = some b ∧ ref ∈ b.payload.held heap := by
  simp only [heldIn, Multiset.mem_bind, Multiset.mem_filter, Prod.exists, mem_stock,
    Multiset.mem_coe]
  constructor
  · rintro ⟨k, b, ⟨hb, hk⟩, hr⟩
    exact ⟨k, b, hk, hb, hr⟩
  · rintro ⟨k, b, hk, hb, hr⟩
    exact ⟨k, b, ⟨hb, hk⟩, hr⟩

theorem heldIn_mono {S T : Set Handle} (h : S ⊆ T) : heap.heldIn S ≤ heap.heldIn T := by
  classical
  have hle : (heap.stock.filter fun p => p.1 ∈ S) ≤ heap.stock.filter fun p => p.1 ∈ T :=
    Multiset.monotone_filter_right _ fun p hp => h hp
  obtain ⟨more, hmore⟩ := Multiset.le_iff_exists_add.1 hle
  unfold heldIn
  rw [hmore, Multiset.add_bind]
  exact Multiset.le_add_right _ _

theorem heldIn_le (heap : Heap) (S : Set Handle) : heap.heldIn S ≤ heap.heldRefs := by
  classical
  obtain ⟨more, hmore⟩ :=
    Multiset.le_iff_exists_add.1 (Multiset.filter_le (fun p => p.1 ∈ S) heap.stock)
  unfold heldRefs gathered
  rw [hmore, Multiset.add_bind]
  exact Multiset.le_add_right _ _

end Heap

/-! ## Engines -/

/-- What is left of a string table: texts are forgotten. -/
def StringTable.Remnant (t rest : StringTable) : Prop :=
  rest.entries = t.entries.filter fun p => (rest.find? p.1).isSome

namespace StringTable

variable {t mid rest : StringTable}

theorem Remnant.of_entries (h : rest.entries = t.entries) : t.Remnant rest := by
  unfold Remnant
  rw [← h]
  exact (List.filter_eq_self.2 fun p hp => isSome_find?_of_mem hp).symm

theorem Remnant.trans (hm : t.Remnant mid) (hr : mid.Remnant rest) : t.Remnant rest := by
  unfold Remnant at hm hr ⊢
  rw [hr, hm, List.filter_filter]
  refine List.filter_congr fun p _ => ?_
  by_cases hp : (rest.find? p.1).isSome
  · obtain ⟨k, hk⟩ := Option.isSome_iff_exists.1 hp
    have hk := mem_of_find? hk
    rw [hr] at hk
    have hmid := isSome_find?_of_mem (List.mem_of_mem_filter hk)
    rw [hp, hmid]
    rfl
  · rw [Bool.not_eq_true] at hp
    rw [hp]
    rfl

theorem remnant_forget (p : Payload) (h : rest.entries = (t.forget p).entries) :
    t.Remnant rest := by
  have hfind : rest.find? = (t.forget p).find? := by
    unfold find?
    rw [h]
  unfold Remnant
  rw [h]
  cases p with
  | sharedText text =>
    refine List.filter_congr fun q hq => ?_
    rw [hfind, find?_forget]
    by_cases hk : q.1 = text
    · simp [hk]
    · have hsome := isSome_find?_of_mem hq
      simp [hk, Ne.symm hk, hsome]
  | _ =>
    refine (List.filter_eq_self.2 fun q hq => ?_).symm
    rw [hfind]
    exact isSome_find?_of_mem hq

end StringTable

namespace Engine

/-- What is left of an engine. Nothing but the heap, the strings and the counters changes. -/
structure Remnant (e next : Engine) : Prop where
  heap : e.heap.Remnant next.heap
  strings : e.strings.Remnant next.strings
  rest : next = { e with heap := next.heap, strings := next.strings, counters := next.counters }

variable {e mid next : Engine} {client : Multiset Reference} {h : Handle} {b d : Block}

theorem Remnant.refl (e : Engine) : e.Remnant e := ⟨.refl _, .of_entries rfl, rfl⟩

theorem Remnant.trans (hm : e.Remnant mid) (hr : mid.Remnant next) : e.Remnant next := by
  refine ⟨hm.heap.trans hr.heap, hm.strings.trans hr.strings, ?_⟩
  rw [hr.rest, hm.rest]

theorem remnant_unpin (e : Engine) (program : Handle) : e.Remnant (e.unpin program) := by
  unfold unpin
  cases hp : e.program program with
  | error err => exact .refl e
  | ok p =>
    obtain ⟨b, hb, -, hpay⟩ := program_eq_ok_iff.1 hp
    refine ⟨Heap.remnant_update hb ?_ fun _ => rfl, .of_entries rfl, rfl⟩
    simp only [Block.core, hpay, Payload.unpinned]

theorem remnant_unaccount (e : Engine) (b : Block) : e.Remnant (e.unaccount b) := by
  have hcounters : ∀ counters, e.Remnant { e with counters } := fun _ =>
    ⟨.refl _, .of_entries rfl, rfl⟩
  unfold unaccount
  cases b.payload with
  | closure c =>
    simp only
    cases pinnedBy _ c with
    | none => exact hcounters _
    | some p => exact (hcounters _).trans (remnant_unpin _ p)
  | _ => exact hcounters _

theorem isLive_unaccount (e : Engine) (b : Block) (h : Handle) :
    (e.unaccount b).heap.isLive h = e.heap.isLive h := by
  have hunpin : ∀ (e : Engine) (p : Handle), (e.unpin p).heap.isLive h = e.heap.isLive h := by
    intro e p
    unfold unpin
    cases e.program p with
    | ok q => exact Heap.isLive_update _ _ _ _
    | error err => rfl
  unfold unaccount
  cases b.payload with
  | closure c =>
    simp only
    cases pinnedBy _ c with
    | none => rfl
    | some p => exact hunpin _ p
  | _ => rfl

/-! ## What has gone -/

/-- The handles of the blocks that are there no longer. -/
def removed (e next : Engine) : Set Handle := {h | e.heap.isLive h ∧ ¬ next.heap.isLive h}

/-- The blocks that are there no longer. -/
def gone (e next : Engine) : Multiset (Handle × Block) :=
  e.heap.stock.filter fun p => ¬ next.heap.isLive p.1

/-- What the blocks held that are there no longer. -/
noncomputable def lost (e next : Engine) : Multiset Reference := e.heap.heldIn (e.removed next)

theorem mem_removed_iff : h ∈ e.removed next ↔
    (∃ b, e.heap.get? h = some b) ∧ next.heap.get? h = none := by
  simp [removed, Heap.isLive, Option.isSome_iff_exists, Option.eq_none_iff_forall_ne_some]

theorem removed_trans (hh : h ∈ e.removed next) :
    h ∈ e.removed mid ∨ h ∈ mid.removed next := by
  by_cases hm : mid.heap.isLive h
  · exact .inr ⟨hm, hh.2⟩
  · exact .inl ⟨hh.1, hm⟩

theorem lost_eq (e next : Engine) :
    e.lost next = (e.gone next).bind fun p => ↑(p.2.payload.held e.heap) := by
  classical
  unfold lost Heap.heldIn gone
  congr 1
  refine Multiset.filter_congr fun p hp => ?_
  have hlive : e.heap.isLive p.1 := Heap.isLive_iff.2 ⟨p.2, Heap.mem_stock.1 hp⟩
  simp [removed, hlive]

/-- Blocks that are left hold what they held. -/
theorem Remnant.held_eq (hr : e.Remnant next) (hc : next.Consistent client)
    (hd : next.heap.get? h = some d) (hb : e.heap.get? h = some b) :
    d.payload.held next.heap = b.payload.held e.heap := by
  obtain ⟨b', hb', hcore, -⟩ := hr.heap.block h d hd
  rw [hb] at hb'
  cases hb'
  rw [← Block.held_of_core hcore]
  refine Payload.held_congr fun k hk => ?_
  obtain ⟨ref, hm, hpin, rfl⟩ := Payload.exists_of_mem_views hk next.heap
  obtain ⟨c, hc, -⟩ := hc.balanced.resolves ref (mem_refs_of_slot hd hm) hpin
  obtain ⟨a, ha, hca, -⟩ := hr.heap.block _ c hc
  have hpay := Block.unpinned_of_core hca
  unfold Heap.programOf? Heap.sentenceOf? Heap.payload?
  rw [hc, ha]
  simp only [Option.map_some, Option.bind_some]
  rw [← c.payload.object?_unpinned, ← c.payload.sentence?_unpinned, hpay,
    a.payload.object?_unpinned, a.payload.sentence?_unpinned]
  exact ⟨rfl, rfl⟩

/-- A sum over all blocks that does not look at counts: the blocks that are left, and the others. -/
theorem Remnant.sum_stock {α : Type} [AddCommMonoid α] (hr : e.Remnant next)
    {f : Handle × Block → α} (hf : ∀ p, f (p.1, p.2.core) = f p) :
    (e.heap.stock.map f).sum = (next.heap.stock.map f).sum + ((e.gone next).map f).sum := by
  have hcore : ∀ stock : Multiset (Handle × Block),
      stock.map f = (stock.map fun p => (p.1, p.2.core)).map f := by
    intro stock
    rw [Multiset.map_map]
    exact Multiset.map_congr rfl fun p _ => (hf p).symm
  have hsplit := Multiset.filter_add_not (fun p => next.heap.isLive p.1) e.heap.stock
  rw [hcore next.heap.stock, hr.heap.stock_core, ← hcore, gone, ← Multiset.sum_add,
    ← Multiset.map_add, hsplit]

/-- What was in the slots still is, or went with its block. -/
theorem Remnant.heldRefs_eq (hr : e.Remnant next) (hc : next.Consistent client) :
    e.heap.heldRefs = next.heap.heldRefs + e.lost next := by
  have hsum := hr.sum_stock (f := fun p => (↑(p.2.payload.held e.heap) : Multiset Reference))
    fun p => congrArg _ (p.2.payload.held_unpinned e.heap)
  have hleft : next.heap.heldRefs =
      (next.heap.stock.map fun p => (↑(p.2.payload.held e.heap) : Multiset Reference)).sum := by
    show (next.heap.stock.map fun p => (↑(p.2.payload.held next.heap) : Multiset Reference)).sum = _
    refine congrArg _ (Multiset.map_congr rfl fun p hp => ?_)
    obtain ⟨b, hb, hcore, -⟩ := hr.heap.block p.1 p.2 (Heap.mem_stock.1 hp)
    rw [hr.held_eq hc (Heap.mem_stock.1 hp) hb, Block.held_of_core hcore]
  rw [lost_eq, hleft]
  exact hsum

/-- What the table finds it found before. -/
theorem Remnant.find? (hr : e.Remnant next) (hc : e.Tallied) (hn : next.Tallied) {text : String}
    (hf : next.strings.find? text = some h) : e.strings.find? text = some h := by
  obtain ⟨d, hd, hpay⟩ := (hn.interned text h).1 hf
  obtain ⟨b, hb, hcore, -⟩ := hr.heap.block h d hd
  refine (hc.interned text h).2 ⟨b, hb, Payload.unpinned_eq_sharedText_iff.1 ?_⟩
  rw [← Block.unpinned_of_core hcore, hpay]
  rfl

/-- The roots hold what they held. -/
theorem Remnant.rootRefs_eq (hr : e.Remnant next) {given left : Multiset Reference}
    (hc : e.Consistent given) (hn : next.Consistent left) : next.rootRefs = e.rootRefs := by
  have hroots : next.roots = e.roots := by rw [hr.rest]
  have hfail : next.defaultFailString? = e.defaultFailString? := by
    unfold defaultFailString?
    rw [hroots]
    cases hd : e.roots.defaultFailMessage with
    | none => rfl
    | some text =>
      obtain ⟨k, hk⟩ := Option.isSome_iff_exists.1 (hn.failing text (by rw [hroots, hd]))
      show next.strings.find? (failText text) = e.strings.find? (failText text)
      rw [hk, hr.find? hc.tallied hn.tallied hk]
  unfold rootRefs rootHeld
  rw [hroots, hfail]

/-- All references before, and all after: what was given back and what went with its block makes
the difference. `keep` is with the client all the time. -/
theorem Remnant.refs_add (hr : e.Remnant next) {given left keep : Multiset Reference}
    (hc : e.Consistent (given + keep)) (hn : next.Consistent (left + keep)) :
    e.refs (given + keep) + left = next.refs (left + keep) + (given + e.lost next) := by
  unfold refs
  rw [hr.rootRefs_eq hc hn, hr.heldRefs_eq hn]
  abel

/-! ## One step -/

/-- Settling a reference leaves a remnant. If a block goes, it is the one behind the reference, and
nothing else named it. -/
theorem remnant_settle {ref : Reference} (hc : e.Consistent (ref ::ₘ client))
    (hpin : ref.hold ≠ .pinned) :
    e.Remnant (e.settle ref.part).1 ∧ ∀ h ∈ e.removed (e.settle ref.part).1,
      h = ref.target ∧ Heap.Unnamed h (e.refs client) := by
  have ht := taken_take hc hpin
  obtain ⟨taken, htaken⟩ : ∃ taken, e.take ref.part = taken := ⟨_, rfl⟩
  rw [htaken] at ht
  cases ht with
  | less hb hcounted hentries hl =>
    rw [settle_of_take_none htaken]
    refine ⟨⟨Heap.remnant_update hb rfl fun hn => absurd hcounted hn, .of_entries hentries, rfl⟩, ?_⟩
    rintro h ⟨hlive, hgone⟩
    exact absurd ((Heap.isLive_update _ _ _ _).trans hlive) hgone
  | @string b rest strings hr hu hentries hl =>
    rw [settle_of_take_none htaken]
    refine ⟨⟨Heap.remnant_remove hr, StringTable.remnant_forget _ hentries, rfl⟩, ?_⟩
    rintro h ⟨hlive, hgone⟩
    obtain rfl : h = ref.target := by
      by_contra hne
      refine hgone ?_
      show (rest.get? h).isSome
      rw [Heap.get?_remove hr, if_neg hne]
      exact hlive
    exact ⟨rfl, hu⟩
  | @block b rest hp =>
    rw [settle_of_take_some htaken]
    have hrest : e.Remnant (e.setHeap rest) :=
      ⟨Heap.remnant_remove hp.removed, .of_entries rfl, rfl⟩
    refine ⟨hrest.trans (remnant_unaccount _ b), ?_⟩
    rintro h ⟨hlive, hgone⟩
    obtain rfl : h = ref.target := by
      by_contra hne
      refine hgone ?_
      rw [isLive_unaccount]
      show (rest.get? h).isSome
      rw [Heap.get?_remove hp.removed, if_neg hne]
      exact hlive
    exact ⟨rfl, hp.unnamed⟩

end Engine

end HeapAudit
