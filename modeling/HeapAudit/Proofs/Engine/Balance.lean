import HeapAudit.Proofs.Audit.Following
import HeapAudit.Proofs.Engine.Slots

/-!
Stored counts against a collection of references: every reference names a live block in the right
way, every count is the number of references, every owned block has one owner.

Main definitions
* `Category.isOwned`: the blocks that one owner holds alone.
* `Heap.Balanced`: the counts of a heap are right for a collection of references.

Main statements
* `Heap.Balanced.allocateSized`, `Heap.Balanced.update`, `Heap.Balanced.remove`: what has to become
  of the collection when the heap changes.
* `Heap.Balanced.gain`, `Heap.Balanced.lose`: one reference more or less, with its block.
-/

namespace HeapAudit

/-- Blocks that carry no count and that one owner holds alone. -/
def Category.isOwned : Category → Bool
  | .sentence | .objectName | .permIdent | .mapTable | .mapNode | .lineNumbers | .interactive
  | .predefine | .plainString | .callOut => true
  | _ => false

theorem Category.isOwned_of_isEntered {c : Category} (hc : c.isEntered) : c.isOwned := by
  cases c <;> first | rfl | cases hc

theorem Category.not_isOwned_of_isCounted {c : Category} (hc : c.isCounted) :
    ¬ c.isOwned := by
  revert hc
  cases c <;> decide

theorem Category.isCounted_of_string {c : Category} (hc : c = .sharedString ∨ c = .mallocString) :
    c.isCounted := by
  rcases hc with rfl | rfl <;> rfl

namespace Reference

/-- Counted blocks are counted, owned blocks are owned, programs are pinned. -/
def Fits (ref : Reference) : Prop :=
  match ref.hold with
  | .counted => ref.expected.isCounted = true
  | .owned => ref.expected.isOwned = true
  | .pinned => ref.expected = .program

end Reference

/-- A block without a payload is counted once more than it is referred to. -/
def Payload.surplus : Payload → Nat
  | .blank => 1
  | _ => 0

theorem Payload.surplus_eq_zero {p : Payload} (hp : p ≠ .blank) : p.surplus = 0 := by
  cases p <;> first | rfl | exact absurd rfl hp

/-- The reference a new block is handed out with: counted, owned, or none. -/
def Category.firstReference (c : Category) (p : Payload) (h : Handle) : Multiset Reference :=
  if c.isCounted then Multiset.replicate (1 - p.surplus) (.counted h c)
  else if c.isOwned then {.owned h c} else 0

theorem Category.of_mem_firstReference {c : Category} {p : Payload} {h : Handle} {ref : Reference}
    (hr : ref ∈ c.firstReference p h) : ref.target = h ∧ ref.expected = c ∧ ref.Fits := by
  unfold firstReference at hr
  split at hr
  · rename_i hc
    cases Multiset.eq_of_mem_replicate hr
    exact ⟨rfl, rfl, hc⟩
  · split at hr
    · rename_i ho
      cases Multiset.mem_singleton.1 hr
      exact ⟨rfl, rfl, ho⟩
    · cases Multiset.notMem_zero _ hr

theorem Category.owned_of_mem_firstReference_blank {c : Category} {h : Handle} {ref : Reference}
    (hr : ref ∈ c.firstReference .blank h) : ref.hold = .owned := by
  unfold firstReference at hr
  split at hr
  · cases hr
  · split at hr
    · rw [Multiset.mem_singleton.1 hr]
      rfl
    · cases hr

theorem Category.hold_of_mem_firstReference {c : Category} {p : Payload} {h : Handle}
    {ref : Reference} (hr : ref ∈ c.firstReference p h) : ref.hold ≠ .pinned := by
  unfold firstReference at hr
  split at hr
  · cases Multiset.eq_of_mem_replicate hr
    simp [Reference.counted]
  · split at hr
    · cases Multiset.mem_singleton.1 hr
      simp [Reference.owned]
    · cases Multiset.notMem_zero _ hr

namespace Heap

structure Balanced (heap : Heap) (refs : Multiset Reference) : Prop where
  resolves : ∀ ref ∈ refs, ref.hold ≠ .pinned → heap.Resolves ref
  fits : ∀ ref ∈ refs, ref.Fits
  counted : ∀ h b, heap.get? h = some b → b.category.isCounted →
    b.refs = refs.count (.counted h b.category) + b.payload.surplus
  owned : ∀ h b, heap.get? h = some b → b.category.isOwned →
    refs.count (.owned h b.category) = 1
  pinned : ∀ h b p, heap.get? h = some b → b.payload = .program p →
    p.pins = refs.count (.pinned h)

variable {heap : Heap} {refs : Multiset Reference} {h : Handle} {b : Block}

/-- Nothing but pins names a block that is gone. -/
theorem Balanced.unnamed (hbal : heap.Balanced refs) (hg : heap.get? h = none) :
    Unnamed h refs := by
  rintro ref hr hp rfl
  obtain ⟨b, hb, -⟩ := hbal.resolves ref hr hp
  rw [hg] at hb
  cases hb

theorem Balanced.nextHandle_unnamed (hbal : heap.Balanced refs) :
    Unnamed heap.nextHandle refs :=
  hbal.unnamed heap.get?_nextHandle

theorem count_eq_zero_of_unnamed (hu : Unnamed h refs) {hold : Hold} (hh : hold ≠ .pinned)
    (c : Category) : refs.count ⟨hold, h, c⟩ = 0 :=
  Multiset.count_eq_zero.2 fun hm => hu _ hm hh rfl

/-- A block is named by no reference when its count is used up. -/
theorem Balanced.unnamed_of_counts (hbal : heap.Balanced refs) {more : Multiset Reference}
    (hb : heap.get? h = some b) (hle : more ≤ refs)
    (hc : more.count (.counted h b.category) = 0)
    (ho : more.count (.owned h b.category) = 0) : Unnamed h more := by
  rintro ⟨hold, target, expected⟩ hr hp rfl
  obtain ⟨d, hd, hcat⟩ := hbal.resolves _ (Multiset.mem_of_le hle hr) hp
  rw [hb] at hd
  cases hd
  cases hcat
  cases hold with
  | counted => exact Multiset.count_eq_zero.1 hc hr
  | owned => exact Multiset.count_eq_zero.1 ho hr
  | pinned => exact hp rfl

/-! ## A new block -/

/-- A new block with its first reference. Only a pin left over from an older block could name a
new program. -/
theorem Balanced.allocateSized (hbal : heap.Balanced refs) (category : Category)
    (payload : Payload) (size : Nat) (description : String)
    (hpins : ∀ p, payload = .program p → p.pins = 0 ∧ refs.count (.pinned heap.nextHandle) = 0) :
    (heap.allocateSized category payload size description).1.Balanced
      (category.firstReference payload heap.nextHandle + refs) := by
  have hu := hbal.nextHandle_unnamed
  have hcount : ∀ k hold c, k ≠ heap.nextHandle →
      (category.firstReference payload heap.nextHandle + refs).count ⟨hold, k, c⟩ =
        refs.count ⟨hold, k, c⟩ := by
    intro k hold c hk
    rw [Multiset.count_add, Multiset.count_eq_zero.2, Nat.zero_add]
    exact fun hm => hk (Category.of_mem_firstReference hm).1
  refine ⟨?_, ?_, ?_, ?_, ?_⟩
  · intro ref hr hp
    unfold Resolves
    rw [get?_allocateSized]
    rcases Multiset.mem_add.1 hr with hf | hr
    · obtain ⟨ht, he, -⟩ := Category.of_mem_firstReference hf
      exact ⟨_, if_pos ht, he.symm⟩
    · rw [if_neg (hu ref hr hp)]
      exact hbal.resolves ref hr hp
  · intro ref hr
    rcases Multiset.mem_add.1 hr with hf | hr
    · exact (Category.of_mem_firstReference hf).2.2
    · exact hbal.fits ref hr
  · intro k c hk hc
    rcases of_get?_allocateSized hk with ⟨rfl, rfl⟩ | ⟨hn, hk⟩
    · have hz : refs.count (.counted heap.nextHandle category) = 0 :=
        count_eq_zero_of_unnamed hu (by simp) category
      have hc : category.isCounted = true := hc
      rw [Multiset.count_add, hz]
      simp only [Category.firstReference, hc, if_true, Multiset.count_replicate_self]
      cases payload <;> rfl
    · rw [hbal.counted k c hk hc]
      exact congrArg (· + _) (hcount k .counted c.category hn).symm
  · intro k c hk ho
    rcases of_get?_allocateSized hk with ⟨rfl, rfl⟩ | ⟨hn, hk⟩
    · have hz : refs.count (.owned heap.nextHandle category) = 0 :=
        count_eq_zero_of_unnamed hu (by simp) category
      have ho : category.isOwned = true := ho
      have hc : ¬ category.isCounted = true :=
        fun hc => Category.not_isOwned_of_isCounted hc ho
      rw [Multiset.count_add, hz]
      simp [Category.firstReference, hc, ho]
    · rw [← hbal.owned k c hk ho]
      exact hcount k .owned c.category hn
  · intro k c p hk hp
    rcases of_get?_allocateSized hk with ⟨rfl, rfl⟩ | ⟨hn, hk⟩
    · obtain ⟨hz, hnone⟩ := hpins p hp
      rw [hz, Multiset.count_add, hnone, Multiset.count_eq_zero.2]
      exact fun hm => Category.hold_of_mem_firstReference hm rfl
    · rw [hbal.pinned k c p hk hp]
      exact (hcount k .pinned .program hn).symm

/-! ## A changed block -/

/-- What a change of one block asks of the collection. -/
theorem Balanced.update (hbal : heap.Balanced refs) (hb : heap.get? h = some b)
    {f : Block → Block} (hcat : (f b).category = b.category) {more : Multiset Reference}
    (hres : ∀ ref ∈ more, ref.hold ≠ .pinned → heap.Resolves ref) (hfits : ∀ ref ∈ more, ref.Fits)
    (hothers : ∀ hold k c, k ≠ h → more.count ⟨hold, k, c⟩ = refs.count ⟨hold, k, c⟩)
    (hcounted : b.category.isCounted →
      (f b).refs = more.count (.counted h b.category) + (f b).payload.surplus)
    (howned : b.category.isOwned → more.count (.owned h b.category) = 1)
    (hpinned : ∀ p, (f b).payload = .program p → p.pins = more.count (.pinned h)) :
    (heap.update h f).Balanced more := by
  refine ⟨?_, hfits, ?_, ?_, ?_⟩
  · intro ref hr hp
    obtain ⟨d, hd, hc⟩ := hres ref hr hp
    unfold Resolves
    rw [get?_update]
    by_cases hk : ref.target = h
    · rw [hk, hb] at hd
      cases hd
      exact ⟨f b, by rw [if_pos hk, hb]; rfl, hcat.trans hc⟩
    · exact ⟨d, by rw [if_neg hk]; exact hd, hc⟩
  · intro k c hk hc
    rcases of_get?_update hb hk with ⟨rfl, rfl⟩ | ⟨hkh, hk⟩
    · rw [hcat] at hc ⊢
      exact hcounted hc
    · rw [hbal.counted k c hk hc]
      exact congrArg (· + _) (hothers .counted k c.category hkh).symm
  · intro k c hk ho
    rcases of_get?_update hb hk with ⟨rfl, rfl⟩ | ⟨hkh, hk⟩
    · rw [hcat] at ho ⊢
      exact howned ho
    · rw [← hbal.owned k c hk ho]
      exact hothers .owned k c.category hkh
  · intro k c p hk hp
    rcases of_get?_update hb hk with ⟨rfl, rfl⟩ | ⟨hkh, hk⟩
    · exact hpinned p hp
    · rw [hbal.pinned k c p hk hp]
      exact (hothers .pinned k .program hkh).symm

/-- A change of one block that takes a reference to it in. -/
theorem Balanced.gain (hbal : heap.Balanced refs) (hb : heap.get? h = some b)
    {f : Block → Block} (hcat : (f b).category = b.category) {ref : Reference}
    (ht : ref.target = h) (hexpected : ref.hold ≠ .pinned → b.category = ref.expected)
    (hfits : ref.Fits)
    (hcounted : b.category.isCounted →
      (f b).refs = (ref ::ₘ refs).count (.counted h b.category) + (f b).payload.surplus)
    (howned : b.category.isOwned → (ref ::ₘ refs).count (.owned h b.category) = 1)
    (hpinned : ∀ p, (f b).payload = .program p → p.pins = (ref ::ₘ refs).count (.pinned h)) :
    (heap.update h f).Balanced (ref ::ₘ refs) := by
  refine hbal.update hb hcat ?_ ?_ ?_ hcounted howned hpinned
  · intro other hr hp
    rcases Multiset.mem_cons.1 hr with rfl | hr
    · exact ⟨b, ht ▸ hb, hexpected hp⟩
    · exact hbal.resolves other hr hp
  · intro other hr
    rcases Multiset.mem_cons.1 hr with rfl | hr
    · exact hfits
    · exact hbal.fits other hr
  · intro hold k c hk
    exact Multiset.count_cons_of_ne (by rintro rfl; exact hk ht) _

/-- A change of one block that gives a reference to it back. -/
theorem Balanced.lose {ref : Reference} (hbal : heap.Balanced (ref ::ₘ refs))
    (hb : heap.get? h = some b) {f : Block → Block} (hcat : (f b).category = b.category)
    (ht : ref.target = h)
    (hcounted : b.category.isCounted →
      (f b).refs = refs.count (.counted h b.category) + (f b).payload.surplus)
    (howned : b.category.isOwned → refs.count (.owned h b.category) = 1)
    (hpinned : ∀ p, (f b).payload = .program p → p.pins = refs.count (.pinned h)) :
    (heap.update h f).Balanced refs := by
  refine hbal.update hb hcat ?_ ?_ ?_ hcounted howned hpinned
  · exact fun other hr => hbal.resolves other (Multiset.mem_cons_of_mem hr)
  · exact fun other hr => hbal.fits other (Multiset.mem_cons_of_mem hr)
  · intro hold k c hk
    exact (Multiset.count_cons_of_ne (by rintro rfl; exact hk ht) _).symm

/-- A change that leaves category, count and pins alone. -/
theorem Balanced.update_of_same (hbal : heap.Balanced refs) (hb : heap.get? h = some b)
    {f : Block → Block} (hcat : (f b).category = b.category) (hrefs : (f b).refs = b.refs)
    (hsur : (f b).payload.surplus = b.payload.surplus)
    (hpins : ∀ p, (f b).payload = .program p → ∃ q, b.payload = .program q ∧ p.pins = q.pins) :
    (heap.update h f).Balanced refs := by
  refine hbal.update hb hcat hbal.resolves hbal.fits (fun _ _ _ _ => rfl) ?_ ?_ ?_
  · intro hc
    rw [hrefs, hsur, hbal.counted h b hb hc]
  · exact hbal.owned h b hb
  · intro p hp
    obtain ⟨q, hq, hpq⟩ := hpins p hp
    rw [hpq, hbal.pinned h b q hb hq]

/-- One reference more. -/
theorem Balanced.incRef (hbal : heap.Balanced refs) (hb : heap.get? h = some b)
    (hc : b.category.isCounted) :
    (heap.incRef h).Balanced (.counted h b.category ::ₘ refs) := by
  refine hbal.gain hb rfl rfl (fun _ => rfl) hc ?_ ?_ ?_
  · intro _
    rw [Multiset.count_cons_self, Nat.add_right_comm, ← hbal.counted h b hb hc]
  · intro ho
    exact absurd ho (Category.not_isOwned_of_isCounted hc)
  · intro p hp
    rw [hbal.pinned h b p hb hp, Multiset.count_cons_of_ne (by rintro h; cases h)]

/-- How often a block that is not counted is held makes no difference. -/
theorem Balanced.recount_of_uncounted (hbal : heap.Balanced refs) (hb : heap.get? h = some b)
    (hc : ¬ b.category.isCounted) (count : Nat → Nat) :
    (heap.update h fun b => { b with refs := count b.refs }).Balanced refs := by
  refine hbal.update hb rfl hbal.resolves hbal.fits (fun _ _ _ _ => rfl) ?_ ?_ ?_
  · exact fun h => absurd h hc
  · exact hbal.owned h b hb
  · exact fun p hp => hbal.pinned h b p hb hp

/-- One reference less, and not the last one. -/
theorem Balanced.decRef (hbal : heap.Balanced (.counted h b.category ::ₘ refs))
    (hb : heap.get? h = some b) :
    (heap.update h fun b => { b with refs := b.refs - 1 }).Balanced refs := by
  have hc : b.category.isCounted := hbal.fits _ (Multiset.mem_cons_self _ _)
  refine hbal.lose hb rfl rfl ?_ ?_ ?_
  · intro _
    have hrefs := hbal.counted h b hb hc
    rw [Multiset.count_cons_self] at hrefs
    simp only
    omega
  · intro ho
    exact absurd ho (Category.not_isOwned_of_isCounted hc)
  · intro p hp
    rw [hbal.pinned h b p hb hp, Multiset.count_cons_of_ne (by rintro h; cases h)]

/-! ## A block less -/

/-- A block that nothing but its last holder named goes with that reference. -/
theorem Balanced.remove {rest : Heap} {last : Reference} (hbal : heap.Balanced (last ::ₘ refs))
    (hr : heap.remove h = some (b, rest)) (hl : last.target = h) (hu : Unnamed h refs) :
    rest.Balanced refs := by
  have hcount : ∀ k hold c, k ≠ h → (last ::ₘ refs).count ⟨hold, k, c⟩ =
      refs.count ⟨hold, k, c⟩ := by
    intro k hold c hk
    exact Multiset.count_cons_of_ne (by rintro rfl; exact hk hl) _
  refine ⟨?_, ?_, ?_, ?_, ?_⟩
  · intro ref hm hp
    obtain ⟨c, hc, hcat⟩ := hbal.resolves ref (Multiset.mem_cons_of_mem hm) hp
    exact ⟨c, by rw [get?_remove hr, if_neg (hu ref hm hp)]; exact hc, hcat⟩
  · exact fun ref hm => hbal.fits ref (Multiset.mem_cons_of_mem hm)
  · intro k c hk hc
    obtain ⟨hne, hk⟩ := of_get?_remove hr hk
    rw [hbal.counted k c hk hc]
    exact congrArg (· + _) (hcount k .counted c.category hne)
  · intro k c hk ho
    obtain ⟨hne, hk⟩ := of_get?_remove hr hk
    rw [← hbal.owned k c hk ho]
    exact (hcount k .owned c.category hne).symm
  · intro k c p hk hp
    obtain ⟨hne, hk⟩ := of_get?_remove hr hk
    rw [hbal.pinned k c p hk hp]
    exact hcount k .pinned .program hne

/-- The block behind its last counted reference is named by nothing else. -/
theorem Balanced.unnamed_of_last (hbal : heap.Balanced (.counted h b.category ::ₘ refs))
    (hb : heap.get? h = some b) (hl : ¬ 1 < b.refs) : Unnamed h refs := by
  have hc : b.category.isCounted := hbal.fits _ (Multiset.mem_cons_self _ _)
  have hrefs := hbal.counted h b hb hc
  rw [Multiset.count_cons_self] at hrefs
  refine hbal.unnamed_of_counts hb (Multiset.le_cons_self _ _) (by omega) ?_
  refine Multiset.count_eq_zero.2 fun hm => ?_
  exact Category.not_isOwned_of_isCounted hc (hbal.fits _ (Multiset.mem_cons_of_mem hm))

/-- The block behind an owning reference is named by nothing else. -/
theorem Balanced.unnamed_of_owned (hbal : heap.Balanced (.owned h b.category ::ₘ refs))
    (hb : heap.get? h = some b) : Unnamed h refs := by
  have ho : b.category.isOwned := hbal.fits _ (Multiset.mem_cons_self _ _)
  have hone := hbal.owned h b hb ho
  rw [Multiset.count_cons_self] at hone
  refine hbal.unnamed_of_counts hb (Multiset.le_cons_self _ _) ?_ (by omega)
  refine Multiset.count_eq_zero.2 fun hm => ?_
  exact Category.not_isOwned_of_isCounted (hbal.fits _ (Multiset.mem_cons_of_mem hm)) ho

/-! ## Pins -/

/-- A program that notes one closure more. -/
theorem Balanced.pin (hbal : heap.Balanced refs) {p : Program} (hb : heap.get? h = some b)
    (hp : b.payload = .program p) :
    (heap.setPayload h (.program { p with pins := p.pins + 1 })).Balanced
      (.pinned h ::ₘ refs) := by
  refine hbal.gain hb rfl rfl (fun hpin => absurd rfl hpin) rfl ?_ ?_ ?_
  · intro hc
    rw [hbal.counted h b hb hc, Multiset.count_cons_of_ne (by rintro h; cases h), hp]
    rfl
  · intro ho
    rw [Multiset.count_cons_of_ne (by rintro h; cases h)]
    exact hbal.owned h b hb ho
  · intro q hq
    cases hq
    rw [Multiset.count_cons_self, ← hbal.pinned h b p hb hp]

/-- A program that notes one closure less. -/
theorem Balanced.unpin (hbal : heap.Balanced (.pinned h ::ₘ refs)) {p : Program}
    (hb : heap.get? h = some b) (hp : b.payload = .program p) :
    (heap.setPayload h (.program { p with pins := p.pins - 1 })).Balanced refs := by
  refine hbal.lose hb rfl rfl ?_ ?_ ?_
  · intro hc
    rw [hbal.counted h b hb hc, Multiset.count_cons_of_ne (by rintro h; cases h), hp]
    rfl
  · intro ho
    rw [← hbal.owned h b hb ho, Multiset.count_cons_of_ne (by rintro h; cases h)]
  · intro q hq
    cases hq
    have hpins := hbal.pinned h b p hb hp
    rw [Multiset.count_cons_self] at hpins
    simp only
    omega

/-- A pin of something that is no program can be forgotten. -/
theorem Balanced.forget_pin (hbal : heap.Balanced (.pinned h ::ₘ refs))
    (hn : ∀ b p, heap.get? h = some b → b.payload ≠ .program p) : heap.Balanced refs := by
  refine ⟨?_, ?_, ?_, ?_, ?_⟩
  · exact fun ref hr => hbal.resolves ref (Multiset.mem_cons_of_mem hr)
  · exact fun ref hr => hbal.fits ref (Multiset.mem_cons_of_mem hr)
  · intro k c hk hc
    rw [hbal.counted k c hk hc, Multiset.count_cons_of_ne (by rintro h; cases h)]
  · intro k c hk ho
    rw [← hbal.owned k c hk ho, Multiset.count_cons_of_ne (by rintro h; cases h)]
  · intro k c p hk hp
    rw [hbal.pinned k c p hk hp]
    refine Multiset.count_cons_of_ne ?_ _
    rintro h
    cases h
    exact hn c p hk hp

end Heap

end HeapAudit
