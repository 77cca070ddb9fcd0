import HeapAudit.Proofs.Audit.CleanReport
import HeapAudit.Proofs.Audit.Overwriting
import Mathlib.Algebra.Order.BigOperators.Group.Finset

/-!
Blocks with several owners. A pass goes through the content of a table, a node, a sentence, a
session or a timer once for every owner that lists it, so what such a block holds is counted as
often. Stored counts that are the numbers of slots are then found wrong, unless what is gone
through more than once holds no counted reference that is still good.

Main definitions
* `Engine.entrances`: how often a pass goes through what a block of a category holds.
* `Engine.SlotCounted`: every stored count is the number of slots, and every owned block is reached.

Main statements
* `Engine.SlotCounted.count_eq_iff`: when a pass counts a reference once for every slot.
* `Engine.no_countMismatch_iff`: when sharing stays without a wrong count.
* `Engine.countMismatch_sharedArray`: two mappings with one table.
-/

namespace HeapAudit

open Reference

/-! ## Sums over lists with repetitions -/

/-- With everything that counts at least once in `m`, the sum over `m` is the sum over the set `s`
only if everything that counts is in `m` once. -/
theorem sum_map_eq_iff_count {α : Type} [DecidableEq α] {s m : Multiset α} (hs : s.Nodup)
    {x : α → Nat} (hout : ∀ k, x k ≠ 0 → k ∈ s) (hin : ∀ k, x k ≠ 0 → k ∈ m) :
    (s.map x).sum ≤ (m.map x).sum ∧
      ((s.map x).sum = (m.map x).sum ↔ ∀ k, x k ≠ 0 → m.count k = 1) := by
  have hover : ∀ t : Multiset α, t ≤ s + m →
      (t.map x).sum = ∑ k ∈ (s + m).toFinset, t.count k * x k := by
    intro t ht
    rw [Finset.sum_multiset_map_count]
    refine Finset.sum_subset (Multiset.toFinset_subset.2 (Multiset.subset_of_le ht)) ?_
    intro k _ hk
    rw [Multiset.mem_toFinset] at hk
    simp [Multiset.count_eq_zero_of_notMem hk]
  have hle : ∀ k ∈ (s + m).toFinset, s.count k * x k ≤ m.count k * x k := by
    intro k _
    by_cases hx : x k = 0
    · simp [hx]
    · have hone := Multiset.count_eq_one_of_mem hs (hout k hx)
      have hpos := Multiset.count_pos.2 (hin k hx)
      exact Nat.mul_le_mul_right _ (by omega)
  rw [hover s (Multiset.le_add_right s m), hover m (Multiset.le_add_left m s)]
  refine ⟨Finset.sum_le_sum hle, ?_⟩
  rw [Finset.sum_eq_sum_iff_of_le hle]
  constructor
  · intro heq k hx
    have hk : k ∈ (s + m).toFinset :=
      Multiset.mem_toFinset.2 (Multiset.mem_add.2 (.inl (hout k hx)))
    have hone := Multiset.count_eq_one_of_mem hs (hout k hx)
    have hmul := heq k hk
    rw [hone] at hmul
    exact (Nat.mul_right_cancel (Nat.pos_of_ne_zero hx) hmul).symm
  · intro hcount k _
    by_cases hx : x k = 0
    · simp [hx]
    · rw [Multiset.count_eq_one_of_mem hs (hout k hx), hcount k hx]

/-- Sums of terms none of which is above its counterpart are the same only term by term. -/
theorem sum_map_eq_iff_of_le {ι : Type} {l : List ι} {f g : ι → Nat} (h : ∀ i ∈ l, f i ≤ g i) :
    (l.map f).sum ≤ (l.map g).sum ∧
      ((l.map f).sum = (l.map g).sum ↔ ∀ i ∈ l, f i = g i) := by
  induction l with
  | nil => simp
  | cons i l ih =>
    obtain ⟨hle, hiff⟩ := ih fun j hj => h j (List.mem_cons_of_mem i hj)
    have hi := h i List.mem_cons_self
    simp only [List.map_cons, List.sum_cons, List.forall_mem_cons, ← hiff]
    omega

/-! ## Content that is gone through with its owner -/

/-- The slots of a payload that belongs to a category which is entered through an owner. -/
def Payload.heldAs (heap : Heap) : Category → Payload → List Reference
  | .mapTable, p => p.ofTable
  | .mapNode, p => p.ofNode
  | .sentence, p => p.ofSentence
  | .interactive, p => p.ofSession heap
  | .callOut, p => p.ofCallOut
  | _, _ => []

theorem Payload.heldAs_of_ne {heap : Heap} {c d : Category} {p : Payload} (hp : d.carries p)
    (hd : d ≠ c) : p.heldAs heap c = [] := by
  cases c with
  | mapTable => exact ofTable_of_ne hp hd
  | mapNode => exact ofNode_of_ne hp hd
  | sentence => exact ofSentence_of_ne hp hd
  | interactive => exact ofSession_of_ne hp hd
  | callOut => exact ofCallOut_of_ne hp hd
  | _ => rfl

theorem Payload.heldAs_eq_held {heap : Heap} {c : Category} {p : Payload} (hc : c.isEntered)
    (hp : c.carries p) : p.heldAs heap c = p.held heap := by
  cases c with
  | mapTable | mapNode | sentence | interactive | callOut => cases p <;> first | rfl | cases hp
  | _ => cases hc

section Expected

variable {heap : Heap} {ref : Reference}

theorem isCounted_of_mem_ofValues {values : List Value} (hr : ref ∈ ofValues values) :
    ref.expected.isCounted := by
  obtain ⟨v, -, hv⟩ := List.mem_filterMap.1 hr
  cases v with
  | ref kind target =>
    cases hv
    exact kind.category_counted
  | _ => cases hv

theorem isCounted_ofCallee (callee : Callee) : (ofCallee callee).expected.isCounted := by
  cases callee <;> rfl

/-- The sentence of a redirect is owned; the owner of that sentence and what is carried are
counted. -/
theorem Redirect.isCounted_of_mem_held {r : Redirect} (hr : ref ∈ r.held heap)
    (hhold : ref.hold = .counted) : ref.expected.isCounted := by
  simp only [Redirect.held, List.mem_append, List.mem_cons, List.mem_map] at hr
  rcases hr with (rfl | ⟨s, -, rfl⟩) | hr
  · cases hhold
  · rfl
  · exact isCounted_of_mem_ofValues hr

theorem Payload.isCounted_of_mem_ofSession {p : Payload} (hr : ref ∈ p.ofSession heap)
    (hhold : ref.hold = .counted) : ref.expected.isCounted := by
  cases p with
  | session s =>
    simp only [ofSession, Session.held, List.map_cons, List.map_append, map_snd_underRoot,
      List.mem_cons, List.mem_append, List.mem_map] at hr
    rcases hr with (rfl | hr) | ⟨m, -, rfl⟩
    · rfl
    · cases hredirect : s.redirect with
      | none => simp [hredirect] at hr
      | some r =>
        rw [hredirect] at hr
        exact r.isCounted_of_mem_held hr hhold
    · exact isCounted_ofCallee m
  | _ => cases hr

/-- Counted references in such a payload ask for counted categories. -/
theorem Payload.isCounted_of_mem_heldAs {c : Category} {p : Payload}
    (hr : ref ∈ p.heldAs heap c) (hhold : ref.hold = .counted) : ref.expected.isCounted := by
  cases c with
  | mapTable =>
    cases p with
    | mapTable nodes =>
      obtain ⟨k, -, rfl⟩ := List.mem_map.1 hr
      cases hhold
    | _ => cases hr
  | mapNode =>
    cases p with
    | mapNode key value => exact isCounted_of_mem_ofValues hr
    | _ => cases hr
  | sentence =>
    cases p with
    | sentence s =>
      rcases List.mem_append.1 hr with hr | hr
      · obtain ⟨k, -, rfl⟩ := List.mem_map.1 hr
        rfl
      · rw [List.mem_singleton.1 hr]
        exact isCounted_ofCallee _
    | _ => cases hr
  | interactive => exact isCounted_of_mem_ofSession hr hhold
  | callOut =>
    cases p with
    | callOut t =>
      rcases List.mem_append.1 hr with hr | hr
      · rcases List.mem_cons.1 hr with rfl | hr
        · exact isCounted_ofCallee _
        · obtain ⟨k, -, rfl⟩ := List.mem_map.1 hr
          rfl
      · exact isCounted_of_mem_ofValues hr
    | _ => cases hr
  | _ => cases hr

end Expected

namespace Engine

/-- The blocks of a category, each as often as a pass goes through what it holds. Sentences on the
free list are marked there but not looked into. -/
def entrances (e : Engine) : Category → Multiset Handle
  | .sentence => e.sentences
  | c => e.listedAs c

/-- The slots outside the blocks that are entered through an owner. -/
def heldOutside (e : Engine) : Multiset Reference :=
  (e.rootHeld.map (·.2) : Multiset Reference) + e.heap.gathered (Payload.direct e.heap)

/-- The categories that are entered through an owner. -/
def entered : List Category := [.mapTable, .mapNode, .sentence, .interactive, .callOut]

theorem mem_entered_iff {c : Category} : c ∈ entered ↔ c.isEntered := by
  cases c <;> decide

/-- What a pass counts, category by category. -/
theorem count_enumerated_eq (e : Engine) (hp : e.providers = []) (ref : Reference) :
    (e.enumerated.map (·.2)).count ref = e.heldOutside.count ref +
      (entered.map fun c =>
        ((e.entrances c).map fun k =>
          (e.heap.shown (Payload.heldAs e.heap c) k).count ref).sum).sum := by
  have hnone : e.provided = [] := by rw [provided, hp]; rfl
  rw [← Multiset.coe_count, coe_enumerated, hnone, heldOutside]
  simp only [Multiset.count_add, Multiset.count_bind, entered, List.map_cons, List.map_nil,
    List.sum_cons, List.sum_nil, Multiset.coe_nil, Multiset.count_zero, Nat.add_zero, Nat.add_assoc]
  rfl

/-- What is in the slots, category by category. -/
theorem count_held_eq (e : Engine) (hw : e.heap.WellFormed) (ref : Reference) :
    e.held.count ref = e.heldOutside.count ref +
      (entered.map fun c =>
        ((e.heap.handlesOf c).map fun k =>
          (e.heap.shown (Payload.heldAs e.heap c) k).count ref).sum).sum := by
  have hshape : Payload.held e.heap = fun p =>
      p.direct e.heap ++ p.ofTable ++ p.ofNode ++ p.ofSentence ++ p.ofSession e.heap
        ++ p.ofCallOut :=
    funext fun p => p.held_eq e.heap
  have hgathered : ∀ c, e.heap.gathered (Payload.heldAs e.heap c) =
      (e.heap.handlesOf c).bind (e.heap.shown (Payload.heldAs e.heap c)) := fun c =>
    (Heap.bind_handlesOf hw fun _ _ => Payload.heldAs_of_ne).symm
  have hheld : (e.held : Multiset Reference) = e.heldOutside +
      e.heap.gathered (Payload.heldAs e.heap .mapTable) +
      e.heap.gathered (Payload.heldAs e.heap .mapNode) +
      e.heap.gathered (Payload.heldAs e.heap .sentence) +
      e.heap.gathered (Payload.heldAs e.heap .interactive) +
      e.heap.gathered (Payload.heldAs e.heap .callOut) := by
    rw [coe_held, hshape, heldOutside]
    simp only [Heap.gathered_append, ← add_assoc]
    rfl
  rw [← Multiset.coe_count, hheld]
  simp only [Multiset.count_add, hgathered, Multiset.count_bind, entered, List.map_cons,
    List.map_nil, List.sum_cons, List.sum_nil, Nat.add_zero, Nat.add_assoc]

/-! ## Stored counts that are the numbers of slots -/

/-- A counted reference in the slots of a payload that is still good. -/
def HoldsLive (e : Engine) (p : Payload) : Prop :=
  ∃ ref ∈ p.held e.heap, ref.hold = .counted ∧ e.heap.isLive ref.target

/-- Every block has the payload of its category, and what its slots name is what they say; no block
is exempt and no provider is registered. Every block that is entered through an owner is reached,
and every stored count is the number of slots that hold the block. -/
structure SlotCounted (e : Engine) : Prop where
  wellFormed : e.heap.WellFormed
  typed : ∀ ref ∈ e.held, ref.hold = .counted →
    ∀ b, e.heap.get? ref.target = some b → b.category = ref.expected
  checked : ∀ h b, e.heap.get? h = some b → b.exempt = false
  unprovided : e.providers = []
  reached : ∀ h b, e.heap.get? h = some b → b.category.isEntered → h ∈ e.listedAs b.category
  refs : ∀ h b, e.heap.get? h = some b → b.category.isCounted → b.refs = e.slotCount h

/-- Sentences that are on the free list only hold nothing that is still good. -/
def IdleFree (e : Engine) : Prop :=
  ∀ h b, e.heap.get? h = some b → b.category = .sentence → h ∉ e.sentences →
    ¬ e.HoldsLive b.payload

variable {e : Engine}

theorem SlotCounted.slotCount_eq (hs : e.SlotCounted) {h : Handle} {b : Block}
    (hb : e.heap.get? h = some b) : e.slotCount h = e.held.count (.counted h b.category) := by
  unfold slotCount List.count
  refine List.countP_congr fun ref hm => ?_
  obtain ⟨hold, target, expected⟩ := ref
  simp only [decide_eq_true_eq, beq_iff_eq, Reference.counted, Reference.mk.injEq]
  constructor
  · rintro ⟨rfl, rfl⟩
    exact ⟨rfl, rfl, (hs.typed _ hm rfl b hb).symm⟩
  · rintro ⟨rfl, rfl, -⟩
    exact ⟨rfl, rfl⟩

/-- Where the slots of category `c` behind `k` hold the reference, `k` is a live block of it. -/
theorem SlotCounted.get?_of_count_shown (hs : e.SlotCounted) {c : Category} {k : Handle}
    {ref : Reference} (hx : (e.heap.shown (Payload.heldAs e.heap c) k).count ref ≠ 0) :
    ∃ b, e.heap.get? k = some b ∧ b.category = c ∧ ref ∈ b.payload.heldAs e.heap c := by
  have hmem := Multiset.count_ne_zero.1 hx
  unfold Heap.shown Heap.payload? at hmem
  cases hb : e.heap.get? k with
  | none => simp [hb] at hmem
  | some b =>
    rw [hb] at hmem
    have hmem : ref ∈ b.payload.heldAs e.heap c := Multiset.mem_coe.1 hmem
    refine ⟨b, rfl, ?_, hmem⟩
    by_contra hne
    rw [Payload.heldAs_of_ne (hs.wellFormed k b hb) hne] at hmem
    cases hmem

theorem count_shown_ne_zero {k : Handle} {b : Block} {c : Category} {ref : Reference}
    (hb : e.heap.get? k = some b) (hr : ref ∈ b.payload.heldAs e.heap c) :
    (e.heap.shown (Payload.heldAs e.heap c) k).count ref ≠ 0 := by
  rw [Multiset.count_ne_zero, Heap.shown, Heap.payload?, hb]
  exact Multiset.mem_coe.2 hr

/-- What holds a good reference is gone through. -/
theorem SlotCounted.mem_entrances (hs : e.SlotCounted) (hf : e.IdleFree) {k : Handle} {b : Block}
    (hb : e.heap.get? k = some b) (hentered : b.category.isEntered)
    (hholds : e.HoldsLive b.payload) : k ∈ e.entrances b.category := by
  have hreached := hs.reached k b hb hentered
  by_cases hsentence : b.category = .sentence
  · by_contra hout
    rw [hsentence] at hout
    exact hf k b hb hsentence hout hholds
  · unfold entrances
    split
    · exact absurd ‹_› hsentence
    · exact hreached

theorem mem_held_of_get? {h : Handle} {b : Block} (hb : e.heap.get? h = some b) {ref : Reference}
    (hr : ref ∈ b.payload.held e.heap) : ref ∈ e.held :=
  List.mem_append_left _ (List.mem_flatMap.2 ⟨(h, b), Heap.mem_entries_iff.2 hb, hr⟩)

/-- A pass counts a good reference once for every slot, just when nothing that holds it is gone
through more than once. -/
theorem SlotCounted.count_eq_iff (hs : e.SlotCounted) (hf : e.IdleFree) {ref : Reference}
    (hhold : ref.hold = .counted) (hlive : e.heap.isLive ref.target) :
    e.held.count ref = (e.enumerated.map (·.2)).count ref ↔
      ∀ k b, e.heap.get? k = some b → b.category.isEntered → ref ∈ b.payload.held e.heap →
        (e.entrances b.category).count k = 1 := by
  -- By category; no term of the one sum is above the term of the other.
  have hpart : ∀ c ∈ entered, _ := fun c hc =>
    sum_map_eq_iff_count (m := e.entrances c) (e.heap.nodup_handlesOf c)
      (x := fun k => (e.heap.shown (Payload.heldAs e.heap c) k).count ref)
      (fun k hx => by
        obtain ⟨b, hb, hcat, -⟩ := hs.get?_of_count_shown hx
        exact Heap.mem_handlesOf.2 ⟨b, hb, hcat⟩)
      (fun k hx => by
        obtain ⟨b, hb, rfl, hr⟩ := hs.get?_of_count_shown hx
        have hentered := mem_entered_iff.1 hc
        rw [Payload.heldAs_eq_held hentered (hs.wellFormed k b hb)] at hr
        exact hs.mem_entrances hf hb hentered ⟨ref, hr, hhold, hlive⟩)
  rw [e.count_held_eq hs.wellFormed, e.count_enumerated_eq hs.unprovided, Nat.add_left_cancel_iff,
    (sum_map_eq_iff_of_le fun c hc => (hpart c hc).1).2]
  constructor
  · intro heq k b hb hentered hr
    have hc := mem_entered_iff.2 hentered
    rw [← Payload.heldAs_eq_held hentered (hs.wellFormed k b hb)] at hr
    exact (hpart _ hc).2.1 (heq _ hc) k (count_shown_ne_zero hb hr)
  · intro hcount c hc
    refine (hpart c hc).2.2 fun k hx => ?_
    obtain ⟨b, hb, rfl, hr⟩ := hs.get?_of_count_shown hx
    have hentered := mem_entered_iff.1 hc
    rw [Payload.heldAs_eq_held hentered (hs.wellFormed k b hb)] at hr
    exact hcount k b hb hentered hr

/-! ## Wrong counts -/

end Engine

/-- The finding says that a stored count is wrong. -/
def Finding.isCountLine : Finding → Bool
  | .countMismatch .. => true
  | _ => false

theorem Finding.readsCounts_of_isCountLine {f : Finding} (hf : f.isCountLine) : f.readsCounts := by
  cases f <;> first | rfl | cases hf

namespace Engine

variable {e : Engine}

/-- The lines on counts are those of the blocks. -/
theorem mem_findings_iff_of_isCountLine {f : Finding} (hf : f.isCountLine) (verbose : Bool) :
    f ∈ (e.reportOf ⟨verbose, false⟩).findings ↔
      ∃ h b, e.heap.get? h = some b ∧ f ∈ e.countLine h b b.refs := by
  have hreport := e.findings_reportOf_overwrite [] verbose
  have hreads := Finding.readsCounts_of_isCountLine hf
  have hquiet : ∀ g, g.readsCounts = false → f ≠ g := by
    rintro g hg rfl
    rw [hreads] at hg
    cases hg
  change (e.reportOf ⟨verbose, false⟩).findings = _ at hreport
  rw [hreport, findingsAt]
  simp only [List.mem_append, List.mem_flatMap, Prod.exists, Heap.mem_entries_iff]
  constructor
  · rintro (((hearly | hstrings) | hwalk) | ⟨h, b, hb, hline | hother⟩)
    · exact absurd rfl (hquiet f (not_readsCounts_of_mem verbose
        (List.mem_append_left _ (List.mem_append.2 hearly))))
    · obtain ⟨⟨gauge, stored, actual⟩, -, h⟩ := List.mem_filterMap.1 hstrings
      dsimp only at h
      split at h <;> cases h
      cases hf
    · exact absurd rfl (hquiet f (not_readsCounts_of_mem verbose
        (List.mem_append_right _ hwalk)))
    · exact ⟨h, b, hb, hline⟩
    · exact absurd rfl (hquiet f (not_readsCounts_of_mem_countFree hother))
  · rintro ⟨h, b, hb, hline⟩
    exact .inr ⟨h, b, hb, .inl hline⟩

/-- No count is found wrong just when every stored count is the one the pass finds. -/
theorem no_countLine_iff_refs (hchecked : ∀ h b, e.heap.get? h = some b → b.exempt = false)
    (verbose : Bool) :
    (∀ f ∈ (e.reportOf ⟨verbose, false⟩).findings, ¬ f.isCountLine) ↔
      ∀ h b, e.heap.get? h = some b → b.category.isCounted → b.refs = e.recount h := by
  constructor
  · intro hnone h b hb hcounted
    by_contra hne
    have hline : Finding.countMismatch b.category (describe e.heap b) b.refs (e.recount h)
        (shownContents e.heap e.settings.renderDepth b) ∈ e.countLine h b b.refs := by
      have hexempt : ¬ b.exempt := by simp [hchecked h b hb]
      rw [countLine, if_pos ⟨hcounted, hexempt⟩, if_neg hne]
      exact List.mem_singleton_self _
    exact hnone _ ((mem_findings_iff_of_isCountLine rfl verbose).2 ⟨h, b, hb, hline⟩) rfl
  · intro hrefs f hmem hf
    obtain ⟨h, b, hb, hline⟩ := (mem_findings_iff_of_isCountLine hf verbose).1 hmem
    unfold countLine at hline
    split at hline
    · rename_i hchecked
      rw [if_pos (hrefs h b hb hchecked.1)] at hline
      cases hline
    · cases hline

/-- Stored counts that are the numbers of slots are found right if and only if nothing that is gone
through more than once holds a counted reference that is still good. -/
theorem no_countMismatch_iff (hs : e.SlotCounted) (hf : e.IdleFree) (verbose : Bool) :
    (∀ f ∈ (e.reportOf ⟨verbose, false⟩).findings, ¬ f.isCountLine) ↔
      ∀ k b, e.heap.get? k = some b → b.category.isEntered →
        1 < (e.entrances b.category).count k → ¬ e.HoldsLive b.payload := by
  have hcount : ∀ h d, e.heap.get? h = some d → d.category.isCounted →
      (d.refs = e.recount h ↔ ∀ k b, e.heap.get? k = some b → b.category.isEntered →
        .counted h d.category ∈ b.payload.held e.heap → (e.entrances b.category).count k = 1) := by
    intro h d hd hcounted
    have hrecount : e.recount h = (e.enumerated.map (·.2)).count (.counted h d.category) := by
      rw [recount_eq hd]
      exact e.followed_perm.count_eq _
    rw [hs.refs h d hd hcounted, hs.slotCount_eq hd, hrecount]
    exact hs.count_eq_iff hf rfl (Heap.isLive_iff.2 ⟨d, hd⟩)
  rw [no_countLine_iff_refs hs.checked]
  constructor
  · rintro hrefs k b hb hentered hmore ⟨⟨hold, h, c⟩, hr, hhold, hlive⟩
    obtain rfl : hold = .counted := hhold
    obtain ⟨d, hd⟩ := Heap.isLive_iff.1 hlive
    obtain rfl : d.category = c := hs.typed _ (mem_held_of_get? hb hr) rfl d hd
    have hcounted : d.category.isCounted := by
      rw [← Payload.heldAs_eq_held hentered (hs.wellFormed k b hb)] at hr
      exact Payload.isCounted_of_mem_heldAs hr rfl
    have hone := (hcount h d hd hcounted).1 (hrefs h d hd hcounted) k b hb hentered hr
    omega
  · intro hholds h d hd hcounted
    refine (hcount h d hd hcounted).2 fun k b hb hentered hr => ?_
    have hholding : e.HoldsLive b.payload := ⟨_, hr, rfl, Heap.isLive_iff.2 ⟨d, hd⟩⟩
    have hle : ¬ 1 < (e.entrances b.category).count k := fun hmore =>
      hholds k b hb hentered hmore hholding
    have hpos := Multiset.count_pos.2 (hs.mem_entrances hf hb hentered hholding)
    omega

/-! ## Two mappings with one table -/

instance (e : Engine) : Decidable e.SlotCounted :=
  decidable_of_iff
    ((∀ x ∈ e.heap.entries, x.2.category.carries x.2.payload ∧ x.2.exempt = false ∧
        (x.2.category.isEntered → x.1 ∈ e.listedAs x.2.category) ∧
        (x.2.category.isCounted → x.2.refs = e.slotCount x.1)) ∧
      (∀ ref ∈ e.held, ref.hold = .counted →
        ∀ b ∈ (e.heap.get? ref.target).toList, b.category = ref.expected) ∧
      e.providers = []) <| by
    simp only [Prod.forall, Heap.mem_entries_iff, Option.mem_toList]
    constructor
    · rintro ⟨hblocks, htyped, hnone⟩
      exact ⟨fun h b hb => (hblocks h b hb).1, htyped, fun h b hb => (hblocks h b hb).2.1, hnone,
        fun h b hb => (hblocks h b hb).2.2.1, fun h b hb => (hblocks h b hb).2.2.2⟩
    · intro hs
      exact ⟨fun h b hb => ⟨hs.wellFormed h b hb, hs.checked h b hb, hs.reached h b hb,
        hs.refs h b hb⟩, hs.typed, hs.unprovided⟩

/-- Two mappings on the stack. The second has taken over the table of the first, which maps one to
`value`; its own is gone. -/
def sharedTable (e : Engine) (value : Value) : Engine :=
  let (e, first) := e.newMapping [(.number 1, value)]
  let (e, second) := e.newMapping []
  let e := (e.push first).push second
  match first.target?.bind e.heap.payload?, second.target? with
  | some shared, some other =>
    let own := e.heap.payload? other
    let e := e.setHeap (e.heap.setPayload other shared)
    match own with
    | some (.mapping table) => (e.freeBlock table).1
    | _ => e
  | _, _ => e

/-- A shared table of numbers. -/
def sharedNumbers : Engine := sharedTable {} (.number 7)

/-- A shared table with an array in it. -/
def sharedArray : Engine :=
  let (e, array) := newArray {} [.number 7]
  sharedTable e array

theorem no_countMismatch_iff_sharedNumbers :
    sharedNumbers.SlotCounted ∧ sharedNumbers.IdleFree ∧
    (sharedNumbers.entrances .mapNode).count ⟨0, 0⟩ = 2 ∧
    ∀ f ∈ (sharedNumbers.reportOf {}).findings, ¬ f.isCountLine := by
  have hs : sharedNumbers.SlotCounted := by decide +kernel
  have hplain : ∀ p ∈ sharedNumbers.heap.entries,
      p.2.category ≠ .sentence ∧ (p.2.category.isEntered →
        ∀ ref ∈ p.2.payload.held sharedNumbers.heap, ref.hold ≠ .counted) := by decide +kernel
  have hf : sharedNumbers.IdleFree := fun h b hb hcat =>
    absurd hcat (hplain (h, b) (Heap.mem_entries_iff.2 hb)).1
  refine ⟨hs, hf, by decide +kernel, (no_countMismatch_iff hs hf false).2 ?_⟩
  rintro k b hb hentered - ⟨ref, hr, hhold, -⟩
  exact (hplain (k, b) (Heap.mem_entries_iff.2 hb)).2 hentered ref hr hhold

/-- Every stored count is the number of slots, and sharing alone makes one of them wrong. -/
theorem countMismatch_sharedArray :
    sharedArray.SlotCounted ∧
    (sharedArray.reportOf {}).findings =
      [.mapTables 1 2,
       .multipleOwners .mapTable "new_map_table" (.block ⟨5, 0⟩ .mapping),
       .multipleOwners .mapNode "new_map_node" (.block ⟨5, 0⟩ .mapping),
       .countMismatch .array "allocate_array" 1 2 (some "(\x7b 7 \x7d)")] ∧
    (sharedArray.reportOf {}).hasFatal := by
  refine ⟨?_, ?_, ?_⟩ <;> decide +kernel

end Engine

end HeapAudit
