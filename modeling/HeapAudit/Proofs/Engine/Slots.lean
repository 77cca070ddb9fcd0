import HeapAudit.Proofs.Audit.Pins

/-!
The slots of all live blocks together, and what each change of the heap does to them. What a block
holds depends on other blocks in two places only: the program a closure pins through its owner and
the owner of a redirect's sentence.

Main definitions
* `Payload.views`: the other blocks a payload's slots depend on.
* `Heap.heldRefs`: the references in the slots of all live blocks.

Main statements
* `Heap.heldRefs_allocateSized`, `Heap.heldRefs_update`, `Heap.heldRefs_remove`.
-/

namespace HeapAudit

/-! ## Other blocks a payload depends on -/

/-- The owner through which a closure pins a program. -/
def Closure.views (c : Closure) : List Handle :=
  match c.kind with
  | .ownCode _ false => c.owner.toList
  | _ => []

namespace Payload

def views : Payload → List Handle
  | .closure c => c.views
  | .session s => s.redirected
  | _ => []

end Payload

section Congruence

variable {heap other : Heap}

theorem Closure.pinned?_congr_views {c : Closure}
    (hv : ∀ k ∈ c.views, heap.programOf? k = other.programOf? k) :
    c.pinned? heap = c.pinned? other := by
  obtain ⟨kind, owner, args⟩ := c
  cases kind with
  | ownCode index bindable =>
    cases bindable with
    | true => rfl
    | false =>
      cases owner with
      | none => rfl
      | some ob => exact hv ob (List.mem_singleton_self ob)
  | _ => rfl

theorem Closure.held_congr {c : Closure}
    (hv : ∀ k ∈ c.views, heap.programOf? k = other.programOf? k) : c.held heap = c.held other := by
  unfold Closure.held
  rw [Closure.pinned?_congr_views hv]

theorem Session.held_congr {s : Session}
    (hv : ∀ k ∈ s.redirected, heap.sentenceOf? k = other.sentenceOf? k) :
    s.held heap = s.held other := by
  unfold Session.held
  cases hr : s.redirect with
  | none => rfl
  | some r =>
    have hs := hv r.sentence (by simp [Session.redirected, hr])
    simp only [Option.elim_some, Redirect.held, hs]

/-- The slots of a payload are the same in any two heaps that agree on what it depends on. -/
theorem Payload.held_congr {p : Payload}
    (hv : ∀ k ∈ p.views, heap.programOf? k = other.programOf? k ∧
      heap.sentenceOf? k = other.sentenceOf? k) : p.held heap = p.held other := by
  cases p with
  | closure c => exact Closure.held_congr fun k hk => (hv k hk).1
  | session s =>
    simp only [Payload.held]
    rw [Session.held_congr fun k hk => (hv k hk).2]
  | _ => rfl

theorem views_congr {k : Handle} (hp : heap.payload? k = other.payload? k) :
    heap.programOf? k = other.programOf? k ∧ heap.sentenceOf? k = other.sentenceOf? k := by
  unfold Heap.programOf? Heap.sentenceOf?
  rw [hp]
  exact ⟨rfl, rfl⟩

end Congruence

/-- What a payload depends on it also holds. -/
theorem Payload.exists_of_mem_views {p : Payload} {k : Handle} (hk : k ∈ p.views) (heap : Heap) :
    ∃ ref ∈ p.held heap, ref.hold ≠ .pinned ∧ ref.target = k := by
  cases p with
  | closure c =>
    obtain ⟨kind, owner, args⟩ := c
    have ho : k ∈ owner.toList := by
      have hc : k ∈ Closure.views ⟨kind, owner, args⟩ := hk
      unfold Closure.views at hc
      split at hc
      · exact hc
      · cases hc
    refine ⟨.counted k .object, ?_, by simp [Reference.counted], rfl⟩
    simp only [Payload.held, Closure.held, Reference.objects, List.mem_append, List.mem_map]
    exact .inl (.inl ⟨k, ho, rfl⟩)
  | session s =>
    obtain ⟨r, hr, rfl⟩ := List.mem_map.1 hk
    refine ⟨.owned r.sentence .sentence, ?_, by simp [Reference.owned], rfl⟩
    have hs : s.redirect = some r := by simpa using hr
    simp [Payload.held, Session.held, Redirect.held, underRoot, hs]
  | _ => cases hk

/-! ## The slots of all live blocks -/

namespace Heap

/-- The references in the slots of all live blocks. -/
def heldRefs (heap : Heap) : Multiset Reference := heap.gathered (Payload.held heap)

theorem mem_heldRefs {heap : Heap} {ref : Reference} :
    ref ∈ heap.heldRefs ↔ ∃ h b, heap.get? h = some b ∧ ref ∈ b.payload.held heap := by
  simp only [heldRefs, gathered, Multiset.mem_bind, Prod.exists, mem_stock, Multiset.mem_coe]

/-- Nothing but pins names the block behind `h`. -/
def Unnamed (h : Handle) (refs : Multiset Reference) : Prop :=
  ∀ ref ∈ refs, ref.hold ≠ .pinned → ref.target ≠ h

theorem Unnamed.mono {h : Handle} {refs more : Multiset Reference} (hu : Unnamed h more)
    (hm : ∀ ref ∈ refs, ref ∈ more) : Unnamed h refs :=
  fun ref hr => hu ref (hm ref hr)

theorem payload?_allocateSized_of_ne (heap : Heap) (category : Category) (payload : Payload)
    (size : Nat) (description : String) {k : Handle} (hk : k ≠ heap.nextHandle) :
    (heap.allocateSized category payload size description).1.payload? k = heap.payload? k := by
  unfold payload?
  rw [get?_allocateSized, if_neg hk]

/-- A new block adds its slots, as the heap before shows them. -/
theorem heldRefs_allocateSized {heap : Heap} (category : Category) (payload : Payload)
    (size : Nat) (description : String)
    (hu : Unnamed heap.nextHandle (↑(payload.held heap) + heap.heldRefs)) :
    (heap.allocateSized category payload size description).1.heldRefs =
      ↑(payload.held heap) + heap.heldRefs := by
  have hcongr : ∀ p : Payload, (∀ ref ∈ p.held heap, ref ∈ ↑(payload.held heap) + heap.heldRefs) →
      p.held (heap.allocateSized category payload size description).1 = p.held heap := by
    intro p hp
    refine Payload.held_congr fun k hk => views_congr ?_
    obtain ⟨ref, hr, hpin, rfl⟩ := Payload.exists_of_mem_views hk heap
    exact payload?_allocateSized_of_ne _ _ _ _ _ (hu ref (hp ref hr) hpin)
  unfold heldRefs gathered
  rw [stock_allocateSized, Multiset.cons_bind]
  congr 1
  · rw [hcongr payload fun ref hr => Multiset.mem_add.2 (.inl (Multiset.mem_coe.2 hr))]
  · refine Multiset.bind_congr fun p hp => ?_
    rw [hcongr p.2.payload fun ref hr => Multiset.mem_add.2
      (.inr (mem_heldRefs.2 ⟨p.1, p.2, mem_stock.1 hp, hr⟩))]

/-- A changed block shows its new slots in the place of its old ones. -/
theorem heldRefs_update {heap : Heap} {h : Handle} {b : Block} (hb : heap.get? h = some b)
    (f : Block → Block)
    (hv : ∀ k c, heap.get? k = some c → k ≠ h → ∀ v ∈ c.payload.views,
      heap.programOf? v = (heap.update h f).programOf? v ∧
        heap.sentenceOf? v = (heap.update h f).sentenceOf? v) :
    ∃ rest : Multiset Reference, heap.heldRefs = ↑(b.payload.held heap) + rest ∧
      (heap.update h f).heldRefs = ↑((f b).payload.held (heap.update h f)) + rest := by
  refine ⟨(heap.others h).bind fun p => ↑(p.2.payload.held heap), ?_, ?_⟩
  · unfold heldRefs gathered
    rw [stock_eq_cons_others hb, Multiset.cons_bind]
  · unfold heldRefs gathered
    rw [stock_update hb, Multiset.cons_bind]
    congr 1
    refine Multiset.bind_congr fun p hp => ?_
    obtain ⟨hg, hne⟩ := mem_others.1 hp
    rw [Payload.held_congr fun v hm => hv p.1 p.2 hg hne v hm]

/-- Without one block the slots are all but its own, if nothing named it. -/
theorem heldRefs_remove {heap rest : Heap} {h : Handle} {b : Block}
    (hr : heap.remove h = some (b, rest)) (hu : Unnamed h heap.heldRefs) :
    heap.heldRefs = ↑(b.payload.held heap) + rest.heldRefs := by
  unfold heldRefs gathered at hu ⊢
  rw [stock_remove hr, Multiset.cons_bind] at hu ⊢
  congr 1
  refine Multiset.bind_congr fun p hp => ?_
  refine congrArg _ (Payload.held_congr fun k hk => views_congr ?_)
  have hne : k ≠ h := by
    obtain ⟨ref, hm, hpin, rfl⟩ := Payload.exists_of_mem_views hk heap
    exact hu ref (Multiset.mem_add.2 (.inr (Multiset.mem_bind.2 ⟨p, hp, hm⟩))) hpin
  unfold payload?
  rw [get?_remove hr, if_neg hne]

/-- A change that keeps programs of objects and sentences is not seen from other blocks. -/
theorem views_update {heap : Heap} {h : Handle} {b : Block} (hb : heap.get? h = some b)
    {f : Block → Block}
    (ho : ((f b).payload.object?).bind (·.program) = (b.payload.object?).bind (·.program))
    (hs : (f b).payload.sentence? = b.payload.sentence?) (k : Handle) :
    heap.programOf? k = (heap.update h f).programOf? k ∧
      heap.sentenceOf? k = (heap.update h f).sentenceOf? k := by
  unfold programOf? sentenceOf? payload?
  rw [get?_update]
  by_cases hk : k = h
  · rw [if_pos hk, hk, hb]
    exact ⟨ho.symm, hs.symm⟩
  · rw [if_neg hk]
    exact ⟨rfl, rfl⟩

end Heap

end HeapAudit
