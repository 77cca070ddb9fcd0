import HeapAudit.Proofs.Audit.Uncounted

/-!
Which of the references are pins. Closures alone keep a program loaded; nothing else in a block,
and nothing among the roots, is a pin.

Main statements
* `Payload.filter_isPin_held`: the pins of a block.
* `Engine.count_pinned_held`, `Engine.count_pinned_enumerated`: there are as many pins of a program
  as there are closures that pin it, and a pass follows them all.
-/

namespace HeapAudit

def Reference.isPin (ref : Reference) : Bool := ref.hold = .pinned

open Reference

/-- Only what is uncounted can be a pin. -/
theorem filter_isPin_uncounted (refs : List Reference) :
    (uncounted refs).filter isPin = refs.filter isPin := by
  rw [uncounted, List.filter_filter]
  refine List.filter_congr fun ref _ => ?_
  cases hr : ref.hold <;> simp [isPin, isCounted, hr]

@[simp] theorem filter_isPin_map_owned (hs : List Handle) (c : Category) :
    (hs.map (owned · c)).filter isPin = [] := by
  refine List.filter_eq_nil_iff.2 fun ref hr => ?_
  obtain ⟨h, -, rfl⟩ := List.mem_map.1 hr
  simp [isPin, owned]

@[simp] theorem filter_isPin_map_pinned (hs : List Handle) :
    (hs.map pinned).filter isPin = hs.map pinned := by
  refine List.filter_eq_self.2 fun ref hr => ?_
  obtain ⟨h, -, rfl⟩ := List.mem_map.1 hr
  rfl

theorem IdentTable.filter_isPin_held (t : IdentTable) : t.held.filter isPin = [] := by
  rw [IdentTable.held, List.filter_flatMap]
  exact List.flatMap_eq_nil_iff.2 fun _ _ => filter_isPin_map_owned _ _

/-! ## Pins of a block -/

namespace Payload

/-- The program a block pins. -/
def pins (heap : Heap) : Payload → List Handle
  | .closure c => (c.pinned? heap).toList
  | _ => []

theorem filter_isPin_held (heap : Heap) (p : Payload) :
    (p.held heap).filter isPin = (p.pins heap).map .pinned := by
  rw [← filter_isPin_uncounted, uncounted_held]
  cases p with
  | identTable t => exact t.filter_isPin_held
  | object ob => simp [holdsAlone, pins, isPin, owned]
  | mapping table => simp [holdsAlone, pins, isPin, owned]
  | _ => simp [holdsAlone, pins]

theorem filter_isPin_direct (heap : Heap) (p : Payload) :
    (p.direct heap).filter isPin = (p.pins heap).map .pinned := by
  have hp := p.filter_isPin_held heap
  cases p with
  | mapTable | mapNode | sentence | session | callOut => simp [direct, pins]
  | _ => exact hp

/-- Only closures pin, and they are scanned wherever they are. -/
theorem filter_isPin_indirect (heap : Heap) (p : Payload) :
    p.ofTable.filter isPin = [] ∧ p.ofNode.filter isPin = [] ∧ p.ofSentence.filter isPin = [] ∧
      (p.ofSession heap).filter isPin = [] ∧ p.ofCallOut.filter isPin = [] := by
  have hh := p.filter_isPin_held heap
  rw [p.held_eq heap] at hh
  simp only [List.filter_append, filter_isPin_direct, List.append_assoc,
    List.append_right_eq_self, List.append_eq_nil_iff] at hh
  exact hh

end Payload

theorem Roots.filter_isPin_held (failString : Option Handle) (r : Roots) :
    ((r.held failString).map (·.2)).filter isPin = [] := by
  rw [← filter_isPin_uncounted]
  simp [Roots.held, map_snd_underRoot]

/-! ## Pins of everything -/

namespace Heap

/-- The programs the live closures pin. -/
def pins (heap : Heap) : Multiset Handle := heap.gathered (Payload.pins heap)

theorem pinCount_eq (heap : Heap) (h : Handle) : heap.pinCount h = heap.pins.count h := by
  unfold pinCount pins gathered stock blocks
  rw [Multiset.coe_bind, Multiset.coe_count]
  induction heap.entries with
  | nil => rfl
  | cons p ps ih =>
    rw [List.map_cons, List.countP_cons, List.flatMap_cons, List.count_append, ih, Nat.add_comm]
    congr 1
    unfold Payload.pins
    cases p.2.payload with
    | closure c => cases hc : c.pinned? heap <;> simp [hc, List.count_singleton]
    | _ => rfl

theorem filter_isPin_gathered (heap : Heap) {f : Payload → List Reference}
    {g : Payload → List Handle} (hf : ∀ p, (f p).filter isPin = (g p).map .pinned) :
    (heap.gathered f).filter (fun ref => isPin ref) = (heap.gathered g).map .pinned := by
  simp only [gathered, Multiset.filter_bind, Multiset.filter_coe, Multiset.map_bind,
    Multiset.map_coe]
  refine Multiset.bind_congr fun p _ => ?_
  rw [← hf]
  simp

theorem filter_isPin_bind_shown (heap : Heap) {f : Payload → List Reference}
    (hf : ∀ p, (f p).filter isPin = []) (m : Multiset Handle) :
    (m.bind (heap.shown f)).filter (fun ref => isPin ref) = 0 := by
  rw [Multiset.filter_bind, ← Multiset.bind_zero (s := m)]
  refine Multiset.bind_congr fun h _ => ?_
  unfold shown
  cases heap.payload? h with
  | none => rfl
  | some p => simpa using congrArg (fun l : List Reference => (l : Multiset Reference)) (hf p)

end Heap

namespace Engine

theorem filter_isPin_roots (e : Engine) :
    (e.rootHeld.map (·.2) : Multiset Reference).filter (fun ref => isPin ref) = 0 := by
  rw [Multiset.filter_coe, rootHeld]
  simpa using Roots.filter_isPin_held e.defaultFailString? e.roots

theorem filter_isPin_held (e : Engine) :
    (e.held : Multiset Reference).filter (fun ref => isPin ref) = e.heap.pins.map .pinned := by
  rw [coe_held, Multiset.filter_add, filter_isPin_roots, zero_add]
  exact e.heap.filter_isPin_gathered fun p => p.filter_isPin_held e.heap

theorem filter_isPin_enumerated (e : Engine) :
    (e.enumerated.map (·.2) : Multiset Reference).filter (fun ref => isPin ref) =
      e.heap.pins.map .pinned := by
  have hp : (e.provided : Multiset Reference).filter (fun ref => isPin ref) = 0 := by
    refine Multiset.filter_eq_nil.2 fun ref hr => ?_
    obtain ⟨p, -, hm⟩ := List.mem_flatMap.1 hr
    obtain ⟨hold, -, rfl⟩ := List.mem_map.1 hm
    cases hold <;> simp [isPin, Holding.reference, counted, owned]
  have hi := Payload.filter_isPin_indirect e.heap
  rw [coe_enumerated]
  simp only [Multiset.filter_add, filter_isPin_roots, hp,
    e.heap.filter_isPin_gathered fun p => p.filter_isPin_direct e.heap,
    e.heap.filter_isPin_bind_shown fun p => (hi p).1,
    e.heap.filter_isPin_bind_shown fun p => (hi p).2.1,
    e.heap.filter_isPin_bind_shown fun p => (hi p).2.2.1,
    e.heap.filter_isPin_bind_shown fun p => (hi p).2.2.2.1,
    e.heap.filter_isPin_bind_shown fun p => (hi p).2.2.2.2, zero_add, add_zero]
  rfl

end Engine

/-- Among references that show these pins and no others, a block is pinned this often. -/
theorem count_pinned_of_filter {refs : Multiset Reference} {pins : Multiset Handle}
    (hr : refs.filter (fun ref => isPin ref) = pins.map .pinned) (h : Handle) (c : Category) :
    refs.count ⟨.pinned, h, c⟩ = if c = .program then pins.count h else 0 := by
  have hf : refs.count ⟨.pinned, h, c⟩ =
      (refs.filter (fun ref => isPin ref)).count ⟨.pinned, h, c⟩ :=
    (Multiset.count_filter_of_pos (p := fun ref => isPin ref) rfl).symm
  rw [hf, hr]
  by_cases hc : c = .program
  · subst hc
    rw [if_pos rfl]
    exact Multiset.count_map_eq_count' pinned pins (fun a b hab => by cases hab; rfl) h
  · rw [if_neg hc, Multiset.count_eq_zero]
    intro hm
    obtain ⟨k, -, hk⟩ := Multiset.mem_map.1 hm
    cases hk
    exact hc rfl

/-- The slots hold as many pins of a program as there are live closures that pin it. -/
theorem Engine.count_pinned_held (e : Engine) (h : Handle) :
    (e.held : Multiset Reference).count (.pinned h) = e.heap.pinCount h := by
  rw [Heap.pinCount_eq]
  exact (count_pinned_of_filter e.filter_isPin_held h .program).trans (if_pos rfl)

/-- A pass follows as many pins of a block as there are live closures that pin it. -/
theorem Engine.count_pinned_enumerated (e : Engine) (h : Handle) (c : Category) :
    (e.enumerated.map (·.2)).count ⟨.pinned, h, c⟩ =
      if c = .program then e.heap.pinCount h else 0 := by
  rw [Heap.pinCount_eq, ← count_pinned_of_filter e.filter_isPin_enumerated h c,
    Multiset.coe_count]

end HeapAudit
