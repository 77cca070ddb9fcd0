/-!
A handle names one slot of the heap together with the number of times the slot had been reused
when the handle was issued, so a handle kept past the end of its block resolves to nothing.
-/

namespace HeapAudit

structure Handle where
  index : Nat
  generation : Nat
deriving DecidableEq, Repr, Inhabited

namespace Handle

/-- A handle is written `#index.generation`. -/
def text (h : Handle) : String := s!"#{h.index}.{h.generation}"

theorem ext_iff_fields (a b : Handle) :
    a = b ↔ a.index = b.index ∧ a.generation = b.generation := by
  cases a
  cases b
  simp

end Handle

end HeapAudit
