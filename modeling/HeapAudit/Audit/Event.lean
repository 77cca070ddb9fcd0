import HeapAudit.Audit.Finding

/-!
What happens during one audit pass, in order. The report and every trace are read off the same
list of events.
-/

namespace HeapAudit

inductive Phase where
  | reset
  | reconcile
  | roots
  | scan
  | verify
deriving DecidableEq, Repr

def Phase.name : Phase → String
  | reset => "reset"
  | reconcile => "reconcile"
  | roots => "roots"
  | scan => "scan"
  | verify => "verify"

inductive Event where
  | phase (p : Phase)
  /-- The references of a provider come next. -/
  | consult (provider : String)
  /-- A reference held by a root is followed. -/
  | root (kind : RootKind) (target : Handle)
  | finding (f : Finding)
  | exempt (h : Handle) (category : Category)
  | finished (blocks findings : Nat)
deriving DecidableEq, Repr

def Event.finding? : Event → Option Finding
  | finding f => some f
  | _ => none

/-- The findings among the events. -/
def findingsOf (events : List Event) : List Finding := events.filterMap Event.finding?

theorem findingsOf_append (a b : List Event) :
    findingsOf (a ++ b) = findingsOf a ++ findingsOf b := by
  simp [findingsOf]

theorem findingsOf_flatMap {α : Type} (l : List α) (f : α → List Event) :
    findingsOf (l.flatMap f) = l.flatMap fun a => findingsOf (f a) :=
  List.filterMap_flatMap

theorem findingsOf_map_finding (fs : List Finding) : findingsOf (fs.map .finding) = fs := by
  simp [findingsOf, Event.finding?, Function.comp_def]

end HeapAudit
