import HeapAudit.Audit.References
import HeapAudit.MapAccum

/-!
Following references. Each one that resolves changes the scratch of its target and nothing else;
each one that does not is a finding.

Main definitions
* `Heap.follow`, `Heap.walk`: one probe and a list of them.

Main statements
* `get?_noteAt`: what a reference changes.
* `walk_append`: a walk over two lists is the one after the other.
-/

namespace HeapAudit

namespace Scratch

/-- What a reference leaves on the block it resolves to. -/
def note (s : Scratch) : Hold → Scratch
  | .counted => { s with expected := s.expected + 1 }
  | .owned => { s with visited := true }
  | .pinned => { s with pins := s.pins + 1 }

end Scratch

namespace Heap

def noteAt (heap : Heap) (h : Handle) (hold : Hold) : Heap :=
  heap.update h fun b => { b with scratch := b.scratch.note hold }

theorem get?_noteAt (heap : Heap) (h k : Handle) (hold : Hold) :
    (heap.noteAt h hold).get? k =
      if k = h then (heap.get? h).map fun b => { b with scratch := b.scratch.note hold }
      else heap.get? k :=
  heap.get?_update h k _

/-- A block may be reached by one owner only. -/
def sharedOwner (origin : Origin) (ref : Reference) (b : Block) : List Finding :=
  if ref.hold = .owned ∧ b.scratch.visited then
    [.multipleOwners ref.expected b.description origin]
  else []

/-- Resolves a reference: the block it names, or why it names none. -/
def resolve (heap : Heap) (origin : Origin) (ref : Reference) : Except Finding Block :=
  match heap.get? ref.target with
  | none => .error (.dangling origin ref.target ref.expected)
  | some b =>
    if b.category = ref.expected then .ok b
    else .error (.wrongCategory origin ref.target ref.expected b.category)

/-- References held by roots are announced. -/
def announce (origin : Origin) (target : Handle) : List Event :=
  match origin with
  | .root kind => [.root kind target]
  | .block _ _ => []

def followReference (heap : Heap) (origin : Origin) (ref : Reference) : Heap × List Event :=
  match heap.resolve origin ref with
  | .error f => (heap, announce origin ref.target ++ [.finding f])
  | .ok b =>
    (heap.noteAt ref.target ref.hold,
     announce origin ref.target ++ (sharedOwner origin ref b).map .finding)

def follow (heap : Heap) : Probe → Heap × List Event
  | .follow origin ref => heap.followReference origin ref
  | .report f => (heap, [.finding f])
  | .consult provider => (heap, [.consult provider])

def walk (heap : Heap) (ps : List Probe) : Heap × List Event :=
  let (heap, events) := mapAccum follow heap ps
  (heap, events.flatten)

@[simp] theorem walk_nil (heap : Heap) : heap.walk [] = (heap, []) := rfl

theorem walk_cons (heap : Heap) (p : Probe) (ps : List Probe) :
    heap.walk (p :: ps) =
      (((heap.follow p).1.walk ps).1, (heap.follow p).2 ++ ((heap.follow p).1.walk ps).2) := by
  simp only [walk, mapAccum_cons, List.flatten_cons]

theorem walk_append (heap : Heap) (ps qs : List Probe) :
    heap.walk (ps ++ qs) =
      (((heap.walk ps).1.walk qs).1, (heap.walk ps).2 ++ ((heap.walk ps).1.walk qs).2) := by
  simp only [walk, mapAccum_append, List.flatten_append]

end Heap

end HeapAudit
