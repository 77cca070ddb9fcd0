import HeapAudit.Proofs.Audit.Watching
import HeapAudit.Proofs.Audit.FullPass
import HeapAudit.Proofs.Heap.Sweep

/-!
A pass writes on the scratch of live blocks and nowhere else, and what was written there before it
makes no difference to it.

Main definitions
* `Engine.SameButScratch`: two engines that differ in the scratch of live blocks at most.
* `Engine.passes`: one pass after the other.

Main statements
* `Engine.sameButScratch_audit`: what a pass leaves unchanged.
* `SameButScratch.audit_eq`: what a pass does not look at.
* `Engine.audit_readOnly`: any number of passes, each under its own tracer.
-/

namespace HeapAudit

/-! ## Heaps up to scratch -/

def Slot.withoutScratch (s : Slot) : Slot :=
  { s with block := s.block.map .withoutScratch }

namespace Heap

/-- The slots hold the same blocks under the same generations, whatever is noted on them. -/
structure SameButScratch (heap other : Heap) : Prop where
  slots : other.slots.map Slot.withoutScratch = heap.slots.map Slot.withoutScratch
  free : other.free = heap.free
  issued : other.issued = heap.issued
  tick : other.tick = heap.tick

/-- Heaps are the same but for scratch if a pass over either begins with the same heap. -/
theorem sameButScratch_iff {heap other : Heap} :
    heap.SameButScratch other ↔ other.clearScratch = heap.clearScratch := by
  constructor
  · rintro ⟨hs, hf, hi, ht⟩
    exact eq_of_parts hs hf hi ht
  · intro h
    exact ⟨(congrArg slots h :), (congrArg free h :), (congrArg issued h :), (congrArg tick h :)⟩

theorem clearScratch_noteAt (heap : Heap) (h : Handle) (hold : Hold) :
    (heap.noteAt h hold).clearScratch = heap.clearScratch :=
  mapBlocks_update (f := fun b => { b with scratch := b.scratch.note hold }) fun _ _ => rfl

theorem clearScratch_follow (heap : Heap) (p : Probe) :
    (heap.follow p).1.clearScratch = heap.clearScratch := by
  cases p with
  | follow origin ref =>
    show (heap.followReference origin ref).1.clearScratch = _
    unfold followReference
    cases heap.resolve origin ref with
    | error f => rfl
    | ok b => exact heap.clearScratch_noteAt ref.target ref.hold
  | report f => rfl
  | consult name => rfl

theorem clearScratch_walk (heap : Heap) (ps : List Probe) :
    (heap.walk ps).1.clearScratch = heap.clearScratch := by
  induction ps generalizing heap with
  | nil => rfl
  | cons p ps ih =>
    rw [walk_cons]
    exact (ih _).trans (clearScratch_follow heap p)

theorem clearScratch_clearScratch (heap : Heap) :
    heap.clearScratch.clearScratch = heap.clearScratch :=
  mapBlocks_mapBlocks heap _ _

theorem clearScratch_clearVisited (heap : Heap) :
    heap.clearVisited.clearScratch = heap.clearScratch :=
  mapBlocks_mapBlocks heap _ _

end Heap

/-! ## Engines up to scratch -/

namespace Engine

/-- Nothing differs but what is noted on live blocks. -/
structure SameButScratch (e other : Engine) : Prop where
  heap : e.heap.SameButScratch other.heap
  strings : other.strings = e.strings
  roots : other.roots = e.roots
  counters : other.counters = e.counters
  settings : other.settings = e.settings
  providers : other.providers = e.providers

variable {e other : Engine}

theorem sameButScratch_iff : e.SameButScratch other ↔ other.cleared = e.cleared := by
  constructor
  · rintro ⟨hh, hs, hr, hc, hset, hp⟩
    simp only [cleared, setHeap, Heap.sameButScratch_iff.1 hh, hs, hr, hc, hset, hp]
  · intro h
    exact ⟨Heap.sameButScratch_iff.2 (congrArg Engine.heap h), (congrArg Engine.strings h :),
      (congrArg Engine.roots h :), (congrArg Engine.counters h :),
      (congrArg Engine.settings h :), (congrArg Engine.providers h :)⟩

namespace SameButScratch

theorem refl (e : Engine) : e.SameButScratch e := sameButScratch_iff.2 rfl

theorem trans {last : Engine} (h : e.SameButScratch other) (hn : other.SameButScratch last) :
    e.SameButScratch last :=
  sameButScratch_iff.2 ((sameButScratch_iff.1 hn).trans (sameButScratch_iff.1 h))

end SameButScratch

/-! ## One pass -/

theorem cleared_cleared (e : Engine) : e.cleared.cleared = e.cleared := by
  unfold cleared setHeap
  simp only [Heap.clearScratch_clearScratch]

/-- A pass begins by clearing the scratch, so it does not see what was there. -/
theorem audit_cleared (e : Engine) (flags : Flags) : e.cleared.audit flags = e.audit flags := by
  have hc : e.cleared.setHeap e.cleared.heap.clearScratch = e.setHeap e.heap.clearScratch :=
    e.cleared_cleared
  unfold audit
  rw [hc]

/-- A pass over an engine and over the same with other scratch is the same pass. -/
theorem SameButScratch.audit_eq (h : e.SameButScratch other) (flags : Flags) :
    other.audit flags = e.audit flags := by
  rw [← audit_cleared other, ← audit_cleared e, sameButScratch_iff.1 h]

theorem cleared_audit (e : Engine) (flags : Flags) : (e.audit flags).1.cleared = e.cleared := by
  obtain ⟨verbose, resetOnly⟩ := flags
  cases resetOnly with
  | true => exact e.cleared_cleared
  | false =>
    have hwalk : e.recounted.clearVisited.clearScratch = e.heap.clearScratch := by
      rw [Heap.clearScratch_clearVisited, recounted, Heap.clearScratch_walk]
      exact e.heap.clearScratch_clearScratch
    rw [audit_full]
    unfold cleared setHeap
    simp only [hwalk]

theorem sameButScratch_audit (e : Engine) (flags : Flags) : e.SameButScratch (e.audit flags).1 :=
  sameButScratch_iff.2 (e.cleared_audit flags)

/-- No mark outlives its pass. -/
theorem visited_audit (e : Engine) (flags : Flags) {h : Handle} {b : Block}
    (hb : (e.audit flags).1.heap.get? h = some b) : b.scratch.visited = false := by
  obtain ⟨verbose, resetOnly⟩ := flags
  cases resetOnly with
  | true =>
    rw [audit_resetOnly, get?_cleared] at hb
    obtain ⟨c, -, rfl⟩ := Option.map_eq_some_iff.1 hb
    rfl
  | false =>
    rw [get?_audit] at hb
    obtain ⟨c, -, rfl⟩ := Option.map_eq_some_iff.1 hb
    rfl

theorem scratch_audit_resetOnly (e : Engine) {flags : Flags} (hr : flags.resetOnly) {h : Handle}
    {b : Block} (hb : (e.audit flags).1.heap.get? h = some b) : b.scratch = {} := by
  obtain ⟨verbose, resetOnly⟩ := flags
  subst hr
  rw [audit_resetOnly, get?_cleared] at hb
  obtain ⟨c, -, rfl⟩ := Option.map_eq_some_iff.1 hb
  rfl

/-! ## One pass after the other -/

/-- A pass that is asked for: its flags, and who watches it. -/
structure Request where
  flags : Flags
  State : Type
  tracer : Tracer State
  start : State

/-- The passes in order, each over the engine the one before it left. -/
def passes (e : Engine) : List Request → Engine × List Report
  | [] => (e, [])
  | r :: rest =>
    let (e, report, _) := e.watch r.tracer r.flags r.start
    let (e, reports) := e.passes rest
    (e, report :: reports)

theorem passes_eq (e : Engine) (requests : List Request) :
    e.SameButScratch (e.passes requests).1 ∧
      (e.passes requests).2 = requests.map fun r => e.reportOf r.flags := by
  induction requests generalizing e with
  | nil => exact ⟨.refl e, rfl⟩
  | cons r rest ih =>
    have hstep := e.sameButScratch_audit r.flags
    have hsame : ∀ flags, (e.audit r.flags).1.reportOf flags = e.reportOf flags := by
      intro flags
      rw [reportOf_eq, reportOf_eq, hstep.audit_eq]
    obtain ⟨hengine, hreports⟩ := ih (e.audit r.flags).1
    simp only [passes, watch_eq]
    refine ⟨hstep.trans hengine, ?_⟩
    rw [hreports, List.map_cons, reportOf_eq e r.flags]
    simp only [hsame]

/-- A pass changes the scratch of live blocks and nothing else. It leaves no block marked, and a
reset-only pass leaves nothing on the blocks at all. What it says and what it tells its tracer does
not depend on the scratch it finds, and a report of one pass among many is what the flags of that
pass and the engine before the first pass make it. -/
theorem audit_readOnly {σ : Type} (t : Tracer σ) (e : Engine) (flags : Flags) (s : σ) :
    e.SameButScratch (e.watch t flags s).1 ∧
    (∀ h b, (e.watch t flags s).1.heap.get? h = some b →
      b.scratch.visited = false ∧ (flags.resetOnly → b.scratch = {})) ∧
    (∀ other, e.SameButScratch other → other.watch t flags s = e.watch t flags s) ∧
    ∀ requests, e.SameButScratch (e.passes requests).1 ∧
      (e.passes requests).2 = requests.map fun r => e.reportOf r.flags := by
  refine ⟨?_, fun h b hb => ?_, fun other hother => ?_, e.passes_eq⟩
  · rw [watch_eq]
    exact e.sameButScratch_audit flags
  · rw [watch_eq] at hb
    exact ⟨e.visited_audit flags hb, fun hr => e.scratch_audit_resetOnly hr hb⟩
  · rw [watch_eq, watch_eq, hother.audit_eq]

/-- An array on the stack with a stored count of three. -/
def arrayMiscounted : Engine :=
  let (e, array) := newArray {} [.number 7]
  let e := e.push array
  e.setHeap (e.heap.setRefs ⟨0, 0⟩ 3)

/-- The same once something was noted on the array. -/
def arrayNoted : Engine :=
  arrayMiscounted.setHeap ((arrayMiscounted.heap.noteAt ⟨0, 0⟩ .owned).noteAt ⟨0, 0⟩ .counted)

theorem audit_readOnly_arrayNoted :
    (arrayNoted.heap.get? ⟨0, 0⟩).map (·.scratch) = some ⟨1, 0, true⟩ ∧
    arrayNoted.watch (.recording none) {} [] = arrayMiscounted.watch (.recording none) {} [] ∧
    (arrayNoted.reportOf {}).isClean = false ∧
    (arrayNoted.passes [⟨{}, Unit, .silent, ()⟩, ⟨⟨true, true⟩, Unit, .silent, ()⟩,
        ⟨{}, List Event, .recording (some 3), []⟩]).2 =
      [arrayNoted.reportOf {}, arrayNoted.reportOf ⟨true, true⟩, arrayNoted.reportOf {}] := by
  have hs : arrayMiscounted.SameButScratch arrayNoted :=
    ⟨⟨by decide +kernel, rfl, rfl, rfl⟩, rfl, rfl, rfl, rfl, rfl⟩
  refine ⟨by decide, ?_, by decide +kernel, ?_⟩
  · exact (audit_readOnly (.recording none) arrayMiscounted {} []).2.2.1 arrayNoted hs
  · exact ((audit_readOnly .silent arrayNoted {} ()).2.2.2 _).2

end Engine

end HeapAudit
