import HeapAudit.Audit.Tracer
import HeapAudit.Proofs.Audit.FullPass
import HeapAudit.Proofs.Heap.Sweep

/-!
What a tracer hears is the list of events of the pass, and what it hears makes no difference to the
pass.

Main statements
* `Draft.foldl_hear`: text, findings, exemptions and tracer after a list of events.
* `Engine.watch_eq`: a watched pass is the pass, its report, and the events told one by one.
* `Tracer.foldl_hear_recording`: a recording is the events from the start.
-/

namespace HeapAudit

variable {σ : Type}

/-! ## Events told one by one -/

/-- A tracer hears of an event; that a provider is consulted it does not hear. -/
def Tracer.hear (t : Tracer σ) (s : σ) : Event → σ
  | .phase p => t.onPhase s p
  | .consult _ => s
  | .root kind target => t.onRoot s kind target
  | .finding f => t.onFinding s f
  | .exempt h category => t.onExempt s h category
  | .finished blocks findings => t.onFinish s blocks findings

theorem findingsOf_cons (event : Event) (events : List Event) :
    findingsOf (event :: events) = event.finding?.toList ++ findingsOf events := by
  rw [findingsOf, List.filterMap_cons]
  cases event.finding? <;> rfl

namespace Draft

variable (t : Tracer σ)

/-- What an event adds to a draft. -/
def hear (d : Draft σ) (event : Event) : Draft σ :=
  match event with
  | .finding f => d.emit t f
  | .exempt _ _ => { d with exempted := d.exempted + 1, state := t.hear d.state event }
  | _ => { d with state := t.hear d.state event }

/-- The three accounts of a list of events, and the tracer that heard of them. -/
theorem foldl_hear (d : Draft σ) (events : List Event) :
    events.foldl (hear t) d =
      { text := d.text ++ String.join ((findingsOf events).map fun f => Text.line f.text)
        findings := d.findings ++ findingsOf events
        exempted := d.exempted + events.countP Pass.isExemption
        summary := d.summary
        state := events.foldl t.hear d.state } := by
  induction events generalizing d with
  | nil => simp [findingsOf]
  | cons event events ih =>
    rw [List.foldl_cons, ih]
    cases event with
    | finding f =>
      simp [hear, emit, line, findingsOf_cons, Event.finding?, Pass.isExemption, Tracer.hear,
        String.append_assoc]
    | exempt h category =>
      simp [hear, findingsOf_cons, Event.finding?, List.countP_cons, Pass.isExemption]
      omega
    | _ => simp [hear, findingsOf_cons, Event.finding?, Pass.isExemption]

theorem foldl_emit (d : Draft σ) (fs : List Finding) :
    fs.foldl (emit t) d = (fs.map .finding).foldl (hear t) d := by
  rw [List.foldl_map]
  rfl

theorem announce_eq (d : Draft σ) (origin : Origin) (target : Handle) :
    d.announce t origin target = (Heap.announce origin target).foldl (hear t) d := by
  cases origin <;> rfl

/-- The draft a pass begins with. -/
def opening (flags : Flags) (s : σ) : Draft σ :=
  { text := if flags.resetOnly then "" else Text.line reportHeader, state := s }

theorem start_eq (flags : Flags) (s : σ) :
    start t flags s = (opening flags s).hear t (.phase .reset) := by
  unfold start opening
  cases flags.resetOnly
  · simp [line, phase, hear, Tracer.hear]
  · rfl

/-- At its end a draft is the report of the events that were told. -/
theorem finish_eq (flags : Flags) (census : Census) (blocks : Nat) (events : List Event) (s : σ) :
    (events.foldl (hear t) (opening flags s)).finish t flags census blocks =
      ((Engine.finishPass flags census blocks events).report,
        (Engine.finishPass flags census blocks events).events.foldl t.hear s) := by
  have hfinished : ∀ n, findingsOf [.finished blocks n] = [] := fun _ => rfl
  rw [foldl_hear]
  cases hv : flags.verbose <;>
    simp [finish, table, opening, Engine.finishPass, Pass.report, Pass.text, Pass.findings, hv,
      findingsOf_append, hfinished, Pass.isExemption, Tracer.hear]

end Draft

/-! ## The phases of a watched pass -/

namespace Engine

variable (t : Tracer σ)

theorem watchReference_eq (heap : Heap) (d : Draft σ) (origin : Origin) (ref : Reference) :
    watchReference t (heap, d) origin ref =
      ((heap.followReference origin ref).1,
        (heap.followReference origin ref).2.foldl (Draft.hear t) d) := by
  unfold watchReference Heap.followReference
  simp only [Draft.announce_eq]
  cases heap.resolve origin ref with
  | error f => simp [Draft.hear]
  | ok b => simp [Draft.foldl_emit]

theorem watchProbe_eq (heap : Heap) (d : Draft σ) (p : Probe) :
    watchProbe t (heap, d) p =
      ((heap.follow p).1, (heap.follow p).2.foldl (Draft.hear t) d) := by
  cases p with
  | follow origin ref => exact watchReference_eq t heap d origin ref
  | report f => rfl
  | consult name => rfl

theorem foldl_watchProbe (heap : Heap) (d : Draft σ) (ps : List Probe) :
    ps.foldl (watchProbe t) (heap, d) =
      ((heap.walk ps).1, (heap.walk ps).2.foldl (Draft.hear t) d) := by
  induction ps generalizing heap d with
  | nil => rfl
  | cons p ps ih => simp only [List.foldl_cons, watchProbe_eq, ih, Heap.walk_cons, List.foldl_append]

/-- Every block is reset before the next one is looked at, which is as good as resetting them all
first. -/
theorem foldl_watchReset (e : Engine) (flags : Flags) (d : Draft σ) :
    e.heap.entries.foldl (watchReset t flags) (e.heap, d) =
      (e.heap.clearScratch,
        ((resetFindings flags e.cleared.heap.blocks).map .finding).foldl (Draft.hear t) d) := by
  have hsplit := List.foldl_hom₂ e.heap.entries Prod.mk
    (fun heap p => heap.update p.1 .withoutScratch)
    (fun d p => (transientFindings flags p.2 ++ lengthFindings p.2.payload).foldl (Draft.emit t) d)
    (watchReset t flags) e.heap d fun _ _ _ => rfl
  rw [hsplit, Heap.foldl_update_entries, resetFindings_cleared, ← Draft.foldl_emit,
    resetFindings, Heap.blocks, List.flatMap_map, List.foldl_flatMap]
  rfl

theorem watchBlock_eq (heap : Heap) (depth : Nat) (d : Draft σ) (entry : Handle × Block) :
    watchBlock t depth (heap, d) entry =
      (heap.update entry.1 .unmarked,
        (verifyBlock heap depth entry.1 entry.2).foldl (Draft.hear t) d) := by
  unfold watchBlock verifyBlock
  simp only
  split
  · split
    · rfl
    · rw [Draft.foldl_emit]
  · rw [Draft.foldl_emit]

/-- Marks are taken off as the blocks are compared; no comparison looks at the mark of another
block. -/
theorem foldl_watchBlock (heap : Heap) (depth : Nat) (d : Draft σ) :
    heap.entries.foldl (watchBlock t depth) (heap, d) =
      (heap.clearVisited, (verifyEvents heap depth).foldl (Draft.hear t) d) := by
  have hrun : ∀ (entries : List (Handle × Block)) (now : Heap) (d : Draft σ),
      now.payload? = heap.payload? →
      entries.foldl (watchBlock t depth) (now, d) =
        (entries.foldl (fun heap p => heap.update p.1 .unmarked) now,
          (entries.flatMap fun p => verifyBlock heap depth p.1 p.2).foldl (Draft.hear t) d) := by
    intro entries
    induction entries with
    | nil => exact fun _ _ _ => rfl
    | cons entry entries ih =>
      intro now d hp
      have hnext : (now.update entry.1 .unmarked).payload? = heap.payload? :=
        (Heap.payload?_update .unmarked (fun _ => rfl) now entry.1).trans hp
      rw [List.foldl_cons, watchBlock_eq, verifyBlock_congr hp, ih _ _ hnext, List.foldl_cons,
        List.flatMap_cons, List.foldl_append]
  rw [hrun heap.entries heap d rfl, Heap.foldl_update_entries]
  rfl

/-- A watched pass does what the pass does and reports what it reports; the tracer is told of its
events in order. -/
theorem watch_eq (e : Engine) (flags : Flags) (s : σ) :
    e.watch t flags s =
      ((e.audit flags).1, (e.audit flags).2.report,
        (e.audit flags).2.events.foldl t.hear s) := by
  have hphase : ∀ (d : Draft σ) (p : Phase), d.phase t p = d.hear t (.phase p) := fun _ _ => rfl
  have hcleared : e.setHeap e.heap.clearScratch = e.cleared := rfl
  unfold watch audit
  simp only [Draft.start_eq, foldl_watchReset, hcleared, Draft.foldl_emit, hphase,
    foldl_watchProbe, foldl_watchBlock]
  cases hr : flags.resetOnly with
  | true =>
    simp only [if_true]
    rw [← Draft.finish_eq]
    rfl
  | false =>
    simp only [Bool.false_eq_true, if_false]
    rw [← Draft.finish_eq]
    simp [resetEvents, reconcileEvents, walkAll, List.foldl_append]

/-- The report of a pass that nobody watches. -/
def reportOf (e : Engine) (flags : Flags) : Report := (e.watch .silent flags ()).2.1

theorem reportOf_eq (e : Engine) (flags : Flags) : e.reportOf flags = (e.audit flags).2.report := by
  rw [reportOf, watch_eq]

end Engine

/-! ## Recordings -/

namespace Tracer

theorem hear_recording (limit : Option Nat) (events : List Event) (event : Event) :
    (recording limit).hear events event =
      if event.isRecorded then push limit events event else events := by
  cases event <;> rfl

theorem foldl_hear_unlimited (start events : List Event) :
    events.foldl (recording none).hear start = start ++ recorded none events := by
  induction events generalizing start with
  | nil => simp [recorded]
  | cons event events ih =>
    rw [List.foldl_cons, ih, hear_recording]
    cases hr : event.isRecorded <;> simp [recorded, push, hr]

/-- Once there are as many events as the limit allows, no more are written down. -/
theorem foldl_hear_limited (limit : Nat) (start events : List Event) (hs : start.length ≤ limit) :
    events.foldl (recording (some limit)).hear start =
      (start ++ recorded none events).take limit := by
  induction events generalizing start with
  | nil =>
    show start = (start ++ []).take limit
    rw [List.append_nil, List.take_of_length_le hs]
  | cons event events ih =>
    rw [List.foldl_cons, hear_recording]
    cases hr : event.isRecorded with
    | false => simpa [recorded, hr] using ih start hs
    | true =>
      have hrest : recorded none (event :: events) = event :: recorded none events := by
        simp [recorded, hr]
      rw [if_pos rfl, hrest, push]
      by_cases hfull : limit ≤ start.length
      · have hlen : start.length = limit := Nat.le_antisymm hs hfull
        rw [if_pos (by simpa using hfull), ih start hs, ← hlen, List.take_left, List.take_left]
      · rw [if_neg (by simpa using hfull), ih _ (by simp; omega), List.append_assoc]
        rfl

/-- A recording is the recorded events from the start. -/
theorem foldl_hear_recording (limit : Option Nat) (events : List Event) :
    events.foldl (recording limit).hear [] = recorded limit events := by
  cases limit with
  | none => exact foldl_hear_unlimited [] events
  | some n => exact foldl_hear_limited n [] events n.zero_le

end Tracer

end HeapAudit
