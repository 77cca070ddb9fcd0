import HeapAudit.Audit.Report
import HeapAudit.MapAccum

/-!
The events of a pass as they are followed from outside: recorded, printed line by line, or sent
to a log with levels. All of these may be cut off where only the start is of interest.

Main definitions
* `recorded`: the recording of a pass.
* `progressText`: the lines of a pass, with a limit on those for roots.
* `logRecords`: the records for a log.
-/

namespace HeapAudit

namespace Event

/-- Consulting a provider shows in a log only. -/
def isRecorded : Event → Bool
  | consult _ => false
  | _ => true

end Event

/-! ## Recording -/

/-- The events from the start, at most `limit` of them. -/
def recorded (limit : Option Nat) (events : List Event) : List Event :=
  let kept := events.filter Event.isRecorded
  limit.elim kept kept.take

/-- The targets of the recorded references of one kind of root. -/
def rootsOf (kind : RootKind) (events : List Event) : List Handle :=
  events.filterMap fun
    | .root k target => if k = kind then some target else none
    | _ => none

/-! ## Progress lines -/

/-- The line of an event that is no root reference. -/
def progressLine : Event → String
  | .phase p => Text.line ("--- audit: " ++ p.name)
  | .finding f => Text.line ("!!! " ++ f.text)
  | .exempt h category => Text.line s!"  skip exempt {category.label} {h.text}"
  | .finished blocks findings =>
    Text.line s!"--- audit: done, {blocks} blocks, {findings} diagnostic(s)"
  | .consult _ | .root _ _ => ""

def rootLine (kind : RootKind) (target : Handle) : String :=
  Text.line s!"  root {kind.name} -> {target.text}"

def limitLine (limit : Nat) : String :=
  Text.line s!"--- root trace limit reached ({limit} references) ---"

/-- How far the printing of root lines has come. -/
structure RootPrinting where
  printed : Nat := 0
  stopped : Bool := false
deriving DecidableEq, Repr

/-- The limit is looked at after a root line was printed. -/
def printEvent (limit : Option Nat) (state : RootPrinting) : Event → RootPrinting × String
  | .root kind target =>
    if state.stopped then (state, "")
    else
      let printed := state.printed + 1
      match limit with
      | none => (⟨printed, false⟩, rootLine kind target)
      | some n =>
        if n ≤ printed then (⟨printed, true⟩, rootLine kind target ++ limitLine n)
        else (⟨printed, false⟩, rootLine kind target)
  | other => (state, progressLine other)

def printEvents (limit : Option Nat) (state : RootPrinting) (events : List Event) : String :=
  String.join (mapAccum (printEvent limit) state events).2

theorem printEvents_cons (limit : Option Nat) (state : RootPrinting) (event : Event)
    (rest : List Event) :
    printEvents limit state (event :: rest) =
      (printEvent limit state event).2 ++
        printEvents limit (printEvent limit state event).1 rest := by
  rw [printEvents, mapAccum_cons, String.join_cons, printEvents]

def progressText (limit : Option Nat) (events : List Event) : String :=
  printEvents limit {} events

/-! ## Log records -/

inductive LogLevel where
  | error
  | warn
  | info
  | debug
  | trace
deriving DecidableEq, Repr

def LogLevel.name : LogLevel → String
  | error => "error"
  | warn => "warn"
  | info => "info"
  | debug => "debug"
  | trace => "trace"

/-- Fatal findings are errors, the others warnings. -/
def logRecord : Event → LogLevel × String
  | .phase p => (.debug, "audit phase: " ++ p.name)
  | .consult provider => (.trace, "marking roots of provider " ++ provider)
  | .root kind target => (.trace, s!"audit root {kind.name} -> {target.text}")
  | .finding f => (if f.isFatal then .error else .warn, f.text)
  | .exempt h category => (.debug, s!"audit skipped exempt {category.label} {h.text}")
  | .finished blocks findings =>
    (.debug, s!"audit finished: {blocks} blocks, {findings} diagnostic(s)")

def logRecords (events : List Event) : List (LogLevel × String) := events.map logRecord

end HeapAudit
