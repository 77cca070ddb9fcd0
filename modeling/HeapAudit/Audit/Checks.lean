import HeapAudit.Audit.Walk
import HeapAudit.Heap.Census

/-!
The checks around the walk: what is wrong with a block by itself, the totals against a census,
and after the walk the stored counts against the recomputed ones.

Main definitions
* `resetFindings`: transient blocks and lengths of private strings.
* `ceilingFindings`, `gaugeFindings`, `stringFindings`: the totals.
* `verifyEvents`: counts, pins and blocks that were not reached.
-/

namespace HeapAudit

/-! ## Before the walk -/

/-- Of the transient blocks a reset-only pass mentions the miscellaneous ones alone. -/
def transientFindings (flags : Flags) (b : Block) : List Finding :=
  if b.category.isTransient ∧ (¬ flags.resetOnly ∨ b.category = .misc) then
    [.unexpected b.category b.description]
  else []

def lengthFindings : Payload → List Finding
  | .privateText content declared =>
    if declared = content.utf8ByteSize then []
    else [.stringLength content declared content.utf8ByteSize]
  | _ => []

def resetFindings (flags : Flags) (blocks : List Block) : List Finding :=
  blocks.flatMap fun b => transientFindings flags b ++ lengthFindings b.payload

/-! ## Totals -/

def ceilingFindings (census : Census) (ceilings : Ceilings) : List Finding :=
  ceilings.bounded.filterMap fun (category, ceiling) =>
    let count := (census.tally category).blocks
    if ceiling.toNat < count then some (.cardinality category count ceiling.toNat) else none

/-- Each gauge with the engine's value and the census's. The engine's sums of bytes are read as the
words the census has. -/
def gaugeReadings (e : Engine) (census : Census) : List (Gauge × Nat × Nat) :=
  let c := e.counters
  let callOuts := census.tally .callOut
  let arrays := census.tally .array
  let classes := census.tally .classInstance
  [(.callOutBytes, Word.wrap c.callOutBytes, callOuts.bytes),
   (.pendingCallOuts, e.roots.callOuts.length, callOuts.blocks),
   (.sentences, c.sentences, (census.tally .sentence).blocks),
   (.objects, c.objects, (census.tally .object).blocks),
   (.programs, c.programs, (census.tally .program).blocks),
   (.arrays, c.arrays, arrays.blocks),
   (.arrayBytes, Word.wrap c.arrayBytes, arrays.bytes),
   (.classes, c.classes, classes.blocks),
   (.classBytes, Word.wrap c.classBytes, classes.bytes),
   (.mappings, c.mappings, (census.tally .mapping).blocks),
   (.sessions, e.roots.sessions.length, (census.tally .interactive).blocks)]

def tableFindings (e : Engine) (census : Census) : List Finding :=
  let tables := (census.tally .mapTable).blocks
  if tables = e.counters.mappings then [] else [.mapTables tables e.counters.mappings]

def gaugeFindings (e : Engine) (census : Census) : List Finding :=
  ((gaugeReadings e census).filterMap fun (gauge, stored, actual) =>
      if stored = actual then none else some (.aggregate gauge stored actual))
    ++ tableFindings e census

def stringReadings (stored actual : StringTotals) : List (StringGauge × Nat × Nat) :=
  [(.distinct, stored.distinct, actual.distinct),
   (.references, stored.references, actual.references),
   (.distinctBytes, stored.distinctBytes, actual.distinctBytes),
   (.allocatedBytes, stored.allocatedBytes, actual.allocatedBytes)]

def stringFindings (e : Engine) : List Finding :=
  (stringReadings e.strings.totals (.ofBlocks e.heap.blocks)).filterMap
    fun (gauge, stored, actual) =>
      if stored = actual then none else some (.stringStat gauge stored actual)

/-! ## After the walk -/

/-- How a counted block is named. -/
def describe (heap : Heap) (b : Block) : String :=
  match b.payload with
  | .object ob => (heap.stringText? ob.name).getD "<unnamed>"
  | .program p => (heap.stringText? p.filename).getD "<unnamed>"
  | .closure c => "owned by " ++ (c.owner.bind heap.objectName?).getD "(null)"
  | .sharedText content | .privateText content _ => Text.quoted content
  | _ => b.description

def describeCallee (heap : Heap) : Callee → String
  | .name h => (heap.stringText? h).getD "(null)"
  | .closure _ => "<function>"

/-- How a block is named that was not reached. -/
def describeOrphan (heap : Heap) (b : Block) : String :=
  match b.payload with
  | .sentence s =>
    (heap.objectName? s.owner).getD "(null)" ++ ":" ++ describeCallee heap s.callee ++ " - "
      ++ b.description
  | .text content => Text.quoted content ++ " (" ++ b.description ++ ")"
  | _ => b.description

/-- A mismatched array shows its contents. -/
def shownContents (heap : Heap) (depth : Nat) (b : Block) : Option String :=
  match b.category, b.payload with
  | .array, .slots items => some (heap.renderItems depth items)
  | _, _ => none

def countFindings (heap : Heap) (depth : Nat) (b : Block) : List Finding :=
  if b.refs = b.scratch.expected then []
  else
    [.countMismatch b.category (describe heap b) b.refs b.scratch.expected
      (shownContents heap depth b)]

def pinFindings (heap : Heap) (b : Block) : List Finding :=
  match b.payload with
  | .program p =>
    if p.pins = b.scratch.pins then []
    else [.pinMismatch (describe heap b) p.pins b.scratch.pins]
  | _ => []

/-- What is left to say of a block without a count. -/
def markFindings (heap : Heap) (b : Block) : List Finding :=
  if b.category.requiresMark ∧ ¬ b.scratch.visited then
    [.orphan b.category (describeOrphan heap b)]
  else if b.category = .ed then [.unexpected b.category b.description]
  else []

def exemptEvents (heap : Heap) (h : Handle) (b : Block) : List Event :=
  [.exempt h b.category, .finding (.exempt b.category (describe heap b))]

def verifyBlock (heap : Heap) (depth : Nat) (h : Handle) (b : Block) : List Event :=
  if b.category.isCounted then
    if b.exempt then exemptEvents heap h b
    else (countFindings heap depth b ++ pinFindings heap b).map .finding
  else (markFindings heap b).map .finding

def verifyEvents (heap : Heap) (depth : Nat) : List Event :=
  heap.entries.flatMap fun (h, b) => verifyBlock heap depth h b

end HeapAudit
