import HeapAudit.Block.Category
import HeapAudit.Block.Handle
import HeapAudit.Text.Quoted

/-!
What an audit can find, how serious it is and how it is worded.

Main definitions
* `Finding`: one thing found wrong, or worth a note.
* `Finding.severity`, `Severity.isFatal`: which findings fail a strict audit.
* `Finding.text`: the line of the report.
-/

namespace HeapAudit

/-! ## Where references come from -/

/-- The part of the engine's own state a reference is held by. -/
inductive RootKind where
  | session
  | inputTo
  | failMessage
  | defaultFailMessage
  | configString
  | stack
  | applyReturn
  | commandGiver
  | callOut
  | freeSentence
  | simulName
  | predefine
  | addressName
  | master
  | simulOwner
  | liveObject
  | destructedObject
  | external
deriving DecidableEq, Repr

def RootKind.name : RootKind → String
  | session => "session"
  | inputTo => "input_to"
  | failMessage => "fail_message"
  | defaultFailMessage => "default_fail_message"
  | configString => "config_string"
  | stack => "stack"
  | applyReturn => "apply_return"
  | commandGiver => "command_giver"
  | callOut => "call_out"
  | freeSentence => "free_sentence"
  | simulName => "simul_name"
  | predefine => "predefine"
  | addressName => "address_name"
  | master => "master"
  | simulOwner => "simul_owner"
  | liveObject => "live_object"
  | destructedObject => "destructed_object"
  | external => "external"

/-- A root, or a block that is named with its category. -/
inductive Origin where
  | root (kind : RootKind)
  | block (h : Handle) (category : Category)
deriving DecidableEq, Repr

def Origin.text : Origin → String
  | root kind => "root " ++ kind.name
  | block h category => category.label ++ " " ++ h.text

/-! ## Totals that are recomputed -/

/-- A total the engine keeps and the audit recomputes. -/
inductive Gauge where
  | callOutBytes
  | pendingCallOuts
  | sentences
  | objects
  | programs
  | arrays
  | arrayBytes
  | classes
  | classBytes
  | mappings
  | sessions
deriving DecidableEq, Repr

def Gauge.label : Gauge → String
  | callOutBytes => "call_out bytes"
  | pendingCallOuts => "pending call_outs"
  | sentences => "sentences"
  | objects => "objects"
  | programs => "program blocks"
  | arrays => "arrays"
  | arrayBytes => "array bytes"
  | classes => "classes"
  | classBytes => "class bytes"
  | mappings => "mappings"
  | sessions => "sessions"

/-- A total the string table keeps and the audit recomputes. -/
inductive StringGauge where
  | distinct
  | references
  | distinctBytes
  | allocatedBytes
deriving DecidableEq, Repr

def StringGauge.label : StringGauge → String
  | distinct => "distinct strings"
  | references => "string references"
  | distinctBytes => "distinct string bytes"
  | allocatedBytes => "allocated string bytes"

/-! ## Severity -/

/-- From the least to the most serious. -/
inductive Severity where
  | note
  | orphan
  | cardinality
  | structural
  | accounting
  | countMismatch
deriving DecidableEq, Repr

namespace Severity

def rank : Severity → Nat
  | note => 0
  | orphan => 1
  | cardinality => 2
  | structural => 3
  | accounting => 4
  | countMismatch => 5

def name : Severity → String
  | note => "note"
  | orphan => "orphan"
  | cardinality => "cardinality"
  | structural => "structural"
  | accounting => "accounting"
  | countMismatch => "count_mismatch"

def all : List Severity := [note, orphan, cardinality, structural, accounting, countMismatch]

/-- Fatal findings fail a strict audit. -/
def isFatal (s : Severity) : Bool := accounting.rank ≤ s.rank

theorem isFatal_iff (s : Severity) : s.isFatal = true ↔ s = accounting ∨ s = countMismatch := by
  cases s <;> decide

end Severity

/-! ## Findings -/

inductive Finding where
  /-- The stored count is not the number of references found; an array shows its contents. -/
  | countMismatch (category : Category) (description : String) (stored expected : Nat)
      (contents : Option String)
  /-- A program is kept loaded by another number of closures than it has noted. -/
  | pinMismatch (program : String) (stored expected : Nat)
  /-- The recorded size of an aggregate is not the size its slots imply. -/
  | sizeMismatch (category : Category) (description : String) (recorded implied : Nat)
  /-- The length kept beside a private string is not its length. -/
  | stringLength (text : String) (declared actual : Nat)
  /-- More blocks of a category than its ceiling. -/
  | cardinality (category : Category) (count ceiling : Nat)
  /-- A block that has to be reached was not. -/
  | orphan (category : Category) (description : String)
  /-- A block of a category that has no place between operations. -/
  | unexpected (category : Category) (description : String)
  | aggregate (gauge : Gauge) (stored actual : Nat)
  /-- There are not as many mapping tables as mappings were counted. -/
  | mapTables (tables mappings : Nat)
  | stringStat (gauge : StringGauge) (stored actual : Nat)
  /-- An object that is neither on the live nor on the destructed list. -/
  | notInObjectList (name : String)
  /-- An object without a program; none is counted for it. -/
  | swapped (name : String)
  /-- A reference to a block that is gone. -/
  | dangling (origin : Origin) (target : Handle) (expected : Category)
  /-- A reference to a block of another category. -/
  | wrongCategory (origin : Origin) (target : Handle) (expected found : Category)
  /-- A block that only one owner may hold was reached again. -/
  | multipleOwners (category : Category) (description : String) (origin : Origin)
  /-- A counted block that was not checked. -/
  | exempt (category : Category) (description : String)
deriving DecidableEq, Repr

namespace Finding

def severity : Finding → Severity
  | countMismatch .. | pinMismatch .. => .countMismatch
  | aggregate .. | stringStat .. | dangling .. | wrongCategory .. => .accounting
  | sizeMismatch .. | stringLength .. | mapTables .. | notInObjectList .. | multipleOwners .. =>
    .structural
  | cardinality .. | unexpected .. => .cardinality
  | orphan .. => .orphan
  | swapped .. | exempt .. => .note

def isCountMismatch (f : Finding) : Bool := f.severity = .countMismatch

def isFatal (f : Finding) : Bool := f.severity.isFatal

/-- A tag is shown in four hexadecimal digits. -/
def tagText (c : Category) : String := Text.zeroPadded 4 (Text.hexDigits c.tag)

/-- A total that disagrees is worded alike for the engine and for the strings. -/
def totalText (label : String) (stored actual : Nat) : String :=
  s!"WARNING: {label} is: {stored} should be: {actual}"

def text : Finding → String
  | countMismatch category description stored expected contents =>
    s!"bad ref count for {category.label} ({description}), is {stored} - should be {expected}"
      ++ contents.elim "" ("\n" ++ ·)
  | pinMismatch program stored expected =>
    s!"bad function ref count for program ({program}), is {stored} - should be {expected}"
  | sizeMismatch category description recorded implied =>
    s!"{category.label} size doesn't match block size: {description} "
      ++ s!"(block {recorded}, contents {implied})"
  | stringLength text declared actual =>
    "malloc'ed string length is incorrect: " ++ Text.quoted text
      ++ s!": is {declared} should be {actual}"
  | cardinality category count ceiling =>
    s!"WARNING: {count} {category.label} blocks allocated, at most {ceiling} expected."
  | orphan category description => s!"WARNING: found orphan {category.label}: {description}"
  | unexpected category description =>
    s!"WARNING: found {category.label}: {description} " ++ tagText category
  | aggregate gauge stored actual => totalText gauge.label stored actual
  | stringStat gauge stored actual => totalText gauge.label stored actual
  | mapTables tables mappings => s!"WARNING: {tables} tables for {mappings} mappings"
  | notInObjectList name => s!"WARNING: {name} not in object list."
  | swapped name => s!"{name} is swapped out; program not counted."
  | dangling origin target expected =>
    s!"WARNING: {origin.text} holds a dangling {expected.label} reference {target.text}"
  | wrongCategory origin target expected found =>
    s!"WARNING: {origin.text} holds a {expected.label} reference {target.text} "
      ++ s!"to a {found.label}"
  | multipleOwners category description origin =>
    s!"WARNING: {category.label} ({description}) has multiple owners, "
      ++ s!"again reached from {origin.text}"
  | exempt category description => s!"skipped audit-exempt {category.label} ({description})"

end Finding

end HeapAudit
