import HeapAudit.Block.IdentTable
import HeapAudit.Block.Value

/-!
What a block holds. Blocks nobody looks into are `blank`; every payload that refers to other
blocks has a shape of its own.

Main definitions
* `Payload`: the shapes.
* `Payload.footprint`: the size recorded for a fresh block.
* `Closure.pinned?`: the program whose code a closure keeps loaded.
-/

namespace HeapAudit

/-! ## Closures -/

/-- What a closure calls. -/
inductive ClosureKind where
  | named (index : Nat)
  | builtin (index : Nat)
  /-- Code of the owner's program. -/
  | ownCode (index : Nat) (bindable : Bool)
  /-- Anonymous code compiled into `program`. -/
  | functional (program : Handle)
deriving DecidableEq, Repr

/-- A closure holds one reference to its owner and one to its bound arguments. -/
structure Closure where
  kind : ClosureKind
  owner : Option Handle
  args : Option Handle
deriving DecidableEq, Repr

/-- Anonymous code pins the program it was compiled into, code that cannot be rebound the program
its owner runs. -/
def ClosureKind.pinned? (ownerProgram : Option Handle) : ClosureKind → Option Handle
  | functional program => some program
  | ownCode _ false => ownerProgram
  | ownCode _ true | named _ | builtin _ => none

/-! ## Objects and commands -/

/-- What a sentence, a timer or a failure message refers to: a closure or an interned name. -/
inductive Callee where
  | closure (target : Handle)
  | name (target : Handle)
deriving DecidableEq, Repr

namespace Callee

def target : Callee → Handle
  | closure h | name h => h

def category : Callee → Category
  | closure _ => .function
  | name _ => .sharedString

end Callee

/-- The name and the sentences are owned by the object alone; the rest is counted. -/
structure Object where
  name : Handle
  /-- Nothing while the object is swapped out. -/
  program : Option Handle
  vars : List Value
  sentences : List Handle
  livingName : Option Handle
  replacedProgram : Option Handle
  privileges : Option Handle
deriving DecidableEq, Repr

/-- A command binding or a redirect of input. It does not hold its owner by itself. -/
structure Sentence where
  owner : Handle
  callee : Callee
  verb : Option Handle
deriving DecidableEq, Repr

/-! ## Programs -/

/-- An inherited program and where its functions and variables start in the heir. -/
structure Inherit where
  program : Handle
  functionOffset : Nat
  variableOffset : Nat
deriving DecidableEq, Repr

structure Program where
  filename : Handle
  inherits : List Inherit
  /-- Nothing for a prototype without a definition. -/
  functionNames : List (Option Handle)
  variableNames : List Handle
  strings : List Handle
  lineInfo : Option Handle
  /-- Closures that keep code of this program loaded. -/
  pins : Nat
  totalFunctions : Nat
  totalVariables : Nat
deriving DecidableEq, Repr

/-! ## Sessions and timers -/

/-- A pending redirect of the next input line. -/
structure Redirect where
  sentence : Handle
  carried : List Value
deriving DecidableEq, Repr

structure Session where
  object : Handle
  redirect : Option Redirect
  failMessage : Option Callee
deriving DecidableEq, Repr

structure CallOut where
  callee : Callee
  object : Option Handle
  args : List Value
  due : Nat
deriving DecidableEq, Repr

/-! ## Payloads -/

inductive Payload where
  | blank
  /-- Text that belongs to the block: object names, settings, predefined names. -/
  | text (content : String)
  /-- A private string with the length the engine believes it has. -/
  | privateText (content : String) (declared : Nat)
  | sharedText (content : String)
  /-- The slots of an array or class. -/
  | slots (items : List Value)
  | bytes (content : List UInt8)
  | mapping (table : Handle)
  | mapTable (nodes : List Handle)
  | mapNode (key value : Value)
  | closure (closure : Closure)
  | object (object : Object)
  | program (program : Program)
  | sentence (sentence : Sentence)
  | session (session : Session)
  | callOut (callOut : CallOut)
  | identTable (table : IdentTable)
deriving DecidableEq, Repr

namespace Payload

def stringHeader : Nat := 8

def aggregateHeader : Nat := 24

/-- The bytes an aggregate of `n` slots takes. -/
def aggregateSize (n : Nat) : Nat := aggregateHeader + Value.slotSize * n

def textSize (content : String) : Nat := stringHeader + content.utf8ByteSize + 1

/-- The size recorded for a block made with this payload. -/
def footprint : Payload → Nat
  | blank => 0
  | text content | sharedText content | privateText content _ => textSize content
  | slots items => aggregateSize items.length
  | bytes content => 16 + content.length
  | mapping _ => 32
  | mapTable nodes => 16 + 8 * nodes.length
  | mapNode _ _ => 8 + 2 * Value.slotSize
  | closure _ => 48
  | object ob => 96 + Value.slotSize * ob.vars.length
  | program p =>
    128 + 8 * (p.inherits.length + p.functionNames.length + p.variableNames.length
      + p.strings.length)
  | sentence _ => 40
  | session s => 96 + Value.slotSize * (s.redirect.elim 0 fun r => r.carried.length)
  | callOut c => 48 + Value.slotSize * c.args.length
  | identTable t => 3 * 8 * t.buckets.length

/-- The text of a string payload of any kind. -/
def text? : Payload → Option String
  | text content | sharedText content | privateText content _ => some content
  | _ => none

def object? : Payload → Option Object
  | object ob => some ob
  | _ => none

def program? : Payload → Option Program
  | program p => some p
  | _ => none

def session? : Payload → Option Session
  | session s => some s
  | _ => none

def sentence? : Payload → Option Sentence
  | sentence s => some s
  | _ => none

theorem object?_eq_some_iff {p : Payload} {ob : Object} : p.object? = some ob ↔ p = object ob := by
  cases p <;> simp [object?]

theorem program?_eq_some_iff {p : Payload} {q : Program} : p.program? = some q ↔ p = program q := by
  cases p <;> simp [program?]

theorem session?_eq_some_iff {p : Payload} {s : Session} : p.session? = some s ↔ p = session s := by
  cases p <;> simp [session?]

theorem sentence?_eq_some_iff {p : Payload} {s : Sentence} :
    p.sentence? = some s ↔ p = sentence s := by
  cases p <;> simp [sentence?]

end Payload

end HeapAudit
