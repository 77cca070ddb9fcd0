import HeapAudit.Heap.StringTable
import HeapAudit.MapAccum
import HeapAudit.Settings.Basic

/-!
The engine: the heap, the string table, what the engine holds itself and the counters it keeps.

Main definitions
* `Roots`: every reference that is not inside a block.
* `Counters`: running totals, recomputed by the audit.
* `Engine.object`, `Engine.program`, `Engine.session`: a block as what it has to be, or the reason
  why it is not.

Main statements
* `object_eq_ok_iff` and its like: exactly when the typed look-ups succeed.
-/

namespace HeapAudit

/-! ## Parts of the state -/

/-- Lists grow at the end. -/
structure Roots where
  /-- Live objects; one reference to each. -/
  objects : List Handle := []
  /-- Destructed objects that wait for their last release; one reference to each. -/
  destructed : List Handle := []
  sessions : List Handle := []
  master : Option Handle := none
  simulOwner : Option Handle := none
  configStrings : List Handle := []
  /-- The shared string held for it has a line end more. -/
  defaultFailMessage : Option String := none
  applyReturn : Value := .zero
  stack : List Value := []
  commandGivers : List Handle := []
  callOuts : List Handle := []
  /-- Sentences kept for reuse. -/
  freeSentences : List Handle := []
  simulNames : List Handle := []
  predefines : List Handle := []
  addressNames : List Handle := []
deriving DecidableEq, Repr

structure Counters where
  sentences : Nat := 0
  objects : Nat := 0
  programs : Nat := 0
  arrays : Nat := 0
  arrayBytes : Nat := 0
  classes : Nat := 0
  classBytes : Nat := 0
  mappings : Nat := 0
  callOutBytes : Nat := 0
deriving DecidableEq, Repr

/-- One reference a subsystem outside the engine reports: counted, or owned by it alone. -/
inductive Holding where
  | counted (target : Handle) (category : Category)
  | owned (target : Handle) (category : Category)
deriving DecidableEq, Repr

/-- The reference a value holds. -/
def Holding.ofValue? : Value → Option Holding
  | .ref kind target => some (.counted target kind.category)
  | _ => none

/-- A subsystem that holds references the engine's roots do not show. -/
structure Provider where
  name : String
  holdings : List Holding
deriving DecidableEq, Repr

structure Engine where
  heap : Heap := .empty
  strings : StringTable := {}
  roots : Roots := {}
  counters : Counters := {}
  settings : Settings := {}
  /-- In the order of registration. -/
  providers : List Provider := []

instance : Inhabited Engine := ⟨{}⟩

/-! ## Errors -/

inductive EngineError where
  | freed (h : Handle)
  | wrongCategory (h : Handle) (expected found : Category)
  | variableIndex (index count : Nat)
  | swappedOut (object : Handle)
  /-- Closures keep code of the program loaded. -/
  | programPinned (program : Handle) (pins : Nat)
deriving DecidableEq, Repr

def EngineError.message : EngineError → String
  | freed h => s!"block {h.text} has been freed"
  | wrongCategory h expected found =>
    s!"block {h.text} is a {found.label}, expected a {expected.label}"
  | variableIndex index count =>
    s!"variable index {index} out of range for {count} variable(s)"
  | swappedOut object => s!"object {object.text} is swapped out"
  | programPinned program pins => s!"program {program.text} is pinned by {pins} closure(s)"

namespace Engine

/-! ## Typed look-up -/

def block (e : Engine) (h : Handle) (expected : Category) : Except EngineError Block :=
  match e.heap.get? h with
  | none => .error (.freed h)
  | some b => if b.category = expected then .ok b else .error (.wrongCategory h expected b.category)

/-- A block of the right category that holds something else counts as freed. -/
def payloadAs (e : Engine) (h : Handle) (expected : Category) (view : Payload → Option α) :
    Except EngineError α :=
  match e.block h expected with
  | .error err => .error err
  | .ok b =>
    match view b.payload with
    | some a => .ok a
    | none => .error (.freed h)

def object (e : Engine) (h : Handle) : Except EngineError Object :=
  e.payloadAs h .object Payload.object?

def program (e : Engine) (h : Handle) : Except EngineError Program :=
  e.payloadAs h .program Payload.program?

def session (e : Engine) (h : Handle) : Except EngineError Session :=
  e.payloadAs h .interactive Payload.session?

theorem block_eq_ok_iff {e : Engine} {h : Handle} {c : Category} {b : Block} :
    e.block h c = .ok b ↔ e.heap.get? h = some b ∧ b.category = c := by
  unfold block
  cases e.heap.get? h with
  | none => simp
  | some d =>
    by_cases hc : d.category = c
    · simp only [if_pos hc, Except.ok.injEq, Option.some.injEq]
      exact ⟨fun h => h ▸ ⟨rfl, hc⟩, fun h => h.1⟩
    · simp only [if_neg hc, Option.some.injEq, reduceCtorEq, false_iff, not_and]
      rintro rfl
      exact hc

theorem payloadAs_eq_ok_iff {e : Engine} {h : Handle} {c : Category} {view : Payload → Option α}
    {a : α} :
    e.payloadAs h c view = .ok a ↔
      ∃ b, e.heap.get? h = some b ∧ b.category = c ∧ view b.payload = some a := by
  unfold payloadAs
  cases hb : e.block h c with
  | error err =>
    simp only [reduceCtorEq, false_iff, not_exists, not_and]
    intro b hg hc
    rw [block_eq_ok_iff.2 ⟨hg, hc⟩] at hb
    cases hb
  | ok b =>
    obtain ⟨hg, hc⟩ := block_eq_ok_iff.1 hb
    cases hv : view b.payload <;> simp [hg, hc, hv]

theorem object_eq_ok_iff {e : Engine} {h : Handle} {ob : Object} :
    e.object h = .ok ob ↔
      ∃ b, e.heap.get? h = some b ∧ b.category = .object ∧ b.payload = .object ob := by
  simp only [object, payloadAs_eq_ok_iff, Payload.object?_eq_some_iff]

theorem program_eq_ok_iff {e : Engine} {h : Handle} {p : Program} :
    e.program h = .ok p ↔
      ∃ b, e.heap.get? h = some b ∧ b.category = .program ∧ b.payload = .program p := by
  simp only [program, payloadAs_eq_ok_iff, Payload.program?_eq_some_iff]

theorem session_eq_ok_iff {e : Engine} {h : Handle} {s : Session} :
    e.session h = .ok s ↔
      ∃ b, e.heap.get? h = some b ∧ b.category = .interactive ∧ b.payload = .session s := by
  simp only [session, payloadAs_eq_ok_iff, Payload.session?_eq_some_iff]

/-! ## Changes to a part -/

def setHeap (e : Engine) (heap : Heap) : Engine := { e with heap }

def setObject (e : Engine) (h : Handle) (ob : Object) : Engine :=
  { e with heap := e.heap.setPayload h (.object ob) }

def setProgram (e : Engine) (h : Handle) (p : Program) : Engine :=
  { e with heap := e.heap.setPayload h (.program p) }

def setSession (e : Engine) (h : Handle) (s : Session) : Engine :=
  { e with heap := e.heap.setPayload h (.session s) }

def allocate (e : Engine) (category : Category) (payload : Payload) (description : String) :
    Engine × Handle :=
  let (heap, h) := e.heap.allocate category payload description
  ({ e with heap }, h)

/-- The recorded size of the block behind a handle. -/
def sizeOf (e : Engine) (h : Handle) : Nat := ((e.heap.get? h).map (·.size)).getD 0

/-- A new reference to the shared string with this text. -/
def intern (e : Engine) (text : String) : Engine × Handle :=
  let (strings, heap, h) := e.strings.intern e.heap text
  ({ e with strings, heap }, h)

/-- Interns the texts in order. -/
def internAll (e : Engine) (texts : List String) : Engine × List Handle :=
  mapAccum intern e texts

theorem internAll_cons (e : Engine) (text : String) (rest : List String) :
    e.internAll (text :: rest) =
      (((e.intern text).1.internAll rest).1,
        (e.intern text).2 :: ((e.intern text).1.internAll rest).2) :=
  mapAccum_cons e text rest

/-- Adds one reference to a block that is no string. -/
def incRef (e : Engine) (h : Handle) : Engine := { e with heap := e.heap.incRef h }

end Engine

end HeapAudit
