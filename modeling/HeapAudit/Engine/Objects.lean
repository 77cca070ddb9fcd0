import HeapAudit.Engine.Values
import HeapAudit.Word

/-!
Programs and the objects that run them. Offsets and totals are words, added up without a check.

Main definitions
* `Engine.newProgram`: a compiled program; its own functions and variables come after those of
  everything it inherits.
* `Engine.newObject`, `Engine.swapOut`, `Engine.destruct`: the life of an object.
-/

namespace HeapAudit

/-! ## Programs -/

/-- What a program is compiled from. -/
structure ProgramSource where
  filename : String
  inherits : List Handle := []
  functions : List String := []
  variableNames : List String := []
  strings : List String := []
  lineNumbers : Bool := false
deriving DecidableEq, Repr

namespace Engine

/-- One inherited program more, placed in front of those before it; the offsets go on behind it. -/
def place (e : Engine) (placed : List Inherit × Nat × Nat) (parent : Handle) :
    Except EngineError (List Inherit × Nat × Nat) :=
  let (inherits, functionOffset, variableOffset) := placed
  (e.program parent).map fun p =>
    (⟨parent, functionOffset, variableOffset⟩ :: inherits,
      Word.add functionOffset p.totalFunctions, Word.add variableOffset p.totalVariables)

/-- Inherited programs laid out one after the other from the given offsets, and where they end. -/
def layOut (e : Engine) (functionOffset variableOffset : Nat) (parents : List Handle) :
    Except EngineError (List Inherit × Nat × Nat) :=
  (parents.foldlM e.place ([], functionOffset, variableOffset)).map fun (inherits, ends) =>
    (inherits.reverse, ends)

theorem foldlM_place (e : Engine) (parents : List Handle) (placed : List Inherit)
    (functionOffset variableOffset : Nat) :
    parents.foldlM e.place (placed, functionOffset, variableOffset) =
      (e.layOut functionOffset variableOffset parents).map fun (inherits, ends) =>
        (inherits.reverse ++ placed, ends) := by
  induction parents generalizing placed functionOffset variableOffset with
  | nil => rfl
  | cons parent rest ih =>
    simp only [layOut, List.foldlM_cons, place]
    cases e.program parent with
    | error err => rfl
    | ok p =>
      simp only [Except.map, bind, Except.bind]
      rw [ih, ih]
      cases e.layOut _ _ rest <;> simp [Except.map]

theorem layOut_cons (e : Engine) (functionOffset variableOffset : Nat) (parent : Handle)
    (rest : List Handle) :
    e.layOut functionOffset variableOffset (parent :: rest) =
      match e.program parent with
      | .error err => .error err
      | .ok p =>
        match e.layOut (Word.add functionOffset p.totalFunctions)
            (Word.add variableOffset p.totalVariables) rest with
        | .error err => .error err
        | .ok (inherits, ends) =>
          .ok (⟨parent, functionOffset, variableOffset⟩ :: inherits, ends) := by
  rw [layOut, List.foldlM_cons, place]
  cases e.program parent with
  | error err => rfl
  | ok p =>
    simp only [Except.map, bind, Except.bind]
    rw [foldlM_place]
    cases e.layOut _ _ rest <;> simp [Except.map]

theorem layOut_cons_eq_ok_iff {e : Engine} {functionOffset variableOffset : Nat} {parent : Handle}
    {rest : List Handle} {inherits : List Inherit} {ends : Nat × Nat} :
    e.layOut functionOffset variableOffset (parent :: rest) = .ok (inherits, ends) ↔
      ∃ p others, e.program parent = .ok p ∧
        e.layOut (Word.add functionOffset p.totalFunctions)
          (Word.add variableOffset p.totalVariables) rest = .ok (others, ends) ∧
        ⟨parent, functionOffset, variableOffset⟩ :: others = inherits := by
  rw [layOut_cons]
  constructor
  · intro hl
    cases hp : e.program parent with
    | error err => simp [hp] at hl
    | ok p =>
      cases hr : e.layOut (Word.add functionOffset p.totalFunctions)
          (Word.add variableOffset p.totalVariables) rest with
      | error err => simp [hp, hr] at hl
      | ok r =>
        simp only [hp, hr, Except.ok.injEq, Prod.mk.injEq] at hl
        exact ⟨p, r.1, rfl, hl.2 ▸ hr, hl.1⟩
  · rintro ⟨p, others, hp, hr, rfl⟩
    simp only [hp, hr]

def lineInfo (e : Engine) (lineNumbers : Bool) (functions : Nat) : Engine × Option Handle :=
  if lineNumbers then
    let (heap, h) := e.heap.allocateSized .lineNumbers .blank (16 + 4 * (functions + 1))
      "line numbers"
    (e.setHeap heap, some h)
  else (e, none)

def newProgram (e : Engine) (source : ProgramSource) : Engine × Except EngineError Handle :=
  match e.layOut 0 0 source.inherits with
  | .error err => (e, .error err)
  | .ok (inherits, functionOffset, variableOffset) =>
    let e := source.inherits.foldl incRef e
    let (e, filename) := e.intern source.filename
    let (e, functions) := e.internAll source.functions
    let (e, variableNames) := e.internAll source.variableNames
    let (e, strings) := e.internAll source.strings
    let (e, lineInfo) := e.lineInfo source.lineNumbers functions.length
    let p : Program :=
      { filename, inherits, functionNames := functions.map some, variableNames, strings, lineInfo
        pins := 0
        totalFunctions := Word.add functionOffset functions.length
        totalVariables := Word.add variableOffset variableNames.length }
    let e := { e with counters := { e.counters with programs := e.counters.programs + 1 } }
    let (e, h) := e.allocate .program (.program p) "compile_file"
    (e, .ok h)

/-! ## Objects -/

/-- The list of live objects holds the only reference to a new object. -/
def newObject (e : Engine) (name : String) (program : Handle) :
    Engine × Except EngineError Handle :=
  match e.program program with
  | .error err => (e, .error err)
  | .ok p =>
    let e := e.incRef program
    let (e, nameBlock) := e.allocate .objectName (.text name) "load_object"
    let ob : Object :=
      { name := nameBlock, program := some program
        vars := List.replicate p.totalVariables .zero
        sentences := [], livingName := none, replacedProgram := none, privileges := none }
    let (e, h) := e.allocate .object (.object ob) "load_object"
    ({ e with
       roots := { e.roots with objects := e.roots.objects ++ [h] }
       counters := { e.counters with objects := e.counters.objects + 1 } }, .ok h)

/-- What was in the variable is released; on an error the value is. -/
def setVariable (e : Engine) (ob : Handle) (index : Nat) (v : Value) :
    Engine × Except EngineError Unit :=
  match e.object ob with
  | .error err => (e.releaseValue v, .error err)
  | .ok o =>
    match o.vars[index]? with
    | none => (e.releaseValue v, .error (.variableIndex index o.vars.length))
    | some old =>
      ((e.setObject ob { o with vars := o.vars.set index v }).releaseValue old, .ok ())

def variableAt (e : Engine) (ob : Handle) (index : Nat) : Option Value :=
  match e.object ob with
  | .error _ => none
  | .ok o => o.vars[index]?

/-- The optional labels of an object. -/
inductive ObjectLabel where
  | livingName
  | privileges
  | replacedProgram
deriving DecidableEq, Repr

def ObjectLabel.get : ObjectLabel → Object → Option Handle
  | livingName, ob => ob.livingName
  | privileges, ob => ob.privileges
  | replacedProgram, ob => ob.replacedProgram

def ObjectLabel.put : ObjectLabel → Option Handle → Object → Object
  | livingName, h, ob => { ob with livingName := h }
  | privileges, h, ob => { ob with privileges := h }
  | replacedProgram, h, ob => { ob with replacedProgram := h }

/-- Interns a text, if there is one. -/
def internOption (e : Engine) : Option String → Engine × Option Handle
  | none => (e, none)
  | some text =>
    let (e, h) := e.intern text
    (e, some h)

/-- No text clears the label. The object is looked up again once the text is interned. -/
def setLabel (e : Engine) (ob : Handle) (label : ObjectLabel) (text : Option String) :
    Engine × Except EngineError Unit :=
  match e.object ob with
  | .error err => (e, .error err)
  | .ok _ =>
    let (e, new) := e.internOption text
    match e.object ob with
    | .error err => (e, .error err)
    | .ok o => ((e.setObject ob (label.put new o)).releaseAll (label.get o).toList, .ok ())

/-- Drops the object's program and keeps its variables; refused while closures pin the program. -/
def swapOut (e : Engine) (ob : Handle) : Engine × Except EngineError Unit :=
  match e.object ob with
  | .error err => (e, .error err)
  | .ok o =>
    match o.program with
    | none => (e, .ok ())
    | some program =>
      match e.program program with
      | .error err => (e, .error err)
      | .ok p =>
        if 0 < p.pins then (e, .error (.programPinned program p.pins))
        else ((e.setObject ob { o with program := none }).release program, .ok ())

/-- Moves an object from the live to the destructed list; its sentences go. -/
def destruct (e : Engine) (ob : Handle) : Engine × Except EngineError Unit :=
  match e.object ob with
  | .error err => (e, .error err)
  | .ok o =>
    let e := (e.setObject ob { o with sentences := [] }).discard (o.sentences.map .owned)
    if ob ∈ e.roots.objects then
      ({ e with
         roots := { e.roots with
           objects := e.roots.objects.erase ob
           destructed := e.roots.destructed ++ [ob] } }, .ok ())
    else (e, .ok ())

/-- Gives back the references of the destructed list. -/
def flushDestructed (e : Engine) : Engine :=
  { e with roots := { e.roots with destructed := [] } }.releaseAll e.roots.destructed

end Engine

end HeapAudit
