import HeapAudit.Proofs.Engine.Client

/-!
Commands that fail. A command that hands out an error gives back the values that were moved into it
and does nothing else; one that was given only handles leaves everything as it was.

What was looked up is still there when it is looked up again: interning a text, adding a reference
and allocating a block keep every payload, so that a second look-up never fails halfway.

Main definitions
* `Command.error?`: the error a command ends with.
* `Command.moved`: the values that move into a command.
* `Engine.Guarded`: an outcome that is either a success or a refusal without a trace.

Main statements
* `Engine.guarded_addAction` and its like: no operation fails halfway.
* `Command.failed_gives_back`: what is left of a command that failed.
-/

namespace HeapAudit

namespace Engine

variable {α : Type} {e : Engine} {moved : List Value}

/-! ## Outcomes -/

/-- There was no error, or the values were given back in order and nothing else was done. -/
inductive Guarded (e : Engine) (moved : List Value) : Engine × Except EngineError α → Prop
  | refused (err : EngineError) : Guarded e moved (moved.foldl releaseValue e, .error err)
  | done (next : Engine) (a : α) : Guarded e moved (next, .ok a)

def errorOf : Except EngineError α → Option EngineError
  | .error err => some err
  | .ok _ => none

theorem Guarded.eq_of_error {outcome : Engine × Except EngineError α} (hg : e.Guarded moved outcome)
    {err : EngineError} (h : errorOf outcome.2 = some err) :
    outcome.1 = moved.foldl releaseValue e := by
  cases hg with
  | refused => rfl
  | done => cases h

theorem releaseValues_eq_foldl (e : Engine) (values : List Value) :
    e.releaseValues values = values.foldl releaseValue e := by
  induction values generalizing e with
  | nil => rfl
  | cons v values ih =>
    have hheld : heldBy (v :: values) = v.target?.toList ++ heldBy values := by
      rw [heldBy, List.filterMap_cons]
      cases v.target? <;> rfl
    rw [releaseValues, hheld, releaseAll, List.foldl_append]
    exact ih (e.releaseValue v)

theorem guarded_releaseValues (e : Engine) (values : List Value) (err : EngineError) :
    e.Guarded values (e.releaseValues values, (.error err : Except EngineError α)) := by
  rw [releaseValues_eq_foldl]
  exact .refused err

/-! ## Values, programs and objects -/

theorem guarded_newClosure (kind : ClosureKind) (owner : Option Handle) (args : List Value) :
    e.Guarded args (e.newClosure kind owner args) := by
  unfold newClosure
  cases e.prepareClosure kind owner with
  | error err => exact guarded_releaseValues e args err
  | ok pinned => exact .done _ _

theorem guarded_objectValue (ob : Handle) : e.Guarded [] (e.objectValue ob) := by
  unfold objectValue
  cases e.object ob with
  | error err => exact .refused err
  | ok o => exact .done _ _

theorem guarded_newProgram (source : ProgramSource) : e.Guarded [] (e.newProgram source) := by
  unfold newProgram
  cases e.layOut 0 0 source.inherits with
  | error err => exact .refused err
  | ok laid => exact .done _ _

theorem guarded_newObject (name : String) (program : Handle) :
    e.Guarded [] (e.newObject name program) := by
  unfold newObject
  cases e.program program with
  | error err => exact .refused err
  | ok p => exact .done _ _

theorem guarded_setVariable (ob : Handle) (index : Nat) (v : Value) :
    e.Guarded [v] (e.setVariable ob index v) := by
  unfold setVariable
  cases e.object ob with
  | error err => exact .refused err
  | ok o =>
    simp only
    cases o.vars[index]? with
    | none => exact .refused _
    | some old => exact .done _ _

theorem guarded_setLabel (ob : Handle) (label : ObjectLabel) (text : Option String) :
    e.Guarded [] (e.setLabel ob label text) := by
  cases ho : e.object ob with
  | error err =>
    unfold setLabel
    rw [ho]
    exact .refused err
  | ok o =>
    rw [setLabel_eq ho]
    exact .done _ _

theorem guarded_swapOut (ob : Handle) : e.Guarded [] (e.swapOut ob) := by
  unfold swapOut
  cases e.object ob with
  | error err => exact .refused err
  | ok o =>
    simp only
    cases o.program with
    | none => exact .done _ _
    | some program =>
      simp only
      cases e.program program with
      | error err => exact .refused err
      | ok p =>
        simp only
        split
        · exact .refused _
        · exact .done _ _

theorem guarded_destruct (ob : Handle) : e.Guarded [] (e.destruct ob) := by
  unfold destruct
  cases e.object ob with
  | error err => exact .refused err
  | ok o =>
    simp only
    split <;> exact .done _ _

/-! ## Commands, sessions and timers -/

theorem guarded_attachSentence {ob : Handle} {o : Object} (ho : e.object ob = .ok o)
    (callee : Callee) (verb : String) (start : Engine) :
    start.Guarded moved (e.attachSentence ob callee verb) := by
  rw [attachSentence_eq ho]
  exact .done _ _

theorem guarded_addAction (ob : Handle) (function verb : String) :
    e.Guarded [] (e.addAction ob function verb) := by
  unfold addAction
  cases ho : e.object ob with
  | error err => exact .refused err
  | ok o => exact guarded_attachSentence ((e.keeps_intern function).object ho) _ _ _

theorem guarded_addActionClosure (ob : Handle) (v : Value) (verb : String) :
    e.Guarded [v] (e.addActionClosure ob v verb) := by
  unfold addActionClosure
  split
  · cases ho : e.object ob with
    | error err => exact .refused err
    | ok o => exact guarded_attachSentence ho _ _ _
  · exact .refused _

theorem guarded_connect (ob : Handle) : e.Guarded [] (e.connect ob) := by
  unfold connect
  cases e.object ob with
  | error err => exact .refused err
  | ok o => exact .done _ _

theorem guarded_disconnect (session : Handle) : e.Guarded [] (e.disconnect session) := by
  unfold disconnect
  cases e.session session with
  | error err => exact .refused err
  | ok s => exact .done _ _

theorem guarded_setInput (session : Handle) (function : String) (carried : List Value) :
    e.Guarded carried (e.setInput session function carried) := by
  cases hs : e.session session with
  | error err =>
    unfold setInput
    rw [hs]
    exact guarded_releaseValues e carried err
  | ok s =>
    rw [setInput_eq hs]
    exact .done _ _

theorem guarded_clearInput (session : Handle) : e.Guarded [] (e.clearInput session) := by
  unfold clearInput
  cases e.session session with
  | error err => exact .refused err
  | ok s => exact .done _ _

theorem guarded_putFailMessage {session : Handle} {s : Session} (hs : e.session session = .ok s)
    (message : Callee) (start : Engine) :
    start.Guarded moved (e.putFailMessage session message) := by
  unfold putFailMessage
  rw [hs]
  exact .done _ _

theorem guarded_setFailMessage (session : Handle) (text : String) :
    e.Guarded [] (e.setFailMessage session text) := by
  unfold setFailMessage
  cases hs : e.session session with
  | error err => exact .refused err
  | ok s => exact guarded_putFailMessage ((e.keeps_intern text).session hs) _ _

theorem guarded_setFailClosure (session closure : Handle) :
    e.Guarded [] (e.setFailClosure session closure) := by
  unfold setFailClosure
  cases hs : e.session session with
  | error err => exact .refused err
  | ok s =>
    simp only
    cases e.block closure .function with
    | error err => exact .refused err
    | ok b => exact guarded_putFailMessage hs _ _

theorem guarded_callOut (ob : Handle) (function : String) (args : List Value) (delay : Nat) :
    e.Guarded args (e.callOut ob function args delay) := by
  unfold callOut
  cases e.object ob with
  | error err => exact guarded_releaseValues e args err
  | ok o => exact .done _ _

theorem guarded_removeCallOut (call : Handle) : e.Guarded [] (e.removeCallOut call) := by
  unfold removeCallOut
  cases e.block call .callOut with
  | error err => exact .refused err
  | ok b => exact .done _ _

/-! ## Objects the engine knows -/

theorem guarded_setMaster (ob : Handle) : e.Guarded [] (e.setMaster ob) := by
  unfold setMaster
  cases e.object ob with
  | error err => exact .refused err
  | ok o => exact .done _ _

theorem guarded_setSimulOwner (ob : Handle) : e.Guarded [] (e.setSimulOwner ob) := by
  unfold setSimulOwner
  cases e.object ob with
  | error err => exact .refused err
  | ok o => exact .done _ _

theorem guarded_pushCommandGiver (ob : Handle) : e.Guarded [] (e.pushCommandGiver ob) := by
  unfold pushCommandGiver
  cases e.object ob with
  | error err => exact .refused err
  | ok o => exact .done _ _

end Engine

namespace Command

open Engine

/-! ## Commands that fail -/

/-- The error a command ends with; only commands with a result can fail. -/
def error? (e : Engine) : Command → Option EngineError
  | newClosure kind owner args => errorOf (e.newClosure kind owner args).2
  | newProgram source => errorOf (e.newProgram source).2
  | newObject name program => errorOf (e.newObject name program).2
  | objectValue ob => errorOf (e.objectValue ob).2
  | setVariable ob index v => errorOf (e.setVariable ob index v).2
  | setLabel ob label text => errorOf (e.setLabel ob label text).2
  | swapOut ob => errorOf (e.swapOut ob).2
  | destruct ob => errorOf (e.destruct ob).2
  | addAction ob function verb => errorOf (e.addAction ob function verb).2
  | addActionClosure ob v verb => errorOf (e.addActionClosure ob v verb).2
  | connect ob => errorOf (e.connect ob).2
  | disconnect session => errorOf (e.disconnect session).2
  | setInput session function carried => errorOf (e.setInput session function carried).2
  | clearInput session => errorOf (e.clearInput session).2
  | setFailMessage session text => errorOf (e.setFailMessage session text).2
  | setFailClosure session closure => errorOf (e.setFailClosure session closure).2
  | callOut ob function args delay => errorOf (e.callOut ob function args delay).2
  | removeCallOut call => errorOf (e.removeCallOut call).2
  | setMaster ob => errorOf (e.setMaster ob).2
  | setSimulOwner ob => errorOf (e.setSimulOwner ob).2
  | pushCommandGiver ob => errorOf (e.pushCommandGiver ob).2
  | _ => none

/-- The values that move into a command, in order. Handles do not move. -/
def moved : Command → List Value
  | newArray values | newClass values | newClosure _ _ values | setInput _ _ values
  | callOut _ _ values _ => values
  | newMapping pairs => pairValues pairs
  | releaseValue v | setVariable _ _ v | addActionClosure _ v _ | push v | setApplyReturn v => [v]
  | _ => []

/-- A command that fails gives back the values that were moved into it, in order, and does nothing
else, whatever state the engine is in. A command that was given nothing but handles and texts leaves
the engine as it was. -/
theorem failed_gives_back {e : Engine} {cmd : Command} {err : EngineError}
    (h : cmd.error? e = some err) :
    cmd.run e = cmd.moved.foldl Engine.releaseValue e ∧ (cmd.moved = [] → cmd.run e = e) := by
  have hrun : cmd.run e = cmd.moved.foldl Engine.releaseValue e := by
    cases cmd with
    | newClosure kind owner args => exact (guarded_newClosure kind owner args).eq_of_error h
    | newProgram source => exact (guarded_newProgram source).eq_of_error h
    | newObject name program => exact (guarded_newObject name program).eq_of_error h
    | objectValue ob => exact (guarded_objectValue ob).eq_of_error h
    | setVariable ob index v => exact (guarded_setVariable ob index v).eq_of_error h
    | setLabel ob label text => exact (guarded_setLabel ob label text).eq_of_error h
    | swapOut ob => exact (guarded_swapOut ob).eq_of_error h
    | destruct ob => exact (guarded_destruct ob).eq_of_error h
    | addAction ob function verb => exact (guarded_addAction ob function verb).eq_of_error h
    | addActionClosure ob v verb => exact (guarded_addActionClosure ob v verb).eq_of_error h
    | connect ob => exact (guarded_connect ob).eq_of_error h
    | disconnect session => exact (guarded_disconnect session).eq_of_error h
    | setInput session function carried =>
      exact (guarded_setInput session function carried).eq_of_error h
    | clearInput session => exact (guarded_clearInput session).eq_of_error h
    | setFailMessage session text => exact (guarded_setFailMessage session text).eq_of_error h
    | setFailClosure session closure => exact (guarded_setFailClosure session closure).eq_of_error h
    | callOut ob function args delay => exact (guarded_callOut ob function args delay).eq_of_error h
    | removeCallOut call => exact (guarded_removeCallOut call).eq_of_error h
    | setMaster ob => exact (guarded_setMaster ob).eq_of_error h
    | setSimulOwner ob => exact (guarded_setSimulOwner ob).eq_of_error h
    | pushCommandGiver ob => exact (guarded_pushCommandGiver ob).eq_of_error h
    | _ => cases h
  refine ⟨hrun, fun hnone => ?_⟩
  rw [hrun, hnone]
  rfl

/-- An object without variables, and an array that nothing else holds. -/
def objectAndArray : Engine :=
  ((Client.fresh {}).play
    [.newProgram { filename := "a.c" }, .newObject "a" ⟨1, 0⟩, .newArray [.number 7]]).engine

theorem failed_gives_back_objectAndArray :
    (setVariable ⟨3, 0⟩ 0 (.ref .array ⟨4, 0⟩)).error? objectAndArray =
      some (.variableIndex 0 0) ∧
    (setVariable ⟨3, 0⟩ 0 (.ref .array ⟨4, 0⟩)).run objectAndArray =
      objectAndArray.releaseValue (.ref .array ⟨4, 0⟩) ∧
    (objectAndArray.releaseValue (.ref .array ⟨4, 0⟩)).heap.isLive ⟨4, 0⟩ = false ∧
    (addAction ⟨4, 0⟩ "look" "l").error? objectAndArray =
      some (.wrongCategory ⟨4, 0⟩ .object .array) ∧
    (addAction ⟨4, 0⟩ "look" "l").run objectAndArray = objectAndArray := by
  have hindex : (setVariable ⟨3, 0⟩ 0 (.ref .array ⟨4, 0⟩)).error? objectAndArray =
      some (.variableIndex 0 0) := by decide +kernel
  have harray : (addAction ⟨4, 0⟩ "look" "l").error? objectAndArray =
      some (.wrongCategory ⟨4, 0⟩ .object .array) := by decide +kernel
  exact ⟨hindex, (failed_gives_back hindex).1, by decide +kernel, harray,
    (failed_gives_back harray).2 rfl⟩

end Command

end HeapAudit
