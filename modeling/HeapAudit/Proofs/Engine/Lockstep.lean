import HeapAudit.Proofs.Engine.Client
import HeapAudit.Proofs.Engine.Loose

/-!
Loose engines in step. Which code a closure calls matters to two commands only: one that makes a
closure, and one that swaps an object out. For each of them there is a command that does the same
to a loose engine, refusals included; every other command does the same by itself. In a loose
engine no handle comes to name another program than it was made for, so whatever holds of the
references of a client holds for as long as it runs, and generations may wrap.

Main definitions
* `Command.Mirrors`: a command does to the loose engine what another does to the engine.
* `Client.Move`, `Client.Attainable`: runs of any length, whatever becomes of generations.

Main statements
* `Command.exists_mirrors`: every command has a mirror.
* `Client.Attainable.loose`: a loose client can follow wherever a client goes.
-/

namespace HeapAudit

namespace Engine

variable {e : Engine}

/-! ## Values -/

@[simp] theorem newShared_loose (e : Engine) (text : String) :
    e.loose.newShared text = looseResult (e.newShared text) := by
  simp [newShared]

@[simp] theorem newPrivate_loose (e : Engine) (text : String) :
    e.loose.newPrivate text = looseResult (e.newPrivate text) := by
  simp [newPrivate, StringTable.newPrivate]

@[simp] theorem allocateArray_loose (e : Engine) (items : List Value) :
    e.loose.allocateArray items = looseResult (e.allocateArray items) := by
  simp [allocateArray]

@[simp] theorem newArray_loose (e : Engine) (items : List Value) :
    e.loose.newArray items = looseResult (e.newArray items) := by
  simp [newArray]

@[simp] theorem newClass_loose (e : Engine) (members : List Value) :
    e.loose.newClass members = looseResult (e.newClass members) := by
  simp [newClass]

@[simp] theorem newBuffer_loose (e : Engine) (content : List UInt8) :
    e.loose.newBuffer content = looseResult (e.newBuffer content) := by
  simp [newBuffer]

@[simp] theorem newNodes_loose (e : Engine) (pairs : List (Value × Value)) :
    e.loose.newNodes pairs = looseResult (e.newNodes pairs) := by
  induction pairs generalizing e with
  | nil => rfl
  | cons pair rest ih => simp [newNodes_cons, newNode, ih]

@[simp] theorem newMapping_loose (e : Engine) (pairs : List (Value × Value)) :
    e.loose.newMapping pairs = looseResult (e.newMapping pairs) := by
  simp [newMapping]

@[simp] theorem bindArgs_loose (e : Engine) (args : List Value) :
    e.loose.bindArgs args = looseResult (e.bindArgs args) := by
  cases args with
  | nil => rfl
  | cons v rest => simp [bindArgs]

@[simp] theorem retain_loose (e : Engine) (h : Handle) :
    e.loose.retain h = looseResult (e.retain h) := by
  unfold retain
  rw [loose_heap, Heap.get?_loose]
  cases e.heap.get? h with
  | none => rfl
  | some b =>
    have hcost : StringTable.costAt? e.heap.loose h = StringTable.costAt? e.heap h :=
      costAt?_loose e.heap h
    simp only [Option.map_some, StringTable.retain, loose_strings, hcost]
    show (if b.category = .sharedString ∨ b.category = .mallocString then _ else _) = _
    split
    · cases StringTable.costAt? e.heap h <;> simp
    · simp

@[simp] theorem cloneValue_loose (e : Engine) (v : Value) :
    e.loose.cloneValue v = looseResult (e.cloneValue v) := by
  unfold cloneValue
  cases v.target? <;> simp

theorem retained_loose (e : Engine) (h : Handle) : e.loose.retained h = e.retained h := by
  unfold retained
  rw [retain_loose, loose_heap, Heap.get?_loose]
  cases e.heap.get? h <;> rfl

@[simp] theorem objectValue_loose (e : Engine) (ob : Handle) :
    e.loose.objectValue ob = looseResult (e.objectValue ob) := by
  unfold objectValue
  cases ho : e.object ob <;> simp [ho]

/-! ## Objects -/

@[simp] theorem setVariable_loose (e : Engine) (ob : Handle) (index : Nat) (v : Value) :
    e.loose.setVariable ob index v = looseResult (e.setVariable ob index v) := by
  unfold setVariable
  cases ho : e.object ob with
  | error err => simp [ho]
  | ok o => cases hv : o.vars[index]? <;> simp [ho, hv]

@[simp] theorem internOption_loose (e : Engine) (text : Option String) :
    e.loose.internOption text = looseResult (e.internOption text) := by
  cases text <;> simp [internOption]

@[simp] theorem setLabel_loose (e : Engine) (ob : Handle) (label : ObjectLabel)
    (text : Option String) :
    e.loose.setLabel ob label text = looseResult (e.setLabel ob label text) := by
  unfold setLabel
  cases ho : e.object ob with
  | error err => simp [ho]
  | ok o => cases hn : (e.internOption text).1.object ob <;> simp [ho, hn]

@[simp] theorem destruct_loose (e : Engine) (ob : Handle) :
    e.loose.destruct ob = looseResult (e.destruct ob) := by
  unfold destruct
  cases ho : e.object ob with
  | error err => simp [ho]
  | ok o =>
    simp only [object_loose, ho, setObject_loose, discard_loose, loose_roots]
    split <;> rfl

@[simp] theorem flushDestructed_loose (e : Engine) :
    e.loose.flushDestructed = e.flushDestructed.loose := by
  simp [flushDestructed]

@[simp] theorem incRefs_loose (e : Engine) (hs : List Handle) :
    hs.foldl incRef e.loose = (hs.foldl incRef e).loose :=
  foldl_loose incRef_loose hs e

@[simp] theorem place_loose (e : Engine) : e.loose.place = e.place := by
  funext placed parent
  cases hp : e.program parent <;> simp [place, hp, Except.map, Program.withoutPins]

@[simp] theorem layOut_loose (e : Engine) (functionOffset variableOffset : Nat)
    (hs : List Handle) :
    e.loose.layOut functionOffset variableOffset hs =
      e.layOut functionOffset variableOffset hs := by
  rw [layOut, layOut, place_loose]

@[simp] theorem lineInfo_loose (e : Engine) (lineNumbers : Bool) (functions : Nat) :
    e.loose.lineInfo lineNumbers functions = looseResult (e.lineInfo lineNumbers functions) := by
  cases lineNumbers <;> simp [lineInfo]

@[simp] theorem newProgram_loose (e : Engine) (source : ProgramSource) :
    e.loose.newProgram source = looseResult (e.newProgram source) := by
  unfold newProgram
  cases hl : e.layOut 0 0 source.inherits <;> simp [hl]

@[simp] theorem newObject_loose (e : Engine) (name : String) (program : Handle) :
    e.loose.newObject name program = looseResult (e.newObject name program) := by
  unfold newObject
  cases hp : e.program program <;> simp [hp, Except.map, Program.withoutPins]

/-! ## Commands, sessions and timers -/

@[simp] theorem allocateSentence_loose (e : Engine) (s : Sentence) (description : String) :
    e.loose.allocateSentence s description = looseResult (e.allocateSentence s description) := by
  simp [allocateSentence]

@[simp] theorem attachSentence_loose (e : Engine) (ob : Handle) (callee : Callee) (verb : String) :
    e.loose.attachSentence ob callee verb = looseResult (e.attachSentence ob callee verb) := by
  simp only [attachSentence, intern_loose, looseResult_fst, looseResult_snd,
    allocateSentence_loose, object_loose]
  split <;> simp

@[simp] theorem addAction_loose (e : Engine) (ob : Handle) (function verb : String) :
    e.loose.addAction ob function verb = looseResult (e.addAction ob function verb) := by
  unfold addAction
  cases ho : e.object ob <;> simp [ho]

@[simp] theorem connect_loose (e : Engine) (ob : Handle) :
    e.loose.connect ob = looseResult (e.connect ob) := by
  unfold connect
  cases ho : e.object ob <;> simp [ho]

@[simp] theorem disconnect_loose (e : Engine) (session : Handle) :
    e.loose.disconnect session = looseResult (e.disconnect session) := by
  unfold disconnect
  cases hs : e.session session <;> simp [hs]

@[simp] theorem dropRedirect_loose (e : Engine) (r : Option Redirect) :
    e.loose.dropRedirect r = (e.dropRedirect r).loose := by
  cases r <;> simp [dropRedirect, redirectParts_loose]

@[simp] theorem setInput_loose (e : Engine) (session : Handle) (function : String)
    (carried : List Value) :
    e.loose.setInput session function carried =
      looseResult (e.setInput session function carried) := by
  cases hs : e.session session with
  | error err => simp [setInput, hs]
  | ok s => simp [setInput_eq hs, setInput_eq ((e.session_loose session).trans hs)]

@[simp] theorem clearInput_loose (e : Engine) (session : Handle) :
    e.loose.clearInput session = looseResult (e.clearInput session) := by
  unfold clearInput
  cases hs : e.session session <;> simp [hs]

@[simp] theorem putFailMessage_loose (e : Engine) (session : Handle) (message : Callee) :
    e.loose.putFailMessage session message = looseResult (e.putFailMessage session message) := by
  unfold putFailMessage
  cases hs : e.session session <;> simp [hs]

@[simp] theorem setFailMessage_loose (e : Engine) (session : Handle) (text : String) :
    e.loose.setFailMessage session text = looseResult (e.setFailMessage session text) := by
  unfold setFailMessage
  cases hs : e.session session <;> simp [hs]

@[simp] theorem setFailClosure_loose (e : Engine) (session closure : Handle) :
    e.loose.setFailClosure session closure = looseResult (e.setFailClosure session closure) := by
  unfold setFailClosure
  cases hs : e.session session with
  | error err => simp [hs]
  | ok s => cases hb : e.block closure .function <;> simp [hs, hb, block_loose, Except.map]

@[simp] theorem callOut_loose (e : Engine) (ob : Handle) (function : String) (args : List Value)
    (delay : Nat) :
    e.loose.callOut ob function args delay = looseResult (e.callOut ob function args delay) := by
  unfold callOut
  cases ho : e.object ob <;> simp [ho]

@[simp] theorem removeCallOut_loose (e : Engine) (call : Handle) :
    e.loose.removeCallOut call = looseResult (e.removeCallOut call) := by
  unfold removeCallOut
  cases hb : e.block call .callOut <;> simp [hb, block_loose, Except.map]

/-! ## Roots -/

@[simp] theorem setMaster_loose (e : Engine) (ob : Handle) :
    e.loose.setMaster ob = looseResult (e.setMaster ob) := by
  unfold setMaster
  cases ho : e.object ob <;> simp [ho]

@[simp] theorem setSimulOwner_loose (e : Engine) (ob : Handle) :
    e.loose.setSimulOwner ob = looseResult (e.setSimulOwner ob) := by
  unfold setSimulOwner
  cases ho : e.object ob <;> simp [ho]

@[simp] theorem pushCommandGiver_loose (e : Engine) (ob : Handle) :
    e.loose.pushCommandGiver ob = looseResult (e.pushCommandGiver ob) := by
  unfold pushCommandGiver
  cases ho : e.object ob <;> simp [ho]

@[simp] theorem setDefaultFail_loose (e : Engine) (text : Option String) :
    e.loose.setDefaultFail text = (e.setDefaultFail text).loose := by
  cases text <;> simp [setDefaultFail, defaultFailString?]

@[simp] theorem newIdent_loose (e : Engine) (name : String) (kind : IdentKind) :
    e.loose.newIdent name kind = looseResult (e.newIdent name kind) := by
  unfold newIdent
  split <;> simp

@[simp] theorem insertIdents_loose (e : Engine) (table : IdentTable)
    (entries : List (String × IdentKind)) :
    e.loose.insertIdents table entries = looseResult (e.insertIdents table entries) := by
  induction entries generalizing e table with
  | nil => rfl
  | cons entry rest ih => simp [insertIdents, ih]

@[simp] theorem newIdentTable_loose (e : Engine) (buckets : Nat)
    (entries : List (String × IdentKind)) :
    e.loose.newIdentTable buckets entries = looseResult (e.newIdentTable buckets entries) := by
  simp [newIdentTable]

@[simp] theorem register_loose (e : Engine) (p : Provider) :
    e.loose.register p = (e.register p).loose := by
  show (if e.isRegistered p.name then _ else _) = _
  unfold register
  split <;> rfl

@[simp] theorem setApplyReturn_loose (e : Engine) (v : Value) :
    e.loose.setApplyReturn v = (e.setApplyReturn v).loose := by
  simp [setApplyReturn]

@[simp] theorem popCommandGiver_loose (e : Engine) :
    e.loose.popCommandGiver = e.popCommandGiver.loose := by
  simp [popCommandGiver]

@[simp] theorem addConfigString_loose (e : Engine) (text : String) :
    e.loose.addConfigString text = looseResult (e.addConfigString text) := by
  simp [addConfigString]

@[simp] theorem addSimulName_loose (e : Engine) (name : String) :
    e.loose.addSimulName name = looseResult (e.addSimulName name) := by
  simp [addSimulName]

@[simp] theorem addPredefine_loose (e : Engine) (name : String) :
    e.loose.addPredefine name = looseResult (e.addPredefine name) := by
  simp [addPredefine]

@[simp] theorem cacheAddressName_loose (e : Engine) (name : String) :
    e.loose.cacheAddressName name = looseResult (e.cacheAddressName name) := by
  simp [cacheAddressName]

@[simp] theorem allocateBlock_loose (e : Engine) (category : Category) (size : Nat)
    (description : String) :
    e.loose.allocateBlock category size description =
      looseResult (e.allocateBlock category size description) := by
  simp [allocateBlock]

/-! ## Commands -/

theorem addActionClosure_loose (e : Engine) (ob : Handle) (v : Value) (verb : String) :
    (e.loose.addActionClosure ob v verb).1 = (e.addActionClosure ob v verb).1.loose := by
  unfold addActionClosure
  split
  · cases ho : e.object ob <;> simp [ho]
  · simp

/-- An owner is all that a closure of built-in code needs. -/
theorem Owns.prepareClosure_loose {owner program : Option Handle} (ho : e.Owns owner program) :
    e.loose.prepareClosure (.builtin 0) owner = .ok e.loose := by
  cases owner with
  | none => rfl
  | some ob =>
    obtain ⟨o, hob, -⟩ := ho
    simp only [prepareClosure, ownerProgram, object_loose, hob]
    rfl

theorem newClosure_loose {kind : ClosureKind} {owner : Option Handle} {pinned : Engine}
    (hp : e.prepareClosure kind owner = .ok pinned) (args : List Value) :
    e.loose.newClosure (.builtin 0) owner args = looseResult (e.newClosure kind owner args) := by
  obtain ⟨program, howns, -, hpin⟩ := prepareClosure_eq_ok hp
  have hloose := howns.prepareClosure_loose
  have hinc : owner.elim pinned.loose pinned.loose.incRef =
      (owner.elim pinned pinned.incRef).loose := by
    cases owner <;> simp
  -- The pin is set before the closure is there, and does not show.
  rw [← pin_loose hpin] at hloose ⊢
  simp only [newClosure, hp, hloose, hinc, bindArgs_loose, looseResult_fst, looseResult_snd]
  exact congrArg (fun r : Engine × Handle => (r.1, Except.ok (Value.ref .function r.2)))
    (allocate_loose _ .function (.closure ⟨kind, owner, _⟩) "make_funp")

/-- Code of a program that is not there is refused as well. -/
theorem newClosure_refused {kind : ClosureKind} {owner : Option Handle} {err : EngineError}
    (hp : e.prepareClosure kind owner = .error err) (args : List Value) :
    e.loose.newClosure (.functional e.heap.nextHandle) none args =
      ((e.newClosure kind owner args).1.loose, .error (.freed e.heap.nextHandle)) := by
  have hnone : e.loose.program e.heap.nextHandle = .error (.freed e.heap.nextHandle) := by
    simp only [program, payloadAs, block, loose_heap, Heap.get?_loose, Heap.get?_nextHandle]
    rfl
  have hloose : e.loose.prepareClosure (.functional e.heap.nextHandle) none =
      .error (.freed e.heap.nextHandle) := by
    simp only [prepareClosure, ownerProgram, needsLoaded]
    show e.loose.pin (some e.heap.nextHandle) = _
    simp only [pin, hnone]
    rfl
  simp only [newClosure, hp, hloose, releaseValues_loose]

/-- Refused or not there is nothing to do, or the program goes as in the loose engine. -/
theorem swapOut_loose (e : Engine) (ob : Handle) :
    (e.swapOut ob).1.loose = e.loose ∨ (e.swapOut ob).1.loose = (e.loose.swapOut ob).1 := by
  unfold swapOut
  cases ho : e.object ob with
  | error err => exact .inl rfl
  | ok o =>
    simp only
    cases hprogram : o.program with
    | none => exact .inl rfl
    | some program =>
      simp only
      cases hp : e.program program with
      | error err => exact .inl rfl
      | ok p =>
        simp only
        split
        · exact .inl rfl
        · refine .inr ?_
          simp [ho, hprogram, hp, Except.map, Program.withoutPins]

end Engine

/-- Whether a command goes by what code pins. -/
def Command.seesPins : Command → Bool
  | newClosure .. | swapOut _ => true
  | _ => false

namespace Command

open Engine

/-- The one command does to the loose engine what the other does to the engine. -/
structure Mirrors (e : Engine) (cmd other : Command) : Prop where
  run : other.run e.loose = (cmd.run e).loose
  spent : other.spent e.loose = cmd.spent e
  gained : other.gained e.loose = cmd.gained e

/-- Every other command goes by what a loose engine shows as well. -/
theorem mirrors_self (e : Engine) (cmd : Command) (hs : cmd.seesPins = false) :
    cmd.Mirrors e cmd := by
  cases cmd with
  | newClosure kind owner args => cases hs
  | swapOut ob => cases hs
  | newShared text | newPrivate text | newArray items | newClass members | newBuffer content
  | newMapping pairs | newProgram source | objectValue ob =>
    exact ⟨by simp [Command.run], rfl, by simp [Command.gained]⟩
  | cloneValue v =>
    exact ⟨by simp [Command.run], rfl, congrArg (v.target?.elim 0) (funext e.retained_loose)⟩
  | retain h => exact ⟨by simp [Command.run], rfl, e.retained_loose h⟩
  | release h =>
    refine ⟨e.release_loose h, ?_, rfl⟩
    simp only [Command.spent, loose_heap, Heap.get?_loose]
    cases e.heap.get? h <;> rfl
  | addActionClosure ob v verb => exact ⟨e.addActionClosure_loose ob v verb, rfl, rfl⟩
  | setFailClosure session closure => exact ⟨by simp [Command.run], by simp [Command.spent], rfl⟩
  | push v | pop | configure settings | unregister name => exact ⟨rfl, rfl, rfl⟩
  | _ => exact ⟨by simp [Command.run], rfl, rfl⟩

/-- A closure that is refused gives its arguments back, as one of code that is not there; an object
that is refused stays as it is. No mirror makes a bare block where the command does not. -/
theorem exists_mirrors (e : Engine) (cmd : Command) :
    ∃ other, cmd.Mirrors e other ∧ (other = cmd ∨ other.isHelper) := by
  cases hs : cmd.seesPins with
  | false => exact ⟨cmd, mirrors_self e cmd hs, .inl rfl⟩
  | true =>
    cases cmd with
    | newClosure kind owner args =>
      cases hp : e.prepareClosure kind owner with
      | ok pinned =>
        have hn := newClosure_loose hp args
        refine ⟨.newClosure (.builtin 0) owner args, ⟨?_, rfl, ?_⟩, .inr rfl⟩
        · simp only [Command.run, hn, looseResult_fst]
        · simp only [Command.gained, hn, looseResult_snd]
      | error err =>
        have hn := newClosure_refused hp args
        refine ⟨.newClosure (.functional e.heap.nextHandle) none args, ⟨?_, rfl, ?_⟩, .inr rfl⟩
        · simp only [Command.run, hn]
        · have hrefused : (e.newClosure kind owner args).2 = .error err := by
            simp only [Engine.newClosure, hp]
          simp only [Command.gained, hn, hrefused]
          rfl
    | swapOut ob =>
      rcases e.swapOut_loose ob with hsame | hdone
      · exact ⟨.cloneValue .zero, ⟨hsame.symm, rfl, rfl⟩, .inr rfl⟩
      · exact ⟨.swapOut ob, ⟨hdone.symm, rfl, rfl⟩, .inl rfl⟩
    | _ => cases hs

end Command

/-! ## Clients -/

/-- Closures of built-in code name no program. -/
theorem Heap.unaliased_loose (heap : Heap) : heap.loose.Unaliased := by
  intro k b c p q hb hpay hkind
  rw [get?_loose] at hb
  obtain ⟨d, -, rfl⟩ := Option.map_eq_some_iff.1 hb
  cases hd : d.payload with
  | closure c' =>
    simp only [Block.loose, hd, Payload.closure.injEq] at hpay
    subst hpay
    cases hkind
  | _ =>
    simp only [Block.loose, hd] at hpay
    cases hpay

namespace Client

/-- One command of those allowed, paid for out of the ledger, whatever becomes of generations. -/
inductive Move (allowed : Command → Bool) (c : Client) : Client → Prop
  | command (cmd : Command) (ha : allowed cmd) (hpaid : cmd.spent c.engine ≤ c.ledger) :
      Move allowed c (c.after cmd)

/-- What any number of moves comes to. -/
def Attainable (allowed : Command → Bool) (c : Client) : Prop :=
  ∃ settings, Relation.ReflTransGen (Move allowed) (fresh settings) c

def loose (c : Client) : Client := { c with engine := c.engine.loose }

variable {allowed : Command → Bool} {c d : Client}

theorem loose_fresh (settings : Settings) : (fresh settings).loose = fresh settings := by
  have hempty : Heap.empty.loose = Heap.empty := by
    simp [Heap.loose, Heap.mapBlocks, Heap.empty]
  simp only [fresh, loose, Engine.loose, hempty]

theorem Step.move (hs : Step allowed c d) : Move allowed c d := by
  obtain ⟨cmd, ha, hpaid, -⟩ := hs
  exact ⟨cmd, ha, hpaid⟩

theorem Reachable.attainable (hr : Reachable allowed c) : Attainable allowed c := by
  obtain ⟨settings, hs⟩ := hr
  exact ⟨settings, Relation.ReflTransGen.mono (fun _ _ => Step.move) _ _ hs⟩

/-- What a command does to a client, some command does to the loose client. -/
theorem exists_after_loose (c : Client) {cmd : Command} (hpaid : cmd.spent c.engine ≤ c.ledger) :
    ∃ other : Command, (other = cmd ∨ other.isHelper) ∧
      other.spent c.loose.engine ≤ c.loose.ledger ∧ c.loose.after other = (c.after cmd).loose := by
  obtain ⟨other, hmirror, hother⟩ := cmd.exists_mirrors c.engine
  refine ⟨other, hother, hmirror.spent ▸ hpaid, ?_⟩
  simp only [after, Client.loose, hmirror.run, hmirror.spent, hmirror.gained]

theorem Move.loose (hm : Move allowed c d) : Step (fun _ => true) c.loose d.loose := by
  obtain ⟨cmd, -, hpaid⟩ := hm
  obtain ⟨other, -, hother, hafter⟩ := c.exists_after_loose hpaid
  have hrun : other.run c.loose.engine = (cmd.run c.engine).loose := congrArg Client.engine hafter
  rw [← hafter]
  refine ⟨other, rfl, hother, ?_⟩
  rw [hrun]
  exact Heap.unaliased_loose _

/-- A loose client can follow wherever a client goes. -/
theorem Attainable.loose (ha : Attainable allowed c) : Reachable (fun _ => true) c.loose := by
  obtain ⟨settings, hm⟩ := ha
  refine ⟨settings, ?_⟩
  induction hm with
  | refl => rw [loose_fresh]
  | tail _ hmove ih => exact ih.tail hmove.loose

end Client

end HeapAudit
