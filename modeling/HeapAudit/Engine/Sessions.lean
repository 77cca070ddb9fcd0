import HeapAudit.Engine.Objects

/-!
Commands, sessions and timers.

Main definitions
* `Engine.addAction`, `Engine.addActionClosure`: commands of an object.
* `Engine.connect`, `Engine.setInput`, `Engine.setFailMessage`: a session and what hangs on it.
* `Engine.callOut`: a timer.
-/

namespace HeapAudit

namespace Engine

def allocateSentence (e : Engine) (s : Sentence) (description : String) : Engine × Handle :=
  let (e, h) := e.allocate .sentence (.sentence s) description
  ({ e with counters := { e.counters with sentences := e.counters.sentences + 1 } }, h)

/-! ## Commands -/

/-- A command of an object, which is looked up once the sentence is there. -/
def attachSentence (e : Engine) (ob : Handle) (callee : Callee) (verb : String) :
    Engine × Except EngineError Handle :=
  let (e, verb) := e.intern verb
  let (e, h) := e.allocateSentence ⟨ob, callee, some verb⟩ "add_action"
  match e.object ob with
  | .error err => (e, .error err)
  | .ok o => (e.setObject ob { o with sentences := o.sentences ++ [h] }, .ok h)

def addAction (e : Engine) (ob : Handle) (function verb : String) :
    Engine × Except EngineError Handle :=
  match e.object ob with
  | .error err => (e, .error err)
  | .ok _ =>
    let (e, name) := e.intern function
    e.attachSentence ob (.name name) verb

/-- Why a value that is no closure is refused; a value without a live block stands for `ob`. -/
def notAClosure (e : Engine) (ob : Handle) (v : Value) : EngineError :=
  let found := v.target?.bind fun h => (e.heap.get? h).map fun b => (h, b.category)
  let (h, category) := found.getD (ob, .object)
  .wrongCategory h .function category

/-- Takes over the closure's reference. -/
def addActionClosure (e : Engine) (ob : Handle) (v : Value) (verb : String) :
    Engine × Except EngineError Handle :=
  match v with
  | .ref .function fp =>
    match e.object ob with
    | .error err => (e.release fp, .error err)
    | .ok _ => e.attachSentence ob (.closure fp) verb
  | other => (e.releaseValue other, .error (e.notAClosure ob other))

/-! ## Sessions -/

def connect (e : Engine) (ob : Handle) : Engine × Except EngineError Handle :=
  match e.object ob with
  | .error err => (e, .error err)
  | .ok _ =>
    let (e, h) := (e.incRef ob).allocate .interactive (.session ⟨ob, none, none⟩) "new_user"
    ({ e with roots := { e.roots with sessions := e.roots.sessions ++ [h] } }, .ok h)

def disconnect (e : Engine) (session : Handle) : Engine × Except EngineError Unit :=
  match e.session session with
  | .error err => (e, .error err)
  | .ok _ =>
    let e :=
      { e with roots := { e.roots with sessions := e.roots.sessions.filter (· ≠ session) } }
    (e.discard [.owned session], .ok ())

/-- A redirect that is replaced or cancelled goes with its sentence and what it carries. -/
def dropRedirect (e : Engine) (r : Option Redirect) : Engine :=
  r.elim e fun r => e.discard (r.parts e.heap)

/-- The next input line goes to `function` of the session's object. The session is looked up again
once the sentence is there. -/
def setInput (e : Engine) (session : Handle) (function : String) (carried : List Value) :
    Engine × Except EngineError Unit :=
  match e.session session with
  | .error err => (e.releaseValues carried, .error err)
  | .ok s =>
    let (e, name) := (e.incRef s.object).intern function
    let (e, sentence) := e.allocateSentence ⟨s.object, .name name, none⟩ "input_to"
    match e.session session with
    | .error err => (e, .error err)
    | .ok s =>
      let e := e.setSession session { s with redirect := some ⟨sentence, carried⟩ }
      (e.dropRedirect s.redirect, .ok ())

def clearInput (e : Engine) (session : Handle) : Engine × Except EngineError Unit :=
  match e.session session with
  | .error err => (e, .error err)
  | .ok s =>
    ((e.setSession session { s with redirect := none }).dropRedirect s.redirect, .ok ())

/-- Replaces the failure message of a session. -/
def putFailMessage (e : Engine) (session : Handle) (message : Callee) :
    Engine × Except EngineError Unit :=
  match e.session session with
  | .error err => (e, .error err)
  | .ok s =>
    ((e.setSession session { s with failMessage := some message }).releaseAll
      (s.failMessage.map Callee.target).toList, .ok ())

def setFailMessage (e : Engine) (session : Handle) (text : String) :
    Engine × Except EngineError Unit :=
  match e.session session with
  | .error err => (e, .error err)
  | .ok _ =>
    let (e, h) := e.intern text
    e.putFailMessage session (.name h)

/-- Takes over the closure's reference. -/
def setFailClosure (e : Engine) (session closure : Handle) : Engine × Except EngineError Unit :=
  match e.session session with
  | .error err => (e, .error err)
  | .ok _ =>
    match e.block closure .function with
    | .error err => (e, .error err)
    | .ok _ => e.putFailMessage session (.closure closure)

/-! ## Timers -/

/-- Calls `function` on an object after so many ticks. -/
def callOut (e : Engine) (ob : Handle) (function : String) (args : List Value) (delay : Nat) :
    Engine × Except EngineError Handle :=
  match e.object ob with
  | .error err => (e.releaseValues args, .error err)
  | .ok _ =>
    let (e, name) := (e.incRef ob).intern function
    let c : CallOut := ⟨.name name, some ob, args, e.heap.tick + delay⟩
    let (e, h) := e.allocate .callOut (.callOut c) "new_call_out"
    ({ e with
       counters := { e.counters with callOutBytes := e.counters.callOutBytes + e.sizeOf h }
       roots := { e.roots with callOuts := e.roots.callOuts ++ [h] } }, .ok h)

def removeCallOut (e : Engine) (call : Handle) : Engine × Except EngineError Unit :=
  match e.block call .callOut with
  | .error err => (e, .error err)
  | .ok _ =>
    let e := { e with roots := { e.roots with callOuts := e.roots.callOuts.filter (· ≠ call) } }
    (e.discard [.owned call], .ok ())

end Engine

end HeapAudit
