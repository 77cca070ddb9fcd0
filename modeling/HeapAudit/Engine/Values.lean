import HeapAudit.Engine.Release

/-!
Making values. A value that is passed in moves into its new home together with its reference; a
plain handle that is passed in gets a reference of its own.

Main definitions
* `Engine.newArray`, `Engine.newMapping`, `Engine.newClosure` and their like: a new block and the
  value that holds it.
* `Engine.cloneValue`, `Engine.retain`: one more reference to what is there.
-/

namespace HeapAudit

namespace Engine

/-! ## Strings -/

def newShared (e : Engine) (text : String) : Engine × Value :=
  let (e, h) := e.intern text
  (e, .ref .shared h)

def newPrivate (e : Engine) (text : String) : Engine × Value :=
  let (strings, heap, h) := e.strings.newPrivate e.heap text
  ({ e with strings, heap }, .ref .string h)

/-! ## Aggregates -/

def allocateArray (e : Engine) (items : List Value) : Engine × Handle :=
  let (e, h) := e.allocate .array (.slots items) "allocate_array"
  let c := e.counters
  ({ e with
     counters := { c with arrays := c.arrays + 1, arrayBytes := c.arrayBytes + e.sizeOf h } }, h)

def newArray (e : Engine) (items : List Value) : Engine × Value :=
  let (e, h) := e.allocateArray items
  (e, .ref .array h)

def newClass (e : Engine) (members : List Value) : Engine × Value :=
  let (e, h) := e.allocate .classInstance (.slots members) "allocate_class"
  let c := e.counters
  ({ e with
     counters := { c with classes := c.classes + 1, classBytes := c.classBytes + e.sizeOf h } },
   .ref .classInstance h)

def newBuffer (e : Engine) (content : List UInt8) : Engine × Value :=
  let (e, h) := e.allocate .buffer (.bytes content) "allocate_buffer"
  (e, .ref .buffer h)

def newNode (e : Engine) (pair : Value × Value) : Engine × Handle :=
  e.allocate .mapNode (.mapNode pair.1 pair.2) "new_map_node"

/-- One node a pair, in order. -/
def newNodes (e : Engine) (pairs : List (Value × Value)) : Engine × List Handle :=
  mapAccum newNode e pairs

theorem newNodes_cons (e : Engine) (pair : Value × Value) (rest : List (Value × Value)) :
    e.newNodes (pair :: rest) =
      (((e.newNode pair).1.newNodes rest).1,
        (e.newNode pair).2 :: ((e.newNode pair).1.newNodes rest).2) :=
  mapAccum_cons e pair rest

def newMapping (e : Engine) (pairs : List (Value × Value)) : Engine × Value :=
  let (e, nodes) := e.newNodes pairs
  let (e, table) := e.allocate .mapTable (.mapTable nodes) "new_map_table"
  let e := { e with counters := { e.counters with mappings := e.counters.mappings + 1 } }
  let (e, h) := e.allocate .mapping (.mapping table) "allocate_mapping"
  (e, .ref .mapping h)

/-! ## Closures -/

/-- The program the owner runs, if there is an owner. -/
def ownerProgram (e : Engine) : Option Handle → Except EngineError (Option Handle)
  | none => .ok none
  | some owner => (e.object owner).map (·.program)

/-- Code that cannot be rebound needs the program its owner runs. -/
def needsLoaded (kind : ClosureKind) (owner program : Option Handle) : Option Handle :=
  match kind, owner, program with
  | .ownCode _ false, some ob, none => some ob
  | _, _, _ => none

/-- One closure more keeps the program loaded. -/
def pin (e : Engine) (program : Option Handle) : Except EngineError Engine :=
  match program with
  | none => .ok e
  | some h => (e.program h).map fun p => e.setProgram h { p with pins := p.pins + 1 }

def bindArgs (e : Engine) : List Value → Engine × Option Handle
  | [] => (e, none)
  | args =>
    let (e, h) := e.allocateArray args
    (e, some h)

/-- Pins what the closure pins, or says why there can be no such closure. -/
def prepareClosure (e : Engine) (kind : ClosureKind) (owner : Option Handle) :
    Except EngineError Engine := do
  let program ← e.ownerProgram owner
  match needsLoaded kind owner program with
  | some ob => .error (.swappedOut ob)
  | none => e.pin (kind.pinned? program)

/-- The owner gets a reference; the arguments, if any, go into an array of the closure's own. -/
def newClosure (e : Engine) (kind : ClosureKind) (owner : Option Handle) (args : List Value) :
    Engine × Except EngineError Value :=
  match e.prepareClosure kind owner with
  | .error err => (e.releaseValues args, .error err)
  | .ok e =>
    let e := owner.elim e e.incRef
    let (e, args) := e.bindArgs args
    let (e, h) := e.allocate .function (.closure ⟨kind, owner, args⟩) "make_funp"
    (e, .ok (.ref .function h))

/-! ## More references -/

/-- One more reference to a counted block; `false` if the block is gone. -/
def retain (e : Engine) (h : Handle) : Engine × Bool :=
  match e.heap.get? h with
  | none => (e, false)
  | some b =>
    if b.category = .sharedString ∨ b.category = .mallocString then
      let (strings, heap, done) := e.strings.retain e.heap h
      ({ e with strings, heap }, done)
    else (e.incRef h, true)

def cloneValue (e : Engine) (v : Value) : Engine × Value :=
  (v.target?.elim e fun h => (e.retain h).1, v)

/-- A value for an object, with a reference of its own. -/
def objectValue (e : Engine) (ob : Handle) : Engine × Except EngineError Value :=
  match e.object ob with
  | .error err => (e, .error err)
  | .ok _ => (e.incRef ob, .ok (.ref .object ob))

end Engine

end HeapAudit
