import HeapAudit.Engine.State

/-!
Giving references back.

A block whose last reference goes is taken apart: what it owns alone is taken apart with it, at
once and in order; the references it held are collected and given back afterwards, the one
collected last first. Each level of this takes at least one block out of the heap, so the number
of live blocks bounds the depth, and a release never stops halfway.

Main definitions
* `Payload.parts`: what a block lets go of.
* `Engine.release`: one reference less.
* `Engine.discard`: blocks that are owned alone go, whatever their counts.
-/

namespace HeapAudit

/-- What a block lets go of: a reference it held, or a block it owned alone. -/
inductive Part where
  | counted (h : Handle)
  | owned (h : Handle)
deriving DecidableEq, Repr

namespace Part

def held (values : List Value) : List Part := (heldBy values).map counted

def optional (h : Option Handle) : List Part := h.toList.map counted

end Part

/-! ## What a block lets go of -/

/-- The sentence of a redirect holds its owner, which the sentence alone would not show. -/
def Redirect.parts (heap : Heap) (r : Redirect) : List Part :=
  (((heap.payload? r.sentence).bind Payload.sentence?).map (·.owner)).toList.map .counted
    ++ .owned r.sentence :: Part.held r.carried

def Sentence.parts (s : Sentence) : List Part :=
  .counted s.callee.target :: Part.optional s.verb

def Object.parts (ob : Object) : List Part :=
  .owned ob.name :: ob.sentences.map .owned
    ++ Part.optional ob.program ++ Part.held ob.vars ++ Part.optional ob.livingName
    ++ Part.optional ob.replacedProgram ++ Part.optional ob.privileges

def Program.parts (p : Program) : List Part :=
  .counted p.filename :: p.inherits.map (.counted ·.program)
    ++ (p.functionNames.filterMap id).map .counted ++ p.variableNames.map .counted
    ++ p.strings.map .counted ++ p.lineInfo.toList.map .owned

def Session.parts (heap : Heap) (s : Session) : List Part :=
  .counted s.object :: (s.redirect.elim [] (Redirect.parts heap))
    ++ (s.failMessage.map fun m => Part.counted m.target).toList

def CallOut.parts (c : CallOut) : List Part :=
  .counted c.callee.target :: Part.optional c.object ++ Part.held c.args

/-- In the order in which they go. -/
def Payload.parts (heap : Heap) : Payload → List Part
  | .slots items => Part.held items
  | .mapping table => [.owned table]
  | .mapTable nodes => nodes.map .owned
  | .mapNode key value => Part.held [key, value]
  | .closure c => Part.optional c.owner ++ Part.optional c.args
  | .object ob => ob.parts
  | .program p => p.parts
  | .sentence s => s.parts
  | .session s => s.parts heap
  | .callOut c => c.parts
  | .identTable t => (t.entries.filterMap (·.block)).map .owned
  | .blank | .text _ | .privateText _ _ | .sharedText _ | .bytes _ => []

/-! ## Counters -/

/-- The counters without a block of this category, size and payload; they stop at zero. -/
def Counters.without (c : Counters) (category : Category) (size : Nat) : Payload → Counters
  | .slots _ =>
    if category = .classInstance then
      { c with classes := c.classes - 1, classBytes := c.classBytes - size }
    else { c with arrays := c.arrays - 1, arrayBytes := c.arrayBytes - size }
  | .mapping _ => { c with mappings := c.mappings - 1 }
  | .object _ => { c with objects := c.objects - 1 }
  | .program _ => { c with programs := c.programs - 1 }
  | .sentence _ => { c with sentences := c.sentences - 1 }
  | .callOut _ => { c with callOutBytes := c.callOutBytes - size }
  | _ => c

namespace Engine

/-- The program a closure pins, given what its owner runs now. -/
def pinnedBy (e : Engine) (c : Closure) : Option Handle :=
  let ownerProgram := c.owner.bind fun owner =>
    match e.object owner with
    | .ok ob => ob.program
    | .error _ => none
  c.kind.pinned? ownerProgram

/-- One closure less keeps the program loaded. -/
def unpin (e : Engine) (program : Handle) : Engine :=
  match e.program program with
  | .ok p => e.setProgram program { p with pins := p.pins - 1 }
  | .error _ => e

/-- Takes a removed block out of the counters, and a closure's pin off its program. -/
def unaccount (e : Engine) (b : Block) : Engine :=
  let e := { e with counters := e.counters.without b.category b.size b.payload }
  match b.payload with
  | .closure c => (e.pinnedBy c).elim e e.unpin
  | _ => e

/-! ## Taking apart -/

/-- A heap in the middle of a release. `pending` holds the references still to be given back, the
one collected last first. -/
structure Cascade where
  engine : Engine
  pending : List Handle

/-- Lets one part go; `apart` says what happens to an owned block once it is out of the heap. -/
def Cascade.letGo (apart : Block → Cascade → Cascade) (c : Cascade) : Part → Cascade
  | .counted h => { c with pending := h :: c.pending }
  | .owned h =>
    match c.engine.heap.remove h with
    | none => c
    | some (b, heap) => apart b { c with engine := c.engine.setHeap heap }

/-- Takes a removed block apart, down to a depth. -/
def dismantleWithin : Nat → Block → Cascade → Cascade
  | 0, _, c => c
  | depth + 1, b, c =>
    let e := c.engine.unaccount b
    (b.payload.parts e.heap).foldl (Cascade.letGo (dismantleWithin depth)) { c with engine := e }

/-- Takes a removed block apart, with everything below it that is owned alone. -/
def dismantle (b : Block) (c : Cascade) : Cascade :=
  dismantleWithin (c.engine.heap.live + 1) b c

/-- Lets parts go; the references they held are still pending. -/
def takeApart (e : Engine) (parts : List Part) : Cascade :=
  parts.foldl (Cascade.letGo dismantle) ⟨e, []⟩

/-! ## Releasing -/

/-- Takes one reference off a block and hands the block over if it was the last. Strings are
settled by the string table. -/
def drop (e : Engine) (h : Handle) : Option Block × Engine :=
  match e.heap.get? h with
  | none => (none, e)
  | some b =>
    if b.category = .sharedString ∨ b.category = .mallocString then
      let (strings, heap) := e.strings.release e.heap h
      (none, { e with strings, heap })
    else
      let (gone, heap) := e.heap.decRef h
      (gone, e.setHeap heap)

/-- Gives one reference back, down to a depth. -/
def releaseWithin : Nat → Engine → Handle → Engine
  | 0, e, _ => e
  | depth + 1, e, h =>
    match e.drop h with
    | (none, e) => e
    | (some b, e) =>
      let c := dismantle b ⟨e, []⟩
      c.pending.foldl (releaseWithin depth) c.engine

/-- One reference less; the last one takes the block apart. -/
def release (e : Engine) (h : Handle) : Engine := e.releaseWithin (e.heap.live + 1) h

def releaseAll (e : Engine) (hs : List Handle) : Engine := hs.foldl release e

def releaseValue (e : Engine) (v : Value) : Engine := e.releaseAll v.target?.toList

def releaseValues (e : Engine) (values : List Value) : Engine := e.releaseAll (heldBy values)

/-- Lets parts go and gives back what they held, in the order in which it was collected. -/
def discard (e : Engine) (parts : List Part) : Engine :=
  let c := e.takeApart parts
  c.engine.releaseAll c.pending.reverse

end Engine

end HeapAudit
