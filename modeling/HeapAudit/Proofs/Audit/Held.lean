import HeapAudit.Audit.References

/-!
The slots of an engine: every place, in a block or among the roots, that holds a reference.

A block shows what its payload holds and nothing else; the only look at another block is for the
owner of a redirect's sentence, which the redirect holds, and for the program a closure pins
through its owner. The pass enters some blocks through what owns them, so what it enumerates is
written down here a second time, block by block.

Main definitions
* `Payload.held`, `Roots.held`, `Engine.held`: what is held where.
* `Payload.enumerated`, `Engine.enumerated`: what a pass follows, with where it comes from.
-/

namespace HeapAudit

/-! ## Payloads behind handles -/

namespace Heap

/-- The nodes listed in the table behind a handle. -/
def nodesOf (heap : Heap) (table : Handle) : List Handle :=
  match heap.payload? table with
  | some (.mapTable nodes) => nodes
  | _ => []

/-- Key and value of the node behind a handle. -/
def pairOf (heap : Heap) (node : Handle) : List Value :=
  match heap.payload? node with
  | some (.mapNode key value) => [key, value]
  | _ => []

def sentenceOf? (heap : Heap) (h : Handle) : Option Sentence :=
  (heap.payload? h).bind Payload.sentence?

def sessionOf? (heap : Heap) (h : Handle) : Option Session :=
  (heap.payload? h).bind Payload.session?

def callOutOf? (heap : Heap) (h : Handle) : Option CallOut :=
  match heap.payload? h with
  | some (.callOut c) => some c
  | _ => none

end Heap

/-! ## Slots of a block -/

/-- A closure holds its owner and its bound arguments and pins a program. -/
def Closure.held (heap : Heap) (c : Closure) : List Reference :=
  Reference.objects c.owner.toList ++ c.args.toList.map (.counted · .array)
    ++ (c.pinned? heap).toList.map .pinned

def Program.held (p : Program) : List Reference :=
  .counted p.filename .sharedString :: p.inherits.map (fun i => .counted i.program .program)
    ++ Reference.sharedStrings (p.functionNames.filterMap id ++ p.variableNames ++ p.strings)
    ++ p.lineInfo.toList.map (.owned · .lineNumbers)

/-- A sentence holds its callee and its verb but not its owner. -/
def Sentence.held (s : Sentence) : List Reference :=
  Reference.sharedStrings s.verb.toList ++ [.ofCallee s.callee]

/-- Permanent identifiers own a block each. -/
def IdentTable.held (t : IdentTable) : List Reference :=
  (t.entries.filter fun entry => entry.kind.isPermanent).flatMap fun entry =>
    entry.block.toList.map (.owned · .permIdent)

def Object.held (ob : Object) : List Reference :=
  .owned ob.name .objectName :: ob.sentences.map (.owned · .sentence)
    ++ ob.program.toList.map (.counted · .program) ++ Reference.ofValues ob.vars
    ++ Reference.sharedStrings ob.labels

def Redirect.held (heap : Heap) (r : Redirect) : List Reference :=
  .owned r.sentence .sentence
    :: (heap.sentenceOf? r.sentence).toList.map (fun s => .counted s.owner .object)
    ++ Reference.ofValues r.carried

/-- A session holds its object, its redirect and its failure message. -/
def Session.held (heap : Heap) (s : Session) : List (RootKind × Reference) :=
  (.session, .counted s.object .object)
    :: underRoot .inputTo (s.redirect.elim [] (Redirect.held heap))
    ++ underRoot .failMessage (s.failMessage.toList.map .ofCallee)

def CallOut.held (c : CallOut) : List Reference :=
  .ofCallee c.callee :: Reference.objects c.object.toList ++ Reference.ofValues c.args

/-- What a payload holds in slots of its own. -/
def Payload.held (heap : Heap) : Payload → List Reference
  | .slots items => Reference.ofValues items
  | .mapping table => [.owned table .mapTable]
  | .mapTable nodes => nodes.map (.owned · .mapNode)
  | .mapNode key value => Reference.ofValues [key, value]
  | .closure c => c.held heap
  | .object ob => ob.held
  | .program p => p.held
  | .sentence s => s.held
  | .session s => (s.held heap).map (·.2)
  | .callOut c => c.held
  | .identTable t => t.held
  | .blank | .text _ | .privateText _ _ | .sharedText _ | .bytes _ => []

/-! ## Slots of the roots -/

/-- What the lists and fields of the roots hold themselves; `failString` is the string held for
the default failure message. -/
def Roots.held (failString : Option Handle) (r : Roots) : List (RootKind × Reference) :=
  underRoot .session (r.sessions.map (.owned · .interactive))
    ++ underRoot .defaultFailMessage (Reference.sharedStrings failString.toList)
    ++ underRoot .configString (r.configStrings.map (.owned · .plainString))
    ++ underRoot .stack (Reference.ofValues r.stack)
    ++ underRoot .applyReturn (Reference.ofValues [r.applyReturn])
    ++ underRoot .commandGiver (Reference.objects r.commandGivers)
    ++ underRoot .callOut (r.callOuts.map (.owned · .callOut))
    ++ underRoot .freeSentence (r.freeSentences.map (.owned · .sentence))
    ++ underRoot .simulName (Reference.sharedStrings r.simulNames)
    ++ underRoot .predefine (r.predefines.map (.owned · .predefine))
    ++ underRoot .addressName (Reference.sharedStrings r.addressNames)
    ++ underRoot .master (Reference.objects r.master.toList)
    ++ underRoot .simulOwner (Reference.objects r.simulOwner.toList)
    ++ underRoot .liveObject (Reference.objects r.objects)
    ++ underRoot .destructedObject (Reference.objects r.destructed)

namespace Engine

def rootHeld (e : Engine) : List (RootKind × Reference) := e.roots.held e.defaultFailString?

/-- Every slot of the live blocks and the roots. -/
def held (e : Engine) : List Reference :=
  e.heap.entries.flatMap (fun entry => entry.2.payload.held e.heap) ++ e.rootHeld.map (·.2)

/-- How many slots hold a reference to the block behind `h`. -/
def slotCount (e : Engine) (h : Handle) : Nat :=
  e.held.countP fun ref => ref.hold = .counted ∧ ref.target = h

end Engine

/-- How many live closures pin the program behind `h`, going by what their owners run now. -/
def Heap.pinCount (heap : Heap) (h : Handle) : Nat :=
  heap.blocks.countP fun b =>
    match b.payload with
    | .closure c => c.pinned? heap = some h
    | _ => false

/-! ## What a pass follows -/

/-- What a session shows: its slots, and what the sentence of its redirect refers to. -/
def Session.enumerated (heap : Heap) (s : Session) : List (RootKind × Reference) :=
  s.held heap
    ++ underRoot .inputTo
      ((s.redirect.bind fun r => heap.sentenceOf? r.sentence).elim [] Sentence.held)

/-- Arrays, closures, objects, programs and identifier tables show their slots. A mapping shows
its table, the nodes listed there and their pairs, an object the callee and verb of each listed
sentence. -/
def Payload.enumerated (heap : Heap) : Payload → List Reference
  | .mapping table =>
    .owned table .mapTable :: (heap.nodesOf table).flatMap fun node =>
      .owned node .mapNode :: Reference.ofValues (heap.pairOf node)
  | .object ob =>
    ob.held ++ ob.sentences.flatMap fun s => (heap.sentenceOf? s).elim [] Sentence.held
  | .slots items => Reference.ofValues items
  | .closure c => c.held heap
  | .program p => p.held
  | .identTable t => t.held
  | .mapTable _ | .mapNode _ _ | .sentence _ | .session _ | .callOut _ | .blank | .text _
  | .privateText _ _ | .sharedText _ | .bytes _ => []

namespace Engine

/-- What the roots show: their slots, the connected sessions, the queued timers and what the
providers report. -/
def rootsEnumerated (e : Engine) : List (RootKind × Reference) :=
  e.rootHeld
    ++ e.roots.sessions.flatMap (fun h =>
      (e.heap.sessionOf? h).elim [] (Session.enumerated e.heap))
    ++ underRoot .callOut
      (e.roots.callOuts.flatMap fun h => (e.heap.callOutOf? h).elim [] CallOut.held)
    ++ underRoot .external (e.providers.flatMap fun p => p.holdings.map Holding.reference)

/-- Every reference of a pass with its origin. -/
def enumerated (e : Engine) : List (Origin × Reference) :=
  e.rootsEnumerated.map (fun entry => (.root entry.1, entry.2))
    ++ e.heap.entries.flatMap fun p =>
      (p.2.payload.enumerated e.heap).map (.block p.1 p.2.category, ·)

end Engine

end HeapAudit
