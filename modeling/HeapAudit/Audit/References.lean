import HeapAudit.Audit.Event
import HeapAudit.Engine.DriverRoots
import HeapAudit.Heap.Rendering

/-!
Every reference an audit follows, written out as a list before any of them is followed.

A counted reference adds to what the target's count should be, an owning one marks its target as
reached, a pinning one adds to the closures that keep a program loaded. Sessions, timers and
sentences are entered through what owns them, tables and nodes through their mapping.

Main definitions
* `Roots.references`: what the engine holds itself.
* `Payload.probes`: what one block holds, with what can be found about the block on the way.
* `Engine.rootProbes`, `Engine.scanProbes`: everything, in the order of the pass.
-/

namespace HeapAudit

/-! ## References -/

inductive Hold where
  | counted
  | owned
  | pinned
deriving DecidableEq, Repr

structure Reference where
  hold : Hold
  target : Handle
  expected : Category
deriving DecidableEq, Repr

namespace Reference

def counted (target : Handle) (expected : Category) : Reference := ⟨.counted, target, expected⟩

def owned (target : Handle) (expected : Category) : Reference := ⟨.owned, target, expected⟩

def pinned (program : Handle) : Reference := ⟨.pinned, program, .program⟩

/-- The reference a value holds. -/
def ofValue? : Value → Option Reference
  | .ref kind target => some (counted target kind.category)
  | _ => none

def ofValues (values : List Value) : List Reference := values.filterMap ofValue?

def ofCallee (c : Callee) : Reference := counted c.target c.category

def sharedStrings (hs : List Handle) : List Reference := hs.map (counted · .sharedString)

def objects (hs : List Handle) : List Reference := hs.map (counted · .object)

end Reference

def Holding.reference : Holding → Reference
  | counted target category => .counted target category
  | owned target category => .owned target category

/-! ## Payloads -/

/-- A sentence does not hold its owner. -/
def Sentence.references (s : Sentence) : List Reference :=
  .ofCallee s.callee :: Reference.sharedStrings s.verb.toList

/-- What the sentence behind a handle refers to. -/
def sentenceReferences (heap : Heap) (h : Handle) : List Reference :=
  ((heap.payload? h).bind Payload.sentence?).elim [] Sentence.references

/-- The nodes behind a table and what they hold. -/
def tableReferences (heap : Heap) (table : Handle) : List Reference :=
  match heap.payload? table with
  | some (.mapTable nodes) =>
    nodes.flatMap fun node =>
      .owned node .mapNode ::
        match heap.payload? node with
        | some (.mapNode key value) => Reference.ofValues [key, value]
        | _ => []
  | _ => []

def mappingReferences (heap : Heap) (table : Handle) : List Reference :=
  .owned table .mapTable :: tableReferences heap table

/-- The program an object runs, whatever category its block has. -/
def Heap.programOf? (heap : Heap) (ob : Handle) : Option Handle :=
  ((heap.payload? ob).bind Payload.object?).bind (·.program)

/-- The program a closure keeps loaded now. -/
def Closure.pinned? (heap : Heap) (c : Closure) : Option Handle :=
  c.kind.pinned? (c.owner.bind heap.programOf?)

def Closure.references (heap : Heap) (c : Closure) : List Reference :=
  c.args.toList.map (.counted · .array) ++ Reference.objects c.owner.toList
    ++ (c.pinned? heap).toList.map .pinned

def Object.labels (ob : Object) : List Handle :=
  ob.replacedProgram.toList ++ ob.privileges.toList ++ ob.livingName.toList

def Object.references (heap : Heap) (ob : Object) : List Reference :=
  .owned ob.name .objectName :: Reference.sharedStrings ob.labels
    ++ ob.sentences.flatMap (fun s => .owned s .sentence :: sentenceReferences heap s)
    ++ Reference.ofValues ob.vars

def Program.references (p : Program) : List Reference :=
  p.lineInfo.toList.map (.owned · .lineNumbers)
    ++ p.inherits.map (fun i => .counted i.program .program)
    ++ Reference.sharedStrings (p.functionNames.filterMap id)
    ++ Reference.sharedStrings p.strings ++ Reference.sharedStrings p.variableNames
    ++ [.counted p.filename .sharedString]

/-- The identifier blocks a table owns. -/
def IdentTable.references (t : IdentTable) : List Reference :=
  (t.entries.filterMap fun entry => if entry.kind.isPermanent then entry.block else none).map
    (.owned · .permIdent)

/-! ## Roots -/

def underRoot (kind : RootKind) (refs : List Reference) : List (RootKind × Reference) :=
  refs.map (kind, ·)

def redirectReferences (heap : Heap) (r : Redirect) : List Reference :=
  .owned r.sentence .sentence ::
    (((heap.payload? r.sentence).bind Payload.sentence?).elim [] fun s =>
      .counted s.owner .object :: s.references)
    ++ Reference.ofValues r.carried

def sessionReferences (heap : Heap) (h : Handle) : List (RootKind × Reference) :=
  (.session, .owned h .interactive) ::
    ((heap.payload? h).bind Payload.session?).elim [] fun s =>
      (.session, .counted s.object .object)
        :: underRoot .inputTo (s.redirect.elim [] (redirectReferences heap))
        ++ underRoot .failMessage (s.failMessage.toList.map .ofCallee)

def callOutReferences (heap : Heap) (h : Handle) : List Reference :=
  .owned h .callOut ::
    match heap.payload? h with
    | some (.callOut c) =>
      .ofCallee c.callee :: Reference.objects c.object.toList ++ Reference.ofValues c.args
    | _ => []

/-- In the order of the pass; `failString` is the string held for the default message. -/
def Roots.references (heap : Heap) (failString : Option Handle) (r : Roots) :
    List (RootKind × Reference) :=
  r.sessions.flatMap (sessionReferences heap)
    ++ underRoot .defaultFailMessage (Reference.sharedStrings failString.toList)
    ++ underRoot .configString (r.configStrings.map (.owned · .plainString))
    ++ underRoot .stack (Reference.ofValues r.stack)
    ++ underRoot .applyReturn (Reference.ofValues [r.applyReturn])
    ++ underRoot .commandGiver (Reference.objects r.commandGivers)
    ++ underRoot .callOut (r.callOuts.flatMap (callOutReferences heap))
    ++ underRoot .freeSentence (r.freeSentences.map (.owned · .sentence))
    ++ underRoot .simulName (Reference.sharedStrings r.simulNames)
    ++ underRoot .predefine (r.predefines.map (.owned · .predefine))
    ++ underRoot .addressName (Reference.sharedStrings r.addressNames)
    ++ underRoot .master (Reference.objects r.master.toList)
    ++ underRoot .simulOwner (Reference.objects r.simulOwner.toList)
    ++ underRoot .liveObject (Reference.objects r.objects)
    ++ underRoot .destructedObject (Reference.objects r.destructed)

/-! ## Probes -/

/-- One step of the walk: a reference to follow, or something to say. -/
inductive Probe where
  | follow (origin : Origin) (ref : Reference)
  | report (f : Finding)
  | consult (provider : String)
deriving DecidableEq, Repr

namespace Engine

def providerProbes (p : Provider) : List Probe :=
  .consult p.name :: p.holdings.map fun h => .follow (.root .external) h.reference

def rootProbes (e : Engine) : List Probe :=
  (e.roots.references e.heap e.defaultFailString?).map (fun (kind, ref) => .follow (.root kind) ref)
    ++ e.providers.flatMap providerProbes

/-- The size recorded for an aggregate against its slots. A class without members is allocated
without slots and is not checked. -/
def sizeFindings (b : Block) (items : List Value) : List Finding :=
  if b.category = .classInstance ∧ items = [] then []
  else if b.size = Payload.aggregateSize items.length then []
  else [.sizeMismatch b.category b.description b.size (Payload.aggregateSize items.length)]

def objectProbes (heap : Heap) (origin : Origin) (ob : Object) : List Probe :=
  (match ob.program with
    | some program => .follow origin (.counted program .program)
    | none => .report (.swapped ((heap.ownText? ob.name).getD "<unnamed>")))
  :: (ob.references heap).map (.follow origin)

/-- `listed` says whether the object is on the live or the destructed list. -/
def blockProbes (heap : Heap) (listed : Handle → Bool) (h : Handle) (b : Block) : List Probe :=
  let origin := Origin.block h b.category
  let follow (refs : List Reference) : List Probe := refs.map (.follow origin)
  match b.payload with
  | .slots items => (sizeFindings b items).map .report ++ follow (Reference.ofValues items)
  | .mapping table => follow (mappingReferences heap table)
  | .closure c => follow (c.references heap)
  | .object ob =>
    objectProbes heap origin ob
      ++ if listed h then []
         else [.report (.notInObjectList ((heap.objectName? h).getD "<unnamed>"))]
  | .program p => follow p.references
  | .identTable t => follow t.references
  | .blank | .text _ | .privateText _ _ | .sharedText _ | .bytes _ | .mapTable _ | .mapNode _ _
  | .sentence _ | .session _ | .callOut _ => []

/-- Whether an object is on the live or the destructed list. -/
def isListed (e : Engine) (h : Handle) : Bool :=
  h ∈ e.roots.objects || h ∈ e.roots.destructed

def scanProbes (e : Engine) : List Probe :=
  e.heap.entries.flatMap fun (h, b) => blockProbes e.heap e.isListed h b

end Engine

end HeapAudit
