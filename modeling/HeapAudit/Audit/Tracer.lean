import HeapAudit.Audit.Trace

/-!
A pass that is watched while it runs. The report is drafted as the pass goes on, and a tracer hears
of every phase, root reference, finding and exempt block at the moment it comes up.

Main definitions
* `Tracer`: what is called during a pass, with a state of its own.
* `Draft`: the report so far and the state of the tracer.
* `Engine.watch`: a pass with a tracer.
-/

namespace HeapAudit

/-! ## Tracers -/

/-- Every hook gets the state the tracer is in and gives the next one. -/
structure Tracer (σ : Type) where
  onPhase : σ → Phase → σ
  onRoot : σ → RootKind → Handle → σ
  onFinding : σ → Finding → σ
  onExempt : σ → Handle → Category → σ
  /-- Called at the end, with the number of blocks and of findings. -/
  onFinish : σ → Nat → Nat → σ

namespace Tracer

/-- Takes no notice of anything. -/
def silent : Tracer Unit where
  onPhase := fun _ _ => ()
  onRoot := fun _ _ _ => ()
  onFinding := fun _ _ => ()
  onExempt := fun _ _ _ => ()
  onFinish := fun _ _ _ => ()

/-- One more event, unless there are as many as the limit allows. -/
def push (limit : Option Nat) (events : List Event) (event : Event) : List Event :=
  if limit.any (· ≤ events.length) then events else events ++ [event]

/-- Writes down what it hears. -/
def recording (limit : Option Nat) : Tracer (List Event) where
  onPhase := fun events p => push limit events (.phase p)
  onRoot := fun events kind target => push limit events (.root kind target)
  onFinding := fun events f => push limit events (.finding f)
  onExempt := fun events h category => push limit events (.exempt h category)
  onFinish := fun events blocks findings => push limit events (.finished blocks findings)

end Tracer

/-! ## Drafts -/

structure Draft (σ : Type) where
  text : String := ""
  findings : List Finding := []
  exempted : Nat := 0
  summary : Option Census := none
  state : σ

namespace Draft

variable {σ : Type} (t : Tracer σ)

def line (d : Draft σ) (text : String) : Draft σ := { d with text := d.text ++ Text.line text }

def phase (d : Draft σ) (p : Phase) : Draft σ := { d with state := t.onPhase d.state p }

def root (d : Draft σ) (kind : RootKind) (target : Handle) : Draft σ :=
  { d with state := t.onRoot d.state kind target }

/-- A finding goes to the tracer, into the text and onto the list. -/
def emit (d : Draft σ) (f : Finding) : Draft σ :=
  let d := { d with state := t.onFinding d.state f }
  { d.line f.text with findings := d.findings ++ [f] }

/-- An exempt block is announced, counted and found. -/
def exempt (d : Draft σ) (h : Handle) (category : Category) (description : String) : Draft σ :=
  let d := { d with state := t.onExempt d.state h category }
  { d with exempted := d.exempted + 1 }.emit t (.exempt category description)

/-- Only references held by roots are announced. -/
def announce (d : Draft σ) (origin : Origin) (target : Handle) : Draft σ :=
  match origin with
  | .root kind => d.root t kind target
  | .block _ _ => d

/-- A full report has a header. -/
def start (flags : Flags) (s : σ) : Draft σ :=
  let d := phase t { state := s } .reset
  if flags.resetOnly then d else d.line reportHeader

def table (d : Draft σ) (census : Census) : Draft σ :=
  { d with text := d.text ++ census.table, summary := some census }

/-- A verbose report ends with the table. -/
def finish (d : Draft σ) (flags : Flags) (census : Census) (blocks : Nat) : Report × σ :=
  let d := if flags.verbose then d.table census else d
  ({ text := d.text, findings := d.findings, blocksScanned := blocks, exempted := d.exempted
     summary := d.summary },
   t.onFinish d.state blocks d.findings.length)

end Draft

/-! ## Watched passes -/

namespace Block

def withoutScratch (b : Block) : Block := { b with scratch := {} }

/-- What was counted on a block stays, the mark goes. -/
def unmarked (b : Block) : Block := { b with scratch := { b.scratch with visited := false } }

end Block

namespace Engine

variable {σ : Type} (t : Tracer σ)

/-- A root reference is announced before it is resolved. -/
def watchReference (s : Heap × Draft σ) (origin : Origin) (ref : Reference) : Heap × Draft σ :=
  let d := s.2.announce t origin ref.target
  match s.1.resolve origin ref with
  | .error f => (s.1, d.emit t f)
  | .ok b =>
    (s.1.noteAt ref.target ref.hold, (Heap.sharedOwner origin ref b).foldl (Draft.emit t) d)

def watchProbe (s : Heap × Draft σ) : Probe → Heap × Draft σ
  | .follow origin ref => watchReference t s origin ref
  | .report f => (s.1, s.2.emit t f)
  | .consult _ => s

/-- Forgets what was noted on a block, then says what is wrong with the block by itself. -/
def watchReset (flags : Flags) (s : Heap × Draft σ) (entry : Handle × Block) : Heap × Draft σ :=
  let (heap, d) := s
  let (h, b) := entry
  (heap.update h .withoutScratch,
   (transientFindings flags b ++ lengthFindings b.payload).foldl (Draft.emit t) d)

/-- Compares a block with what was noted on it, then takes its mark off. -/
def watchBlock (depth : Nat) (s : Heap × Draft σ) (entry : Handle × Block) : Heap × Draft σ :=
  let (heap, d) := s
  let (h, b) := entry
  (heap.update h .unmarked,
   if b.category.isCounted then
     if b.exempt then d.exempt t h b.category (describe heap b)
     else (countFindings heap depth b ++ pinFindings heap b).foldl (Draft.emit t) d
   else (markFindings heap b).foldl (Draft.emit t) d)

/-- A pass over the engine with a tracer in state `s`. -/
def watch (e : Engine) (flags : Flags) (s : σ) : Engine × Report × σ :=
  let (heap, d) := e.heap.entries.foldl (watchReset t flags) (e.heap, .start t flags s)
  let e := e.setHeap heap
  let census := e.heap.census
  if flags.resetOnly then (e, d.finish t flags census e.heap.live)
  else
    let d := (ceilingFindings census e.settings.ceilings ++ gaugeFindings e census
      ++ stringFindings e).foldl (Draft.emit t) (d.phase t .reconcile)
    let (heap, d) := e.rootProbes.foldl (watchProbe t) (e.heap, d.phase t .roots)
    let (heap, d) := e.scanProbes.foldl (watchProbe t) (heap, d.phase t .scan)
    let (heap, d) := heap.entries.foldl (watchBlock t e.settings.renderDepth)
      (heap, d.phase t .verify)
    (e.setHeap heap, d.finish t flags census e.heap.live)

end Engine

end HeapAudit
