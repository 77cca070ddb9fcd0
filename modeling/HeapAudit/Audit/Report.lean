import HeapAudit.Audit.Checks

/-!
One audit pass and its report.

A pass clears the scratch of every block, checks each block and the totals, follows every
reference from the roots and then from the blocks, and compares what is stored with what was
found. Everything it says is one list of events; the report is read off that list.

Main definitions
* `Engine.audit`: a pass over the engine.
* `Report`: the text, the findings and the numbers of a pass.
* `Engine.auditStrict`: a pass that fails on fatal findings.
-/

namespace HeapAudit

/-! ## Passes -/

/-- What a pass says. The summary belongs to a verbose pass. -/
structure Pass where
  flags : Flags
  events : List Event
  summary : Option Census
  blocks : Nat
deriving DecidableEq, Repr

namespace Heap

def clearScratch (heap : Heap) : Heap := heap.mapBlocks fun b => { b with scratch := {} }

/-- The counts that were found stay, the marks go. -/
def clearVisited (heap : Heap) : Heap :=
  heap.mapBlocks fun b => { b with scratch := { b.scratch with visited := false } }

end Heap

namespace Engine

def resetEvents (e : Engine) (flags : Flags) : List Event :=
  .phase .reset :: (resetFindings flags e.heap.blocks).map .finding

def reconcileEvents (e : Engine) (census : Census) : List Event :=
  .phase .reconcile ::
    (ceilingFindings census e.settings.ceilings ++ gaugeFindings e census
      ++ stringFindings e).map .finding

/-- Follows the roots, then the blocks. -/
def walkAll (e : Engine) : Heap × List Event :=
  let (heap, fromRoots) := e.heap.walk e.rootProbes
  let (heap, fromBlocks) := heap.walk e.scanProbes
  (heap, .phase .roots :: fromRoots ++ .phase .scan :: fromBlocks)

/-- The events of a pass ended by their count. -/
def finishPass (flags : Flags) (census : Census) (blocks : Nat) (events : List Event) : Pass :=
  { flags
    events := events ++ [.finished blocks (findingsOf events).length]
    summary := if flags.verbose then some census else none
    blocks }

/-- Only the scratch of the blocks changes. A reset-only pass ends after its first phase. -/
def audit (e : Engine) (flags : Flags) : Engine × Pass :=
  let e := e.setHeap e.heap.clearScratch
  let census := e.heap.census
  let first := e.resetEvents flags
  if flags.resetOnly then (e, finishPass flags census e.heap.live first)
  else
    let second := e.reconcileEvents census
    let (heap, third) := e.walkAll
    let fourth := .phase .verify :: verifyEvents heap e.settings.renderDepth
    (e.setHeap heap.clearVisited,
     finishPass flags census e.heap.live (first ++ second ++ third ++ fourth))

end Engine

/-! ## Reports -/

structure Report where
  text : String
  findings : List Finding
  blocksScanned : Nat
  exempted : Nat
  summary : Option Census
deriving DecidableEq, Repr

/-- The first line of every full report. -/
def reportHeader : String := "Performing memory tests ..."

namespace Census

def row (label : String) (t : Tally) : String :=
  Text.line (Text.alignLeft 30 label ++ " " ++ Text.column 6 t.blocks ++ " "
    ++ Text.column 8 t.bytes)

def rule : String := Text.line "------------------------------ ------ --------"

/-- The table of categories under its heading. -/
def table (c : Census) : String :=
  "\n" ++ Text.line (Text.alignLeft 30 "source" ++ " " ++ Text.alignRight 6 "blks" ++ " "
      ++ Text.alignRight 8 "total")
    ++ rule ++ String.join (c.byCategory.map fun (category, t) => row category.label t)
    ++ rule ++ row "total" ⟨c.liveBlocks, c.totalBytes⟩

end Census

namespace Pass

def findings (p : Pass) : List Finding := findingsOf p.events

def isExemption : Event → Bool
  | .exempt _ _ => true
  | _ => false

/-- The header, a line a finding, and the table. -/
def text (p : Pass) : String :=
  (if p.flags.resetOnly then "" else Text.line reportHeader)
    ++ String.join (p.findings.map fun f => Text.line f.text)
    ++ p.summary.elim "" Census.table

def report (p : Pass) : Report :=
  { text := p.text
    findings := p.findings
    blocksScanned := p.blocks
    exempted := p.events.countP isExemption
    summary := p.summary }

end Pass

namespace Report

def fatalCount (r : Report) : Nat := r.findings.countP Finding.isFatal

def hasFatal (r : Report) : Bool := r.findings.any Finding.isFatal

def countMismatches (r : Report) : Nat := r.findings.countP Finding.isCountMismatch

def hasCountMismatch (r : Report) : Bool := r.findings.any Finding.isCountMismatch

/-- Nothing worse than a note was found. -/
def isClean (r : Report) : Bool := r.findings.all fun f => f.severity = .note

def atLeast (r : Report) (s : Severity) : List Finding :=
  r.findings.filter fun f => s.rank ≤ f.severity.rank

/-- How a failed strict pass is announced. -/
def failureText (r : Report) : String :=
  s!"heap corrupted: {r.fatalCount} fatal finding(s)\n" ++ r.text

end Report

/-- The report of a strict pass, as an error if something fatal was found. -/
def Pass.strict (p : Pass) : Except Report Report :=
  if p.report.hasFatal then .error p.report else .ok p.report

end HeapAudit
