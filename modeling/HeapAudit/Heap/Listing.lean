import HeapAudit.Engine.State
import HeapAudit.Heap.Rendering
import HeapAudit.Text.Column

/-!
The listing of a program: what it inherits, its functions, and the variables and string literals
of the program and of the programs it inherits directly.

Main definitions
* `Program.listing`: the text.
* `Heap.programListing`: the listing of the program behind a handle.
-/

namespace HeapAudit

/-- A literal is shown up to this many characters. -/
def shownLiteral : Nat := 32

/-- Line ends are written `\n`; what is cut off leaves three dots. -/
def literalText (text : String) : String :=
  let shown := (text.toList.take shownLiteral).map fun c =>
    if c = '\n' then "\\n" else c.toString
  String.join shown ++ if shownLiteral < text.length then "..." else ""

namespace Heap

/-- The text behind a handle, or that it is gone. -/
def nameAt (heap : Heap) (h : Handle) : String := (heap.stringText? h).getD "<freed>"

def program? (heap : Heap) (h : Handle) : Option Program :=
  (heap.payload? h).bind Payload.program?

end Heap

namespace Program

/-- The texts, each with its index in a column before it. -/
def numbered (texts : List String) : String :=
  String.join (texts.zipIdx.map fun (text, i) => Text.line (Text.column 4 i ++ ": " ++ text))

def inheritLine (heap : Heap) (i : Inherit) : String :=
  let name := (heap.program? i.program).elim "<freed>" fun p => heap.nameAt p.filename
  Text.line ("\t" ++ Text.alignLeft 20 name ++ "  " ++ Text.column 5 i.functionOffset ++ "  "
    ++ Text.column 5 i.variableOffset)

def functionText (heap : Heap) (name : Option Handle) : String :=
  name.elim "<undefined>" heap.nameAt

/-- The section on a program's variables and literals. -/
def details (heap : Heap) (p : Program) : String :=
  Text.line (";;;  *** Detailed info for " ++ heap.nameAt p.filename ++ " ***")
    ++ Text.line "VARIABLES:" ++ numbered (p.variableNames.map heap.nameAt)
    ++ Text.line "STRINGS:" ++ numbered (p.strings.map fun h => literalText (heap.nameAt h))

/-- The programs inherited directly that are still there. -/
def parents (heap : Heap) (p : Program) : List Program :=
  p.inherits.filterMap fun i => heap.program? i.program

def listing (heap : Heap) (p : Program) : String :=
  Text.line ("NAME: /" ++ heap.nameAt p.filename)
    ++ Text.line "INHERITS:"
    ++ Text.line "\tname                    fio    vio"
    ++ Text.line "\t----------------        ---    ---"
    ++ String.join (p.inherits.map (inheritLine heap))
    ++ Text.line "FUNCTIONS:" ++ numbered (p.functionNames.map (functionText heap))
    ++ p.details heap
    ++ String.join ((p.parents heap).map fun q => "\n" ++ q.details heap)

end Program

/-- A block that holds no program is named with its category. -/
def Heap.programListing (heap : Heap) (h : Handle) : Except EngineError String :=
  match heap.get? h with
  | none => .error (.freed h)
  | some b =>
    match b.payload.program? with
    | none => .error (.wrongCategory h .program b.category)
    | some p => .ok (p.listing heap)

end HeapAudit
