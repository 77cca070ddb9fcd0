import HeapAudit.Decimal.Binary64
import HeapAudit.Dump.Volume
import HeapAudit.Engine.State
import HeapAudit.Heap.Census
import HeapAudit.Text.Column

/-!
The raw dump of the heap: a line for each live block, the totals of what was listed, and a table
of all categories.

Main definitions
* `Heap.dump`: the text with its summary.
* `Engine.dumpTo`: the dump written to a file of a volume.
-/

namespace HeapAudit

/-- Totals of the blocks a dump lists. -/
structure DumpSummary where
  totalBytes : Nat
  chunks : Nat
deriving DecidableEq, Repr

namespace DumpSummary

/-- The mean size with two places: both totals, and then their quotient, as binary64. -/
def averageText (s : DumpSummary) : String :=
  if s.chunks = 0 then Decimal.fixed 2 0 1
  else
    let q := Decimal.Binary64.round
      ((Decimal.Binary64.ofNat s.totalBytes).div (Decimal.Binary64.ofNat s.chunks))
    Decimal.fixed 2 q.num q.den

def text (s : DumpSummary) : String :=
  Text.line ("total =    " ++ Text.column 8 s.totalBytes)
    ++ Text.line ("# chunks = " ++ Text.column 8 s.chunks)
    ++ Text.line ("ave. bytes per chunk = " ++ Text.alignRight 7 s.averageText)

end DumpSummary

namespace Heap

def dumpHeading : String :=
  Text.line (" ".intercalate
    [Text.alignRight 12 "id", Text.alignRight 12 "gametick", Text.alignRight 12 "ptr",
     Text.alignRight 5 "tag", Text.alignRight 7 "sz", "desc"])

def dumpLine (h : Handle) (b : Block) : String :=
  let tag := toString b.category.blockClass.number ++ ":"
    ++ Text.zeroPadded 3 (toString b.category.minor)
  Text.line (" ".intercalate
    [Text.column 12 b.serial, Text.column 12 b.tick,
     Text.alignRight 12 ("0x" ++ Text.hexDigits h.index), tag, Text.column 7 b.size,
     b.description])

/-- The live blocks a dump lists. -/
def listed (heap : Heap) (only : Option Category) : List (Handle × Block) :=
  heap.entries.filter fun (_, b) => only.all (· = b.category)

def dumpSummary (blocks : List Block) : DumpSummary :=
  let t := Tally.ofBlocks blocks
  ⟨t.bytes, t.blocks⟩

def categoryLine (heap : Heap) (c : Category) : String :=
  let t := heap.tally c
  Text.line (Text.column 4 c.minor ++ ": " ++ Text.column 10 t.blocks ++ " "
    ++ Text.column 10 t.bytes)

def categoryTable (heap : Heap) : String :=
  "\ncategories:\n\n" ++ String.join (Category.all.map heap.categoryLine)

/-- A dump of one category, or of all; the table always covers the whole heap. -/
def dump (heap : Heap) (only : Option Category) : String × DumpSummary :=
  let entries := heap.listed only
  let summary := dumpSummary (entries.map (·.2))
  (dumpHeading ++ String.join (entries.map fun (h, b) => dumpLine h b) ++ summary.text
    ++ heap.categoryTable, summary)

end Heap

inductive DumpError where
  /-- The path is empty, or the dump root does not allow it. -/
  | invalidPath (path : String)
  /-- The path leads to no place for a file. -/
  | unwritable (path : String)
deriving DecidableEq, Repr

def DumpError.message : DumpError → String
  | invalidPath path => "invalid path '" ++ path ++ "' for writing"
  | unwritable path => "unable to write '" ++ path ++ "'"

/-- Writes a dump below the dump root of the settings, or anywhere without one. -/
def Engine.dumpTo (e : Engine) (v : Volume) (path : String) (only : Option Category) :
    Except DumpError (DumpSummary × Volume) :=
  match Path.resolve? e.settings.dumpRoot path with
  | none => .error (.invalidPath path)
  | some resolved =>
    let (text, summary) := e.heap.dump only
    match v.create? resolved text with
    | none => .error (.unwritable resolved)
    | some v => .ok (summary, v)

end HeapAudit
