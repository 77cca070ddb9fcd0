/-!
The closed set of block categories and what the audit asks of each.

Main definitions
* `Category.minor`, `Category.tag`: the numbers a dump prints.
* `Category.isCounted`, `Category.requiresMark`, `Category.isTransient`: the audit role.

Main statements
* `minor_injective`: a minor number names one category, and `ofMinor?_minor` finds it again.
* `roles_disjoint`: no category has two audit roles.
-/

namespace HeapAudit

/-! ## Classes -/

/-- The coarse class of a category, the high byte of its tag. -/
inductive BlockClass where
  | temporary
  | permanent
  | compiler
  | data
  | misc
deriving DecidableEq, Repr

namespace BlockClass

def number : BlockClass → Nat
  | temporary => 1
  | permanent => 2
  | compiler => 3
  | data => 4
  | misc => 5

def name : BlockClass → String
  | temporary => "temporary"
  | permanent => "permanent"
  | compiler => "compiler"
  | data => "data"
  | misc => "misc"

end BlockClass

/-! ## Categories -/

/-- Every kind of block the heap hands out. -/
inductive Category where
  | temporary
  | permanent
  | compilerScratch
  | misc
  | program
  | callOut
  | interactive
  | ed
  | includeList
  | permIdent
  | identTable
  | reserved
  | mudlibStats
  | object
  | objectTable
  | configTable
  | simulTable
  | sentence
  | stringTable
  | uid
  | objectName
  | predefine
  | lineNumbers
  | compilerLocals
  | inputTo
  | plainString
  | mallocString
  | sharedString
  | function
  | array
  | mapping
  | mapNode
  | mapTable
  | buffer
  | classInstance
deriving DecidableEq, Repr

namespace Category

/-- Every category once, by ascending minor number. -/
def all : List Category :=
  [.temporary, .permanent, .compilerScratch, .misc, .program, .callOut, .interactive, .ed,
   .includeList, .permIdent, .identTable, .reserved, .mudlibStats, .object, .objectTable,
   .configTable, .simulTable, .sentence, .stringTable, .uid, .objectName, .predefine,
   .lineNumbers, .compilerLocals, .inputTo, .plainString, .mallocString, .sharedString,
   .function, .array, .mapping, .mapNode, .mapTable, .buffer, .classInstance]

/-- The low byte of the tag. -/
def minor : Category → Nat
  | temporary => 1
  | permanent => 2
  | compilerScratch => 3
  | misc => 5
  | program => 11
  | callOut => 12
  | interactive => 13
  | ed => 14
  | includeList => 16
  | permIdent => 17
  | identTable => 18
  | reserved => 19
  | mudlibStats => 20
  | object => 21
  | objectTable => 22
  | configTable => 23
  | simulTable => 24
  | sentence => 25
  | stringTable => 26
  | uid => 28
  | objectName => 29
  | predefine => 30
  | lineNumbers => 31
  | compilerLocals => 32
  | inputTo => 38
  | plainString => 40
  | mallocString => 41
  | sharedString => 42
  | function => 43
  | array => 44
  | mapping => 45
  | mapNode => 46
  | mapTable => 47
  | buffer => 48
  | classInstance => 49

/-- The wording used in reports. -/
def label : Category → String
  | temporary => "temporary block"
  | permanent => "permanent block"
  | compilerScratch => "compiler block"
  | misc => "miscellaneous block"
  | program => "program"
  | callOut => "call_out"
  | interactive => "interactive"
  | ed => "ed block"
  | includeList => "include list"
  | permIdent => "permanent identifier"
  | identTable => "identifier hash table"
  | reserved => "reserved block"
  | mudlibStats => "mudlib stat block"
  | object => "object"
  | objectTable => "object table"
  | configTable => "config table"
  | simulTable => "simul_efun table"
  | sentence => "sentence"
  | stringTable => "string table"
  | uid => "uid"
  | objectName => "object name"
  | predefine => "predefine"
  | lineNumbers => "line number block"
  | compilerLocals => "compiler local block"
  | inputTo => "input_to"
  | plainString => "string"
  | mallocString => "malloc string"
  | sharedString => "shared string"
  | function => "function pointer"
  | array => "array"
  | mapping => "mapping"
  | mapNode => "mapping node"
  | mapTable => "mapping table"
  | buffer => "buffer"
  | classInstance => "class"

/-- The name used in structured output. -/
def name : Category → String
  | temporary => "Temporary"
  | permanent => "Permanent"
  | compilerScratch => "CompilerScratch"
  | misc => "Misc"
  | program => "Program"
  | callOut => "CallOut"
  | interactive => "Interactive"
  | ed => "Ed"
  | includeList => "IncludeList"
  | permIdent => "PermIdent"
  | identTable => "IdentTable"
  | reserved => "Reserved"
  | mudlibStats => "MudlibStats"
  | object => "Object"
  | objectTable => "ObjectTable"
  | configTable => "ConfigTable"
  | simulTable => "SimulTable"
  | sentence => "Sentence"
  | stringTable => "StringTable"
  | uid => "Uid"
  | objectName => "ObjectName"
  | predefine => "Predefine"
  | lineNumbers => "LineNumbers"
  | compilerLocals => "CompilerLocals"
  | inputTo => "InputTo"
  | plainString => "PlainString"
  | mallocString => "MallocString"
  | sharedString => "SharedString"
  | function => "Function"
  | array => "Array"
  | mapping => "Mapping"
  | mapNode => "MapNode"
  | mapTable => "MapTable"
  | buffer => "Buffer"
  | classInstance => "Class"

def blockClass : Category → BlockClass
  | temporary => .temporary
  | compilerScratch | compilerLocals | lineNumbers | includeList => .compiler
  | misc | ed | mudlibStats | uid => .misc
  | mallocString | sharedString | plainString | array | classInstance | mapping | mapNode
  | mapTable | function | buffer | sentence | callOut | inputTo => .data
  | permanent | program | interactive | permIdent | identTable | reserved | object | objectTable
  | configTable | simulTable | stringTable | objectName | predefine => .permanent

/-- Class in the high byte, minor number in the low byte. -/
def tag (c : Category) : Nat := c.blockClass.number * 256 + c.minor

def ofMinor? (n : Nat) : Option Category := all.find? fun c => c.minor == n

/-! ## Audit roles -/

/-- Blocks that carry a stored reference count. -/
def isCounted : Category → Bool
  | mallocString | sharedString | array | classInstance | mapping | function | buffer | object
  | program => true
  | _ => false

/-- Blocks that carry no count but have to be reached from a root or an owner. -/
def requiresMark : Category → Bool
  | sentence | objectName | permIdent | mapTable | mapNode | lineNumbers | interactive | predefine
  | plainString | mudlibStats => true
  | _ => false

/-- Blocks that never outlive the operation that allocated them. -/
def isTransient : Category → Bool
  | temporary | compilerScratch | misc => true
  | _ => false

/-! ## Laws -/

theorem mem_all (c : Category) : c ∈ all := by
  cases c <;> decide

theorem nodup_all : all.Nodup := by
  decide

theorem ofMinor?_minor (c : Category) : ofMinor? c.minor = some c := by
  cases c <;> rfl

theorem minor_injective {a b : Category} (h : a.minor = b.minor) : a = b := by
  have hab : some a = some b := by rw [← ofMinor?_minor a, h, ofMinor?_minor b]
  exact Option.some.inj hab

theorem minor_lt (c : Category) : c.minor < 256 := by
  cases c <;> decide

theorem roles_disjoint (c : Category) :
    ¬ (c.isCounted ∧ c.requiresMark) ∧ ¬ (c.isCounted ∧ c.isTransient) ∧
      ¬ (c.requiresMark ∧ c.isTransient) := by
  cases c <;> decide

end Category

end HeapAudit
