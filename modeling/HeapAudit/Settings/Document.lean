import HeapAudit.Json.Reader
import HeapAudit.Settings.Basic

/-!
Settings as JSON.

A record may be written as an object, in any order and with members of other names in between, or
as an array of its fields in their fixed order; what is left out keeps its default. A field given
twice, or an array longer than the record, is an error.

Main definitions
* `Settings.ofText`: the settings a document describes.
* `Settings.toJson`: the document that describes settings.

Main statements
* `Json.word?_ofWord`: a word reads back.
-/

namespace HeapAudit

/-! ## Records -/

/-- A named field and how its value is put into a record. -/
structure RecordField (α : Type) where
  name : String
  set? : Json → α → Option α

namespace RecordField

variable {α : Type}

/-- Puts one member in; a member of another name is skipped. -/
def setMember? (fields : List (RecordField α)) (a : α) (key : String) (value : Json) : Option α :=
  match fields.find? fun f => f.name == key with
  | some f => f.set? value a
  | none => some a

/-- The names of the record's fields among the keys. -/
def known (fields : List (RecordField α)) (keys : List String) : List String :=
  keys.filter fun k => fields.any fun f => f.name == k

/-- Members with keys that are text, if all keys are. -/
def textMembers? (members : List (Option String × Json)) : Option (List (String × Json)) :=
  members.mapM fun (key, value) => key.map (·, value)

def readMembers? (fields : List (RecordField α)) (defaults : α)
    (members : List (Option String × Json)) : Option α := do
  let members ← textMembers? members
  if (known fields (members.map (·.1))).Nodup then
    members.foldlM (fun a (key, value) => setMember? fields a key value) defaults
  else none

def readItems? : List (RecordField α) → α → List Json → Option α
  | _, a, [] => some a
  | [], _, _ :: _ => none
  | f :: fields, a, item :: items => do readItems? fields (← f.set? item a) items

def read? (fields : List (RecordField α)) (defaults : α) : Json → Option α
  | .object members => readMembers? fields defaults members
  | .array items => readItems? fields defaults items
  | _ => none

end RecordField

/-- A number that fits a 64-bit word, in plain digits. -/
def Json.word? (j : Json) : Option UInt64 :=
  j.natural?.bind fun n => if h : n < UInt64.size then some (.ofNatLT n h) else none

/-- A 64-bit word in plain digits. -/
def Json.ofWord (n : UInt64) : Json := .ofNat n.toNat

theorem Json.word?_ofWord (n : UInt64) : (ofWord n).word? = some n := by
  simp [word?, ofWord, natural?_ofNat, n.toNat_lt]

/-- A field that holds a 64-bit word. -/
def RecordField.word (name : String) (set : UInt64 → α → α) : RecordField α :=
  ⟨name, fun j a => j.word?.map fun n => set n a⟩

/-! ## Ceilings and settings -/

namespace Ceilings

def fields : List (RecordField Ceilings) :=
  [.word "config_tables" fun n c => { c with configTables := n },
   .word "string_tables" fun n c => { c with stringTables := n },
   .word "ident_tables" fun n c => { c with identTables := n },
   .word "include_lists" fun n c => { c with includeLists := n },
   .word "reserved" fun n c => { c with reserved := n },
   .word "object_tables" fun n c => { c with objectTables := n },
   .word "simul_tables" fun n c => { c with simulTables := n },
   .word "compiler_locals" fun n c => { c with compilerLocals := n }]

def toJson (c : Ceilings) : Json :=
  .record
    [("config_tables", .ofWord c.configTables), ("string_tables", .ofWord c.stringTables),
     ("ident_tables", .ofWord c.identTables), ("include_lists", .ofWord c.includeLists),
     ("reserved", .ofWord c.reserved), ("object_tables", .ofWord c.objectTables),
     ("simul_tables", .ofWord c.simulTables), ("compiler_locals", .ofWord c.compilerLocals)]

end Ceilings

namespace Settings

/-- Text, or `null` for no directory. -/
def readRoot? : Json → Option (Option String)
  | .null => some none
  | .string (some root) => some (some root)
  | _ => none

def fields : List (RecordField Settings) :=
  [⟨"ceilings", fun j s => (RecordField.read? Ceilings.fields {} j).map fun c =>
      { s with ceilings := c }⟩,
   .word "render_depth" fun n s => { s with renderDepth := n.toNat },
   ⟨"dump_root", fun j s => (readRoot? j).map fun r => { s with dumpRoot := r }⟩]

def toJson (s : Settings) : Json :=
  .record
    [("ceilings", s.ceilings.toJson), ("render_depth", .ofNat s.renderDepth),
     ("dump_root", .ofOption .text s.dumpRoot)]

def ofJson? (j : Json) : Option Settings := RecordField.read? fields {} j

def ofText (text : String) : Except SettingsError Settings :=
  match (Json.read? text).bind ofJson? with
  | none => .error .malformed
  | some s => s.check.map fun _ => s

end Settings

end HeapAudit
