import HeapAudit.Block.Category

/-!
What an audit can be told: the flags of one pass, the ceilings of the categories of which few
blocks are expected, and the settings of the engine as a whole.

Main statements
* `Flags.ofBits_bits`: a flag word written from flags reads back as them.
* `Ceilings.mem_bounded_iff`: the bounded categories are those with a ceiling.
-/

namespace HeapAudit

/-! ## Flags -/

/-- `verbose` adds a table of categories; `resetOnly` stops after the first phase. -/
structure Flags where
  verbose : Bool := false
  resetOnly : Bool := false
deriving DecidableEq, Repr

namespace Flags

/-- Bit 0 is `verbose`, bit 1 `resetOnly`; the other bits mean nothing. -/
def ofBits (bits : Int) : Flags := ⟨bits % 2 = 1, bits / 2 % 2 = 1⟩

def bits (f : Flags) : Int := (if f.verbose then 1 else 0) + (if f.resetOnly then 2 else 0)

theorem ofBits_bits (f : Flags) : ofBits f.bits = f := by
  obtain ⟨v, r⟩ := f
  cases v <;> cases r <;> rfl

end Flags

/-! ## Ceilings -/

/-- How many blocks of each bounded category are expected at most, as 64-bit words. -/
structure Ceilings where
  configTables : UInt64 := 1
  stringTables : UInt64 := 1
  identTables : UInt64 := 1
  includeLists : UInt64 := 1
  reserved : UInt64 := 1
  objectTables : UInt64 := 2
  simulTables : UInt64 := 3
  compilerLocals : UInt64 := 3
deriving DecidableEq, Repr

namespace Ceilings

def ceiling? (c : Ceilings) : Category → Option UInt64
  | .configTable => some c.configTables
  | .stringTable => some c.stringTables
  | .identTable => some c.identTables
  | .includeList => some c.includeLists
  | .reserved => some c.reserved
  | .objectTable => some c.objectTables
  | .simulTable => some c.simulTables
  | .compilerLocals => some c.compilerLocals
  | _ => none

/-- The bounded categories in the order of the report. -/
def bounded (c : Ceilings) : List (Category × UInt64) :=
  [(.simulTable, c.simulTables), (.includeList, c.includeLists), (.identTable, c.identTables),
   (.reserved, c.reserved), (.objectTable, c.objectTables), (.configTable, c.configTables),
   (.stringTable, c.stringTables), (.compilerLocals, c.compilerLocals)]

theorem mem_bounded_iff (c : Ceilings) (category : Category) (n : UInt64) :
    (category, n) ∈ c.bounded ↔ c.ceiling? category = some n := by
  cases category <;> simp [bounded, ceiling?, eq_comm]

end Ceilings

/-! ## Settings -/

structure Settings where
  ceilings : Ceilings := {}
  /-- Levels of nested arrays shown when an array is printed. -/
  renderDepth : Nat := 2
  /-- The directory dumps may be written into; without one every path is allowed. -/
  dumpRoot : Option String := none
deriving DecidableEq, Repr

inductive SettingsError where
  /-- The document cannot be read as settings. -/
  | malformed
  | renderDepth (depth : Nat)
  | emptyDumpRoot
deriving DecidableEq, Repr

namespace Settings

def maxRenderDepth : Nat := 16

def check (s : Settings) : Except SettingsError Unit :=
  if maxRenderDepth < s.renderDepth then .error (.renderDepth s.renderDepth)
  else if s.dumpRoot = some "" then .error .emptyDumpRoot
  else .ok ()

theorem check_eq_ok_iff (s : Settings) :
    s.check = .ok () ↔ s.renderDepth ≤ maxRenderDepth ∧ s.dumpRoot ≠ some "" := by
  unfold check
  split
  · simp; omega
  · split <;> simp_all

end Settings

def SettingsError.message : SettingsError → String
  | malformed => "invalid audit config"
  | renderDepth depth =>
    s!"invalid audit config field `render_depth`: {depth} exceeds the maximum of "
      ++ toString Settings.maxRenderDepth
  | emptyDumpRoot => "invalid audit config field `dump_root`: must not be empty"

end HeapAudit
