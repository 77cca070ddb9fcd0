import HeapAudit.Proofs.Json.Layout
import HeapAudit.Proofs.Settings.Records

/-!
A document says which fields differ from their defaults. Settings that are read are the default
settings with just those fields replaced, and settings that are written are read again.

Main definitions
* `Ceilings.Given`, `Settings.Given`: some of the fields of a record.
* `Ceilings.Given.over`, `Settings.Given.over`: a record with these fields replaced.
* `Ceilings.Given.DescribedBy`, `Settings.Given.DescribedBy`: the documents that give just these.

Main statements
* `Settings.ofJson?_eq_some_iff`: what is read is what is described.
* `Settings.ofText_overrides`: what a text is read as.
-/

namespace HeapAudit

open RecordField (IsRecord value?)

/-! ## Fields that are given -/

/-- A 64-bit word in plain digits. -/
def Json.IsWord (j : Json) (n : UInt64) : Prop :=
  ∃ digits, j = .number digits ∧ readDigits? digits.toList = some n.toNat

/-- Text, or `null` for nothing. -/
def Json.IsTextOrNull (j : Json) (text : Option String) : Prop := j = .ofOption .text text

namespace Ceilings

def names : List String :=
  ["config_tables", "string_tables", "ident_tables", "include_lists", "reserved",
   "object_tables", "simul_tables", "compiler_locals"]

/-- Some of the ceilings. -/
structure Given where
  configTables : Option UInt64 := none
  stringTables : Option UInt64 := none
  identTables : Option UInt64 := none
  includeLists : Option UInt64 := none
  reserved : Option UInt64 := none
  objectTables : Option UInt64 := none
  simulTables : Option UInt64 := none
  compilerLocals : Option UInt64 := none
deriving DecidableEq, Repr

def Given.over (g : Given) (c : Ceilings) : Ceilings where
  configTables := g.configTables.getD c.configTables
  stringTables := g.stringTables.getD c.stringTables
  identTables := g.identTables.getD c.identTables
  includeLists := g.includeLists.getD c.includeLists
  reserved := g.reserved.getD c.reserved
  objectTables := g.objectTables.getD c.objectTables
  simulTables := g.simulTables.getD c.simulTables
  compilerLocals := g.compilerLocals.getD c.compilerLocals

/-- A document in the form of a record that gives these ceilings and no others. -/
structure Given.DescribedBy (g : Given) (j : Json) : Prop where
  record : IsRecord names j
  configTables : Option.Rel Json.IsWord (value? names j "config_tables") g.configTables
  stringTables : Option.Rel Json.IsWord (value? names j "string_tables") g.stringTables
  identTables : Option.Rel Json.IsWord (value? names j "ident_tables") g.identTables
  includeLists : Option.Rel Json.IsWord (value? names j "include_lists") g.includeLists
  reserved : Option.Rel Json.IsWord (value? names j "reserved") g.reserved
  objectTables : Option.Rel Json.IsWord (value? names j "object_tables") g.objectTables
  simulTables : Option.Rel Json.IsWord (value? names j "simul_tables") g.simulTables
  compilerLocals : Option.Rel Json.IsWord (value? names j "compiler_locals") g.compilerLocals

end Ceilings

namespace Settings

def names : List String := ["ceilings", "render_depth", "dump_root"]

/-- Some of the settings, and of the ceilings some. -/
structure Given where
  ceilings : Option Ceilings.Given := none
  renderDepth : Option UInt64 := none
  dumpRoot : Option (Option String) := none
deriving DecidableEq, Repr

/-- Ceilings of which only some are given have their own defaults for the others. -/
def Given.over (g : Given) (s : Settings) : Settings where
  ceilings := g.ceilings.elim s.ceilings (·.over {})
  renderDepth := g.renderDepth.elim s.renderDepth UInt64.toNat
  dumpRoot := g.dumpRoot.getD s.dumpRoot

/-- A document in the form of a record that gives these settings and no others. -/
structure Given.DescribedBy (g : Given) (j : Json) : Prop where
  record : IsRecord names j
  ceilings : Option.Rel (fun v c => c.DescribedBy v) (value? names j "ceilings") g.ceilings
  renderDepth : Option.Rel Json.IsWord (value? names j "render_depth") g.renderDepth
  dumpRoot : Option.Rel Json.IsTextOrNull (value? names j "dump_root") g.dumpRoot

end Settings

/-! ## Reading fields -/

theorem Json.word?_eq_some_iff {j : Json} {n : UInt64} : j.word? = some n ↔ j.IsWord n := by
  constructor
  · intro hn
    obtain ⟨k, hk, hword⟩ := Option.bind_eq_some_iff.1 hn
    cases j with
    | number digits =>
      split at hword
      · cases hword
        exact ⟨digits, rfl, by rw [UInt64.toNat_ofNatLT]; exact hk⟩
      · cases hword
    | _ => cases hk
  · rintro ⟨digits, rfl, hdigits⟩
    simp [word?, natural?, hdigits, n.toNat_lt]

theorem Json.isWord_ofWord (n : UInt64) : (ofWord n).IsWord n :=
  word?_eq_some_iff.1 (word?_ofWord n)

theorem Json.isWord_ofNat {n : Nat} (hn : n < UInt64.size) : (ofNat n).IsWord (.ofNat n) := by
  refine ⟨toString n, rfl, ?_⟩
  rw [UInt64.toNat_ofNat_of_lt' hn]
  exact natural?_ofNat n

theorem Settings.readRoot?_eq_some_iff {j : Json} {root : Option String} :
    readRoot? j = some root ↔ j.IsTextOrNull root := by
  constructor
  · intro hr
    unfold readRoot? at hr
    split at hr <;> cases hr <;> rfl
  · rintro rfl
    cases root <;> rfl

namespace RecordField

variable {α β γ : Type} {R : Json → β → Prop} {f : RecordField α} {raw : Option Json} {a a' : α}

/-- What is like a value is read, and nothing else, so a field is left or set to what is given. -/
theorem setGiven?_eq_some_iff {put : β → α}
    (hf : ∀ v a', f.set? v a = some a' ↔ ∃ b, R v b ∧ a' = put b) :
    f.setGiven? raw a = some a' ↔ ∃ given, Option.Rel R raw given ∧ a' = given.elim a put := by
  cases raw with
  | none =>
    constructor
    · intro ha
      cases ha
      exact ⟨none, .none, rfl⟩
    · rintro ⟨_, ⟨⟩, rfl⟩
      rfl
  | some v =>
    rw [setGiven?, hf]
    constructor
    · rintro ⟨b, hb, rfl⟩
      exact ⟨some b, .some hb, rfl⟩
    · rintro ⟨_, ⟨hb⟩, rfl⟩
      exact ⟨_, hb, rfl⟩

theorem set?_word_iff {name : String} {set : UInt64 → α → α} (v : Json) (a' : α) :
    (word name set).set? v a = some a' ↔ ∃ n, v.IsWord n ∧ a' = set n a := by
  simp only [word, Option.map_eq_some_iff, Json.word?_eq_some_iff]
  exact exists_congr fun n => and_congr_right fun _ => eq_comm

theorem setGiven?_word_iff {name : String} {set : UInt64 → α → α} (get : α → UInt64)
    (hget : set (get a) a = a) :
    (word name set).setGiven? raw a = some a' ↔
      ∃ given, Option.Rel Json.IsWord raw given ∧ a' = set (given.getD (get a)) a := by
  rw [setGiven?_eq_some_iff set?_word_iff]
  refine exists_congr fun given => and_congr_right fun _ => ?_
  cases given with
  | none => simp [hget]
  | some n => rfl

/-- Fields do not touch each other if what is put in by them does not. -/
theorem apart_of_put {name name' : String} {read : Json → Option β} {read' : Json → Option γ}
    {put : β → α → α} {put' : γ → α → α} (hname : name ≠ name')
    (hput : ∀ b c a, put' c (put b a) = put b (put' c a)) :
    Apart ⟨name, fun j a => (read j).map (put · a)⟩ ⟨name', fun j a => (read' j).map (put' · a)⟩ where
  name := hname
  commutes v w a := by
    cases hv : read v <;> cases hw : read' w <;> simp [hv, hw, hput]

end RecordField

/-! ## Ceilings -/

namespace Ceilings

theorem fields_names : fields.map (·.name) = names := rfl

theorem fields_apart : fields.Pairwise RecordField.Apart := by
  simp only [fields, List.pairwise_cons, List.forall_mem_cons, List.not_mem_nil, false_implies,
    implies_true, List.Pairwise.nil, and_true]
  and_intros <;> exact RecordField.apart_of_put (by decide) fun _ _ _ => rfl

/-- Ceilings are read from the documents that describe some of them. -/
theorem read?_eq_some_iff {j : Json} {c c' : Ceilings} :
    RecordField.read? fields c j = some c' ↔ ∃ g : Given, g.DescribedBy j ∧ c' = g.over c := by
  rw [RecordField.read?_eq_some_iff fields_apart, fields_names]
  simp only [fields, RecordField.fill_cons, RecordField.fill_nil, Option.bind_eq_some_iff,
    Option.some.injEq]
  constructor
  · rintro ⟨hj, _, s₁, _, s₂, _, s₃, _, s₄, _, s₅, _, s₆, _, s₇, _, s₈, rfl⟩
    obtain ⟨g₁, h₁, rfl⟩ := (RecordField.setGiven?_word_iff configTables rfl).1 s₁
    obtain ⟨g₂, h₂, rfl⟩ := (RecordField.setGiven?_word_iff stringTables rfl).1 s₂
    obtain ⟨g₃, h₃, rfl⟩ := (RecordField.setGiven?_word_iff identTables rfl).1 s₃
    obtain ⟨g₄, h₄, rfl⟩ := (RecordField.setGiven?_word_iff includeLists rfl).1 s₄
    obtain ⟨g₅, h₅, rfl⟩ := (RecordField.setGiven?_word_iff reserved rfl).1 s₅
    obtain ⟨g₆, h₆, rfl⟩ := (RecordField.setGiven?_word_iff objectTables rfl).1 s₆
    obtain ⟨g₇, h₇, rfl⟩ := (RecordField.setGiven?_word_iff simulTables rfl).1 s₇
    obtain ⟨g₈, h₈, rfl⟩ := (RecordField.setGiven?_word_iff compilerLocals rfl).1 s₈
    exact ⟨⟨g₁, g₂, g₃, g₄, g₅, g₆, g₇, g₈⟩, ⟨hj, h₁, h₂, h₃, h₄, h₅, h₆, h₇, h₈⟩, rfl⟩
  · rintro ⟨g, hg, rfl⟩
    exact ⟨hg.record,
      _, (RecordField.setGiven?_word_iff configTables rfl).2 ⟨_, hg.configTables, rfl⟩,
      _, (RecordField.setGiven?_word_iff stringTables rfl).2 ⟨_, hg.stringTables, rfl⟩,
      _, (RecordField.setGiven?_word_iff identTables rfl).2 ⟨_, hg.identTables, rfl⟩,
      _, (RecordField.setGiven?_word_iff includeLists rfl).2 ⟨_, hg.includeLists, rfl⟩,
      _, (RecordField.setGiven?_word_iff reserved rfl).2 ⟨_, hg.reserved, rfl⟩,
      _, (RecordField.setGiven?_word_iff objectTables rfl).2 ⟨_, hg.objectTables, rfl⟩,
      _, (RecordField.setGiven?_word_iff simulTables rfl).2 ⟨_, hg.simulTables, rfl⟩,
      _, (RecordField.setGiven?_word_iff compilerLocals rfl).2 ⟨_, hg.compilerLocals, rfl⟩, rfl⟩

/-- What is written gives all ceilings. -/
def given (c : Ceilings) : Given :=
  ⟨c.configTables, c.stringTables, c.identTables, c.includeLists, c.reserved, c.objectTables,
   c.simulTables, c.compilerLocals⟩

theorem given_describedBy (c : Ceilings) : c.given.DescribedBy c.toJson where
  record := .object _ (by simp) (by simp [names])
  configTables := .some (Json.isWord_ofWord _)
  stringTables := .some (Json.isWord_ofWord _)
  identTables := .some (Json.isWord_ofWord _)
  includeLists := .some (Json.isWord_ofWord _)
  reserved := .some (Json.isWord_ofWord _)
  objectTables := .some (Json.isWord_ofWord _)
  simulTables := .some (Json.isWord_ofWord _)
  compilerLocals := .some (Json.isWord_ofWord _)

end Ceilings

/-! ## Settings -/

namespace Settings

theorem fields_names : fields.map (·.name) = names := rfl

theorem fields_apart : fields.Pairwise RecordField.Apart := by
  simp only [fields, List.pairwise_cons, List.forall_mem_cons, List.not_mem_nil, false_implies,
    implies_true, List.Pairwise.nil, and_true]
  and_intros <;> exact RecordField.apart_of_put (by decide) fun _ _ _ => rfl

section

variable {raw : Option Json} {s s' : Settings}

theorem setGiven?_ceilings_iff :
    RecordField.setGiven? ⟨"ceilings", fun j s =>
        (RecordField.read? Ceilings.fields {} j).map fun c => { s with ceilings := c }⟩ raw s
        = some s' ↔
      ∃ given, Option.Rel (fun v c => Ceilings.Given.DescribedBy c v) raw given ∧
        s' = { s with ceilings := given.elim s.ceilings (·.over {}) } := by
  have hset : ∀ v s',
      ((RecordField.read? Ceilings.fields {} v).map fun c => { s with ceilings := c }) = some s' ↔
        ∃ c : Ceilings.Given, c.DescribedBy v ∧ s' = { s with ceilings := c.over {} } := by
    intro v s'
    simp only [Option.map_eq_some_iff, Ceilings.read?_eq_some_iff]
    constructor
    · rintro ⟨_, ⟨c, hc, rfl⟩, rfl⟩
      exact ⟨c, hc, rfl⟩
    · rintro ⟨c, hc, rfl⟩
      exact ⟨_, ⟨c, hc, rfl⟩, rfl⟩
  rw [RecordField.setGiven?_eq_some_iff hset]
  exact exists_congr fun given => and_congr_right fun _ => by cases given <;> rfl

theorem setGiven?_renderDepth_iff :
    (RecordField.word "render_depth" fun n s => { s with renderDepth := n.toNat }).setGiven? raw s
        = some s' ↔
      ∃ given, Option.Rel Json.IsWord raw given ∧
        s' = { s with renderDepth := given.elim s.renderDepth UInt64.toNat } := by
  rw [RecordField.setGiven?_eq_some_iff RecordField.set?_word_iff]
  exact exists_congr fun given => and_congr_right fun _ => by cases given <;> rfl

theorem setGiven?_dumpRoot_iff :
    RecordField.setGiven? ⟨"dump_root", fun j s =>
        (readRoot? j).map fun r => { s with dumpRoot := r }⟩ raw s = some s' ↔
      ∃ given, Option.Rel Json.IsTextOrNull raw given ∧
        s' = { s with dumpRoot := given.getD s.dumpRoot } := by
  have hset : ∀ v s', ((readRoot? v).map fun r => { s with dumpRoot := r }) = some s' ↔
      ∃ r, v.IsTextOrNull r ∧ s' = { s with dumpRoot := r } := by
    intro v s'
    simp only [Option.map_eq_some_iff, readRoot?_eq_some_iff]
    exact exists_congr fun r => and_congr_right fun _ => eq_comm
  rw [RecordField.setGiven?_eq_some_iff hset]
  exact exists_congr fun given => and_congr_right fun _ => by cases given <;> rfl

end

/-- Settings are read from the documents that describe some of them. -/
theorem ofJson?_eq_some_iff {j : Json} {s : Settings} :
    ofJson? j = some s ↔ ∃ g : Given, g.DescribedBy j ∧ s = g.over {} := by
  rw [ofJson?, RecordField.read?_eq_some_iff fields_apart, fields_names]
  simp only [fields, RecordField.fill_cons, RecordField.fill_nil, Option.bind_eq_some_iff,
    Option.some.injEq]
  constructor
  · rintro ⟨hj, _, s₁, _, s₂, _, s₃, rfl⟩
    obtain ⟨g₁, h₁, rfl⟩ := setGiven?_ceilings_iff.1 s₁
    obtain ⟨g₂, h₂, rfl⟩ := setGiven?_renderDepth_iff.1 s₂
    obtain ⟨g₃, h₃, rfl⟩ := setGiven?_dumpRoot_iff.1 s₃
    exact ⟨⟨g₁, g₂, g₃⟩, ⟨hj, h₁, h₂, h₃⟩, rfl⟩
  · rintro ⟨g, hg, rfl⟩
    exact ⟨hg.record, _, setGiven?_ceilings_iff.2 ⟨_, hg.ceilings, rfl⟩,
      _, setGiven?_renderDepth_iff.2 ⟨_, hg.renderDepth, rfl⟩,
      _, setGiven?_dumpRoot_iff.2 ⟨_, hg.dumpRoot, rfl⟩, rfl⟩

/-! ## Texts -/

/-- A document in which a field of this record has two members. -/
def GivesTwice (names : List String) (j : Json) : Prop :=
  ∃ members, j = .object members ∧ ∃ name ∈ names, 2 ≤ (members.map (·.1)).count (some name)

theorem not_isRecord_of_givesTwice {names : List String} {j : Json} (hj : GivesTwice names j) :
    ¬IsRecord names j := by
  obtain ⟨members, rfl, name, hname, htwice⟩ := hj
  rintro (⟨_, -, honce⟩ | _)
  have hle := honce name hname
  omega

theorem ofText_of_some {text : String} {j : Json} {s : Settings} (ht : Json.read? text = some j)
    (hj : ofJson? j = some s) : ofText text = s.check.map fun _ => s := by
  simp [ofText, ht, hj]

theorem ofText_of_none {text : String} {j : Json} (ht : Json.read? text = some j)
    (hj : ofJson? j = none) : ofText text = .error .malformed := by
  simp [ofText, ht, hj]

theorem map_check_ne_malformed (s : Settings) : (s.check.map fun _ => s) ≠ .error .malformed := by
  unfold check
  split
  · nofun
  · split <;> nofun

/-- The document that is written gives all settings. -/
def given (s : Settings) : Given where
  ceilings := some s.ceilings.given
  renderDepth := some (.ofNat s.renderDepth)
  dumpRoot := some s.dumpRoot

theorem given_describedBy {s : Settings} (hs : s.renderDepth < UInt64.size) :
    s.given.DescribedBy s.toJson where
  record := .object _ (by simp) (by simp [names])
  ceilings := .some s.ceilings.given_describedBy
  renderDepth := .some (Json.isWord_ofNat hs)
  dumpRoot := .some rfl

theorem given_over {s : Settings} (hs : s.renderDepth < UInt64.size) : s.given.over {} = s := by
  have hdepth : (UInt64.ofNat s.renderDepth).toNat = s.renderDepth := UInt64.toNat_ofNat_of_lt' hs
  simp [given, Given.over, Ceilings.given, Ceilings.Given.over, hdepth]

theorem isSpelled_toJson (s : Settings) : s.toJson.IsSpelled := by
  have hceilings : s.ceilings.toJson.IsSpelled :=
    Json.isSpelled_object (by simp [Json.isSpelled_ofNat, Json.ofWord])
  have hroot : (Json.ofOption .text s.dumpRoot).IsSpelled := by
    cases s.dumpRoot <;> simp [Json.ofOption, Json.text, Json.IsSpelled,
      Json.Token.IsSpelled]
  exact Json.isSpelled_object (by simp [hceilings, hroot, Json.isSpelled_ofNat])

theorem ofText_toJson {s : Settings} (hs : s.check = .ok ()) {text : String}
    (ht : Json.read? text = some s.toJson) : ofText text = .ok s := by
  have hdepth : s.renderDepth < UInt64.size :=
    Nat.lt_of_le_of_lt ((check_eq_ok_iff s).1 hs).1 (by decide)
  have hread : ofJson? s.toJson = some s :=
    ofJson?_eq_some_iff.2 ⟨s.given, given_describedBy hdepth, (given_over hdepth).symm⟩
  rw [ofText_of_some ht hread, hs]
  rfl

/-- A text that holds a document in which some settings are given, in whatever order, among
whatever other members, and in either form on either level, is read as the default settings with
these replaced, if they are valid; a field that is given twice is an error; and valid settings that
were written are read. Every text a document is laid out in holds it. -/
theorem ofText_overrides :
    (∀ (j : Json) (text : String), Json.Laid j.tokens text.toList → Json.read? text = some j) ∧
    (∀ (g : Given) (j : Json) (text : String), g.DescribedBy j → Json.read? text = some j →
      ofText text = (g.over {}).check.map (fun _ => g.over {}) ∧
        ofText text ≠ .error .malformed) ∧
    (∀ (j : Json) (text : String), Json.read? text = some j →
      (GivesTwice names j ∨ ∃ v, value? names j "ceilings" = some v ∧ GivesTwice Ceilings.names v) →
      ofText text = .error .malformed) ∧
    ∀ s : Settings, s.check = .ok () →
      ofText s.toJson.compact = .ok s ∧ ofText s.toJson.pretty = .ok s := by
  refine ⟨fun j text => Json.read?_of_laid, fun g j text hg ht => ?_, fun j text ht htwice => ?_,
    fun s hs => ?_⟩
  · rw [ofText_of_some ht (ofJson?_eq_some_iff.2 ⟨g, hg, rfl⟩)]
    exact ⟨rfl, map_check_ne_malformed _⟩
  · -- what is read is described, and what is described gives no field twice
    refine ofText_of_none ht (Option.eq_none_iff_forall_ne_some.2 fun s hs => ?_)
    obtain ⟨g, hg, -⟩ := ofJson?_eq_some_iff.1 hs
    rcases htwice with htwice | ⟨v, hv, htwice⟩
    · exact not_isRecord_of_givesTwice htwice hg.record
    · have hrel := hg.ceilings
      rw [hv] at hrel
      cases hc : g.ceilings with
      | none => rw [hc] at hrel; cases hrel
      | some c =>
        rw [hc] at hrel
        cases hrel with
        | some hrel => exact not_isRecord_of_givesTwice htwice hrel.record
  · exact ⟨ofText_toJson hs (Json.read?_compact (isSpelled_toJson s)),
      ofText_toJson hs (Json.read?_pretty (isSpelled_toJson s))⟩

theorem ofText_overrides_partial :
    Json.read? " [ ]" = some (.array []) ∧
    ofText "\x7b\"render_depth\":1,\"colour\":null,\"ceilings\":[7]\x7d"
      = .ok { ceilings := { configTables := 7 }, renderDepth := 1 } ∧
    ofText "[\x7b\"reserved\":7,\"reserved\":7\x7d]" = .error .malformed ∧
    ofText (toJson { dumpRoot := some "/dumps" }).compact = .ok { dumpRoot := some "/dumps" } := by
  refine ⟨ofText_overrides.1 _ _ (.blank rfl (.token (t := .openArray) trivial (fun _ _ => rfl)
      (.blank rfl (.token (t := .closeArray) trivial (fun _ _ => rfl) .nil)))), ?_, ?_, ?_⟩
  · have hceilings : Ceilings.Given.DescribedBy { configTables := some 7 } (.array [.number "7"]) :=
      ⟨.array _ (by decide), .some ⟨"7", rfl, rfl⟩, .none, .none, .none, .none, .none, .none, .none⟩
    have hg : Given.DescribedBy { ceilings := some { configTables := some 7 }, renderDepth := some 1 }
        (.object [(some "render_depth", .number "1"), (some "colour", .null),
          (some "ceilings", .array [.number "7"])]) :=
      ⟨.object _ (by decide) (by decide), .some hceilings, .some ⟨"1", rfl, rfl⟩, .none⟩
    exact (ofText_overrides.2.1 _ _ _ hg rfl).1
  · refine ofText_overrides.2.2.1 (.array [.object [(some "reserved", .number "7"),
      (some "reserved", .number "7")]]) _ rfl (.inr ⟨_, rfl, _, rfl, "reserved", ?_, ?_⟩)
    · decide
    · decide
  · exact (ofText_overrides.2.2.2 _ rfl).1

end Settings

end HeapAudit
