import HeapAudit.Text.Column

/-!
JSON documents.

A number keeps its spelling: which spellings stand for which number is for the reader of a field
to say. A string may come from escapes that leave a surrogate without its partner; such a string
is no text and is kept as `none`.

Main definitions
* `Json`: the documents.
* `Json.natural?`, `Json.integer?`, `Json.text?`: the plain readings of a leaf.
* `Json.pretty`: the document over several lines, indented by two spaces a level.

Main statements
* `natural?_ofNat`: a number reads back.
* `prettyOnto_eq`: writing goes on after what is written, whatever that is.
-/

namespace HeapAudit

inductive Json where
  | null
  | bool (b : Bool)
  | number (spelling : String)
  | string (text : Option String)
  | array (items : List Json)
  | object (members : List (Option String × Json))

namespace Json

instance : Inhabited Json := ⟨null⟩

/-! ## Building -/

def text (s : String) : Json := string (some s)

def ofNat (n : Nat) : Json := number (toString n)

def ofInt (n : Int) : Json := number (toString n)

/-- An object with text for its keys. -/
def record (fields : List (String × Json)) : Json :=
  object (fields.map fun (k, v) => (some k, v))

/-- `null` for nothing. -/
def ofOption (f : α → Json) : Option α → Json
  | none => null
  | some a => f a

/-! ## Reading -/

/-- The number written by a non-empty run of digits. -/
def readDigits? (digits : List Char) : Option Nat :=
  if digits ≠ [] ∧ digits.all Char.isDigit then
    some (digits.foldl (fun n c => 10 * n + (c.toNat - '0'.toNat)) 0)
  else none

def natural? : Json → Option Nat
  | number spelling => readDigits? spelling.toList
  | _ => none

def integer? : Json → Option Int
  | number spelling =>
    match spelling.toList with
    | '-' :: digits => (readDigits? digits).map fun n => -(n : Int)
    | digits => (readDigits? digits).map Int.ofNat
  | _ => none

def text? : Json → Option String
  | string t => t
  | _ => none

def bool? : Json → Option Bool
  | bool b => some b
  | _ => none

def items? : Json → Option (List Json)
  | array items => some items
  | _ => none

def members? : Json → Option (List (Option String × Json))
  | object members => some members
  | _ => none

/-- The value of the first member with this key. -/
def field? (j : Json) (key : String) : Option Json :=
  j.members?.bind (List.lookup (some key))

/-! ## Numbers read back -/

private theorem digitChar_value {d : Nat} (h : d < 10) :
    d.digitChar.isDigit = true ∧ d.digitChar.toNat - '0'.toNat = d := by
  revert d
  decide

theorem readDigits?_toDigits (n : Nat) : readDigits? (Nat.toDigits 10 n) = some n := by
  suffices h : Nat.toDigits 10 n ≠ [] ∧ (Nat.toDigits 10 n).all Char.isDigit = true ∧
      (Nat.toDigits 10 n).foldl (fun n c => 10 * n + (c.toNat - '0'.toNat)) 0 = n by
    obtain ⟨hn, ha, hv⟩ := h
    rw [readDigits?, if_pos ⟨hn, ha⟩, hv]
  induction n using Nat.strongRecOn with
  | _ n ih =>
    by_cases hn : n < 10
    · rw [Nat.toDigits_of_lt_base hn]
      have hd := digitChar_value hn
      exact ⟨by simp, by simp [hd.1], by simpa using hd.2⟩
    · obtain ⟨_, ha, hv⟩ := ih (n / 10) (by omega)
      have hd := digitChar_value (Nat.mod_lt n (by decide : 0 < 10))
      rw [Nat.toDigits_of_base_le (by decide) (by omega)]
      refine ⟨by simp, ?_, ?_⟩
      · rw [List.all_append, ha]
        simp [hd.1]
      · rw [List.foldl_append, hv, List.foldl_cons, List.foldl_nil, hd.2]
        omega

theorem natural?_ofNat (n : Nat) : (ofNat n).natural? = some n := by
  simp [natural?, ofNat, readDigits?_toDigits]

/-! ## Strings -/

/-- The short escapes, and four hexadecimal digits for the other controls. -/
def escapeChar (c : Char) : String :=
  if c = '"' then "\\\""
  else if c = '\\' then "\\\\"
  else if c = '\x08' then "\\b"
  else if c = '\x0c' then "\\f"
  else if c = '\n' then "\\n"
  else if c = '\r' then "\\r"
  else if c = '\t' then "\\t"
  else if c.toNat < 0x20 then "\\u" ++ Text.zeroPadded 4 (Text.hexDigits c.toNat)
  else c.toString

/-- What is no text is written as a surrogate without its partner. -/
def quote : Option String → String
  | some s => "\"" ++ String.join (s.toList.map escapeChar) ++ "\""
  | none => "\"\\ud800\""

/-! ## Indented text -/

/-- The break before an item at this depth. -/
def lineBreak (depth : Nat) : String := "\n".pushn ' ' (2 * depth)

mutual

/-- A document at this depth, written after `out`. -/
def prettyOnto (out : String) (depth : Nat) : Json → String
  | null => out ++ "null"
  | bool b => out ++ if b then "true" else "false"
  | number spelling => out ++ spelling
  | string t => out ++ quote t
  | array items =>
    match items with
    | [] => out ++ "[]"
    | first :: rest =>
      let out := prettyOnto (out ++ "[" ++ lineBreak (depth + 1)) (depth + 1) first
      prettyItemsOnto out (depth + 1) rest ++ lineBreak depth ++ "]"
  | object members =>
    match members with
    | [] => out ++ "\x7b\x7d"
    | (key, value) :: rest =>
      let out := out ++ "\x7b" ++ lineBreak (depth + 1) ++ quote key ++ ": "
      let out := prettyOnto out (depth + 1) value
      prettyMembersOnto out (depth + 1) rest ++ lineBreak depth ++ "\x7d"

def prettyItemsOnto (out : String) (depth : Nat) : List Json → String
  | [] => out
  | item :: rest =>
    prettyItemsOnto (prettyOnto (out ++ "," ++ lineBreak depth) depth item) depth rest

def prettyMembersOnto (out : String) (depth : Nat) : List (Option String × Json) → String
  | [] => out
  | (key, value) :: rest =>
    let out := out ++ "," ++ lineBreak depth ++ quote key ++ ": "
    prettyMembersOnto (prettyOnto out depth value) depth rest

end

def prettyAt (depth : Nat) (j : Json) : String := prettyOnto "" depth j

def prettyItems (depth : Nat) (items : List Json) : String := prettyItemsOnto "" depth items

def prettyMembers (depth : Nat) (members : List (Option String × Json)) : String :=
  prettyMembersOnto "" depth members

def pretty (j : Json) : String := prettyAt 0 j

mutual

theorem append_prettyOnto (before out : String) (depth : Nat) (j : Json) :
    prettyOnto (before ++ out) depth j = before ++ prettyOnto out depth j := by
  match j with
  | .null | .bool _ | .number _ | .string _ | .array [] | .object [] =>
    exact String.append_assoc
  | .array (first :: rest) =>
    simp only [prettyOnto, @String.append_assoc before]
    rw [append_prettyOnto _ _ _ first, append_prettyItemsOnto _ _ _ rest]
    simp only [String.append_assoc]
  | .object ((key, value) :: rest) =>
    simp only [prettyOnto, @String.append_assoc before]
    rw [append_prettyOnto _ _ _ value, append_prettyMembersOnto _ _ _ rest]
    simp only [String.append_assoc]

theorem append_prettyItemsOnto (before out : String) (depth : Nat) (items : List Json) :
    prettyItemsOnto (before ++ out) depth items = before ++ prettyItemsOnto out depth items := by
  match items with
  | [] => rfl
  | item :: rest =>
    simp only [prettyItemsOnto, @String.append_assoc before]
    rw [append_prettyOnto _ _ _ item, append_prettyItemsOnto _ _ _ rest]

theorem append_prettyMembersOnto (before out : String) (depth : Nat)
    (members : List (Option String × Json)) :
    prettyMembersOnto (before ++ out) depth members =
      before ++ prettyMembersOnto out depth members := by
  match members with
  | [] => rfl
  | (key, value) :: rest =>
    simp only [prettyMembersOnto, @String.append_assoc before]
    rw [append_prettyOnto _ _ _ value, append_prettyMembersOnto _ _ _ rest]

end

theorem prettyOnto_eq (out : String) (depth : Nat) (j : Json) :
    prettyOnto out depth j = out ++ prettyAt depth j := by
  rw [prettyAt, ← append_prettyOnto, String.append_empty]

theorem prettyItemsOnto_eq (out : String) (depth : Nat) (items : List Json) :
    prettyItemsOnto out depth items = out ++ prettyItems depth items := by
  rw [prettyItems, ← append_prettyItemsOnto, String.append_empty]

theorem prettyMembersOnto_eq (out : String) (depth : Nat)
    (members : List (Option String × Json)) :
    prettyMembersOnto out depth members = out ++ prettyMembers depth members := by
  rw [prettyMembers, ← append_prettyMembersOnto, String.append_empty]

@[simp] theorem prettyAt_null (depth : Nat) : prettyAt depth null = "null" := String.empty_append

@[simp] theorem prettyAt_bool (depth : Nat) (b : Bool) :
    prettyAt depth (bool b) = if b then "true" else "false" := String.empty_append

@[simp] theorem prettyAt_number (depth : Nat) (spelling : String) :
    prettyAt depth (number spelling) = spelling := String.empty_append

@[simp] theorem prettyAt_string (depth : Nat) (t : Option String) :
    prettyAt depth (string t) = quote t := String.empty_append

@[simp] theorem prettyAt_array_nil (depth : Nat) : prettyAt depth (array []) = "[]" :=
  String.empty_append

@[simp] theorem prettyAt_object_nil (depth : Nat) : prettyAt depth (object []) = "\x7b\x7d" :=
  String.empty_append

@[simp] theorem prettyAt_array_cons (depth : Nat) (first : Json) (rest : List Json) :
    prettyAt depth (array (first :: rest)) =
      "[" ++ lineBreak (depth + 1) ++ prettyAt (depth + 1) first ++ prettyItems (depth + 1) rest
        ++ lineBreak depth ++ "]" := by
  rw [prettyAt, prettyOnto]
  simp only [prettyOnto_eq, prettyItemsOnto_eq, String.empty_append]

@[simp] theorem prettyAt_object_cons (depth : Nat) (key : Option String) (value : Json)
    (rest : List (Option String × Json)) :
    prettyAt depth (object ((key, value) :: rest)) =
      "\x7b" ++ lineBreak (depth + 1) ++ quote key ++ ": " ++ prettyAt (depth + 1) value
        ++ prettyMembers (depth + 1) rest ++ lineBreak depth ++ "\x7d" := by
  rw [prettyAt, prettyOnto]
  simp only [prettyOnto_eq, prettyMembersOnto_eq, String.empty_append]

@[simp] theorem prettyItems_nil (depth : Nat) : prettyItems depth [] = "" := rfl

@[simp] theorem prettyItems_cons (depth : Nat) (item : Json) (rest : List Json) :
    prettyItems depth (item :: rest) =
      "," ++ lineBreak depth ++ prettyAt depth item ++ prettyItems depth rest := by
  rw [prettyItems, prettyItemsOnto]
  simp only [prettyOnto_eq, prettyItemsOnto_eq, String.empty_append]

@[simp] theorem prettyMembers_nil (depth : Nat) : prettyMembers depth [] = "" := rfl

@[simp] theorem prettyMembers_cons (depth : Nat) (key : Option String) (value : Json)
    (rest : List (Option String × Json)) :
    prettyMembers depth ((key, value) :: rest) =
      "," ++ lineBreak depth ++ quote key ++ ": " ++ prettyAt depth value
        ++ prettyMembers depth rest := by
  rw [prettyMembers, prettyMembersOnto]
  simp only [prettyOnto_eq, prettyMembersOnto_eq, String.empty_append]

end Json

end HeapAudit
