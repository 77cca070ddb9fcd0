import Mathlib.Data.List.Count
import Mathlib.Data.List.Nodup
import HeapAudit.Settings.Document

/-!
What reading a record comes to. A document is in the form of a record or not; if it is, the fields
may be filled one after the other in their own order, each with what the document gives to it,
and neither the order of the members nor the form makes a difference.

Main definitions
* `RecordField.IsRecord`: an object with text for its keys and no field given twice, or an array
  no longer than the record.
* `RecordField.value?`: what a document gives to a field.
* `RecordField.fill`: the fields filled in their own order.

Main statements
* `RecordField.read?_of_isRecord`, `RecordField.read?_of_not_isRecord`: what is read.
-/

namespace HeapAudit.RecordField

variable {α : Type} {fields : List (RecordField α)} {names : List String} {j : Json}

/-! ## Documents in the form of a record -/

inductive IsRecord (names : List String) : Json → Prop
  /-- Keys of other names may be repeated. -/
  | object (members : List (Option String × Json)) (htext : ∀ m ∈ members, m.1 ≠ none)
      (honce : ∀ name ∈ names, (members.map (·.1)).count (some name) ≤ 1) :
      IsRecord names (.object members)
  | array (items : List Json) (hlength : items.length ≤ names.length) :
      IsRecord names (.array items)

/-- What a document gives to a field: by its name in an object, by its place in an array. -/
def value? (names : List String) (j : Json) (name : String) : Option Json :=
  match j with
  | .object members => members.lookup (some name)
  | .array items => (names.zip items).lookup name
  | _ => none

/-! ## Fields filled in their own order -/

/-- Puts in what is given; a field that is given nothing is left. -/
def setGiven? (f : RecordField α) : Option Json → α → Option α
  | none, a => some a
  | some v, a => f.set? v a

def fill (fields : List (RecordField α)) (given : String → Option Json) (a : α) : Option α :=
  fields.foldlM (fun a f => f.setGiven? (given f.name) a) a

@[simp]
theorem fill_nil (given : String → Option Json) (a : α) : fill [] given a = some a := rfl

@[simp]
theorem fill_cons (f : RecordField α) (fields : List (RecordField α))
    (given : String → Option Json) (a : α) :
    fill (f :: fields) given a = (f.setGiven? (given f.name) a).bind (fill fields given) := rfl

theorem fill_congr {given given' : String → Option Json}
    (hg : ∀ f ∈ fields, given f.name = given' f.name) : fill fields given = fill fields given' := by
  funext a
  induction fields generalizing a with
  | nil => rfl
  | cons f fields ih =>
    rw [fill_cons, fill_cons, hg f List.mem_cons_self,
      funext (ih fun g hm => hg g (List.mem_cons_of_mem _ hm))]

theorem setGiven?_none (f : RecordField α) : f.setGiven? none = some := rfl

theorem fill_none (a : α) : fill fields (fun _ => none) a = some a := by
  induction fields generalizing a with
  | nil => rfl
  | cons f fields ih => rw [fill_cons, setGiven?_none, Option.bind_some, ih]

/-- Two fields of different names that do not touch each other. -/
structure Apart (f g : RecordField α) : Prop where
  name : f.name ≠ g.name
  commutes : ∀ v w a, (f.set? v a).bind (g.set? w) = (g.set? w a).bind (f.set? v)

theorem Apart.setGiven? {f g : RecordField α} (hfg : Apart f g) (given : Option Json) (v : Json)
    (a : α) :
    (f.setGiven? given a).bind (g.set? v) = (g.set? v a).bind (f.setGiven? given) := by
  cases given with
  | none => rw [setGiven?_none, Option.bind_some, Option.bind_fun_some]
  | some w => exact hfg.commutes w v a

/-! ## Members -/

section Members

variable {f : RecordField α} {ms : List (String × Json)}

theorem lookup_cons_of_ne {κ β : Type} [BEq κ] [LawfulBEq κ] {k k' : κ} (hk : k ≠ k') (v : β)
    (ms : List (κ × β)) : ((k', v) :: ms).lookup k = ms.lookup k := by
  rw [List.lookup_cons, beq_false_of_ne hk]

/-- A member that comes first may be put in first. -/
theorem fill_lookup_cons (hi : fields.Pairwise Apart) (hf : f ∈ fields)
    (hms : ms.lookup f.name = none) (v : Json) (a : α) :
    fill fields (((f.name, v) :: ms).lookup ·) a
      = (f.set? v a).bind (fill fields (ms.lookup ·)) := by
  induction fields generalizing a with
  | nil => cases hf
  | cons g fields ih =>
    obtain ⟨hg, hfields⟩ := List.pairwise_cons.1 hi
    rcases List.mem_cons.1 hf with rfl | hf
    · have hrest : fill fields (((f.name, v) :: ms).lookup ·) = fill fields (ms.lookup ·) :=
        fill_congr fun g hm => lookup_cons_of_ne (hg g hm).name.symm v ms
      have hskip : fill (f :: fields) (ms.lookup ·) = fill fields (ms.lookup ·) := by
        funext a
        rw [fill_cons, hms, setGiven?_none, Option.bind_some]
      rw [fill_cons, hrest, hskip, List.lookup_cons_self]
      rfl
    · -- the member's field comes later, so it has to pass the first one
      have hgf := hg f hf
      have hrest := funext (ih hfields hf)
      calc fill (g :: fields) (((f.name, v) :: ms).lookup ·) a
          = (g.setGiven? (ms.lookup g.name) a).bind fun a =>
              (f.set? v a).bind (fill fields (ms.lookup ·)) := by
            rw [fill_cons, hrest, lookup_cons_of_ne hgf.name]
        _ = ((f.set? v a).bind (g.setGiven? (ms.lookup g.name))).bind
              (fill fields (ms.lookup ·)) := by
            rw [← hgf.setGiven?, Option.bind_assoc]
        _ = (f.set? v a).bind (fill (g :: fields) (ms.lookup ·)) := by
            rw [Option.bind_assoc]
            rfl

theorem lookup_eq_none_of_count {k : String} (hk : (ms.map (·.1)).count k = 0) :
    ms.lookup k = none := by
  rw [List.count_eq_zero] at hk
  refine List.lookup_eq_none_iff.2 fun m hm => ?_
  rw [bne_iff_ne]
  rintro rfl
  exact hk (List.mem_map_of_mem hm)

/-- Members put in one after the other come to the fields filled in their own order. -/
theorem foldlM_setMember? (hi : fields.Pairwise Apart)
    (honce : ∀ f ∈ fields, (ms.map (·.1)).count f.name ≤ 1) (a : α) :
    ms.foldlM (fun a m => setMember? fields a m.1 m.2) a = fill fields (ms.lookup ·) a := by
  induction ms generalizing a with
  | nil => exact (fill_none a).symm
  | cons m ms ih =>
    obtain ⟨k, v⟩ := m
    have hrest : ∀ f ∈ fields, (ms.map (·.1)).count f.name ≤ 1 := fun f hf =>
      Nat.le_trans List.count_le_count_cons (honce f hf)
    rw [List.foldlM_cons]
    -- an unknown member is seen by no field, a known one by its own field and not again
    cases hfind : fields.find? fun f => f.name == k with
    | none =>
      have hne : ∀ f ∈ fields, f.name ≠ k := by simpa using hfind
      have hset : setMember? fields a k v = some a := by simp [setMember?, hfind]
      have hskip : fill fields (((k, v) :: ms).lookup ·) = fill fields (ms.lookup ·) :=
        fill_congr fun f hf => lookup_cons_of_ne (hne f hf) v ms
      rw [hset, hskip]
      exact ih hrest a
    | some f =>
      have hf := List.mem_of_find?_eq_some hfind
      have hk : f.name = k := by simpa using List.find?_some hfind
      subst hk
      have hset : setMember? fields a f.name v = f.set? v a := by simp [setMember?, hfind]
      have hnone : ms.lookup f.name = none := by
        have hcount := honce f hf
        rw [List.map_cons, List.count_cons_self] at hcount
        exact lookup_eq_none_of_count (by omega)
      rw [hset, fill_lookup_cons hi hf hnone]
      exact congrArg _ (funext (ih hrest))

/-- Members whose keys are text. -/
def named (ms : List (String × Json)) : List (Option String × Json) :=
  ms.map fun m => (some m.1, m.2)

theorem textMembers?_cons (k : String) (v : Json) (members : List (Option String × Json)) :
    textMembers? ((some k, v) :: members) = (textMembers? members).map ((k, v) :: ·) := by
  rw [textMembers?, List.mapM_cons]
  cases h : textMembers? members <;> simp_all [textMembers?]

theorem textMembers?_named (ms : List (String × Json)) : textMembers? (named ms) = some ms := by
  induction ms with
  | nil => rfl
  | cons m ms ih =>
    rw [named, List.map_cons, textMembers?_cons, ← named, ih]
    rfl

theorem exists_named {members : List (Option String × Json)} (ht : ∀ m ∈ members, m.1 ≠ none) :
    ∃ ms, members = named ms := by
  induction members with
  | nil => exact ⟨[], rfl⟩
  | cons m members ih =>
    obtain ⟨ms, rfl⟩ := ih fun m hm => ht m (List.mem_cons_of_mem _ hm)
    obtain ⟨k, hk⟩ := Option.ne_none_iff_exists'.1 (ht m List.mem_cons_self)
    exact ⟨(k, m.2) :: ms, by simp [named, ← hk]⟩

theorem textMembers?_eq_none {members : List (Option String × Json)}
    (ht : ¬∀ m ∈ members, m.1 ≠ none) : textMembers? members = none := by
  induction members with
  | nil => exact absurd (fun m hm => by cases hm) ht
  | cons m members ih =>
    obtain ⟨key, v⟩ := m
    cases key with
    | none => rfl
    | some k =>
      rw [textMembers?_cons, ih fun hall => ht (List.forall_mem_cons.2 ⟨nofun, hall⟩)]
      rfl

theorem lookup_named (k : String) : (named ms).lookup (some k) = ms.lookup k := by
  induction ms with
  | nil => rfl
  | cons m ms ih =>
    have hcons : (named (m :: ms)).lookup (some k)
        = if k == m.1 then some m.2 else (named ms).lookup (some k) := by
      rw [named, List.map_cons, List.lookup_cons, Option.some_beq_some]
      cases k == m.1 <;> rfl
    rw [hcons, ih, List.lookup_cons]
    cases k == m.1 <;> rfl

theorem count_named (k : String) :
    ((named ms).map (·.1)).count (some k) = (ms.map (·.1)).count k := by
  have hmap : (named ms).map (·.1) = (ms.map (·.1)).map some := by simp [named]
  rw [hmap, List.count_map_of_injective _ _ fun _ _ => Option.some.inj]

theorem nodup_known_iff {keys : List String} :
    (known fields keys).Nodup ↔ ∀ f ∈ fields, keys.count f.name ≤ 1 := by
  have hcount : ∀ k, (fields.any fun f => f.name == k) = true →
      (known fields keys).count k = keys.count k := fun k hk =>
    List.count_filter (p := fun k => fields.any fun f => f.name == k) hk
  rw [List.nodup_iff_count_le_one]
  constructor
  · intro hall f hf
    rw [← hcount f.name (List.any_eq_true.2 ⟨f, hf, beq_self_eq_true _⟩)]
    exact hall f.name
  · intro hall k
    by_cases hk : (fields.any fun f => f.name == k) = true
    · obtain ⟨f, hf, he⟩ := List.any_eq_true.1 hk
      rw [hcount k hk, ← eq_of_beq he]
      exact hall f hf
    · have hnone : k ∉ known fields keys := fun hm => hk (List.mem_filter.1 hm).2
      rw [List.count_eq_zero.2 hnone]
      exact Nat.zero_le 1

end Members

/-! ## Items -/

theorem readItems?_eq_fill (hi : fields.Pairwise Apart) {items : List Json}
    (hlength : items.length ≤ fields.length) (a : α) :
    readItems? fields a items = fill fields (((fields.map (·.name)).zip items).lookup ·) a := by
  induction fields generalizing items a with
  | nil =>
    rw [List.length_eq_zero_iff.1 (Nat.le_zero.1 hlength)]
    rfl
  | cons f fields ih =>
    cases items with
    | nil =>
      rw [List.zip_nil_right]
      exact (fill_none a).symm
    | cons v items =>
      obtain ⟨hf, hfields⟩ := List.pairwise_cons.1 hi
      have hrest : fill fields ((((f :: fields).map (·.name)).zip (v :: items)).lookup ·)
          = fill fields (((fields.map (·.name)).zip items).lookup ·) :=
        fill_congr fun g hg => lookup_cons_of_ne (hf g hg).name.symm v _
      rw [fill_cons, hrest, List.map_cons, List.zip_cons_cons, List.lookup_cons_self]
      exact congrArg _ (funext (ih hfields (Nat.le_of_succ_le_succ hlength)))

theorem readItems?_eq_none {items : List Json} (hlength : fields.length < items.length) (a : α) :
    readItems? fields a items = none := by
  induction fields generalizing items a with
  | nil =>
    obtain ⟨v, items, rfl⟩ := List.exists_cons_of_length_pos hlength
    rfl
  | cons f fields ih =>
    obtain ⟨v, items, rfl⟩ := List.exists_cons_of_length_pos (Nat.zero_lt_of_lt hlength)
    have hrest := ih (Nat.lt_of_succ_lt_succ hlength)
    simp [readItems?, hrest]

/-! ## Reading -/

/-- A document in the form of a record is read by filling the fields one after the other. -/
theorem read?_of_isRecord (hi : fields.Pairwise Apart) (hj : IsRecord (fields.map (·.name)) j)
    (a : α) : read? fields a j = fill fields (value? (fields.map (·.name)) j) a := by
  cases hj with
  | object members htext honce =>
    obtain ⟨ms, rfl⟩ := exists_named htext
    have hcount : ∀ f ∈ fields, (ms.map (·.1)).count f.name ≤ 1 := fun f hf => by
      rw [← count_named]
      exact honce f.name (List.mem_map_of_mem hf)
    have hvalue : value? (fields.map (·.name)) (.object (named ms)) = (ms.lookup ·) :=
      funext fun k => lookup_named k
    rw [read?, readMembers?, textMembers?_named, hvalue, ← foldlM_setMember? hi hcount]
    exact if_pos (nodup_known_iff.2 hcount)
  | array items hlength =>
    rw [List.length_map] at hlength
    exact readItems?_eq_fill hi hlength a

/-- What is not in the form of a record is not read. -/
theorem read?_of_not_isRecord (hj : ¬IsRecord (fields.map (·.name)) j) (a : α) :
    read? fields a j = none := by
  cases j with
  | object members =>
    by_cases ht : ∀ m ∈ members, m.1 ≠ none
    · obtain ⟨ms, rfl⟩ := exists_named ht
      have honce : ¬(known fields (ms.map (·.1))).Nodup := fun hnodup =>
        hj <| .object _ ht <| List.forall_mem_map.2 fun f hf => by
          rw [count_named]
          exact nodup_known_iff.1 hnodup f hf
      rw [read?, readMembers?, textMembers?_named]
      exact if_neg honce
    · rw [read?, readMembers?, textMembers?_eq_none ht]
      rfl
  | array items =>
    have hlength : fields.length < items.length := by
      rw [← Nat.not_le, ← List.length_map (f := RecordField.name)]
      exact fun hle => hj (.array items hle)
    exact readItems?_eq_none hlength a
  | _ => rfl

theorem read?_eq_some_iff (hi : fields.Pairwise Apart) {a a' : α} :
    read? fields a j = some a' ↔ IsRecord (fields.map (·.name)) j ∧
      fill fields (value? (fields.map (·.name)) j) a = some a' := by
  by_cases hj : IsRecord (fields.map (·.name)) j
  · rw [read?_of_isRecord hi hj, and_iff_right hj]
  · simp [read?_of_not_isRecord hj, hj]

end HeapAudit.RecordField
