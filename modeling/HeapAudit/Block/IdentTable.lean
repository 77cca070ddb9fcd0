import HeapAudit.Block.Handle

/-!
The compiler's identifier table: a fixed number of buckets, each holding its entries in the order
of insertion. A name's bucket is its hash modulo the number of buckets.

Main statements
* `size_insert`: inserting never changes the number of buckets.
* `entries_insert_perm`: inserting adds exactly the one entry.
-/

namespace HeapAudit

/-- What a name stands for. The first two kinds are permanent and own an identifier block. -/
inductive IdentKind where
  | builtin
  | simulFunction
  | globalName
  | localName
  | define
deriving DecidableEq, Repr

def IdentKind.isPermanent : IdentKind → Bool
  | builtin | simulFunction => true
  | globalName | localName | define => false

structure IdentEntry where
  name : String
  kind : IdentKind
  block : Option Handle
deriving DecidableEq, Repr

structure IdentTable where
  buckets : List (List IdentEntry)
deriving DecidableEq, Repr

namespace IdentTable

/-- A table has at least one bucket. -/
def ofSize (count : Nat) : IdentTable := ⟨List.replicate (max count 1) []⟩

/-- Polynomial hash of the name's bytes in base 31, in 64-bit arithmetic. -/
def hash (name : String) : UInt64 :=
  name.toUTF8.data.toList.foldl (fun acc b => acc * 31 + b.toUInt64) 0

def bucketOf (name : String) (count : Nat) : Nat := (hash name).toNat % count

def insert (t : IdentTable) (entry : IdentEntry) : IdentTable :=
  ⟨t.buckets.modify (bucketOf entry.name t.buckets.length) (· ++ [entry])⟩

/-- All entries, bucket after bucket. -/
def entries (t : IdentTable) : List IdentEntry := t.buckets.flatten

@[simp] theorem size_ofSize (count : Nat) : (ofSize count).buckets.length = max count 1 := by
  simp [ofSize]

@[simp] theorem size_insert (t : IdentTable) (entry : IdentEntry) :
    (t.insert entry).buckets.length = t.buckets.length := by
  simp [insert]

@[simp] theorem entries_ofSize (count : Nat) : (ofSize count).entries = [] := by
  simp [ofSize, entries]

theorem bucketOf_lt (name : String) {count : Nat} (h : 0 < count) : bucketOf name count < count :=
  Nat.mod_lt _ h

private theorem flatten_modify_append {buckets : List (List IdentEntry)} {i : Nat}
    (h : i < buckets.length) (entry : IdentEntry) :
    (buckets.modify i (· ++ [entry])).flatten.Perm (entry :: buckets.flatten) := by
  induction buckets generalizing i with
  | nil => simp at h
  | cons b bs ih =>
    cases i with
    | zero =>
      simp only [List.modify_zero_cons, List.flatten_cons, List.append_assoc]
      exact List.perm_middle
    | succ i =>
      simp only [List.modify_succ_cons, List.flatten_cons]
      exact ((ih (Nat.lt_of_succ_lt_succ h)).append_left b).trans List.perm_middle

theorem entries_insert_perm {t : IdentTable} (h : 0 < t.buckets.length) (entry : IdentEntry) :
    (t.insert entry).entries.Perm (entry :: t.entries) :=
  flatten_modify_append (bucketOf_lt entry.name h) entry

end IdentTable

end HeapAudit
