import HeapAudit.Heap.Basic

/-!
The table of shared strings and the running totals over all string blocks.

A text is interned once: equal texts share one block and one count. Private strings stay out of
the table but count in the same totals.

Main definitions
* `StringTable.intern`, `StringTable.newPrivate`: a new reference to a string.
* `StringTable.retain`, `StringTable.release`: one reference more or less.
* `StringTotals.ofBlocks`: what the totals should be, by looking at every block.
-/

namespace HeapAudit

/-- What a text costs in the byte totals: its bytes and a terminator. -/
def stringCost (text : String) : Nat := text.utf8ByteSize + 1

/-- The cost of a shared or private string; other text is not counted. -/
def Payload.stringCost? : Payload → Option Nat
  | sharedText content | privateText content _ => some (stringCost content)
  | _ => none

/-- `references` sums the stored counts; `allocatedBytes` weights the bytes by them. -/
structure StringTotals where
  distinct : Nat := 0
  references : Nat := 0
  distinctBytes : Nat := 0
  allocatedBytes : Nat := 0
deriving DecidableEq, Repr

namespace StringTotals

/-- One more string block with one reference. -/
def addBlock (t : StringTotals) (cost : Nat) : StringTotals :=
  ⟨t.distinct + 1, t.references + 1, t.distinctBytes + cost, t.allocatedBytes + cost⟩

def addReference (t : StringTotals) (cost : Nat) : StringTotals :=
  { t with references := t.references + 1, allocatedBytes := t.allocatedBytes + cost }

/-- The totals never fall below zero. -/
def dropReference (t : StringTotals) (cost : Nat) : StringTotals :=
  { t with references := t.references - 1, allocatedBytes := t.allocatedBytes - cost }

def dropBlock (t : StringTotals) (cost : Nat) : StringTotals :=
  { t with distinct := t.distinct - 1, distinctBytes := t.distinctBytes - cost }

/-- Counts one block of the heap, if it is a string. -/
def countBlock (t : StringTotals) (b : Block) : StringTotals :=
  match b.payload.stringCost? with
  | none => t
  | some cost =>
    ⟨t.distinct + 1, t.references + b.refs, t.distinctBytes + cost,
     t.allocatedBytes + b.refs * cost⟩

def ofBlocks (blocks : List Block) : StringTotals := blocks.foldl countBlock {}

end StringTotals

/-- `entries` has one entry for a text. -/
structure StringTable where
  entries : List (String × Handle) := []
  totals : StringTotals := {}
deriving DecidableEq, Repr

namespace StringTable

def find? (t : StringTable) (text : String) : Option Handle := t.entries.lookup text

def size (t : StringTable) : Nat := t.entries.length

/-- The entries of all other texts. -/
def erase (t : StringTable) (text : String) : StringTable :=
  { t with entries := t.entries.filter fun e => e.1 ≠ text }

def put (t : StringTable) (text : String) (h : Handle) : StringTable :=
  { t with entries := (text, h) :: (t.erase text).entries }

/-- A new block for a text that is not interned, or whose block is gone. -/
def internNew (t : StringTable) (heap : Heap) (text : String) : StringTable × Heap × Handle :=
  let (heap, h) := heap.allocate .sharedString (.sharedText text) "make_shared_string"
  ({ t.put text h with totals := t.totals.addBlock (stringCost text) }, heap, h)

/-- A new reference to the shared string with this text. -/
def intern (t : StringTable) (heap : Heap) (text : String) : StringTable × Heap × Handle :=
  match t.find? text with
  | none => t.internNew heap text
  | some h =>
    if heap.isLive h then
      ({ t with totals := t.totals.addReference (stringCost text) }, heap.incRef h, h)
    else t.internNew heap text

def newPrivate (t : StringTable) (heap : Heap) (text : String) : StringTable × Heap × Handle :=
  let (heap, h) :=
    heap.allocate .mallocString (.privateText text text.utf8ByteSize) "new_string"
  ({ t with totals := t.totals.addBlock (stringCost text) }, heap, h)

/-- The cost of the live string behind a handle. -/
def costAt? (heap : Heap) (h : Handle) : Option Nat :=
  (heap.payload? h).bind Payload.stringCost?

/-- One reference more; `false` if the handle is no live string. -/
def retain (t : StringTable) (heap : Heap) (h : Handle) : StringTable × Heap × Bool :=
  match costAt? heap h with
  | none => (t, heap, false)
  | some cost => ({ t with totals := t.totals.addReference cost }, heap.incRef h, true)

/-- A block that is gone leaves the table, if it was shared. -/
def forget (t : StringTable) : Payload → StringTable
  | .sharedText text => t.erase text
  | _ => t

/-- One reference less; the last one frees the block. -/
def release (t : StringTable) (heap : Heap) (h : Handle) : StringTable × Heap :=
  match costAt? heap h with
  | none => (t, heap)
  | some cost =>
    let t := { t with totals := t.totals.dropReference cost }
    match heap.decRef h with
    | (none, heap) => (t, heap)
    | (some b, heap) =>
      ({ t with totals := t.totals.dropBlock cost }.forget b.payload, heap)

/-! ## Look-up after each operation -/

private theorem lookup_filter_ne (entries : List (String × Handle)) (text other : String) :
    (entries.filter fun e => e.1 ≠ text).lookup other
      = if other = text then none else entries.lookup other := by
  induction entries with
  | nil => simp
  | cons e es ih =>
    obtain ⟨k, h⟩ := e
    by_cases hk : k = text
    · rw [List.filter_cons_of_neg (by simp [hk]), ih]
      by_cases ho : other = text
      · rw [if_pos ho, if_pos ho]
      · rw [if_neg ho, if_neg ho, List.lookup_cons, hk, beq_false_of_ne ho]
    · rw [List.filter_cons_of_pos (by simp [hk]), List.lookup_cons, List.lookup_cons, ih]
      by_cases ho : other = text
      · rw [if_pos ho, if_pos ho, beq_false_of_ne (ho ▸ Ne.symm hk)]
      · rw [if_neg ho, if_neg ho]

theorem find?_erase (t : StringTable) (text other : String) :
    (t.erase text).find? other = if other = text then none else t.find? other :=
  lookup_filter_ne t.entries text other

theorem find?_put (t : StringTable) (text other : String) (h : Handle) :
    (t.put text h).find? other = if other = text then some h else t.find? other := by
  have he := find?_erase t text other
  by_cases ho : other = text
  · rw [if_pos ho, find?, put, List.lookup_cons, ho, beq_self_eq_true]
  · rw [if_neg ho] at he ⊢
    rw [find?, put, List.lookup_cons, beq_false_of_ne ho]
    exact he

end StringTable

end HeapAudit
