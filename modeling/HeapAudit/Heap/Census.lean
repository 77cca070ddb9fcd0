import HeapAudit.Heap.Live
import HeapAudit.Word

/-!
Counting the heap by category. Bytes are added up in 64 bits without a check.

Main definitions
* `Heap.tally`: the blocks and bytes of one category.
* `Heap.census`: the totals with the tallies of all categories that have blocks.

Main statements
* `census_slots`: live and free slots add up to all slots.
* `census_tally`: a census answers for every category with its tally.
-/

namespace HeapAudit

/-- A number of blocks and the sum of their recorded sizes, as far as a word holds it. -/
structure Tally where
  blocks : Nat
  bytes : Nat
deriving DecidableEq, Repr

namespace Tally

def zero : Tally := ⟨0, 0⟩

def ofBlocks (blocks : List Block) : Tally :=
  ⟨blocks.length, Word.sum (blocks.map (·.size))⟩

@[simp] theorem ofBlocks_nil : ofBlocks [] = zero := rfl

/-- Only sizes count. -/
theorem ofBlocks_congr {blocks others : List Block}
    (hs : blocks.map (·.size) = others.map (·.size)) : ofBlocks blocks = ofBlocks others := by
  have hl : blocks.length = others.length := by simpa using congrArg List.length hs
  rw [ofBlocks, ofBlocks, hs, hl]

end Tally

/-- A snapshot of the heap grouped by category, in the order of the minor numbers. -/
structure Census where
  liveBlocks : Nat
  freeSlots : Nat
  totalSlots : Nat
  totalBytes : Nat
  /-- Categories without blocks are left out. -/
  byCategory : List (Category × Tally)
deriving DecidableEq, Repr

/-- The tally of a category, zero when it has no blocks. -/
def Census.tally (census : Census) (c : Category) : Tally :=
  (census.byCategory.lookup c).getD .zero

namespace Heap

def tally (heap : Heap) (c : Category) : Tally :=
  .ofBlocks (heap.blocks.filter fun b => b.category = c)

/-- The row of a category that has blocks. -/
def tallyEntry (heap : Heap) (c : Category) : Option (Category × Tally) :=
  if (heap.tally c).blocks = 0 then none else some (c, heap.tally c)

def census (heap : Heap) : Census :=
  let total := Tally.ofBlocks heap.blocks
  { liveBlocks := total.blocks
    freeSlots := heap.free.length
    totalSlots := heap.slots.size
    totalBytes := total.bytes
    byCategory := Category.all.filterMap heap.tallyEntry }

theorem tally_eq_zero_of_blocks {heap : Heap} {c : Category} (h : (heap.tally c).blocks = 0) :
    heap.tally c = .zero := by
  have hl : (heap.blocks.filter fun b => b.category = c) = [] := List.length_eq_zero_iff.1 h
  simp [tally, hl]

private theorem lookup_tallyEntry (heap : Heap) (c : Category) (cs : List Category) :
    (cs.filterMap heap.tallyEntry).lookup c
      = if c ∈ cs ∧ (heap.tally c).blocks ≠ 0 then some (heap.tally c) else none := by
  induction cs with
  | nil => rfl
  | cons d ds ih =>
    by_cases hz : (heap.tally d).blocks = 0
    · rw [List.filterMap_cons_none (by simp [tallyEntry, hz]), ih]
      by_cases hd : c = d
      · simp [hd, hz]
      · simp [hd]
    · rw [List.filterMap_cons_some (by simp [tallyEntry, hz]; rfl), List.lookup_cons, ih]
      by_cases hd : c = d
      · simp [hd, hz]
      · simp [hd, beq_false_of_ne hd]

theorem census_tally (heap : Heap) (c : Category) : heap.census.tally c = heap.tally c := by
  simp only [Census.tally, census]
  rw [lookup_tallyEntry heap c Category.all]
  by_cases hz : (heap.tally c).blocks = 0
  · rw [if_neg (fun h => h.2 hz), tally_eq_zero_of_blocks hz]
    rfl
  · rw [if_pos ⟨Category.mem_all c, hz⟩]
    rfl

theorem census_slots (heap : Heap) :
    heap.census.liveBlocks + heap.census.freeSlots = heap.census.totalSlots := by
  have hl : heap.census.liveBlocks = heap.live := List.length_map _
  have hf : heap.census.freeSlots = heap.vacant.length := heap.free_perm_vacant.length_eq
  rw [hl, hf, heap.live_add_vacant]
  rfl

end Heap

end HeapAudit
