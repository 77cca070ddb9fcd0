/-!
Numbers of 64 bits, added up without a check.

Main definitions
* `Word.wrap`: what 64 bits hold of a number.
* `Word.add`, `Word.sum`: sums that wrap around.
-/

namespace HeapAudit.Word

/-- What 64 bits hold of a number. -/
def wrap (n : Nat) : Nat := n % UInt64.size

/-- Addition without a check; a build that checks its additions stops where this one wraps. -/
def add (a b : Nat) : Nat := wrap (a + b)

/-- Added up one after the other. -/
def sum (ns : List Nat) : Nat := ns.foldl add 0

theorem wrap_eq_iff {n : Nat} : wrap n = n ↔ n < UInt64.size := Nat.mod_eq_iff_lt (by decide)

@[simp] theorem wrap_wrap_add (a b : Nat) : wrap (wrap a + b) = wrap (a + b) :=
  Nat.mod_add_mod a _ b

theorem sum_concat (ns : List Nat) (n : Nat) : sum (ns ++ [n]) = add (sum ns) n :=
  List.foldl_append

end HeapAudit.Word
