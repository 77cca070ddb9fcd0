/-!
Decimal text of a fraction with a fixed number of places, correctly rounded.

Main definitions
* `nearest`: the integer nearest to a quotient, a half going to the even neighbour.
* `fixed`: the text of a quotient with so many places.
-/

namespace HeapAudit.Decimal

/-- The integer nearest to `num / den`; a half goes to the even neighbour. -/
def nearest (num den : Nat) : Nat :=
  let q := num / den
  let r := num % den
  if 2 * r < den then q
  else if den < 2 * r then q + 1
  else if q % 2 = 0 then q else q + 1

/-- The digits of `n` with at least one before the last `places`. -/
def placed (places n : Nat) : String :=
  let digits := (Nat.toDigits 10 n)
  let padded := List.replicate (places + 1 - digits.length) '0' ++ digits
  let cut := padded.length - places
  String.ofList (padded.take cut ++ '.' :: padded.drop cut)

/-- `num / den` with `places` digits after the point. -/
def fixed (places num den : Nat) : String :=
  placed places (nearest (num * Nat.pow 10 places) den)

end HeapAudit.Decimal
