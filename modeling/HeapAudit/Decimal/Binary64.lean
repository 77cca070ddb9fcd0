import HeapAudit.Decimal.Fixed

/-!
Binary64 words read as exact numbers, and exact quotients rounded to binary64.

Main definitions
* `Binary64.magnitude`: the exact value of a finite word without its sign, as a fraction.
* `Binary64.text`: a word's decimal text with six places.
* `Binary64.round`: the binary64 number nearest to a fraction in the normal range.
-/

namespace HeapAudit.Decimal

/-- A fraction of natural numbers; the denominator is meant to be positive. -/
structure Fraction where
  num : Nat
  den : Nat
deriving DecidableEq, Repr

namespace Fraction

/-- `n * 2 ^ e`. -/
def scaled (n : Nat) (e : Int) : Fraction :=
  if 0 ≤ e then ⟨n * Nat.pow 2 e.toNat, 1⟩ else ⟨n, Nat.pow 2 (-e).toNat⟩

def div (a b : Fraction) : Fraction := ⟨a.num * b.den, a.den * b.num⟩

end Fraction

namespace Binary64

def isNegative (bits : UInt64) : Bool := Nat.pow 2 63 ≤ bits.toNat

def biasedExponent (bits : UInt64) : Nat := bits.toNat / Nat.pow 2 52 % Nat.pow 2 11

def significandField (bits : UInt64) : Nat := bits.toNat % Nat.pow 2 52

/-- The exact value of a finite word without its sign. Exponent zero is subnormal. -/
def magnitude (bits : UInt64) : Fraction :=
  match biasedExponent bits with
  | 0 => .scaled (significandField bits) (-1074)
  | e => .scaled (Nat.pow 2 52 + significandField bits) ((e : Int) - 1075)

/-- Six places after the point, correctly rounded; a zero keeps its sign. -/
def text (bits : UInt64) : String :=
  let sign := if isNegative bits then "-" else ""
  if biasedExponent bits = 2047 then
    if significandField bits = 0 then sign ++ "inf" else "NaN"
  else
    let m := magnitude bits
    sign ++ fixed 6 m.num m.den

/-- The exponent `e` with `2 ^ e ≤ q < 2 ^ (e + 1)` for a positive fraction. -/
def leadingExponent (q : Fraction) : Int :=
  let a := q.num.log2
  let b := q.den.log2
  if q.den * Nat.pow 2 a ≤ q.num * Nat.pow 2 b then (a : Int) - b else (a : Int) - b - 1

/-- Keeps 53 significant bits, a half going to the even neighbour. -/
def round (q : Fraction) : Fraction :=
  if q.num = 0 then ⟨0, 1⟩
  else
    let e := leadingExponent q - 52
    let unit := Fraction.scaled 1 e
    let kept := q.div unit
    .scaled (nearest kept.num kept.den) e

/-- A natural number as binary64. -/
def ofNat (n : Nat) : Fraction := round ⟨n, 1⟩

end Binary64

end HeapAudit.Decimal
