/-!
Text set in columns. Widths count characters; a text wider than its column is left whole.

Main statements
* `length_alignRight`, `length_alignLeft`: a column is at least as wide as asked for.
-/

namespace HeapAudit.Text

def alignRight (width : Nat) (s : String) : String :=
  "".pushn ' ' (width - s.length) ++ s

def alignLeft (width : Nat) (s : String) : String :=
  s.pushn ' ' (width - s.length)

/-- A number in a column of its own, set to the right. -/
def column (width n : Nat) : String := alignRight width (toString n)

def zeroPadded (width : Nat) (digits : String) : String :=
  "".pushn '0' (width - digits.length) ++ digits

def hexDigits (n : Nat) : String := String.ofList (Nat.toDigits 16 n)

def line (s : String) : String := s.push '\n'

private theorem length_pushn_char (s : String) (c : Char) (n : Nat) :
    (s.pushn c n).length = s.length + n := by
  simp

theorem toList_pushn (s : String) (c : Char) (n : Nat) :
    (s.pushn c n).toList = s.toList ++ List.replicate n c := by
  rw [String.pushn_eq_repeat_push]
  induction n with
  | zero => simp [Nat.repeat]
  | succ n ih => rw [Nat.repeat, String.toList_push, ih, List.append_assoc, List.replicate_succ']

theorem length_alignRight (width : Nat) (s : String) :
    (alignRight width s).length = max width s.length := by
  simp only [alignRight, String.length_append, length_pushn_char, String.length_empty]
  omega

theorem length_alignLeft (width : Nat) (s : String) :
    (alignLeft width s).length = max width s.length := by
  simp only [alignLeft, length_pushn_char]
  omega

end HeapAudit.Text
