import HeapAudit.Text.Column
import HeapAudit.Text.Visible

/-!
Text in double quotes, as findings show it: what could be mistaken or would not be seen is
written as an escape.

Main statements
* `escape_plain`: visible characters other than the quote and the backslash stand for themselves.
-/

namespace HeapAudit.Text

/-- Tab, line ends and NUL have short escapes; invisible characters show their code point. -/
def escape (c : Char) : String :=
  if c = '\x00' then "\\0"
  else if c = '\t' then "\\t"
  else if c = '\r' then "\\r"
  else if c = '\n' then "\\n"
  else if c = '\\' then "\\\\"
  else if c = '"' then "\\\""
  else if Visible.isVisible c then c.toString
  else "\\u\x7b" ++ hexDigits c.toNat ++ "\x7d"

def quoted (s : String) : String :=
  "\"" ++ String.join (s.toList.map escape) ++ "\""

theorem escape_plain {c : Char} (hv : Visible.isVisible c = true) (hq : c ≠ '"') (hb : c ≠ '\\') :
    escape c = c.toString := by
  have h0 : c ≠ '\x00' := by rintro rfl; revert hv; decide +kernel
  have h1 : c ≠ '\t' := by rintro rfl; revert hv; decide +kernel
  have h2 : c ≠ '\r' := by rintro rfl; revert hv; decide +kernel
  have h3 : c ≠ '\n' := by rintro rfl; revert hv; decide +kernel
  simp [escape, h0, h1, h2, h3, hq, hb, hv]

end HeapAudit.Text
