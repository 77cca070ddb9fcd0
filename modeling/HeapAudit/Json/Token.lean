import HeapAudit.Json.Basic

/-!
The tokens of JSON text.

Text is cut by a machine that takes one character at a time. Numbers and words are taken as the
longest run of characters that may stand in them and are judged when the run ends; two values
that touch come out as two tokens, which no document allows.

Main definitions
* `Token.scan?`: the tokens of a text.
* `Token.text`: the text of a token.
-/

namespace HeapAudit.Json

inductive Token where
  | openObject
  | closeObject
  | openArray
  | closeArray
  | colon
  | comma
  | null
  | bool (b : Bool)
  | number (spelling : String)
  | string (text : Option String)
deriving DecidableEq, Repr

namespace Token

def text : Token → String
  | openObject => "\x7b"
  | closeObject => "\x7d"
  | openArray => "["
  | closeArray => "]"
  | colon => ":"
  | comma => ","
  | null => "null"
  | bool b => if b then "true" else "false"
  | number spelling => spelling
  | string t => quote t

/-! ## Words and numbers -/

def ofWord? (word : List Char) : Option Token :=
  if word = "null".toList then some null
  else if word = "true".toList then some (bool true)
  else if word = "false".toList then some (bool false)
  else none

/-- What is left after a non-empty run of digits. -/
def dropDigits? : List Char → Option (List Char)
  | c :: rest => if c.isDigit then some (rest.dropWhile Char.isDigit) else none
  | [] => none

/-- No digit may follow a leading zero. -/
def dropInteger? : List Char → Option (List Char)
  | '0' :: rest => some rest
  | cs => dropDigits? cs

def dropFraction? : List Char → Option (List Char)
  | '.' :: rest => dropDigits? rest
  | cs => some cs

def dropExponent? : List Char → Option (List Char)
  | c :: rest =>
    if c = 'e' ∨ c = 'E' then
      match rest with
      | d :: more => if d = '+' ∨ d = '-' then dropDigits? more else dropDigits? rest
      | [] => none
    else some (c :: rest)
  | [] => some []

def dropSign : List Char → List Char
  | '-' :: rest => rest
  | cs => cs

def isNumber (cs : List Char) : Bool :=
  (do dropExponent? (← dropFraction? (← dropInteger? (dropSign cs)))) = some []

def ofNumber? (cs : List Char) : Option Token :=
  if isNumber cs then some (number (String.ofList cs)) else none

def isNumberChar (c : Char) : Bool :=
  c.isDigit || c = '-' || c = '+' || c = '.' || c = 'e' || c = 'E'

/-! ## Strings -/

/-- What a string is written with: characters, and 16-bit units given by their digits. -/
inductive Piece where
  | char (c : Char)
  | unit (code : Nat)
deriving DecidableEq, Repr

def isHighSurrogate (u : Nat) : Bool := 0xd800 ≤ u && u < 0xdc00

def isLowSurrogate (u : Nat) : Bool := 0xdc00 ≤ u && u < 0xe000

/-- The characters of the pieces, after those that are kept backwards. -/
def decodeOnto? (done : List Char) : List Piece → Option (List Char)
  | [] => some done.reverse
  | .char c :: rest => decodeOnto? (c :: done) rest
  | .unit u :: .unit v :: rest =>
    if isHighSurrogate u then
      if isLowSurrogate v then
        let code := 0x10000 + (u - 0xd800) * 0x400 + (v - 0xdc00)
        decodeOnto? (Char.ofNat code :: done) rest
      else none
    else if isLowSurrogate u then none
    else decodeOnto? (Char.ofNat u :: done) (.unit v :: rest)
  | .unit u :: rest =>
    if isHighSurrogate u || isLowSurrogate u then none
    else decodeOnto? (Char.ofNat u :: done) rest

/-- The characters of a string; nothing if a surrogate has no partner. -/
def decodePieces? (pieces : List Piece) : Option (List Char) := decodeOnto? [] pieces

def ofPieces (pieces : List Piece) : Token :=
  string ((decodePieces? pieces).map String.ofList)

def ofShortEscape? (c : Char) : Option Char :=
  if c = '"' then some '"'
  else if c = '\\' then some '\\'
  else if c = '/' then some '/'
  else if c = 'b' then some '\x08'
  else if c = 'f' then some '\x0c'
  else if c = 'n' then some '\n'
  else if c = 'r' then some '\r'
  else if c = 't' then some '\t'
  else none

def hexValue? (c : Char) : Option Nat :=
  if c.isDigit then some (c.toNat - '0'.toNat)
  else if 'a' ≤ c && c ≤ 'f' then some (c.toNat - 'a'.toNat + 10)
  else if 'A' ≤ c && c ≤ 'F' then some (c.toNat - 'A'.toNat + 10)
  else none

/-! ## The machine -/

/-- The token being read; runs are kept backwards. -/
inductive Pending where
  | idle
  | number (run : List Char)
  | word (run : List Char)
  | string (pieces : List Piece)
  | escape (pieces : List Piece)
  | unit (pieces : List Piece) (digits value : Nat)
deriving DecidableEq, Repr

/-- `done` holds the tokens read so far, the latest first. -/
structure Scanner where
  done : List Token
  pending : Pending
deriving DecidableEq, Repr

namespace Scanner

def start : Scanner := ⟨[], .idle⟩

/-- Space, tab and line ends separate tokens. -/
def isBlank (c : Char) : Bool := c = ' ' || c = '\t' || c = '\n' || c = '\r'

def punctuation? (c : Char) : Option Token :=
  if c = '\x7b' then some openObject
  else if c = '\x7d' then some closeObject
  else if c = '[' then some openArray
  else if c = ']' then some closeArray
  else if c = ':' then some colon
  else if c = ',' then some comma
  else none

/-- The first character of a token, or a blank. -/
def begin? (done : List Token) (c : Char) : Option Scanner :=
  if isBlank c then some ⟨done, .idle⟩
  else if c = '"' then some ⟨done, .string []⟩
  else if c = '-' || c.isDigit then some ⟨done, .number [c]⟩
  else if 'a' ≤ c && c ≤ 'z' then some ⟨done, .word [c]⟩
  else (punctuation? c).map fun t => ⟨t :: done, .idle⟩

def step? (s : Scanner) (c : Char) : Option Scanner :=
  match s.pending with
  | .idle => begin? s.done c
  | .number run =>
    if isNumberChar c then some ⟨s.done, .number (c :: run)⟩
    else do begin? ((← ofNumber? run.reverse) :: s.done) c
  | .word run =>
    if 'a' ≤ c && c ≤ 'z' then some ⟨s.done, .word (c :: run)⟩
    else do begin? ((← ofWord? run.reverse) :: s.done) c
  | .string pieces =>
    if c = '"' then some ⟨ofPieces pieces.reverse :: s.done, .idle⟩
    else if c = '\\' then some ⟨s.done, .escape pieces⟩
    else if c.toNat < 0x20 then none
    else some ⟨s.done, .string (.char c :: pieces)⟩
  | .escape pieces =>
    if c = 'u' then some ⟨s.done, .unit pieces 0 0⟩
    else (ofShortEscape? c).map fun d => ⟨s.done, .string (.char d :: pieces)⟩
  | .unit pieces digits value =>
    (hexValue? c).map fun d =>
      let value := 16 * value + d
      if digits = 3 then ⟨s.done, .string (.unit value :: pieces)⟩
      else ⟨s.done, .unit pieces (digits + 1) value⟩

/-- The tokens read, if the text may end here. -/
def finish? (s : Scanner) : Option (List Token) :=
  match s.pending with
  | .idle => some s.done.reverse
  | .number run => do some ((← ofNumber? run.reverse) :: s.done).reverse
  | .word run => do some ((← ofWord? run.reverse) :: s.done).reverse
  | .string _ | .escape _ | .unit _ _ _ => none

end Scanner

def scan? (s : String) : Option (List Token) := do
  (← s.toList.foldlM Scanner.step? Scanner.start).finish?

end Token

end HeapAudit.Json
