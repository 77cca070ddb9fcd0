import Mathlib.Data.List.Forall2
import Mathlib.Data.List.TakeWhile
import HeapAudit.Json.Reader

/-!
Documents laid out as text. Blanks may stand anywhere between tokens, and the reader finds the
document again.

Main definitions
* `Json.Token.IsSpelled`: a number that is spelled as the grammar wants it.
* `Json.Laid`: a text in which tokens stand one after the other, with blanks around them.

Main statements
* `Json.scan?_of_laid`: the scanner finds the tokens a text is laid out from.
* `Json.read?_of_laid`: a document is read from any text it is laid out in.
* `Json.read?_compact`, `Json.read?_pretty`: a document that was written is read.
-/

namespace HeapAudit.Json

namespace Token

variable {c : Char} {cs rest : List Char} {t : Token} {done : List Token}

/-! ## Numbers -/

/-- A number is spelled as the grammar wants it; the other tokens have one spelling. -/
def IsSpelled : Token → Prop
  | number spelling => isNumber spelling.toList = true
  | _ => True

theorem isNumberChar_of_isDigit (hc : c.isDigit = true) : isNumberChar c = true := by
  simp [isNumberChar, hc]

/-- What has been dropped from the front is made of characters that stand in numbers. -/
def Drops (cs rest : List Char) : Prop :=
  ∃ run, cs = run ++ rest ∧ ∀ c ∈ run, isNumberChar c = true

theorem Drops.refl (cs : List Char) : Drops cs cs := ⟨[], rfl, by simp⟩

theorem Drops.cons (hc : isNumberChar c = true) (hd : Drops cs rest) : Drops (c :: cs) rest := by
  obtain ⟨run, rfl, hrun⟩ := hd
  refine ⟨c :: run, rfl, fun d hm => ?_⟩
  rcases List.mem_cons.1 hm with rfl | hm
  · exact hc
  · exact hrun d hm

theorem Drops.trans {mid : List Char} (hd : Drops cs mid) (hm : Drops mid rest) :
    Drops cs rest := by
  obtain ⟨run, rfl, hrun⟩ := hd
  obtain ⟨more, rfl, hmore⟩ := hm
  refine ⟨run ++ more, by rw [List.append_assoc], fun c hc => ?_⟩
  rcases List.mem_append.1 hc with hc | hc
  · exact hrun c hc
  · exact hmore c hc

theorem drops_dropWhile_isDigit (cs : List Char) : Drops cs (cs.dropWhile Char.isDigit) := by
  refine ⟨cs.takeWhile Char.isDigit, List.takeWhile_append_dropWhile.symm, fun c hc => ?_⟩
  exact isNumberChar_of_isDigit (List.all_eq_true.1 List.all_takeWhile c hc)

theorem drops_of_dropDigits? (hd : dropDigits? cs = some rest) :
    Drops cs rest ∧ ∃ c tail, cs = c :: tail ∧ c.isDigit = true := by
  cases cs with
  | nil => cases hd
  | cons c cs =>
    simp only [dropDigits?, Option.ite_none_right_eq_some, Option.some.injEq] at hd
    obtain ⟨hc, rfl⟩ := hd
    exact ⟨(drops_dropWhile_isDigit cs).cons (isNumberChar_of_isDigit hc), c, cs, rfl, hc⟩

theorem drops_of_dropInteger? (hd : dropInteger? cs = some rest) :
    Drops cs rest ∧ ∃ c tail, cs = c :: tail ∧ c.isDigit = true := by
  unfold dropInteger? at hd
  split at hd
  · cases hd
    exact ⟨(Drops.refl _).cons rfl, '0', _, rfl, rfl⟩
  · exact drops_of_dropDigits? hd

theorem drops_of_dropFraction? (hd : dropFraction? cs = some rest) : Drops cs rest := by
  unfold dropFraction? at hd
  split at hd
  · exact (drops_of_dropDigits? hd).1.cons rfl
  · cases hd
    exact .refl _

theorem drops_of_dropExponent? (hd : dropExponent? cs = some rest) : Drops cs rest := by
  cases cs with
  | nil =>
    cases hd
    exact .refl _
  | cons c cs =>
    simp only [dropExponent?] at hd
    split at hd
    · rename_i hc
      have hmark : isNumberChar c = true := by
        rcases hc with rfl | rfl <;> rfl
      cases cs with
      | nil => cases hd
      | cons d more =>
        dsimp only at hd
        split at hd
        · rename_i hsign
          have hd' : isNumberChar d = true := by
            rcases hsign with rfl | rfl <;> rfl
          exact ((drops_of_dropDigits? hd).1.cons hd').cons hmark
        · exact (drops_of_dropDigits? hd).1.cons hmark
    · cases hd
      exact .refl _

theorem dropSign_cases (cs : List Char) : cs = '-' :: dropSign cs ∨ cs = dropSign cs := by
  cases cs with
  | nil => exact .inr rfl
  | cons c cs =>
    by_cases hc : c = '-'
    · subst hc
      exact .inl rfl
    · exact .inr (by simp [dropSign, hc])

/-- A number starts with a sign or a digit, and only characters of numbers follow. -/
theorem exists_cons_of_isNumber (hn : isNumber cs = true) :
    ∃ c tail, cs = c :: tail ∧ (c = '-' ∨ c.isDigit = true) ∧
      ∀ d ∈ tail, isNumberChar d = true := by
  simp only [isNumber, decide_eq_true_eq, Option.bind_eq_bind, Option.bind_eq_some_iff] at hn
  obtain ⟨fraction, hinteger, exponent, hfraction, hexponent⟩ := hn
  obtain ⟨hint, first, tail, hfirst, hdigit⟩ := drops_of_dropInteger? hinteger
  have hall : Drops (dropSign cs) [] :=
    hint.trans ((drops_of_dropFraction? hfraction).trans (drops_of_dropExponent? hexponent))
  obtain ⟨run, hrun, hchars⟩ := hall
  rw [List.append_nil] at hrun
  rw [← hrun] at hchars
  -- a sign is not among what was dropped, so the first character is found on its own
  rcases dropSign_cases cs with hsign | hsign
  · exact ⟨'-', dropSign cs, hsign, .inl rfl, hchars⟩
  · refine ⟨first, tail, hsign.trans hfirst, .inr hdigit, fun d hd => hchars d ?_⟩
    rw [hfirst]
    exact List.mem_cons_of_mem _ hd

/-! ## Numbers that were written -/

theorem exists_cons_toDigits {n : Nat} (hn : n ≠ 0) :
    ∃ c tail, Nat.toDigits 10 n = c :: tail ∧ c ≠ '0' := by
  induction n using Nat.strongRecOn with
  | _ n ih =>
    by_cases hlt : n < 10
    · have hdigit : ∀ d < 10, d ≠ 0 → d.digitChar ≠ '0' := by decide
      exact ⟨n.digitChar, [], Nat.toDigits_of_lt_base hlt, hdigit n hlt hn⟩
    · obtain ⟨c, tail, hc, hzero⟩ := ih (n / 10) (by omega) (by omega)
      refine ⟨c, tail ++ [(n % 10).digitChar], ?_, hzero⟩
      rw [Nat.toDigits_of_base_le (by decide) (by omega), hc, List.cons_append]

theorem isNumber_toDigits (n : Nat) : isNumber (Nat.toDigits 10 n) = true := by
  by_cases hn : n = 0
  · subst hn
    rfl
  · obtain ⟨c, tail, hcs, hzero⟩ := exists_cons_toDigits hn
    have hread := readDigits?_toDigits n
    rw [readDigits?, Option.ite_none_right_eq_some, hcs, List.all_cons, Bool.and_eq_true] at hread
    obtain ⟨⟨-, hc, htail⟩, -⟩ := hread
    have hsign : dropSign (c :: tail) = c :: tail := by
      rcases dropSign_cases (c :: tail) with hminus | hsame
      · cases (List.cons.inj hminus).1
        cases hc
      · exact hsame.symm
    have hrest : tail.dropWhile Char.isDigit = [] :=
      List.dropWhile_eq_nil_iff.2 (List.all_eq_true.1 htail)
    rw [hcs, isNumber, hsign]
    simp [dropInteger?, hzero, dropDigits?, hc, hrest, dropFraction?, dropExponent?]

/-! ## Reading one token -/

/-- A letter that can go on a word. -/
def isLetter (c : Char) : Bool := 'a' ≤ c && c ≤ 'z'

/-- The character would become part of the token. -/
def takes : Token → Char → Bool
  | number _, c => isNumberChar c
  | null, c | bool _, c => isLetter c
  | _, _ => false

/-- The scanner after the text of a token: numbers and words are not judged before they end. -/
def after (done : List Token) : Token → Scanner
  | number spelling => ⟨done, .number spelling.toList.reverse⟩
  | null => ⟨done, .word "null".toList.reverse⟩
  | bool b => ⟨done, .word (text (bool b)).toList.reverse⟩
  | t => ⟨t :: done, .idle⟩

theorem foldlM_number (run : List Char) (hcs : ∀ c ∈ cs, isNumberChar c = true) :
    cs.foldlM Scanner.step? ⟨done, .number run⟩ = some ⟨done, .number (cs.reverse ++ run)⟩ := by
  induction cs generalizing run with
  | nil => rfl
  | cons c cs ih =>
    have hc : Scanner.step? ⟨done, .number run⟩ c = some ⟨done, .number (c :: run)⟩ := by
      simp [Scanner.step?, hcs c List.mem_cons_self]
    rw [List.foldlM_cons, hc]
    exact (ih (c :: run) fun d hd => hcs d (List.mem_cons_of_mem _ hd)).trans (by simp)

theorem begin?_number (hc : c = '-' ∨ c.isDigit = true) :
    Scanner.begin? done c = some ⟨done, .number [c]⟩ := by
  have hne : ∀ d : Char, d ≠ '-' → d.isDigit = false → c ≠ d := by
    rintro d hminus hdigit rfl
    rcases hc with rfl | hc
    · exact hminus rfl
    · simp [hc] at hdigit
  have hblank : Scanner.isBlank c = false := by
    simp [Scanner.isBlank, hne ' ' nofun rfl, hne '\t' nofun rfl, hne '\n' nofun rfl,
      hne '\r' nofun rfl]
  simp [Scanner.begin?, hblank, hne '"' nofun rfl, hc]

/-! ### Strings -/

/-- How a character of a string is written: as itself, as a short escape, or by its number. -/
inductive Piece.Stands : Piece → Char → Prop
  | char (c : Char) : Stands (.char c) c
  | control (c : Char) (hc : c.toNat < 0x20) : Stands (.unit c.toNat) c

theorem decodeOnto?_unit {u : Nat} (hu : u < 0xd800) (done : List Char) (pieces : List Piece) :
    decodeOnto? done (.unit u :: pieces) = decodeOnto? (Char.ofNat u :: done) pieces := by
  have hhigh : isHighSurrogate u = false := by
    simp only [isHighSurrogate, Bool.and_eq_false_iff, decide_eq_false_iff_not]
    omega
  have hlow : isLowSurrogate u = false := by
    simp only [isLowSurrogate, Bool.and_eq_false_iff, decide_eq_false_iff_not]
    omega
  rcases pieces with _ | ⟨_ | _, pieces⟩ <;> simp [decodeOnto?, hhigh, hlow]

theorem decodeOnto?_of_stands {pieces : List Piece}
    (hp : List.Forall₂ Piece.Stands pieces cs) (done : List Char) :
    decodeOnto? done pieces = some (done.reverse ++ cs) := by
  induction hp generalizing done with
  | nil => rw [decodeOnto?, List.append_nil]
  | @cons _ d _ ds hpc _ ih =>
    have hnext := ih (d :: done)
    rw [List.reverse_cons, List.append_assoc, List.singleton_append] at hnext
    cases hpc with
    | char => rw [decodeOnto?, hnext]
    | control _ hd => rw [decodeOnto?_unit (by omega), Char.ofNat_toNat, hnext]

theorem decodePieces?_of_stands {pieces : List Piece}
    (hp : List.Forall₂ Piece.Stands pieces cs) : decodePieces? pieces = some cs :=
  decodeOnto?_of_stands hp []

theorem hexValue?_digitChar : ∀ d < 16, hexValue? d.digitChar = some d := by
  decide

theorem toList_zeroPadded_hexDigits : ∀ n < 0x20,
    (Text.zeroPadded 4 (Text.hexDigits n)).toList
      = ['0', '0', (n / 16).digitChar, (n % 16).digitChar] := by
  decide

theorem foldlM_control {n : Nat} (hn : n < 0x20) (pieces : List Piece) :
    ("\\u" ++ Text.zeroPadded 4 (Text.hexDigits n)).toList.foldlM Scanner.step?
        ⟨done, .string pieces⟩ = some ⟨done, .string (.unit n :: pieces)⟩ := by
  have hzero : hexValue? '0' = some 0 := rfl
  have hvalue : 16 * (n / 16) + n % 16 = n := Nat.div_add_mod n 16
  rw [String.toList_append, toList_zeroPadded_hexDigits n hn]
  simp [Scanner.step?, hzero, hexValue?_digitChar (n / 16) (by omega),
    hexValue?_digitChar (n % 16) (by omega), hvalue]

theorem foldlM_escapeChar (done : List Token) (c : Char) (pieces : List Piece) :
    ∃ piece, Piece.Stands piece c ∧
      (escapeChar c).toList.foldlM Scanner.step? ⟨done, .string pieces⟩
        = some ⟨done, .string (piece :: pieces)⟩ := by
  by_cases hshort : c ∈ ['"', '\\', '\x08', '\x0c', '\n', '\r', '\t']
  · refine ⟨.char c, .char c, ?_⟩
    simp only [List.mem_cons, List.not_mem_nil, or_false] at hshort
    rcases hshort with rfl | rfl | rfl | rfl | rfl | rfl | rfl <;> rfl
  · simp only [List.mem_cons, List.not_mem_nil, or_false, not_or] at hshort
    by_cases hcontrol : c.toNat < 0x20
    · refine ⟨.unit c.toNat, .control c hcontrol, ?_⟩
      simp only [escapeChar, hshort, hcontrol, if_false, if_true]
      exact foldlM_control hcontrol pieces
    · refine ⟨.char c, .char c, ?_⟩
      simp [escapeChar, hshort, hcontrol, Scanner.step?]

theorem foldlM_escapeChars (done : List Token) (cs : List Char) (pieces : List Piece) :
    ∃ written, List.Forall₂ Piece.Stands written cs ∧
      (cs.flatMap fun c => (escapeChar c).toList).foldlM Scanner.step? ⟨done, .string pieces⟩
        = some ⟨done, .string (written.reverse ++ pieces)⟩ := by
  induction cs generalizing pieces with
  | nil => exact ⟨[], .nil, rfl⟩
  | cons c cs ih =>
    obtain ⟨piece, hpiece, hstep⟩ := foldlM_escapeChar done c pieces
    obtain ⟨written, hwritten, hrun⟩ := ih (piece :: pieces)
    refine ⟨piece :: written, .cons hpiece hwritten, ?_⟩
    rw [List.flatMap_cons, List.foldlM_append, hstep]
    simpa using hrun

theorem foldlM_quote (s : Option String) :
    (quote s).toList.foldlM Scanner.step? ⟨done, .idle⟩ = some ⟨.string s :: done, .idle⟩ := by
  cases s with
  | none => rfl
  | some s =>
    obtain ⟨written, hwritten, hrun⟩ := foldlM_escapeChars done s.toList []
    have hpieces : ofPieces written = .string (some s) := by
      rw [ofPieces, decodePieces?_of_stands hwritten, Option.map_some, String.ofList_toList]
    have hopen : Scanner.step? ⟨done, .idle⟩ '"' = some ⟨done, .string []⟩ := rfl
    have htext : (quote (some s)).toList
        = '"' :: ((s.toList.flatMap fun c => (escapeChar c).toList) ++ ['"']) := by
      simp [quote, List.flatMap_def, Function.comp_def]
    rw [htext, List.foldlM_cons, hopen]
    simp [hrun, Scanner.step?, hpieces]

/-! ### All tokens -/

theorem foldlM_text (ht : t.IsSpelled) :
    t.text.toList.foldlM Scanner.step? ⟨done, .idle⟩ = some (t.after done) := by
  cases t with
  | string s => exact foldlM_quote s
  | number spelling =>
    obtain ⟨c, tail, hcs, hc, htail⟩ := exists_cons_of_isNumber ht
    simp only [text, after, hcs, List.foldlM_cons, Scanner.step?, begin?_number hc]
    simpa using foldlM_number [c] htail
  | bool b => cases b <;> rfl
  | _ => rfl

theorem ofNumber?_spelling {spelling : String} (hs : (number spelling).IsSpelled) :
    ofNumber? spelling.toList = some (.number spelling) := by
  have hn : isNumber spelling.toList = true := hs
  rw [ofNumber?, if_pos hn, String.ofList_toList]

/-- What cannot be part of a token makes an end of it. -/
theorem step?_after (done : List Token) (ht : t.IsSpelled) (hc : t.takes c = false) :
    (t.after done).step? c = Scanner.begin? (t :: done) c := by
  have hword : ∀ run, isLetter c = false → Scanner.step? ⟨done, .word run⟩ c
      = (ofWord? run.reverse).bind fun t => Scanner.begin? (t :: done) c := by
    intro run hletter
    rw [isLetter] at hletter
    simp [Scanner.step?, hletter]
  cases t with
  | number spelling =>
    have hchar : isNumberChar c = false := hc
    simp [after, Scanner.step?, hchar, ofNumber?_spelling ht]
  | null => exact hword _ hc
  | bool b => cases b <;> exact hword _ hc
  | _ => rfl

theorem finish?_after (ht : t.IsSpelled) :
    (t.after done).finish? = some (t :: done).reverse := by
  cases t with
  | number spelling => simp [after, Scanner.finish?, ofNumber?_spelling ht]
  | bool b => cases b <;> rfl
  | _ => rfl

end Token

/-! ## Laid out text -/

/-- The tokens stand in the text one after the other, with blanks around them where one likes and
where one token would go on in the next. -/
inductive Laid : List Token → List Char → Prop
  | nil : Laid [] []
  | blank {c : Char} {cs : List Char} {ts : List Token} (hc : Token.Scanner.isBlank c = true)
      (hl : Laid ts cs) : Laid ts (c :: cs)
  | token {t : Token} {cs : List Char} {ts : List Token} (ht : t.IsSpelled)
      (hends : ∀ c ∈ cs.head?, t.takes c = false) (hl : Laid ts cs) :
      Laid (t :: ts) (t.text.toList ++ cs)

variable {cs : List Char} {ts : List Token} {t : Token} {done : List Token} {j : Json}

/-- The tokens read, the rest of the text included. -/
def Token.Scanner.scan? (s : Token.Scanner) (cs : List Char) : Option (List Token) :=
  (cs.foldlM Token.Scanner.step? s).bind Token.Scanner.finish?

theorem Token.scan?_after (ht : t.IsSpelled) (hends : ∀ c ∈ cs.head?, t.takes c = false) :
    (t.after done).scan? cs = Scanner.scan? ⟨t :: done, .idle⟩ cs := by
  cases cs with
  | nil => exact finish?_after ht
  | cons c cs =>
    have hstep := step?_after done ht (hends c rfl)
    simp only [Scanner.scan?, List.foldlM_cons, hstep]
    rfl

theorem Token.scan?_blank {c : Char} (hc : Scanner.isBlank c = true) :
    Scanner.scan? ⟨done, .idle⟩ (c :: cs) = Scanner.scan? ⟨done, .idle⟩ cs := by
  simp [Scanner.scan?, Scanner.step?, Scanner.begin?, hc]

theorem scan?_of_laid (hl : Laid ts cs) (done : List Token) :
    Token.Scanner.scan? ⟨done, .idle⟩ cs = some (done.reverse ++ ts) := by
  induction hl generalizing done with
  | nil => simp [Token.Scanner.scan?, Token.Scanner.finish?]
  | blank hc _ ih => rw [Token.scan?_blank hc, ih done]
  | @token t cs ts ht hends _ ih =>
    calc Token.Scanner.scan? ⟨done, .idle⟩ (t.text.toList ++ cs)
        = (t.after done).scan? cs := by
          simp [Token.Scanner.scan?, List.foldlM_append, Token.foldlM_text ht]
      _ = Token.Scanner.scan? ⟨t :: done, .idle⟩ cs := Token.scan?_after ht hends
      _ = some (done.reverse ++ t :: ts) := by simp [ih (t :: done)]

/-- A document is read from any text it is laid out in. -/
theorem read?_of_laid {s : String} (hl : Laid j.tokens s.toList) :
    read? s = some j := by
  have hscan : Token.scan? s = some j.tokens := by
    simpa [Token.scan?, Token.Scanner.scan?, Token.Scanner.start] using scan?_of_laid hl []
  rw [read?, hscan]
  exact build?_tokens j

/-! ## Written documents -/

/-- All numbers of the document are spelled as the grammar wants them. -/
def IsSpelled (j : Json) : Prop := ∀ t ∈ j.tokens, t.IsSpelled

theorem isSpelled_ofNat (n : Nat) : (ofNat n).IsSpelled := by
  intro t ht
  obtain rfl := List.mem_singleton.1 ht
  simpa [Token.IsSpelled] using Token.isNumber_toDigits n

theorem isSpelled_memberTokens {members : List (Option String × Json)}
    (hm : ∀ m ∈ members, m.2.IsSpelled) : ∀ t ∈ memberTokens members, t.IsSpelled := by
  induction members with
  | nil => nofun
  | cons m members ih =>
    obtain ⟨key, v⟩ := m
    obtain ⟨hv, hmembers⟩ := List.forall_mem_cons.1 hm
    simp only [memberTokens_cons, List.forall_mem_cons, List.forall_mem_append]
    exact ⟨trivial, trivial, trivial, hv, ih hmembers⟩

theorem isSpelled_object {members : List (Option String × Json)}
    (hm : ∀ m ∈ members, m.2.IsSpelled) : (object members).IsSpelled := by
  cases members with
  | nil => simp [IsSpelled, Token.IsSpelled]
  | cons m members =>
    obtain ⟨key, v⟩ := m
    obtain ⟨hv, hmembers⟩ := List.forall_mem_cons.1 hm
    simp only [IsSpelled, tokens_object_cons, List.forall_mem_cons, List.forall_mem_append]
    exact ⟨trivial, trivial, trivial, ⟨hv, isSpelled_memberTokens hmembers⟩, trivial, nofun⟩

/-- What may stand behind any value: tokens whose text ends the token before it. -/
structure Follows (ts : List Token) (cs : List Char) : Prop where
  laid : Laid ts cs
  ends : ∀ t : Token, ∀ c ∈ cs.head?, t.takes c = false

theorem Follows.nil : Follows [] [] := ⟨.nil, nofun⟩

theorem Follows.comma (hl : Laid ts cs) : Follows (.comma :: ts) (',' :: cs) :=
  ⟨.token trivial (fun _ _ => rfl) hl, fun t c hc => by cases hc; cases t <;> rfl⟩

theorem Follows.closeArray (hl : Laid ts cs) : Follows (.closeArray :: ts) (']' :: cs) :=
  ⟨.token trivial (fun _ _ => rfl) hl, fun t c hc => by cases hc; cases t <;> rfl⟩

theorem Follows.closeObject (hl : Laid ts cs) : Follows (.closeObject :: ts) ('\x7d' :: cs) :=
  ⟨.token trivial (fun _ _ => rfl) hl, fun t c hc => by cases hc; cases t <;> rfl⟩

theorem Follows.value (ht : t.IsSpelled) (hf : Follows ts cs) :
    Laid (t :: ts) (t.text.toList ++ cs) :=
  .token ht (hf.ends t) hf.laid

theorem Laid.name (hl : Laid ts cs) (key : Option String) :
    Laid (.string key :: .colon :: ts) ((quote key).toList ++ ':' :: cs) :=
  .token (t := .string key) trivial (fun _ _ => rfl) (.token trivial (fun _ _ => rfl) hl)

/-- The text of tokens without blanks. -/
def written (ts : List Token) : List Char := ts.flatMap fun t => t.text.toList

theorem toList_compact (j : Json) : j.compact.toList = written j.tokens := by
  simp [compact, written, List.flatMap_def, Function.comp_def]

@[simp]
theorem written_nil : written [] = [] := rfl

@[simp]
theorem written_cons (t : Token) (ts : List Token) :
    written (t :: ts) = t.text.toList ++ written ts := List.flatMap_cons

@[simp]
theorem written_append (ts rest : List Token) : written (ts ++ rest) = written ts ++ written rest :=
  List.flatMap_append

-- The last token of a value ends where the next text begins, so that text is part of what the
-- induction is about.
mutual

theorem laid_tokens (j : Json) (hj : ∀ t ∈ j.tokens, t.IsSpelled) {ts : List Token}
    {cs : List Char} (hf : Follows ts cs) :
    Laid (j.tokens ++ ts) (written j.tokens ++ cs) := by
  match j with
  | .null => exact hf.value trivial
  | .bool b => simpa [written] using hf.value (t := .bool b) trivial
  | .number v => simpa [written] using hf.value (hj _ List.mem_cons_self)
  | .string v => simpa [written] using hf.value (t := .string v) trivial
  | .array [] =>
    have hclose := (Follows.closeArray hf.laid).laid
    exact .token (t := .openArray) trivial (fun _ _ => rfl) hclose
  | .array (first :: items) =>
    simp only [tokens_array_cons, List.forall_mem_cons, List.forall_mem_append] at hj
    have hrest := follows_itemTokens items hj.2.1.2 (.closeArray hf.laid)
    have hfirst := laid_tokens first hj.2.1.1 hrest
    simpa [Token.text] using
      Laid.token (t := .openArray) trivial (fun _ _ => rfl) hfirst
  | .object [] =>
    have hclose := (Follows.closeObject hf.laid).laid
    exact .token (t := .openObject) trivial (fun _ _ => rfl) hclose
  | .object ((key, v) :: members) =>
    simp only [tokens_object_cons, List.forall_mem_cons, List.forall_mem_append] at hj
    have hrest := follows_memberTokens members hj.2.2.2.1.2 (.closeObject hf.laid)
    have hfirst := (laid_tokens v hj.2.2.2.1.1 hrest).name key
    simpa [Token.text] using
      Laid.token (t := .openObject) trivial (fun _ _ => rfl) hfirst

theorem follows_itemTokens (items : List Json) (hj : ∀ t ∈ itemTokens items, t.IsSpelled)
    {ts : List Token} {cs : List Char} (hf : Follows ts cs) :
    Follows (itemTokens items ++ ts) (written (itemTokens items) ++ cs) := by
  match items with
  | [] => exact hf
  | item :: more =>
    simp only [itemTokens_cons, List.forall_mem_cons, List.forall_mem_append] at hj
    have hmore := follows_itemTokens more hj.2.2 hf
    simpa [Token.text] using Follows.comma (laid_tokens item hj.2.1 hmore)

theorem follows_memberTokens (members : List (Option String × Json))
    (hj : ∀ t ∈ memberTokens members, t.IsSpelled) {ts : List Token} {cs : List Char}
    (hf : Follows ts cs) :
    Follows (memberTokens members ++ ts) (written (memberTokens members) ++ cs) := by
  match members with
  | [] => exact hf
  | (key, v) :: more =>
    simp only [memberTokens_cons, List.forall_mem_cons, List.forall_mem_append] at hj
    have hmore := follows_memberTokens more hj.2.2.2.2 hf
    simpa [Token.text] using
      Follows.comma ((laid_tokens v hj.2.2.2.1 hmore).name key)

end

/-- A document that was written without blanks is read. -/
theorem read?_compact (hj : j.IsSpelled) : read? j.compact = some j := by
  have hl := laid_tokens j hj .nil
  rw [List.append_nil, List.append_nil, ← toList_compact] at hl
  exact read?_of_laid hl

/-! ## Indented documents -/

theorem Laid.spaces (n : Nat) (hl : Laid ts cs) : Laid ts (List.replicate n ' ' ++ cs) := by
  induction n with
  | zero => exact hl
  | succ n ih => exact .blank rfl ih

theorem toList_lineBreak (depth : Nat) :
    (lineBreak depth).toList = '\n' :: List.replicate (2 * depth) ' ' := by
  rw [lineBreak, Text.toList_pushn]
  rfl

theorem Laid.lineBreak (depth : Nat) (hl : Laid ts cs) :
    Follows ts ((Json.lineBreak depth).toList ++ cs) := by
  rw [toList_lineBreak]
  exact ⟨.blank rfl (hl.spaces _), fun t c hc => by cases hc; cases t <;> rfl⟩

mutual

theorem laid_prettyAt (depth : Nat) (j : Json) (hj : ∀ t ∈ j.tokens, t.IsSpelled)
    {ts : List Token} {cs : List Char} (hf : Follows ts cs) :
    Laid (j.tokens ++ ts) ((prettyAt depth j).toList ++ cs) := by
  match j with
  | .null => exact hf.value trivial
  | .bool b => exact hf.value (t := .bool b) trivial
  | .number v => exact hf.value (hj _ List.mem_cons_self)
  | .string v => exact hf.value (t := .string v) trivial
  | .array [] =>
    have hclose := (Follows.closeArray hf.laid).laid
    simpa [Token.text] using
      Laid.token (t := .openArray) trivial (fun _ _ => rfl) hclose
  | .array (first :: items) =>
    simp only [tokens_array_cons, List.forall_mem_cons, List.forall_mem_append] at hj
    have hclose := (Follows.closeArray hf.laid).laid.lineBreak depth
    have hrest := follows_prettyItems (depth + 1) items hj.2.1.2 hclose
    have hfirst := (laid_prettyAt (depth + 1) first hj.2.1.1 hrest).lineBreak (depth + 1)
    simpa [Token.text] using
      Laid.token (t := .openArray) trivial (fun _ _ => rfl) hfirst.laid
  | .object [] =>
    have hclose := (Follows.closeObject hf.laid).laid
    simpa [Token.text] using
      Laid.token (t := .openObject) trivial (fun _ _ => rfl) hclose
  | .object ((key, v) :: members) =>
    simp only [tokens_object_cons, List.forall_mem_cons, List.forall_mem_append] at hj
    have hclose := (Follows.closeObject hf.laid).laid.lineBreak depth
    have hrest := follows_prettyMembers (depth + 1) members hj.2.2.2.1.2 hclose
    have hfirst := laid_prettyAt (depth + 1) v hj.2.2.2.1.1 hrest
    have hname := ((hfirst.spaces 1).name key).lineBreak (depth + 1)
    simpa [Token.text] using
      Laid.token (t := .openObject) trivial (fun _ _ => rfl) hname.laid

theorem follows_prettyItems (depth : Nat) (items : List Json)
    (hj : ∀ t ∈ itemTokens items, t.IsSpelled) {ts : List Token} {cs : List Char}
    (hf : Follows ts cs) :
    Follows (itemTokens items ++ ts) ((prettyItems depth items).toList ++ cs) := by
  match items with
  | [] => exact hf
  | item :: more =>
    simp only [itemTokens_cons, List.forall_mem_cons, List.forall_mem_append] at hj
    have hmore := follows_prettyItems depth more hj.2.2 hf
    have hitem := (laid_prettyAt depth item hj.2.1 hmore).lineBreak depth
    simpa using Follows.comma hitem.laid

theorem follows_prettyMembers (depth : Nat) (members : List (Option String × Json))
    (hj : ∀ t ∈ memberTokens members, t.IsSpelled) {ts : List Token} {cs : List Char}
    (hf : Follows ts cs) :
    Follows (memberTokens members ++ ts) ((prettyMembers depth members).toList ++ cs) := by
  match members with
  | [] => exact hf
  | (key, v) :: more =>
    simp only [memberTokens_cons, List.forall_mem_cons, List.forall_mem_append] at hj
    have hmore := follows_prettyMembers depth more hj.2.2.2.2 hf
    have hvalue := laid_prettyAt depth v hj.2.2.2.1 hmore
    have hname := ((hvalue.spaces 1).name key).lineBreak depth
    simpa using Follows.comma hname.laid

end

/-- A document that was written over several lines is read. -/
theorem read?_pretty (hj : j.IsSpelled) : read? j.pretty = some j := by
  have hl := laid_prettyAt 0 j hj .nil
  rw [List.append_nil, List.append_nil] at hl
  exact read?_of_laid hl

end HeapAudit.Json
