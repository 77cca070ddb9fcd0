import HeapAudit.Json.Token

/-!
Documents from tokens and back.

Reading is a machine with a stack of the arrays and objects that are still open; it takes one
token at a time and needs no bound on the depth.

Main definitions
* `Json.tokens`, `Json.compact`: a document written without blanks.
* `Json.read?`: the document a text holds.

Main statements
* `build?_tokens`: the tokens of a document build that document.
-/

namespace HeapAudit.Json

/-! ## Writing -/

mutual

/-- The tokens of a document, the latest first, in front of those that are done. -/
def pushTokens (done : List Token) : Json → List Token
  | null => .null :: done
  | bool b => .bool b :: done
  | number spelling => .number spelling :: done
  | string t => .string t :: done
  | array items =>
    match items with
    | [] => .closeArray :: .openArray :: done
    | first :: rest => .closeArray :: pushItemTokens (pushTokens (.openArray :: done) first) rest
  | object members =>
    match members with
    | [] => .closeObject :: .openObject :: done
    | (key, value) :: rest =>
      .closeObject ::
        pushMemberTokens (pushTokens (.colon :: .string key :: .openObject :: done) value) rest

def pushItemTokens (done : List Token) : List Json → List Token
  | [] => done
  | item :: rest => pushItemTokens (pushTokens (.comma :: done) item) rest

def pushMemberTokens (done : List Token) : List (Option String × Json) → List Token
  | [] => done
  | (key, value) :: rest =>
    pushMemberTokens (pushTokens (.colon :: .string key :: .comma :: done) value) rest

end

def tokens (j : Json) : List Token := (pushTokens [] j).reverse

def itemTokens (items : List Json) : List Token := (pushItemTokens [] items).reverse

def memberTokens (members : List (Option String × Json)) : List Token :=
  (pushMemberTokens [] members).reverse

def compact (j : Json) : String := String.join (j.tokens.map Token.text)

/-! ### The tokens in order -/

mutual

theorem pushTokens_append (done before : List Token) (j : Json) :
    pushTokens (done ++ before) j = pushTokens done j ++ before := by
  match j with
  | .null | .bool _ | .number _ | .string _ | .array [] | .object [] => rfl
  | .array (first :: rest) =>
    simp only [pushTokens]
    rw [← List.cons_append, pushTokens_append _ _ first, pushItemTokens_append _ _ rest,
      List.cons_append]
  | .object ((key, value) :: rest) =>
    simp only [pushTokens]
    rw [← List.cons_append, ← List.cons_append, ← List.cons_append,
      pushTokens_append _ _ value, pushMemberTokens_append _ _ rest, List.cons_append]

theorem pushItemTokens_append (done before : List Token) (items : List Json) :
    pushItemTokens (done ++ before) items = pushItemTokens done items ++ before := by
  match items with
  | [] => rfl
  | item :: rest =>
    simp only [pushItemTokens]
    rw [← List.cons_append, pushTokens_append _ _ item, pushItemTokens_append _ _ rest]

theorem pushMemberTokens_append (done before : List Token)
    (members : List (Option String × Json)) :
    pushMemberTokens (done ++ before) members = pushMemberTokens done members ++ before := by
  match members with
  | [] => rfl
  | (key, value) :: rest =>
    simp only [pushMemberTokens]
    rw [← List.cons_append, ← List.cons_append, ← List.cons_append,
      pushTokens_append _ _ value, pushMemberTokens_append _ _ rest]

end

theorem pushTokens_eq (done : List Token) (j : Json) :
    pushTokens done j = j.tokens.reverse ++ done := by
  rw [tokens, List.reverse_reverse, ← pushTokens_append, List.nil_append]

theorem pushItemTokens_eq (done : List Token) (items : List Json) :
    pushItemTokens done items = (itemTokens items).reverse ++ done := by
  rw [itemTokens, List.reverse_reverse, ← pushItemTokens_append, List.nil_append]

theorem pushMemberTokens_eq (done : List Token) (members : List (Option String × Json)) :
    pushMemberTokens done members = (memberTokens members).reverse ++ done := by
  rw [memberTokens, List.reverse_reverse, ← pushMemberTokens_append, List.nil_append]

@[simp] theorem tokens_null : null.tokens = [.null] := rfl

@[simp] theorem tokens_bool (b : Bool) : (bool b).tokens = [.bool b] := rfl

@[simp] theorem tokens_number (spelling : String) :
    (number spelling).tokens = [.number spelling] := rfl

@[simp] theorem tokens_string (t : Option String) : (string t).tokens = [.string t] := rfl

@[simp] theorem tokens_array_nil : (array []).tokens = [.openArray, .closeArray] := rfl

@[simp] theorem tokens_object_nil : (object []).tokens = [.openObject, .closeObject] := rfl

@[simp] theorem tokens_array_cons (first : Json) (rest : List Json) :
    (array (first :: rest)).tokens =
      .openArray :: (first.tokens ++ itemTokens rest ++ [.closeArray]) := by
  rw [tokens, pushTokens, pushTokens_eq, pushItemTokens_eq]
  simp

@[simp] theorem tokens_object_cons (key : Option String) (value : Json)
    (rest : List (Option String × Json)) :
    (object ((key, value) :: rest)).tokens =
      .openObject :: .string key :: .colon ::
        (value.tokens ++ memberTokens rest ++ [.closeObject]) := by
  rw [tokens, pushTokens, pushTokens_eq, pushMemberTokens_eq]
  simp

@[simp] theorem itemTokens_nil : itemTokens [] = [] := rfl

@[simp] theorem itemTokens_cons (item : Json) (rest : List Json) :
    itemTokens (item :: rest) = .comma :: (item.tokens ++ itemTokens rest) := by
  rw [itemTokens, pushItemTokens, pushTokens_eq, pushItemTokens_eq]
  simp

@[simp] theorem memberTokens_nil : memberTokens [] = [] := rfl

@[simp] theorem memberTokens_cons (key : Option String) (value : Json)
    (rest : List (Option String × Json)) :
    memberTokens ((key, value) :: rest) =
      .comma :: .string key :: .colon :: (value.tokens ++ memberTokens rest) := by
  rw [memberTokens, pushMemberTokens, pushTokens_eq, pushMemberTokens_eq]
  simp

/-! ## Reading -/

/-- An open array or object whose next value is being read; what came before is kept backwards. -/
inductive Frame where
  | array (items : List Json)
  | object (members : List (Option String × Json)) (key : Option String)

/-- What may follow. -/
inductive Builder where
  | value (stack : List Frame)
  /-- A first item or the end of the array. -/
  | firstItem (stack : List Frame)
  /-- A first key or the end of the object. -/
  | firstKey (stack : List Frame)
  | nextKey (members : List (Option String × Json)) (stack : List Frame)
  | colon (members : List (Option String × Json)) (key : Option String) (stack : List Frame)
  /-- A comma or the end of what is open. -/
  | complete (j : Json) (stack : List Frame)

namespace Builder

def start : Builder := value []

def stepValue? (stack : List Frame) : Token → Option Builder
  | .null => some (complete .null stack)
  | .bool b => some (complete (.bool b) stack)
  | .number spelling => some (complete (.number spelling) stack)
  | .string t => some (complete (.string t) stack)
  | .openArray => some (firstItem stack)
  | .openObject => some (firstKey stack)
  | _ => none

def stepKey? (members : List (Option String × Json)) (stack : List Frame) :
    Token → Option Builder
  | .string key => some (colon members key stack)
  | _ => none

def step? : Builder → Token → Option Builder
  | value stack, t => stepValue? stack t
  | firstItem stack, .closeArray => some (complete (.array []) stack)
  | firstItem stack, t => stepValue? (.array [] :: stack) t
  | firstKey stack, .closeObject => some (complete (.object []) stack)
  | firstKey stack, t => stepKey? [] stack t
  | nextKey members stack, t => stepKey? members stack t
  | colon members key stack, .colon => some (value (.object members key :: stack))
  | colon _ _ _, _ => none
  | complete j (.array items :: stack), .comma => some (value (.array (j :: items) :: stack))
  | complete j (.array items :: stack), .closeArray =>
    some (complete (.array (j :: items).reverse) stack)
  | complete j (.object members key :: stack), .comma =>
    some (nextKey ((key, j) :: members) stack)
  | complete j (.object members key :: stack), .closeObject =>
    some (complete (.object ((key, j) :: members).reverse) stack)
  | complete _ _, _ => none

def finish? : Builder → Option Json
  | complete j [] => some j
  | _ => none

end Builder

def build? (ts : List Token) : Option Json := do
  (← ts.foldlM Builder.step? Builder.start).finish?

def read? (s : String) : Option Json := do build? (← Token.scan? s)

/-! ## The tokens of a document build it -/

/-- In these states the machine takes a value and completes it over the stack. -/
inductive Builder.TakesValue : List Frame → Builder → Prop
  | value (stack : List Frame) : TakesValue stack (.value stack)
  | firstItem (outer : List Frame) : TakesValue (.array [] :: outer) (.firstItem outer)

private theorem step_of_takesValue {stack : List Frame} {b : Builder}
    (hb : Builder.TakesValue stack b) {t : Token} (ht : t ≠ .closeArray) :
    b.step? t = Builder.stepValue? stack t := by
  cases hb with
  | value => rfl
  | firstItem => cases t <;> first | rfl | exact absurd rfl ht

mutual

private theorem foldlM_tokens (j : Json) (stack : List Frame) (b : Builder)
    (hb : Builder.TakesValue stack b) (rest : List Token) :
    (j.tokens ++ rest).foldlM Builder.step? b
      = rest.foldlM Builder.step? (.complete j stack) := by
  match j with
  | .null => simp [step_of_takesValue hb, Builder.stepValue?]
  | .bool v => simp [step_of_takesValue hb, Builder.stepValue?]
  | .number v => simp [step_of_takesValue hb, Builder.stepValue?]
  | .string v => simp [step_of_takesValue hb, Builder.stepValue?]
  | .array [] =>
    have ho : b.step? .openArray = some (.firstItem stack) := step_of_takesValue hb nofun
    simp only [tokens_array_nil, List.cons_append, List.foldlM_cons, ho]
    rfl
  | .array (first :: items) =>
    have ho : b.step? .openArray = some (.firstItem stack) := step_of_takesValue hb nofun
    simp only [tokens_array_cons, List.cons_append, List.append_assoc, List.foldlM_cons, ho,
      Option.bind_eq_bind, Option.bind_some]
    rw [foldlM_tokens first (.array [] :: stack) _ (.firstItem stack),
      foldlM_itemTokens items first [] stack]
    simp
  | .object [] =>
    have ho : b.step? .openObject = some (.firstKey stack) := step_of_takesValue hb nofun
    simp only [tokens_object_nil, List.cons_append, List.foldlM_cons, ho]
    rfl
  | .object ((key, v) :: members) =>
    have ho : b.step? .openObject = some (.firstKey stack) := step_of_takesValue hb nofun
    simp only [tokens_object_cons, List.cons_append, List.append_assoc, List.foldlM_cons, ho,
      Option.bind_eq_bind, Option.bind_some]
    simp only [Builder.step?, Builder.stepKey?, Option.bind_some]
    rw [foldlM_tokens v (.object [] key :: stack) _ (.value _),
      foldlM_memberTokens members v key [] stack]
    simp

private theorem foldlM_itemTokens (items : List Json) (j : Json) (before : List Json)
    (stack : List Frame) (rest : List Token) :
    (itemTokens items ++ (.closeArray :: rest)).foldlM Builder.step?
        (.complete j (.array before :: stack))
      = rest.foldlM Builder.step? (.complete (.array (before.reverse ++ j :: items)) stack) := by
  match items with
  | [] => simp [Builder.step?]
  | item :: more =>
    simp only [itemTokens_cons, List.cons_append, List.append_assoc, List.foldlM_cons,
      Builder.step?, Option.bind_eq_bind, Option.bind_some]
    rw [foldlM_tokens item (.array (j :: before) :: stack) _ (.value _),
      foldlM_itemTokens more item (j :: before) stack]
    simp

private theorem foldlM_memberTokens (members : List (Option String × Json)) (j : Json)
    (key : Option String) (before : List (Option String × Json)) (stack : List Frame)
    (rest : List Token) :
    (memberTokens members ++ (.closeObject :: rest)).foldlM Builder.step?
        (.complete j (.object before key :: stack))
      = rest.foldlM Builder.step?
          (.complete (.object (before.reverse ++ (key, j) :: members)) stack) := by
  match members with
  | [] => simp [Builder.step?]
  | (name, v) :: more =>
    simp only [memberTokens_cons, List.cons_append, List.append_assoc, List.foldlM_cons,
      Builder.step?, Builder.stepKey?, Option.bind_eq_bind, Option.bind_some]
    rw [foldlM_tokens v (.object ((key, j) :: before) name :: stack) _ (.value _),
      foldlM_memberTokens more v name ((key, j) :: before) stack]
    simp

end

theorem build?_tokens (j : Json) : build? j.tokens = some j := by
  have h := foldlM_tokens j [] Builder.start (.value []) []
  rw [List.append_nil] at h
  simp [build?, h, Builder.finish?]

end HeapAudit.Json
