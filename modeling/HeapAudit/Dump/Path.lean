/-!
Paths as text, and where a dump may be written.

Main definitions
* `Path.components`: a path read as components; repeated separators and inner dots mean nothing.
* `Path.IsName`: text that reads as one name wherever it stands.
* `Path.resolve?`: a requested path put below a root it cannot leave.

Main statements
* `components_push`: a name that is put after a path is one component more.
* `components_foldl_push_eq_iff`: names lead back to the root only if there are none.
* `resolve?_isSome_iff`: exactly which requests are granted.
-/

namespace HeapAudit.Path

/-! ## Components -/

/-- A character in front of the pieces; a separator begins a piece of its own. -/
def cut (c : Char) (pieces : List (List Char)) : List (List Char) :=
  if c = '/' then [] :: pieces
  else
    match pieces with
    | [] => [[c]]
    | s :: rest => (c :: s) :: rest

/-- The pieces between separators, of which there is always at least one. -/
def segments (cs : List Char) : List (List Char) := cs.foldr cut [[]]

inductive Component where
  | root
  | current
  | parent
  | normal (name : String)
deriving DecidableEq, Repr

def Component.isName : Component → Bool
  | normal _ => true
  | _ => false

/-- A piece that stands for a component wherever it is; an empty piece and a dot do not. -/
def ofSegment? (s : List Char) : Option Component :=
  if s = [] ∨ s = ['.'] then none
  else if s = ['.', '.'] then some .parent
  else some (.normal (String.ofList s))

/-- A separator in front makes the path absolute, a dot in front is kept. -/
def leading : List (List Char) → List Component
  | [] :: _ :: _ => [.root]
  | ['.'] :: _ => [.current]
  | _ => []

def components (path : String) : List Component :=
  let pieces := segments path.toList
  leading pieces ++ pieces.filterMap ofSegment?

variable {root path resolved name directory : String} {names : List String}

/-! ### Pieces -/

@[simp] theorem segments_nil : segments [] = [[]] := rfl

theorem segments_cons (c : Char) (cs : List Char) :
    segments (c :: cs) = cut c (segments cs) := rfl

theorem segments_ne_nil (cs : List Char) : segments cs ≠ [] := by
  cases cs with
  | nil => simp
  | cons c cs =>
    rw [segments_cons]
    unfold cut
    split
    · simp
    · split <;> simp

theorem segments_append_separator (a b : List Char) :
    segments (a ++ '/' :: b) = segments a ++ segments b := by
  induction a with
  | nil => rfl
  | cons c a ih =>
    obtain ⟨s, rest, hs⟩ := List.exists_cons_of_ne_nil (segments_ne_nil a)
    rw [List.cons_append, segments_cons, segments_cons, ih, hs]
    by_cases hc : c = '/' <;> simp [cut, hc]

theorem segments_of_not_mem {s : List Char} (hs : '/' ∉ s) : segments s = [s] := by
  induction s with
  | nil => rfl
  | cons c s ih =>
    simp only [List.mem_cons, not_or] at hs
    simp [segments_cons, cut, Ne.symm hs.1, ih hs.2]

theorem not_mem_of_mem_segments {cs s : List Char} (hs : s ∈ segments cs) : '/' ∉ s := by
  induction cs generalizing s with
  | nil =>
    simp only [segments_nil, List.mem_singleton] at hs
    simp [hs]
  | cons c cs ih =>
    obtain ⟨t, rest, ht⟩ := List.exists_cons_of_ne_nil (segments_ne_nil cs)
    rw [ht] at ih
    simp only [segments_cons, cut, ht] at hs
    split at hs
    · rcases List.mem_cons.1 hs with rfl | hs
      · simp
      · exact ih hs
    · rename_i hc
      rcases List.mem_cons.1 hs with rfl | hs
      · simp [Ne.symm hc, ih List.mem_cons_self]
      · exact ih (List.mem_cons_of_mem _ hs)

/-! ### Names -/

/-- Reads as a name: it is not empty, no dots, and no separator is in it. -/
structure IsName (name : String) : Prop where
  ofSegment : ofSegment? name.toList = some (.normal name)
  separator : '/' ∉ name.toList

theorem isName_of_mem_components (hn : .normal name ∈ components path) : IsName name := by
  simp only [components, List.mem_append, List.mem_filterMap] at hn
  rcases hn with hl | ⟨s, hs, ho⟩
  · unfold leading at hl
    split at hl <;> simp at hl
  · have hname : name = String.ofList s := by
      simp only [ofSegment?] at ho
      split at ho
      · cases ho
      · split at ho <;> cases ho
        rfl
    subst hname
    constructor
    · rwa [String.toList_ofList]
    · rw [String.toList_ofList]
      exact not_mem_of_mem_segments hs

theorem IsName.segments (hn : IsName name) : segments name.toList = [name.toList] :=
  segments_of_not_mem hn.separator

theorem leading_cons {first : List Char} (hf : first ≠ []) (rest : List (List Char)) :
    leading (first :: rest) = if first = ['.'] then [.current] else [] := by
  unfold leading
  split <;> simp_all

/-- The first piece settles how a path starts, unless it is empty and the only one. -/
theorem leading_append {pieces : List (List Char)} (hp : pieces ≠ []) (he : pieces ≠ [[]])
    (more : List (List Char)) : leading (pieces ++ more) = leading pieces := by
  obtain ⟨first, rest, rfl⟩ := List.exists_cons_of_ne_nil hp
  by_cases hf : first = []
  · subst hf
    cases rest with
    | nil => exact absurd rfl he
    | cons second rest => rfl
  · rw [List.cons_append, leading_cons hf, leading_cons hf]

/-- With pieces before it the last piece has no part in how a path starts. -/
theorem leading_concat {pieces : List (List Char)} (hp : pieces ≠ []) (s t : List Char) :
    leading (pieces ++ [s]) = leading (pieces ++ [t]) := by
  by_cases he : pieces = [[]]
  · subst he
    rfl
  · rw [leading_append hp he, leading_append hp he]

theorem leading_of_isName (hn : IsName name) : leading [name.toList] = [] := by
  have ho := hn.ofSegment
  have hne : name.toList ≠ [] ∧ name.toList ≠ ['.'] := by
    constructor <;> intro heq <;> simp [ofSegment?, heq] at ho
  rw [leading_cons hne.1, if_neg hne.2]

theorem segments_eq_singleton_nil_iff (cs : List Char) : segments cs = [[]] ↔ cs = [] := by
  constructor
  · intro hs
    cases cs with
    | nil => rfl
    | cons c cs =>
      obtain ⟨s, rest, ht⟩ := List.exists_cons_of_ne_nil (segments_ne_nil cs)
      simp only [segments_cons, cut, ht] at hs
      split at hs <;> simp at hs
  · rintro rfl
    rfl

/-! ## Names put after a path -/

/-- A name below a directory. -/
def push (directory name : String) : String :=
  if directory.isEmpty then name
  else if directory.toList.getLast? = some '/' then directory ++ name
  else directory ++ "/" ++ name

theorem toList_separator (directory : String) :
    (directory ++ "/").toList = directory.toList ++ '/' :: [] := by
  simp

/-- A separator at the end of a path means nothing. -/
theorem components_separator (hd : directory ≠ "") :
    components (directory ++ "/") = components directory := by
  have he : segments directory.toList ≠ [[]] := by
    simpa [segments_eq_singleton_nil_iff] using hd
  have hempty : [[]].filterMap ofSegment? = [] := rfl
  simp only [components, toList_separator, segments_append_separator, segments_nil,
    leading_append (segments_ne_nil _) he, List.filterMap_append, hempty, List.append_nil]

/-- After a separator a name is one component more. -/
theorem components_separator_name (front : String) (hn : IsName name) :
    components (front ++ "/" ++ name) = components (front ++ "/") ++ [.normal name] := by
  have hpieces : segments (front ++ "/" ++ name).toList =
      segments front.toList ++ [name.toList] := by
    rw [← hn.segments, ← segments_append_separator]
    simp
  have hfront : segments (front ++ "/").toList = segments front.toList ++ [[]] := by
    rw [toList_separator, segments_append_separator]
    rfl
  have hempty : [[]].filterMap ofSegment? = [] := rfl
  simp only [components, hpieces, hfront, leading_concat (segments_ne_nil _) name.toList [],
    List.filterMap_append, List.filterMap_cons, List.filterMap_nil, hn.ofSegment, hempty,
    List.append_nil, List.append_assoc]

theorem components_of_isName (hn : IsName name) : components name = [.normal name] := by
  simp only [components, hn.segments, leading_of_isName hn, List.filterMap_cons,
    List.filterMap_nil, hn.ofSegment, List.nil_append]

theorem components_push (directory : String) (hn : IsName name) :
    components (push directory name) = components directory ++ [.normal name] := by
  unfold push
  split
  · rename_i he
    obtain rfl : directory = "" := by simpa using he
    exact components_of_isName hn
  · rename_i he
    split
    · rename_i hl
      obtain ⟨front, hf⟩ := List.getLast?_eq_some_iff.1 hl
      have hd : directory = String.ofList front ++ "/" := by
        rw [← String.toList_inj, hf, toList_separator, String.toList_ofList]
      rw [hd]
      exact components_separator_name _ hn
    · rw [components_separator_name directory hn, components_separator (by simpa using he)]

theorem components_foldl_push (root : String) (hn : ∀ name ∈ names, IsName name) :
    components (names.foldl push root) = components root ++ names.map .normal := by
  induction names generalizing root with
  | nil => simp
  | cons name names ih =>
    rw [List.foldl_cons, ih _ fun n hm => hn n (List.mem_cons_of_mem _ hm),
      components_push root (hn name List.mem_cons_self), List.append_assoc]
    rfl

/-- Names that are put after a path lead back to it only if there are none. -/
theorem components_foldl_push_eq_iff (root : String) (hn : ∀ name ∈ names, IsName name) :
    components (names.foldl push root) = components root ↔ names = [] := by
  rw [components_foldl_push root hn]
  simp

/-! ## Resolution -/

/-- The name of a component in front of those after it; nothing if the path climbs. -/
def addName? (c : Component) (names : Option (List String)) : Option (List String) :=
  match c with
  | .normal name => names.map (name :: ·)
  | .current | .root => names
  | .parent => none

/-- The names a path adds to a root; nothing if it would climb. -/
def names? (cs : List Component) : Option (List String) := cs.foldr addName? (some [])

/-- Below a root the path may not climb, and it has to lead away from the root; paths are the same
when their components are. Without a root any path will do that is not empty. -/
def resolve? (root : Option String) (path : String) : Option String :=
  if path.isEmpty then none
  else
    match root with
    | none => some path
    | some root =>
      match names? (components path) with
      | none => none
      | some names =>
        let resolved := names.foldl push root
        if components resolved = components root then none else some resolved

/-! ## Which requests are granted -/

@[simp] theorem names?_nil : names? [] = some [] := rfl

theorem names?_cons (c : Component) (cs : List Component) :
    names? (c :: cs) = addName? c (names? cs) := rfl

theorem names?_eq_none_iff (cs : List Component) : names? cs = none ↔ .parent ∈ cs := by
  induction cs with
  | nil => simp
  | cons c cs ih => cases c <;> simp [names?_cons, addName?, ih]

theorem names?_eq_some_iff (cs : List Component) :
    names? cs = some names ↔ .parent ∉ cs ∧ names.map .normal = cs.filter Component.isName := by
  induction cs generalizing names with
  | nil => simp [eq_comm]
  | cons c cs ih =>
    cases c with
    | root | current => simp [names?_cons, addName?, ih, Component.isName]
    | parent => simp [names?_cons, addName?]
    | normal name =>
      have hfilter : (Component.normal name :: cs).filter Component.isName =
          .normal name :: cs.filter Component.isName := rfl
      rw [names?_cons, addName?, Option.map_eq_some_iff, hfilter]
      simp only [ih, List.mem_cons, reduceCtorEq, false_or]
      constructor
      · rintro ⟨rest, ⟨hp, hrest⟩, rfl⟩
        exact ⟨hp, by rw [List.map_cons, hrest]⟩
      · rintro ⟨hp, hnames⟩
        obtain ⟨first, rest, rfl, hfirst, hrest⟩ := List.map_eq_cons_iff.1 hnames
        cases hfirst
        exact ⟨rest, ⟨hp, hrest⟩, rfl⟩

theorem mem_names_iff {cs : List Component} (hs : names? cs = some names) :
    name ∈ names ↔ .normal name ∈ cs := by
  obtain ⟨-, hfilter⟩ := (names?_eq_some_iff cs).1 hs
  have hmem : Component.normal name ∈ names.map .normal ↔ .normal name ∈ cs := by
    rw [hfilter, List.mem_filter]
    exact and_iff_left rfl
  simpa using hmem

theorem isName_of_mem_names (hs : names? (components path) = some names) (hn : name ∈ names) :
    IsName name :=
  isName_of_mem_components ((mem_names_iff hs).1 hn)

/-- What a request is resolved to, in full: it leads away from the root if it has names. -/
theorem resolve?_eq_some_iff :
    resolve? (some root) path = some resolved ↔
      ∃ names, names? (components path) = some names ∧ names ≠ [] ∧
        names.foldl push root = resolved := by
  unfold resolve?
  split
  · rename_i he
    obtain rfl : path = "" := by simpa using he
    have hnone : names? (components "") = some [] := rfl
    simp [hnone]
  · cases hs : names? (components path) with
    | none => simp
    | some names =>
      have haway := components_foldl_push_eq_iff root fun name hn => isName_of_mem_names hs hn
      by_cases hnil : names = [] <;> simp [haway, hnil]

theorem resolve?_isSome_iff (root path : String) :
    (resolve? (some root) path).isSome ↔
      path ≠ "" ∧ .parent ∉ components path ∧ ∃ name, .normal name ∈ components path := by
  simp only [Option.isSome_iff_exists, resolve?_eq_some_iff]
  constructor
  · rintro ⟨_, names, hs, hne, -⟩
    obtain ⟨hparent, -⟩ := (names?_eq_some_iff _).1 hs
    obtain ⟨name, hname⟩ := List.exists_mem_of_ne_nil names hne
    refine ⟨?_, hparent, name, (mem_names_iff hs).1 hname⟩
    rintro rfl
    exact hne (Option.some.inj hs).symm
  · rintro ⟨-, hparent, name, hm⟩
    cases hs : names? (components path) with
    | none => exact absurd ((names?_eq_none_iff _).1 hs) hparent
    | some names =>
      exact ⟨_, names, rfl, List.ne_nil_of_mem ((mem_names_iff hs).2 hm), rfl⟩

end HeapAudit.Path
