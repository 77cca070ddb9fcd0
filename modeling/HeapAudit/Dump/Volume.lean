import HeapAudit.Dump.Path

/-!
A volume: directories and the files in them, as far as writing a file needs them.

Main definitions
* `Volume.makeDirectory`, `Volume.makePath`: a directory with all that leads to it.
* `Volume.create?`: a file with the given content, if the path leads to a place for one.

Main statements
* `hasDirectory_makeDirectory`, `mem_files_create?`: what is there afterwards.
-/

namespace HeapAudit

/-- A place in the volume: the names on the way from its root. -/
abbrev Place := List String

/-- The root directory is always there. -/
structure Volume where
  /-- Where paths start that are not absolute. -/
  current : Place
  directories : List Place
  files : List (Place × String)
deriving DecidableEq, Repr

namespace Volume

def empty : Volume := ⟨[], [], []⟩

def hasDirectory (v : Volume) (p : Place) : Bool := p = [] || v.directories.contains p

/-- A directory with all that leads to it. -/
def makeDirectory (v : Volume) (p : Place) : Volume :=
  { v with directories := (List.range p.length).map (fun n => p.take (n + 1)) ++ v.directories }

theorem hasDirectory_makeDirectory (v : Volume) (p q : Place) :
    (v.makeDirectory p).hasDirectory q = true ↔ q <+: p ∨ v.hasDirectory q = true := by
  simp only [hasDirectory, makeDirectory, List.contains_eq_mem, List.mem_append, List.mem_map,
    List.mem_range, decide_eq_true_eq, Bool.or_eq_true]
  constructor
  · rintro (h | ⟨n, _, rfl⟩ | h)
    · exact .inr (.inl h)
    · exact .inl (List.take_prefix _ _)
    · exact .inr (.inr h)
  · rintro (h | h | h)
    · by_cases hq : q = []
      · exact .inl hq
      · have hl := h.length_le
        have hp : 0 < q.length := List.length_pos_iff.2 hq
        refine .inr (.inl ⟨q.length - 1, by omega, ?_⟩)
        rw [Nat.sub_add_cancel hp]
        exact (List.prefix_iff_eq_take.1 h).symm
    · exact .inl h
    · exact .inr (.inr h)

/-- No name is longer than 255 bytes. -/
def isName (name : String) : Bool := name.utf8ByteSize ≤ 255

/-- A path has fewer than 4096 bytes, however few names it reads as, and no NUL. -/
def isPath (path : String) : Bool := path.utf8ByteSize < 4096 && !path.toList.contains '\x00'

/-- Where a component leads; the parent of the root is the root. -/
def step (p : Place) : Path.Component → Place
  | .root => []
  | .current => p
  | .parent => p.dropLast
  | .normal name => p ++ [name]

/-- The directory reached by components from a place; only a name can fail to lead on. -/
def enter? (v : Volume) : Place → List Path.Component → Option Place
  | p, [] => some p
  | p, .normal name :: rest =>
    if isName name && v.hasDirectory (step p (.normal name)) then
      v.enter? (step p (.normal name)) rest
    else none
  | p, c :: rest => v.enter? (step p c) rest

/-- The directories a path goes through, made one after the other. -/
def makePath (v : Volume) (path : String) : Volume :=
  ((Path.components path).foldl
    (fun (v, p) c => (v.makeDirectory (step p c), step p c)) (v, v.current)).1

/-- A path that ends in a separator or a dot asks for a directory. -/
def asksDirectory (path : String) : Bool :=
  match (Path.segments path.toList).getLast? with
  | some s => s = [] || s = ['.']
  | none => false

/-- The place for a file: its directory is there and no directory has its name. -/
def placeFor? (v : Volume) (path : String) : Option Place :=
  if asksDirectory path || !isPath path then none
  else
    let cs := Path.components path
    match cs.getLast? with
    | some (.normal name) =>
      match v.enter? v.current cs.dropLast with
      | none => none
      | some p =>
        if isName name && !v.hasDirectory (p ++ [name]) then some (p ++ [name]) else none
    | _ => none

/-- A file that was there is replaced. -/
def create? (v : Volume) (path content : String) : Option Volume :=
  (v.placeFor? path).map fun p =>
    { v with files := (p, content) :: v.files.filter fun f => f.1 ≠ p }

/-- The one file holds the content, the others what they held. -/
theorem mem_files_create? {v w : Volume} {path content : String}
    (h : v.create? path content = some w) (p : Place) (c : String) :
    (p, c) ∈ w.files ↔
      if v.placeFor? path = some p then c = content else (p, c) ∈ v.files := by
  obtain ⟨q, hq, rfl⟩ := Option.map_eq_some_iff.1 h
  by_cases hp : q = p
  · subst hp
    simp [hq]
  · simp [hq, hp, Ne.symm hp]

end Volume

end HeapAudit
