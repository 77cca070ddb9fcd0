import HeapAudit.Dump.Registry

/-!
Where a dump can get to. A root only ever gets names put after it, so that what a request is
resolved to is below the root however the request and the root are spelled.

Main definitions
* `Volume.place`: where a path leads from a place.

Main statements
* `Path.resolve?_confined`: what is granted, and what it is resolved to.
* `Engine.dumpTo_below`: a dump leaves all files alone but one below the root.
-/

namespace HeapAudit

namespace Path

variable {root path resolved : String}

/-! ## What is granted -/

/-- The dots and the separator a path may start with name nothing. -/
theorem names?_leading (pieces : List (List Char)) (cs : List Component) :
    names? (leading pieces ++ cs) = names? cs := by
  unfold leading
  split <;> rfl

theorem components_of_resolve? (hr : resolve? (some root) path = some resolved) :
    components resolved = components root ++ (components path).filter Component.isName := by
  obtain ⟨names, hnames, -, rfl⟩ := resolve?_eq_some_iff.1 hr
  obtain ⟨-, hfilter⟩ := (names?_eq_some_iff _).1 hnames
  rw [components_foldl_push root fun name hn => isName_of_mem_names hnames hn, hfilter]

/-- A separator in front of a request makes no difference below a root. -/
theorem resolve?_absolute (root path : String) :
    resolve? (some root) ("/" ++ path) = resolve? (some root) path := by
  have hpieces : segments ("/" ++ path).toList = [] :: segments path.toList := by
    rw [String.toList_append]
    exact segments_append_separator [] path.toList
  have hnames : names? (components ("/" ++ path)) = names? (components path) := by
    simp only [components, names?_leading, hpieces]
    rfl
  apply Option.ext
  intro resolved
  rw [resolve?_eq_some_iff, resolve?_eq_some_iff, hnames]

end Path

/-! ## Places -/

namespace Volume

/-- Where a path leads from a place. -/
def place (here : Place) (path : String) : Place := (Path.components path).foldl step here

theorem foldl_step_names (here : Place) (names : List String) :
    (names.map Path.Component.normal).foldl step here = here ++ names := by
  induction names generalizing here with
  | nil => simp
  | cons name names ih => rw [List.map_cons, List.foldl_cons, ih, step, List.append_assoc]; rfl

theorem eq_of_enter? {v : Volume} {p q : Place} {cs : List Path.Component}
    (he : v.enter? p cs = some q) : q = cs.foldl step p := by
  induction cs generalizing p with
  | nil =>
    cases he
    rfl
  | cons c cs ih =>
    cases c with
    | normal name =>
      simp only [enter?] at he
      split at he
      · exact ih he
      · cases he
    | _ => exact ih he

/-- What a request below a root is resolved to leads below where the root leads. -/
theorem place_of_resolve? {root path resolved : String}
    (hr : Path.resolve? (some root) path = some resolved) :
    ∃ names, names ≠ [] ∧
      (Path.components path).filter Path.Component.isName = names.map .normal ∧
      ∀ here, place here resolved = place here root ++ names := by
  obtain ⟨names, hnames, hne, -⟩ := Path.resolve?_eq_some_iff.1 hr
  obtain ⟨-, hfilter⟩ := (Path.names?_eq_some_iff _).1 hnames
  refine ⟨names, hne, hfilter.symm, fun here => ?_⟩
  rw [place, Path.components_of_resolve? hr, List.foldl_append, ← hfilter, foldl_step_names]
  rfl

/-- A file is put where its path leads. -/
theorem eq_of_placeFor? {v : Volume} {path : String} {p : Place}
    (hp : v.placeFor? path = some p) : p = place v.current path := by
  unfold placeFor? at hp
  split at hp
  · cases hp
  · dsimp only at hp
    split at hp
    · rename_i name hl
      split at hp
      · cases hp
      · rename_i q hq
        split at hp
        · cases hp
          obtain ⟨front, hf⟩ := List.getLast?_eq_some_iff.1 hl
          rw [hf, List.dropLast_concat] at hq
          rw [place, hf, List.foldl_append, ← eq_of_enter? hq]
          rfl
        · cases hp
    · cases hp

end Volume

/-! ## Confinement -/

/-- A request below a root is granted exactly if it is not empty, does not climb and names
something. What it is resolved to has the components of the root and, after them, the names of the
request in their order; so from wherever one starts it leads to a place properly below the root. A
separator in front of a request makes no difference. Without a root every request that is not empty
stays as it is. Characters are told apart only as separators, dots and others, so they may as well
stand for the bytes of a path. -/
theorem Path.resolve?_confined (root path : String) :
    ((resolve? (some root) path).isSome ↔
      path ≠ "" ∧ .parent ∉ components path ∧ ∃ name, .normal name ∈ components path) ∧
    (∀ resolved, resolve? (some root) path = some resolved →
      components resolved = components root ++ (components path).filter Component.isName ∧
      ∃ names, names ≠ [] ∧ (components path).filter Component.isName = names.map .normal ∧
        ∀ here, Volume.place here resolved = Volume.place here root ++ names) ∧
    resolve? (some root) ("/" ++ path) = resolve? (some root) path ∧
    (path ≠ "" → resolve? none path = some path) := by
  refine ⟨resolve?_isSome_iff root path, fun resolved hr => ?_, resolve?_absolute root path,
    fun hp => ?_⟩
  · exact ⟨components_of_resolve? hr, Volume.place_of_resolve? hr⟩
  · have he : path.isEmpty = false := by simpa using hp
    simp [resolve?, he]

theorem Path.resolve?_confined_slashes :
    resolve? (some "/mud/log/") "//dumps/./heap.txt" = some "/mud/log/dumps/heap.txt" ∧
    components "/mud/log/dumps/heap.txt" =
      components "/mud/log/" ++ (components "//dumps/./heap.txt").filter Component.isName ∧
    "heap.txt" ≠ "" ∧ resolve? none "heap.txt" = some "heap.txt" := by
  have hr : resolve? (some "/mud/log/") "//dumps/./heap.txt" = some "/mud/log/dumps/heap.txt" := by
    decide +kernel
  have hp : "heap.txt" ≠ "" := by decide
  obtain ⟨-, hbelow, -, -⟩ := resolve?_confined "/mud/log/" "//dumps/./heap.txt"
  obtain ⟨-, -, -, hfree⟩ := resolve?_confined "/mud/log/" "heap.txt"
  exact ⟨hr, (hbelow _ hr).1, hp, hfree hp⟩

example : Path.resolve? (some "log") "a/../../etc" = none := by decide +kernel

/-- With a dump root a dump changes no file but one, which is below it. -/
theorem Engine.dumpTo_below {e : Engine} {v w : Volume} {root path : String}
    {only : Option Category} {summary : DumpSummary} (hr : e.settings.dumpRoot = some root)
    (hd : e.dumpTo v path only = .ok (summary, w)) :
    ∃ names, names ≠ [] ∧ ∀ p content, p ≠ Volume.place v.current root ++ names →
      ((p, content) ∈ w.files ↔ (p, content) ∈ v.files) := by
  unfold dumpTo at hd
  rw [hr] at hd
  cases hs : Path.resolve? (some root) path with
  | none => simp [hs] at hd
  | some resolved =>
    simp only [hs] at hd
    split at hd
    · cases hd
    · rename_i u hu
      cases hd
      obtain ⟨names, hne, -, hplace⟩ := Volume.place_of_resolve? hs
      refine ⟨names, hne, fun p content hp => ?_⟩
      have hother : v.placeFor? resolved ≠ some p := by
        intro heq
        apply hp
        rw [Volume.eq_of_placeFor? heq, hplace]
      rw [Volume.mem_files_create? hu, if_neg hother]

end HeapAudit
