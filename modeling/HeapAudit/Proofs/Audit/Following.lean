import HeapAudit.Audit.Walk
import Mathlib.Data.List.Count

/-!
What a walk over probes leaves behind: on every block the number of references that named it, and
a finding for every reference that named nothing.

Main statements
* `Heap.get?_walk`: the scratch of every block after a walk.
* `Heap.faults_walk`: the dangling and miscategorised references are found once each.
* `Heap.findingsOf_walk_of_entered`, `Heap.entered_of_notes`: a walk finds nothing of its own
  exactly when every reference resolves and no owned block is reached twice.
-/

namespace HeapAudit

/-! ## Probes -/

def Probe.reference? : Probe → Option Reference
  | .follow _ ref => some ref
  | .report _ | .consult _ => none

/-- The references among the probes. -/
def followed (ps : List Probe) : List Reference := ps.filterMap Probe.reference?

def Probe.report? : Probe → Option Finding
  | .report f => some f
  | .follow _ _ | .consult _ => none

/-- What the probes have to say of themselves. -/
def reported (ps : List Probe) : List Finding := ps.filterMap Probe.report?

@[simp] theorem followed_nil : followed [] = [] := rfl

@[simp] theorem followed_follow (o : Origin) (ref : Reference) (ps : List Probe) :
    followed (.follow o ref :: ps) = ref :: followed ps := rfl

@[simp] theorem followed_report (f : Finding) (ps : List Probe) :
    followed (.report f :: ps) = followed ps := rfl

@[simp] theorem followed_consult (name : String) (ps : List Probe) :
    followed (.consult name :: ps) = followed ps := rfl

@[simp] theorem followed_append (ps qs : List Probe) :
    followed (ps ++ qs) = followed ps ++ followed qs :=
  List.filterMap_append

@[simp] theorem reported_nil : reported [] = [] := rfl

@[simp] theorem reported_follow (o : Origin) (ref : Reference) (ps : List Probe) :
    reported (.follow o ref :: ps) = reported ps := rfl

@[simp] theorem reported_report (f : Finding) (ps : List Probe) :
    reported (.report f :: ps) = f :: reported ps := rfl

@[simp] theorem reported_consult (name : String) (ps : List Probe) :
    reported (.consult name :: ps) = reported ps := rfl

@[simp] theorem reported_append (ps qs : List Probe) :
    reported (ps ++ qs) = reported ps ++ reported qs :=
  List.filterMap_append

theorem reported_flatMap {α : Type} (xs : List α) (f : α → List Probe) :
    reported (xs.flatMap f) = xs.flatMap fun x => reported (f x) :=
  List.filterMap_flatMap

/-! ## References that name nothing -/

namespace Heap

/-- A reference resolves to a live block of the category it expects. -/
def Resolves (heap : Heap) (ref : Reference) : Prop :=
  ∃ b, heap.get? ref.target = some b ∧ b.category = ref.expected

/-- Why a reference does not resolve. -/
def fault? (heap : Heap) (origin : Origin) (ref : Reference) : Option Finding :=
  match heap.get? ref.target with
  | none => some (.dangling origin ref.target ref.expected)
  | some b =>
    if b.category = ref.expected then none
    else some (.wrongCategory origin ref.target ref.expected b.category)

theorem fault?_eq_none_iff {heap : Heap} {origin : Origin} {ref : Reference} :
    heap.fault? origin ref = none ↔ heap.Resolves ref := by
  unfold fault? Resolves
  cases heap.get? ref.target with
  | none => simp
  | some b => simp

end Heap

/-- The findings about references that do not resolve. -/
def Finding.isFault : Finding → Bool
  | .dangling .. | .wrongCategory .. => true
  | _ => false

/-! ## Scratch -/

namespace Scratch

/-- What the references to the block behind `h`, of category `c`, leave on it. -/
def after (s : Scratch) (refs : List Reference) (h : Handle) (c : Category) : Scratch :=
  { expected := s.expected + refs.count ⟨.counted, h, c⟩
    pins := s.pins + refs.count ⟨.pinned, h, c⟩
    visited := s.visited || decide (⟨.owned, h, c⟩ ∈ refs) }

@[simp] theorem after_nil (s : Scratch) (h : Handle) (c : Category) : s.after [] h c = s := by
  simp [after]

theorem after_cons_self (s : Scratch) (hold : Hold) (refs : List Reference) (h : Handle)
    (c : Category) : s.after (⟨hold, h, c⟩ :: refs) h c = (s.note hold).after refs h c := by
  cases hold <;> simp [after, note, Nat.add_assoc, Nat.add_comm]

theorem after_cons_of_ne (s : Scratch) {ref : Reference} (refs : List Reference) {h : Handle}
    {c : Category} (hne : ¬ (ref.target = h ∧ ref.expected = c)) :
    s.after (ref :: refs) h c = s.after refs h c := by
  have hr : ∀ hold, (⟨hold, h, c⟩ : Reference) ≠ ref := by
    rintro hold rfl
    exact hne ⟨rfl, rfl⟩
  simp [after, hr, (hr _).symm]

theorem after_append (s : Scratch) (refs more : List Reference) (h : Handle) (c : Category) :
    s.after (refs ++ more) h c = (s.after refs h c).after more h c := by
  simp [after, List.count_append, Nat.add_assoc, Bool.or_assoc]

end Scratch

namespace Heap

theorem get?_followReference (heap : Heap) (origin : Origin) (ref : Reference) (k : Handle) :
    (heap.followReference origin ref).1.get? k =
      (heap.get? k).map fun b => { b with scratch := b.scratch.after [ref] k b.category } := by
  unfold followReference resolve
  cases hb : heap.get? ref.target with
  | none =>
    cases hk : heap.get? k with
    | none => rfl
    | some b =>
      have hne : ¬ (ref.target = k ∧ ref.expected = b.category) := by
        rintro ⟨rfl, -⟩
        simp [hb] at hk
      simp [Scratch.after_cons_of_ne _ _ hne]
  | some d =>
    by_cases hd : d.category = ref.expected
    · simp only [hd, ↓reduceIte]
      rw [get?_noteAt]
      by_cases hk : k = ref.target
      · subst hk
        have hr : ref = ⟨ref.hold, ref.target, d.category⟩ := by rw [hd]
        rw [if_pos rfl, hb, Option.map_some, Option.map_some]
        conv_rhs => rw [hr, Scratch.after_cons_self, Scratch.after_nil]
      · rw [if_neg hk]
        cases hb' : heap.get? k with
        | none => rfl
        | some b =>
          have hne : ¬ (ref.target = k ∧ ref.expected = b.category) := fun h => hk h.1.symm
          simp [Scratch.after_cons_of_ne _ _ hne]
    · simp only [hd, ↓reduceIte]
      cases hk : heap.get? k with
      | none => rfl
      | some b =>
        have hne : ¬ (ref.target = k ∧ ref.expected = b.category) := by
          rintro ⟨rfl, hc⟩
          rw [hb] at hk
          cases hk
          exact hd hc.symm
        simp [Scratch.after_cons_of_ne _ _ hne]

theorem get?_follow (heap : Heap) (p : Probe) (k : Handle) :
    (heap.follow p).1.get? k =
      (heap.get? k).map fun b =>
        { b with scratch := b.scratch.after (followed [p]) k b.category } := by
  cases p with
  | follow origin ref => exact get?_followReference heap origin ref k
  | report f => simp [follow]
  | consult name => simp [follow]

/-- A walk counts on every block the references that name it with its category. -/
theorem get?_walk (heap : Heap) (ps : List Probe) (k : Handle) :
    (heap.walk ps).1.get? k =
      (heap.get? k).map fun b =>
        { b with scratch := b.scratch.after (followed ps) k b.category } := by
  induction ps generalizing heap with
  | nil => simp
  | cons p ps ih =>
    have hp : followed (p :: ps) = followed [p] ++ followed ps := followed_append [p] ps
    simp only [walk_cons, ih, get?_follow, Option.map_map, Function.comp_def, hp,
      Scratch.after_append]

theorem fault?_follow (heap : Heap) (p : Probe) (origin : Origin) (ref : Reference) :
    (heap.follow p).1.fault? origin ref = heap.fault? origin ref := by
  unfold fault?
  rw [get?_follow]
  cases heap.get? ref.target <;> rfl

/-! ## Findings of a walk -/

/-- The reference of a probe that does not resolve, as a finding. -/
def faultOf (heap : Heap) : Probe → Option Finding
  | .follow origin ref => heap.fault? origin ref
  | .report f => if f.isFault then some f else none
  | .consult _ => none

theorem findingsOf_announce (origin : Origin) (target : Handle) :
    findingsOf (announce origin target) = [] := by
  cases origin <;> rfl

theorem findingsOf_followReference (heap : Heap) (origin : Origin) (ref : Reference) :
    findingsOf (heap.followReference origin ref).2 =
      match heap.resolve origin ref with
      | .error f => [f]
      | .ok b => sharedOwner origin ref b := by
  unfold followReference
  cases heap.resolve origin ref with
  | error f =>
    rw [findingsOf_append, findingsOf_announce]
    rfl
  | ok b =>
    rw [findingsOf_append, findingsOf_announce, findingsOf_map_finding]
    rfl

theorem resolve_eq (heap : Heap) (origin : Origin) (ref : Reference) :
    (∃ f, heap.resolve origin ref = .error f ∧ heap.fault? origin ref = some f ∧ f.isFault) ∨
      ∃ b, heap.resolve origin ref = .ok b ∧ heap.fault? origin ref = none ∧
        heap.get? ref.target = some b ∧ b.category = ref.expected := by
  unfold resolve fault?
  cases heap.get? ref.target with
  | none => exact .inl ⟨_, rfl, rfl, rfl⟩
  | some b =>
    by_cases hc : b.category = ref.expected
    · exact .inr ⟨b, by simp [hc]⟩
    · exact .inl ⟨_, by simp [hc]; exact ⟨rfl, rfl⟩⟩

theorem faults_follow (heap : Heap) (p : Probe) :
    (findingsOf (heap.follow p).2).filter Finding.isFault = (heap.faultOf p).toList := by
  cases p with
  | follow origin ref =>
    show (findingsOf (heap.followReference origin ref).2).filter _ = (heap.fault? origin ref).toList
    rw [findingsOf_followReference]
    obtain ⟨f, hr, hf, hi⟩ | ⟨b, hr, hf, -⟩ := heap.resolve_eq origin ref
    · simp [hr, hf, hi]
    · rw [hr, hf]
      simp only [sharedOwner]
      split <;> simp [Finding.isFault]
  | report f => cases hf : f.isFault <;> simp [follow, faultOf, findingsOf, Event.finding?, hf]
  | consult name => rfl

/-- Every reference that does not resolve is found once, in the order of the walk. -/
theorem faults_walk (heap : Heap) (ps : List Probe) :
    (findingsOf (heap.walk ps).2).filter Finding.isFault = ps.filterMap heap.faultOf := by
  induction ps generalizing heap with
  | nil => rfl
  | cons p ps ih =>
    have hf : (heap.follow p).1.faultOf = heap.faultOf := by
      funext q
      cases q with
      | follow origin ref => exact fault?_follow heap p origin ref
      | report f => rfl
      | consult name => rfl
    simp only [walk_cons, findingsOf_append, List.filter_append, ih, hf, faults_follow]
    cases hp : heap.faultOf p <;> simp [hp]

/-! ## Walks that find nothing of their own -/

/-- The block behind an owning reference was not reached before. -/
def Unreached (heap : Heap) (ref : Reference) : Prop :=
  ref.hold = .owned → ∀ b, heap.get? ref.target = some b → b.scratch.visited = false

/-- Every reference resolves, and no owned block is reached twice or was reached before. -/
structure Entered (heap : Heap) (refs : List Reference) : Prop where
  resolves : ∀ ref ∈ refs, heap.Resolves ref
  once : (refs.filter fun ref => ref.hold = .owned).Nodup
  fresh : ∀ ref ∈ refs, heap.Unreached ref

theorem entered_nil (heap : Heap) : heap.Entered [] where
  resolves := by simp
  once := by simp
  fresh := by simp

theorem resolves_follow (heap : Heap) (p : Probe) (ref : Reference) :
    (heap.follow p).1.Resolves ref ↔ heap.Resolves ref := by
  unfold Resolves
  rw [get?_follow]
  cases heap.get? ref.target <;> simp

/-- After the first step the rest can still be entered. -/
theorem Entered.follow {heap : Heap} {ref : Reference} {refs : List Reference}
    (he : heap.Entered (ref :: refs)) (origin : Origin) :
    (heap.follow (.follow origin ref)).1.Entered refs := by
  have honce := he.once
  refine ⟨?_, ?_, ?_⟩
  · exact fun other hm => (resolves_follow _ _ _).2 (he.resolves other (by simp [hm]))
  · exact List.Nodup.sublist ((List.sublist_cons_self ref refs).filter _) honce
  · intro other hm hown b hb
    rw [get?_follow] at hb
    obtain ⟨c, hc, rfl⟩ := Option.map_eq_some_iff.1 hb
    have hunvisited := he.fresh other (by simp [hm]) hown c hc
    have hne : (⟨.owned, other.target, c.category⟩ : Reference) ≠ ref := by
      rintro rfl
      obtain ⟨d, hd, hde⟩ := he.resolves other (by simp [hm])
      rw [hc] at hd
      cases hd
      have hself : other = ⟨.owned, other.target, c.category⟩ := by rw [hde, ← hown]
      rw [List.filter_cons_of_pos (by simp), List.nodup_cons] at honce
      exact honce.1 (List.mem_filter.2 ⟨hself ▸ hm, by simp⟩)
    simp [Scratch.after, hunvisited, hne]

/-- The first step marks its block, so the rest does not own that block again. -/
theorem entered_of_follow {heap : Heap} {origin : Origin} {ref : Reference}
    {refs : List Reference} (hr : heap.Resolves ref) (hu : heap.Unreached ref)
    (he : (heap.follow (.follow origin ref)).1.Entered refs) : heap.Entered (ref :: refs) := by
  refine ⟨?_, ?_, ?_⟩
  · intro other hm
    rcases List.mem_cons.1 hm with rfl | hm
    · exact hr
    · exact (resolves_follow _ _ _).1 (he.resolves other hm)
  · by_cases hown : ref.hold = .owned
    · rw [List.filter_cons_of_pos (by simp [hown]), List.nodup_cons]
      refine ⟨fun hm => ?_, he.once⟩
      obtain ⟨b, hb, hbc⟩ := hr
      have hin := (List.mem_filter.1 hm).1
      have hvisited := he.fresh ref hin hown _ (by rw [get?_follow, hb]; rfl)
      have hself : (⟨.owned, ref.target, b.category⟩ : Reference) = ref := by
        rw [hbc, ← hown]
      simp [Scratch.after, hself] at hvisited
    · rw [List.filter_cons_of_neg (by simp [hown])]
      exact he.once
  · intro other hm hown b hb
    rcases List.mem_cons.1 hm with rfl | hm
    · exact hu hown b hb
    · have hvisited := he.fresh other hm hown _ (by rw [get?_follow, hb]; rfl)
      simp [Scratch.after] at hvisited
      exact hvisited.1

theorem findingsOf_followReference_of_resolves {heap : Heap} {origin : Origin} {ref : Reference}
    (hr : heap.Resolves ref) (hu : heap.Unreached ref) :
    findingsOf (heap.followReference origin ref).2 = [] := by
  rw [findingsOf_followReference]
  obtain ⟨f, -, hf, -⟩ | ⟨b, hb, -, hg, -⟩ := heap.resolve_eq origin ref
  · rw [fault?_eq_none_iff.2 hr] at hf
    cases hf
  · rw [hb]
    simp only [sharedOwner]
    rw [if_neg]
    rintro ⟨hown, hv⟩
    rw [hu hown b hg] at hv
    cases hv

/-- Where every reference resolves and no owned block is reached twice, a walk only repeats what
the probes report. -/
theorem findingsOf_walk_of_entered {heap : Heap} {ps : List Probe}
    (he : heap.Entered (followed ps)) : findingsOf (heap.walk ps).2 = reported ps := by
  induction ps generalizing heap with
  | nil => rfl
  | cons p ps ih =>
    simp only [walk_cons, findingsOf_append]
    cases p with
    | follow origin ref =>
      have he : heap.Entered (ref :: followed ps) := he
      rw [ih (he.follow origin)]
      show findingsOf (heap.followReference origin ref).2 ++ _ = _
      rw [findingsOf_followReference_of_resolves (he.resolves ref List.mem_cons_self)
        (he.fresh ref List.mem_cons_self)]
      rfl
    | report f =>
      show [f] ++ findingsOf (heap.walk ps).2 = _
      rw [ih he]
      rfl
    | consult name => exact ih he

theorem resolves_of_notes {heap : Heap} (origin : Origin) {ref : Reference}
    (hn : ∀ f ∈ findingsOf (heap.followReference origin ref).2, f.severity = .note) :
    heap.Resolves ref ∧ heap.Unreached ref := by
  rw [findingsOf_followReference] at hn
  obtain ⟨f, hf, -, hi⟩ | ⟨b, hb, -, hg, hc⟩ := heap.resolve_eq origin ref
  · rw [hf] at hn
    have := hn f (by simp)
    cases f <;> simp_all [Finding.isFault, Finding.severity]
  · refine ⟨⟨b, hg, hc⟩, ?_⟩
    intro hown c hc'
    rw [hg] at hc'
    cases hc'
    rw [hb] at hn
    simp only [sharedOwner] at hn
    by_contra hv
    rw [if_pos ⟨hown, by simpa using hv⟩] at hn
    have := hn _ (List.mem_singleton.2 rfl)
    simp [Finding.severity] at this

/-- A walk that finds nothing worse than a note met neither of the two faults. -/
theorem entered_of_notes {heap : Heap} {ps : List Probe}
    (hn : ∀ f ∈ findingsOf (heap.walk ps).2, f.severity = .note) :
    heap.Entered (followed ps) := by
  induction ps generalizing heap with
  | nil => exact entered_nil heap
  | cons p ps ih =>
    simp only [walk_cons, findingsOf_append, List.mem_append] at hn
    have hrest := ih fun f hf => hn f (.inr hf)
    cases p with
    | follow origin ref =>
      obtain ⟨hr, hu⟩ := resolves_of_notes origin fun f hf => hn f (.inl hf)
      exact entered_of_follow hr hu hrest
    | report f => exact hrest
    | consult name => exact hrest

end Heap

end HeapAudit
