import HeapAudit.Audit.Trace
import HeapAudit.Proofs.Audit.Recount

/-!
What a walk says while it follows references. A root reference is announced whether or not it
resolves, and what is wrong with it is said before the next one is announced.

Main definitions
* `Engine.rootReferences`: the references of the roots in the order they are followed.
* `Heap.rootEvents`: what is said while they are followed.
* `Probe.Voices`: what following one probe can say.

Main statements
* `Engine.recorded_walk_rootProbes`: the walk over the roots, as it is recorded.
* `Engine.walk_scanProbes`: the walk over the blocks announces nothing.
-/

namespace HeapAudit

/-! ## Events of one kind -/

def Event.phase? : Event → Option Phase
  | .phase p => some p
  | _ => none

def Event.root? : Event → Option (RootKind × Handle)
  | .root kind target => some (kind, target)
  | _ => none

/-- A block was skipped as exempt. -/
def Finding.isExemption : Finding → Bool
  | .exempt .. => true
  | _ => false

theorem eq_map_findingsOf {events : List Event} (he : ∀ event ∈ events, ∃ f, event = .finding f) :
    events = (findingsOf events).map .finding := by
  induction events with
  | nil => rfl
  | cons event events ih =>
    obtain ⟨f, rfl⟩ := he event List.mem_cons_self
    exact congrArg (.finding f :: ·) (ih fun other ho => he other (List.mem_cons_of_mem _ ho))

/-! ## One probe -/

/-- What following a probe can say: nothing but root references and findings, and of exemptions
only what the probe itself has to report. -/
inductive Probe.Voices : Probe → Event → Prop
  | announced (kind : RootKind) (ref : Reference) :
    Voices (.follow (.root kind) ref) (.root kind ref.target)
  | found {origin : Origin} {ref : Reference} {f : Finding} (hf : ¬ f.isExemption) :
    Voices (.follow origin ref) (.finding f)
  | reported (f : Finding) : Voices (.report f) (.finding f)
  | consulted (name : String) : Voices (.consult name) (.consult name)

namespace Heap

theorem voices_of_mem_follow {heap : Heap} {p : Probe} {event : Event}
    (he : event ∈ (heap.follow p).2) : p.Voices event := by
  cases p with
  | report f =>
    rw [List.mem_singleton.1 he]
    exact .reported f
  | consult name =>
    rw [List.mem_singleton.1 he]
    exact .consulted name
  | follow origin ref =>
    have hann : event ∈ announce origin ref.target → (Probe.follow origin ref).Voices event := by
      intro ha
      cases origin with
      | root kind =>
        rw [List.mem_singleton.1 ha]
        exact .announced kind ref
      | block h category => cases ha
    change event ∈ (heap.followReference origin ref).2 at he
    unfold followReference at he
    obtain ⟨f, hr, -, hfault⟩ | ⟨b, hr, -⟩ := heap.resolve_eq origin ref
    · rw [hr] at he
      rcases List.mem_append.1 he with ha | hf
      · exact hann ha
      · rw [List.mem_singleton.1 hf]
        refine .found ?_
        cases f <;> simp_all [Finding.isFault, Finding.isExemption]
    · rw [hr] at he
      rcases List.mem_append.1 he with ha | hs
      · exact hann ha
      · obtain ⟨f, hf, rfl⟩ := List.mem_map.1 hs
        unfold sharedOwner at hf
        split at hf
        · rw [List.mem_singleton.1 hf]
          exact .found (by simp [Finding.isExemption])
        · cases hf

theorem voices_of_mem_walk {heap : Heap} {ps : List Probe} {event : Event}
    (he : event ∈ (heap.walk ps).2) : ∃ p ∈ ps, p.Voices event := by
  induction ps generalizing heap with
  | nil => cases he
  | cons p ps ih =>
    rw [Heap.walk_cons] at he
    rcases List.mem_append.1 he with hp | hrest
    · exact ⟨p, List.mem_cons_self, voices_of_mem_follow hp⟩
    · obtain ⟨q, hq, hv⟩ := ih hrest
      exact ⟨q, List.mem_cons_of_mem _ hq, hv⟩

/-! ## Root references -/

/-- What is wrong with a reference that is followed after others: it does not resolve, or it owns
what one of the others owns. -/
def ownFinding? (heap : Heap) (earlier : List Reference) (origin : Origin) (ref : Reference) :
    Option Finding :=
  match heap.resolve origin ref with
  | .error f => some f
  | .ok b =>
    if ref.hold = .owned ∧ ref ∈ earlier then
      some (.multipleOwners ref.expected b.description origin)
    else none

/-- Every reference is announced, then comes what is wrong with it. -/
def rootEvents (heap : Heap) (earlier : List Reference) : List (RootKind × Reference) → List Event
  | [] => []
  | (kind, ref) :: rest =>
    .root kind ref.target :: (heap.ownFinding? earlier (.root kind) ref).toList.map .finding
      ++ heap.rootEvents (earlier ++ [ref]) rest

/-- What does not look at findings sees nothing in them. -/
theorem filterMap_findings {α : Type} {f : Event → Option α}
    (hf : ∀ g, f (.finding g) = none) (fs : List Finding) :
    (fs.map Event.finding).filterMap f = [] := by
  simp [List.filterMap_map, hf]

theorem filterMap_root?_rootEvents (heap : Heap) (earlier : List Reference)
    (refs : List (RootKind × Reference)) :
    (heap.rootEvents earlier refs).filterMap Event.root? = refs.map fun r => (r.1, r.2.target) := by
  induction refs generalizing earlier with
  | nil => rfl
  | cons r refs ih =>
    obtain ⟨kind, ref⟩ := r
    rw [rootEvents, List.filterMap_append, List.filterMap_cons, filterMap_findings fun _ => rfl, ih]
    rfl

theorem filterMap_phase?_rootEvents (heap : Heap) (earlier : List Reference)
    (refs : List (RootKind × Reference)) :
    (heap.rootEvents earlier refs).filterMap Event.phase? = [] := by
  induction refs generalizing earlier with
  | nil => rfl
  | cons r refs ih =>
    rw [rootEvents, List.filterMap_append, List.filterMap_cons, filterMap_findings fun _ => rfl, ih]
    rfl

/-- `heap` is `start` once the references were followed, whatever was noted on it before. -/
def Noted (start heap : Heap) (earlier : List Reference) : Prop :=
  ∀ h, heap.get? h =
    (start.get? h).map fun b => { b with scratch := Scratch.after {} earlier h b.category }

theorem noted_clearScratch (start : Heap) : Noted start start.clearScratch [] := by
  intro h
  rw [clearScratch, get?_mapBlocks]
  simp

theorem Noted.follow {start heap : Heap} {earlier : List Reference}
    (hn : Noted start heap earlier) (p : Probe) :
    Noted start (heap.follow p).1 (earlier ++ followed [p]) := by
  intro h
  rw [get?_follow, hn, Option.map_map]
  simp only [Function.comp_def, Scratch.after_append]

theorem Noted.events_follow {start heap : Heap} {earlier : List Reference}
    (hn : Noted start heap earlier) (kind : RootKind) (ref : Reference) :
    (heap.follow (.follow (.root kind) ref)).2 =
      .root kind ref.target
        :: (start.ownFinding? earlier (.root kind) ref).toList.map .finding := by
  show (heap.followReference (.root kind) ref).2 = _
  unfold followReference ownFinding? resolve
  rw [hn ref.target]
  cases start.get? ref.target with
  | none => rfl
  | some b =>
    by_cases hc : b.category = ref.expected
    · obtain ⟨hold, target, expected⟩ := ref
      subst hc
      cases hold <;> simp [sharedOwner, Scratch.after, announce]
      split <;> rfl
    · simp [hc, announce]

end Heap

/-! ## Recordings of walks -/

theorem recorded_append (events more : List Event) :
    recorded none (events ++ more) = recorded none events ++ recorded none more :=
  List.filter_append ..

theorem recorded_findings (fs : List Finding) :
    recorded none (fs.map .finding) = fs.map .finding := by
  simp [recorded, Event.isRecorded]

/-- The root reference a probe follows. -/
def Probe.rooted? : Probe → Option (RootKind × Reference)
  | .follow (.root kind) ref => some (kind, ref)
  | _ => none

/-- References of roots are followed and providers consulted, in any order. -/
theorem Heap.Noted.recorded_walk {start heap : Heap} {earlier : List Reference}
    (hn : Noted start heap earlier) {ps : List Probe}
    (hps : ∀ p ∈ ps, p.rooted?.isSome ∨ ∃ name, p = .consult name) :
    recorded none (heap.walk ps).2 = start.rootEvents earlier (ps.filterMap Probe.rooted?) := by
  induction ps generalizing heap earlier with
  | nil => rfl
  | cons p ps ih =>
    have hrest := ih (hn.follow p) fun q hq => hps q (List.mem_cons_of_mem _ hq)
    rw [Heap.walk_cons, recorded_append, hrest]
    cases p with
    | follow origin ref =>
      cases origin with
      | root kind =>
        have hfirst : ∀ fs : List Finding,
            recorded none (.root kind ref.target :: fs.map .finding) =
              .root kind ref.target :: fs.map .finding := by
          intro fs
          simp [recorded, Event.isRecorded]
        rw [hn.events_follow, hfirst]
        rfl
      | block h category =>
        obtain hr | ⟨name, hname⟩ := hps _ List.mem_cons_self
        · cases hr
        · cases hname
    | report f =>
      obtain hr | ⟨name, hname⟩ := hps _ List.mem_cons_self
      · cases hr
      · cases hname
    | consult name =>
      show [] ++ start.rootEvents (earlier ++ []) _ = _
      rw [List.append_nil]
      rfl

namespace Engine

/-- The references of the roots in the order they are followed, those of the providers last. -/
def rootReferences (e : Engine) : List (RootKind × Reference) :=
  e.roots.references e.heap e.defaultFailString?
    ++ e.providers.flatMap fun p => p.holdings.map fun h => (.external, h.reference)

theorem filterMap_rooted?_rootProbes (e : Engine) :
    e.rootProbes.filterMap Probe.rooted? = e.rootReferences := by
  have hfollow : ∀ refs : List (RootKind × Reference),
      (refs.map fun r => Probe.follow (.root r.1) r.2).filterMap Probe.rooted? = refs := by
    intro refs
    simp [List.filterMap_map, Function.comp_def, Probe.rooted?]
  have hprovider : ∀ p : Provider, (providerProbes p).filterMap Probe.rooted? =
      p.holdings.map fun h => (.external, h.reference) := by
    intro p
    show (p.holdings.map _).filterMap _ = _
    simp [List.filterMap_map, Function.comp_def, Probe.rooted?]
  rw [rootProbes_eq, List.filterMap_append, hfollow, List.filterMap_flatMap]
  simp only [hprovider]
  rfl

theorem rooted_of_mem_rootProbes {e : Engine} {p : Probe} (hp : p ∈ e.rootProbes) :
    p.rooted?.isSome ∨ ∃ name, p = .consult name := by
  rw [rootProbes_eq] at hp
  rcases List.mem_append.1 hp with hr | hx
  · obtain ⟨r, -, rfl⟩ := List.mem_map.1 hr
    exact .inl rfl
  · obtain ⟨provider, -, hmem⟩ := List.mem_flatMap.1 hx
    rcases List.mem_cons.1 hmem with rfl | hmem
    · exact .inr ⟨_, rfl⟩
    · obtain ⟨holding, -, rfl⟩ := List.mem_map.1 hmem
      exact .inl rfl

/-- The roots are announced one by one, each with what is wrong with it. -/
theorem recorded_walk_rootProbes (e : Engine) :
    recorded none (e.cleared.heap.walk e.rootProbes).2 = e.heap.rootEvents [] e.rootReferences := by
  rw [← filterMap_rooted?_rootProbes]
  exact (Heap.noted_clearScratch e.heap).recorded_walk fun p hp => rooted_of_mem_rootProbes hp

/-! ## The walk over the blocks -/

theorem origin_of_mem_scanProbes {e : Engine} {p : Probe} (hp : p ∈ e.scanProbes) :
    (∃ h category ref, p = .follow (.block h category) ref) ∨ ∃ f, p = .report f := by
  obtain ⟨⟨h, b⟩, -, hb⟩ := List.mem_flatMap.1 hp
  have hfollow : ∀ refs : List Reference, p ∈ refs.map (.follow (.block h b.category)) →
      (∃ h category ref, p = .follow (.block h category) ref) ∨ ∃ f, p = .report f := by
    intro refs hm
    obtain ⟨ref, -, rfl⟩ := List.mem_map.1 hm
    exact .inl ⟨_, _, _, rfl⟩
  change p ∈ blockProbes e.heap e.isListed h b at hb
  unfold blockProbes at hb
  cases hpay : b.payload with
  | slots items =>
    rw [hpay] at hb
    rcases List.mem_append.1 hb with hs | hf
    · obtain ⟨f, -, rfl⟩ := List.mem_map.1 hs
      exact .inr ⟨f, rfl⟩
    · exact hfollow _ hf
  | object ob =>
    rw [hpay] at hb
    rcases List.mem_append.1 hb with ho | hl
    · rcases List.mem_cons.1 ho with hprogram | hf
      · cases hprog : ob.program <;> rw [hprog] at hprogram
        · exact .inr ⟨_, hprogram⟩
        · exact .inl ⟨_, _, _, hprogram⟩
      · exact hfollow _ hf
    · split at hl
      · cases hl
      · exact .inr ⟨_, List.mem_singleton.1 hl⟩
  | mapping | closure | program | identTable =>
    rw [hpay] at hb
    exact hfollow _ hb
  | _ =>
    rw [hpay] at hb
    cases hb

/-- From the blocks nothing is announced: a walk over them leaves findings alone. -/
theorem walk_scanProbes (e : Engine) (heap : Heap) :
    (heap.walk e.scanProbes).2 = (findingsOf (heap.walk e.scanProbes).2).map .finding := by
  refine eq_map_findingsOf fun event he => ?_
  obtain ⟨p, hp, hv⟩ := Heap.voices_of_mem_walk he
  obtain ⟨h, category, ref, rfl⟩ | ⟨f, rfl⟩ := origin_of_mem_scanProbes hp
  · cases hv with
    | found hf => exact ⟨_, rfl⟩
  · cases hv with
    | reported => exact ⟨f, rfl⟩

end Engine

end HeapAudit
