import HeapAudit.Proofs.Audit.FullPass
import HeapAudit.Proofs.Audit.Pins
import Mathlib.Data.List.Perm.Basic

/-!
A full pass counts exactly what is enumerated.

Main statements
* `Engine.followedFrom_perm`: a pass follows the enumerated references, each once.
* `Engine.faults_audit`: the references that do not resolve are found, each once.
* `Engine.recount_exact`: the counts a pass leaves behind are those of the enumeration.
-/

namespace HeapAudit

/-! ## References with their origins -/

def Probe.followed? : Probe → Option (Origin × Reference)
  | .follow origin ref => some (origin, ref)
  | .report _ | .consult _ => none

/-- The references among the probes, with where they come from. -/
def followedFrom (ps : List Probe) : List (Origin × Reference) := ps.filterMap Probe.followed?

theorem followedFrom_append (ps qs : List Probe) :
    followedFrom (ps ++ qs) = followedFrom ps ++ followedFrom qs :=
  List.filterMap_append

theorem followedFrom_flatMap {α : Type} (xs : List α) (f : α → List Probe) :
    followedFrom (xs.flatMap f) = xs.flatMap fun x => followedFrom (f x) :=
  List.filterMap_flatMap

theorem followedFrom_follow (origin : Origin) (refs : List Reference) :
    followedFrom (refs.map (.follow origin)) = refs.map (origin, ·) := by
  simp [followedFrom, List.filterMap_map, Function.comp_def, Probe.followed?]

theorem followedFrom_report (fs : List Finding) : followedFrom (fs.map .report) = [] := by
  simp [followedFrom, List.filterMap_map, Function.comp_def, Probe.followed?]

theorem followed_eq_map (ps : List Probe) : followed ps = (followedFrom ps).map (·.2) := by
  unfold followed followedFrom
  rw [List.map_filterMap]
  refine List.filterMap_congr fun p _ => ?_
  cases p <;> rfl

/-! ## What a block shows -/

theorem Sentence.references_perm (s : Sentence) : s.references.Perm s.held :=
  (List.perm_append_singleton _ _).symm

theorem Closure.references_perm (heap : Heap) (c : Closure) :
    (c.references heap).Perm (c.held heap) :=
  List.perm_append_comm.append_right _

theorem Program.references_perm (p : Program) : p.references.Perm p.held := by
  refine List.perm_iff_count.2 fun r => ?_
  simp only [Program.references, Program.held, Reference.sharedStrings, List.map_append,
    List.count_append, List.cons_append, List.count_cons, List.count_nil]
  omega

theorem IdentTable.references_eq (t : IdentTable) : t.references = t.held := by
  unfold IdentTable.references IdentTable.held
  generalize t.entries = entries
  induction entries with
  | nil => rfl
  | cons entry entries ih =>
    cases hp : entry.kind.isPermanent with
    | false => simpa [hp] using ih
    | true => cases hb : entry.block <;> simp [hp, hb, ih]

theorem sentenceReferences_perm (heap : Heap) (h : Handle) :
    (sentenceReferences heap h).Perm ((heap.sentenceOf? h).elim [] Sentence.held) := by
  unfold sentenceReferences Heap.sentenceOf?
  cases (heap.payload? h).bind Payload.sentence? with
  | none => exact .refl _
  | some s => exact s.references_perm

theorem tableReferences_eq (heap : Heap) (table : Handle) :
    tableReferences heap table = (heap.nodesOf table).flatMap fun node =>
      .owned node .mapNode :: Reference.ofValues (heap.pairOf node) := by
  unfold tableReferences Heap.nodesOf Heap.pairOf
  cases heap.payload? table with
  | none => rfl
  | some p =>
    cases p with
    | mapTable nodes =>
      refine List.flatMap_congr fun node _ => ?_
      cases heap.payload? node with
      | none => rfl
      | some q => cases q <;> rfl
    | _ => rfl

theorem mappingReferences_eq (heap : Heap) (table : Handle) :
    mappingReferences heap table = (Payload.mapping table).enumerated heap := by
  rw [mappingReferences, tableReferences_eq]
  rfl

/-- An object's program is followed first, or its absence is reported. -/
theorem followedFrom_objectProbes (heap : Heap) (origin : Origin) (ob : Object) :
    followedFrom (Engine.objectProbes heap origin ob) =
      (ob.program.toList.map (Reference.counted · .program) ++
        ob.references heap).map (origin, ·) := by
  unfold Engine.objectProbes
  cases ob.program with
  | none =>
    have hr : ∀ f ps, followedFrom (.report f :: ps) = followedFrom ps := fun _ _ => rfl
    simp [hr, followedFrom_follow]
  | some program =>
    have hf : ∀ o r ps, followedFrom (.follow o r :: ps) = (o, r) :: followedFrom ps :=
      fun _ _ _ => rfl
    simp [hf, followedFrom_follow]

theorem Object.references_perm (heap : Heap) (ob : Object) :
    (ob.program.toList.map (Reference.counted · .program) ++ ob.references heap).Perm
      ((Payload.object ob).enumerated heap) := by
  have hs : (ob.sentences.flatMap fun s => .owned s .sentence :: sentenceReferences heap s).Perm
      (ob.sentences.map (.owned · .sentence)
        ++ ob.sentences.flatMap fun s => (heap.sentenceOf? s).elim [] Sentence.held) :=
    (List.map_append_flatMap_perm _ _ _).symm.trans
      ((List.Perm.flatMap_left _ fun s _ => sentenceReferences_perm heap s).append_left _)
  refine List.perm_iff_count.2 fun r => ?_
  have hr := hs.count_eq r
  simp only [Object.references, Payload.enumerated, Object.held, List.cons_append,
    List.count_append, List.count_cons] at hr ⊢
  omega

/-- A block is asked for what it shows, in some order. -/
theorem followedFrom_blockProbes_perm (heap : Heap) (listed : Handle → Bool) (h : Handle)
    (b : Block) :
    (followedFrom (Engine.blockProbes heap listed h b)).Perm
      ((b.payload.enumerated heap).map (.block h b.category, ·)) := by
  unfold Engine.blockProbes
  cases hp : b.payload with
  | slots items =>
    simp [followedFrom_append, followedFrom_report, followedFrom_follow, Payload.enumerated]
  | mapping table => simp [followedFrom_follow, mappingReferences_eq]
  | closure c =>
    simp only [followedFrom_follow, Payload.enumerated]
    exact (c.references_perm heap).map _
  | object ob =>
    have hl : ∀ f, followedFrom (if listed h then [] else [Probe.report f]) = [] := by
      intro f
      split <;> rfl
    simp only [followedFrom_append, followedFrom_objectProbes, hl, List.append_nil]
    exact (ob.references_perm heap).map _
  | program p =>
    simp only [followedFrom_follow, Payload.enumerated]
    exact p.references_perm.map _
  | identTable t => simp [followedFrom_follow, t.references_eq, Payload.enumerated]
  | blank | text | privateText | sharedText | bytes | mapTable | mapNode | sentence | session
  | callOut => exact .refl _

/-! ## What the roots show -/

theorem redirectReferences_perm (heap : Heap) (r : Redirect) :
    (redirectReferences heap r).Perm
      (r.held heap ++ (heap.sentenceOf? r.sentence).elim [] Sentence.held) := by
  unfold redirectReferences Redirect.held Heap.sentenceOf?
  cases (heap.payload? r.sentence).bind Payload.sentence? with
  | none => simp
  | some s =>
    refine List.perm_iff_count.2 fun ref => ?_
    have hs := s.references_perm.count_eq ref
    simp only [Option.elim, Option.toList_some, List.map_cons, List.map_nil, List.cons_append,
      List.nil_append, List.count_append, List.count_cons] at hs ⊢
    omega

theorem sessionReferences_perm (heap : Heap) (h : Handle) :
    (sessionReferences heap h).Perm
      ((.session, .owned h .interactive)
        :: (heap.sessionOf? h).elim [] (Session.enumerated heap)) := by
  unfold sessionReferences Heap.sessionOf?
  cases (heap.payload? h).bind Payload.session? with
  | none => exact .refl _
  | some s =>
    refine .cons _ ?_
    unfold Session.enumerated Session.held
    simp only [Option.elim]
    cases hr : s.redirect with
    | none => simp [underRoot]
    | some r =>
      refine List.perm_iff_count.2 fun ref => ?_
      have hc := ((redirectReferences_perm heap r).map (RootKind.inputTo, ·)).count_eq ref
      simp only [underRoot, Option.elim, Option.bind_some, List.map_append, List.cons_append,
        List.count_append, List.count_cons] at hc ⊢
      omega

theorem callOutReferences_eq (heap : Heap) (h : Handle) :
    callOutReferences heap h = .owned h .callOut :: (heap.callOutOf? h).elim [] CallOut.held := by
  unfold callOutReferences Heap.callOutOf?
  cases heap.payload? h with
  | none => rfl
  | some p => cases p <;> rfl

theorem Roots.references_perm (heap : Heap) (failString : Option Handle) (r : Roots) :
    (r.references heap failString).Perm
      (r.held failString
        ++ r.sessions.flatMap (fun h =>
          (heap.sessionOf? h).elim [] (Session.enumerated heap))
        ++ underRoot .callOut
          (r.callOuts.flatMap fun h => (heap.callOutOf? h).elim [] CallOut.held)) := by
  have hs : (r.sessions.flatMap (sessionReferences heap)).Perm
      (underRoot .session (r.sessions.map (.owned · .interactive))
        ++ r.sessions.flatMap fun h =>
          (heap.sessionOf? h).elim [] (Session.enumerated heap)) := by
    rw [underRoot, List.map_map]
    exact (List.Perm.flatMap_left _ fun h _ => sessionReferences_perm heap h).trans
      (List.map_append_flatMap_perm _ _ _).symm
  have hc : (underRoot .callOut (r.callOuts.flatMap (callOutReferences heap))).Perm
      (underRoot .callOut (r.callOuts.map (.owned · .callOut))
        ++ underRoot .callOut
          (r.callOuts.flatMap fun h => (heap.callOutOf? h).elim [] CallOut.held)) := by
    rw [underRoot, underRoot, underRoot, ← List.map_append]
    refine List.Perm.map _ ?_
    refine (List.Perm.flatMap_left _ fun h _ => ?_).trans
      (List.map_append_flatMap_perm _ _ _).symm
    rw [callOutReferences_eq]
  refine List.perm_iff_count.2 fun ref => ?_
  have hs' := hs.count_eq ref
  have hc' := hc.count_eq ref
  simp only [Roots.references, Roots.held, List.count_append] at hs' hc' ⊢
  omega

namespace Engine

theorem followedFrom_rootProbes_perm (e : Engine) :
    (followedFrom e.rootProbes).Perm
      (e.rootsEnumerated.map fun entry => (.root entry.1, entry.2)) := by
  have hrefs : ∀ refs : List (RootKind × Reference),
      followedFrom (refs.map fun entry => .follow (.root entry.1) entry.2) =
        refs.map fun entry => (.root entry.1, entry.2) := by
    intro refs
    simp [followedFrom, List.filterMap_map, Function.comp_def, Probe.followed?]
  have hprovider : ∀ p : Provider, followedFrom (providerProbes p) =
      p.holdings.map fun h => (.root .external, h.reference) := by
    intro p
    show (p.holdings.map _).filterMap _ = _
    simp [List.filterMap_map, Function.comp_def, Probe.followed?]
  have hproviders : followedFrom (e.providers.flatMap providerProbes) =
      (underRoot .external (e.providers.flatMap fun p => p.holdings.map Holding.reference)).map
        fun entry => (.root entry.1, entry.2) := by
    simp [followedFrom_flatMap, hprovider, underRoot, List.map_flatMap, Function.comp_def]
  rw [rootProbes_eq, followedFrom_append, hrefs, hproviders, ← List.map_append]
  exact ((Roots.references_perm e.heap e.defaultFailString? e.roots).append_right _).map _

theorem followedFrom_scanProbes_perm (e : Engine) :
    (followedFrom e.scanProbes).Perm
      (e.heap.entries.flatMap fun p =>
        (p.2.payload.enumerated e.heap).map (.block p.1 p.2.category, ·)) := by
  rw [scanProbes_eq, followedFrom_flatMap]
  exact List.Perm.flatMap_left _ fun entry _ =>
    followedFrom_blockProbes_perm e.heap e.isListed entry.1 entry.2

/-- A pass follows the enumerated references and no others, each once. -/
theorem followedFrom_perm (e : Engine) : (followedFrom e.probes).Perm e.enumerated := by
  rw [probes, followedFrom_append, enumerated]
  exact e.followedFrom_rootProbes_perm.append e.followedFrom_scanProbes_perm

theorem followed_perm (e : Engine) : (followed e.probes).Perm (e.enumerated.map (·.2)) := by
  rw [followed_eq_map]
  exact e.followedFrom_perm.map _

end Engine

/-! ## Findings that are no faults -/

theorem of_mem_resetFindings {flags : Flags} {blocks : List Block} {f : Finding}
    (hf : f ∈ resetFindings flags blocks) :
    (∃ category description, f = .unexpected category description) ∨
      ∃ text declared actual, f = .stringLength text declared actual := by
  obtain ⟨b, -, hb⟩ := List.mem_flatMap.1 hf
  rcases List.mem_append.1 hb with ht | hl
  · unfold transientFindings at ht
    split at ht <;> simp at ht
    exact .inl ⟨_, _, ht⟩
  · unfold lengthFindings at hl
    split at hl
    · split at hl <;> simp at hl
      exact .inr ⟨_, _, _, hl⟩
    · simp at hl

theorem of_mem_gauges {e : Engine} {census : Census} {ceilings : Ceilings} {f : Finding}
    (hf : f ∈ ceilingFindings census ceilings ++ gaugeFindings e census) :
    (∃ category count ceiling, f = .cardinality category count ceiling) ∨
      (∃ gauge stored actual, f = .aggregate gauge stored actual) ∨
      ∃ tables mappings, f = .mapTables tables mappings := by
  rcases List.mem_append.1 hf with hc | hg
  · obtain ⟨⟨category, ceiling⟩, -, h⟩ := List.mem_filterMap.1 hc
    dsimp only at h
    split at h <;> simp at h
    exact .inl ⟨_, _, _, h.symm⟩
  · rcases List.mem_append.1 hg with hr | ht
    · obtain ⟨⟨gauge, stored, actual⟩, -, h⟩ := List.mem_filterMap.1 hr
      dsimp only at h
      split at h <;> simp at h
      exact .inr (.inl ⟨_, _, _, h.symm⟩)
    · unfold tableFindings at ht
      dsimp only at ht
      split at ht <;> simp at ht
      exact .inr (.inr ⟨_, _, ht⟩)

theorem of_mem_totals {e : Engine} {census : Census} {f : Finding}
    (hf : f ∈ ceilingFindings census e.settings.ceilings ++ gaugeFindings e census
      ++ stringFindings e) :
    (∃ category count ceiling, f = .cardinality category count ceiling) ∨
      (∃ gauge stored actual, f = .aggregate gauge stored actual) ∨
      (∃ tables mappings, f = .mapTables tables mappings) ∨
      ∃ gauge stored actual, f = .stringStat gauge stored actual := by
  rcases List.mem_append.1 hf with hf | hs
  · exact (of_mem_gauges hf).imp_right fun h => h.imp_right .inl
  · obtain ⟨⟨gauge, stored, actual⟩, -, h⟩ := List.mem_filterMap.1 hs
    dsimp only at h
    split at h <;> simp at h
    exact .inr (.inr (.inr ⟨_, _, _, h.symm⟩))

theorem of_mem_reported {e : Engine} {f : Finding} (hf : f ∈ reported e.probes) :
    (∃ category description recorded implied,
        f = .sizeMismatch category description recorded implied) ∨
      (∃ name, f = .swapped name) ∨ ∃ name, f = .notInObjectList name := by
  rw [Engine.reported_probes] at hf
  obtain ⟨⟨h, b⟩, -, hb⟩ := List.mem_flatMap.1 hf
  simp only [Engine.blockReports] at hb
  split at hb
  · unfold Engine.sizeFindings at hb
    split at hb
    · simp at hb
    · split at hb <;> simp at hb
      exact .inl ⟨_, _, _, _, hb⟩
  · rcases List.mem_append.1 hb with hs | hl
    · split at hs <;> simp at hs
      exact .inr (.inl ⟨_, hs⟩)
    · split at hl <;> simp at hl
      exact .inr (.inr ⟨_, hl⟩)
  · simp at hb

theorem of_mem_countFindings {heap : Heap} {depth : Nat} {b : Block} {f : Finding}
    (hf : f ∈ countFindings heap depth b) :
    ∃ category description stored expected contents,
      f = .countMismatch category description stored expected contents := by
  unfold countFindings at hf
  split at hf <;> simp at hf
  exact ⟨_, _, _, _, _, hf⟩

theorem of_mem_pinFindings {heap : Heap} {b : Block} {f : Finding} (hf : f ∈ pinFindings heap b) :
    ∃ description stored expected, f = .pinMismatch description stored expected := by
  unfold pinFindings at hf
  split at hf
  · split at hf <;> simp at hf
    exact ⟨_, _, _, hf⟩
  · simp at hf

theorem of_mem_markFindings {heap : Heap} {b : Block} {f : Finding}
    (hf : f ∈ markFindings heap b) :
    ∃ category description, f = .orphan category description ∨ f = .unexpected category description
    := by
  unfold markFindings at hf
  split at hf
  · exact ⟨_, _, .inl (List.mem_singleton.1 hf)⟩
  · split at hf <;> simp at hf
    exact ⟨_, _, .inr hf⟩

/-- After the walk a block is either skipped as exempt or told what is wrong with it. -/
theorem verifyBlock_cases (heap : Heap) (depth : Nat) (h : Handle) (b : Block) :
    verifyBlock heap depth h b = exemptEvents heap h b ∨
      ∃ fs : List Finding, verifyBlock heap depth h b = fs.map .finding ∧
        ∀ f ∈ fs, f ∈ countFindings heap depth b ∨ f ∈ pinFindings heap b ∨
          f ∈ markFindings heap b := by
  unfold verifyBlock
  split
  · split
    · exact .inl rfl
    · exact .inr ⟨_, rfl, fun f hf => (List.mem_append.1 hf).imp_right .inl⟩
  · exact .inr ⟨_, rfl, fun f hf => .inr (.inr hf)⟩

theorem not_isFault_of_mem_reset (flags : Flags) (blocks : List Block) (f : Finding)
    (hf : f ∈ resetFindings flags blocks) : ¬ f.isFault := by
  rcases of_mem_resetFindings hf with ⟨_, _, rfl⟩ | ⟨_, _, _, rfl⟩ <;> simp [Finding.isFault]

theorem not_isFault_of_mem_totals (e : Engine) (census : Census) (f : Finding)
    (hf : f ∈ ceilingFindings census e.settings.ceilings ++ gaugeFindings e census
      ++ stringFindings e) : ¬ f.isFault := by
  rcases of_mem_totals hf with ⟨_, _, _, rfl⟩ | ⟨_, _, _, rfl⟩ | ⟨_, _, rfl⟩ | ⟨_, _, _, rfl⟩ <;>
    simp [Finding.isFault]

theorem not_isFault_of_mem_verify (heap : Heap) (depth : Nat) (f : Finding)
    (hf : f ∈ findingsOf (verifyEvents heap depth)) : ¬ f.isFault := by
  obtain ⟨event, he, hfound⟩ := List.mem_filterMap.1 hf
  obtain ⟨⟨h, b⟩, -, hb⟩ := List.mem_flatMap.1 he
  change event ∈ verifyBlock heap depth h b at hb
  obtain hx | ⟨fs, hfs, hsaid⟩ := verifyBlock_cases heap depth h b
  · rw [hx] at hb
    simp only [exemptEvents, List.mem_cons, List.not_mem_nil, or_false] at hb
    rcases hb with rfl | rfl <;> simp [Event.finding?] at hfound
    simp [← hfound, Finding.isFault]
  · rw [hfs] at hb
    obtain ⟨g, hg, rfl⟩ := List.mem_map.1 hb
    cases hfound
    rcases hsaid f hg with hc | hp | hm
    · obtain ⟨_, _, _, _, _, rfl⟩ := of_mem_countFindings hc
      simp [Finding.isFault]
    · obtain ⟨_, _, _, rfl⟩ := of_mem_pinFindings hp
      simp [Finding.isFault]
    · obtain ⟨_, _, rfl | rfl⟩ := of_mem_markFindings hm <;> simp [Finding.isFault]

theorem not_isFault_of_mem_reported {e : Engine} {f : Finding} (hf : f ∈ reported e.probes) :
    ¬ f.isFault := by
  rcases of_mem_reported hf with ⟨_, _, _, _, rfl⟩ | ⟨_, rfl⟩ | ⟨_, rfl⟩ <;> simp [Finding.isFault]

/-! ## The recount -/

namespace Heap

theorem fault?_clearScratch (heap : Heap) (origin : Origin) (ref : Reference) :
    heap.clearScratch.fault? origin ref = heap.fault? origin ref := by
  unfold fault? clearScratch
  rw [get?_mapBlocks]
  cases heap.get? ref.target <;> rfl

/-- What a walk says of references is said of the references among its probes. -/
theorem filterMap_faultOf {heap : Heap} {ps : List Probe}
    (hr : ∀ f ∈ reported ps, ¬ f.isFault) :
    ps.filterMap heap.faultOf =
      (followedFrom ps).filterMap fun entry => heap.fault? entry.1 entry.2 := by
  unfold followedFrom
  rw [List.filterMap_filterMap]
  refine List.filterMap_congr fun p hp => ?_
  cases p with
  | follow origin ref => rfl
  | consult name => rfl
  | report f =>
    have hf : f ∈ reported ps := List.mem_filterMap.2 ⟨_, hp, rfl⟩
    exact if_neg (hr f hf)

end Heap

namespace Engine

/-- The dangling and miscategorised references are found once each. -/
theorem faults_audit (e : Engine) (verbose : Bool) :
    (e.audit ⟨verbose, false⟩).2.report.findings.filter Finding.isFault =
      (followedFrom e.probes).filterMap fun entry => e.heap.fault? entry.1 entry.2 := by
  have hnone : ∀ fs : List Finding, (∀ f ∈ fs, ¬ f.isFault) → fs.filter Finding.isFault = [] :=
    fun fs hfs => List.filter_eq_nil_iff.2 hfs
  have hreset := hnone _ fun f => not_isFault_of_mem_reset ⟨verbose, false⟩ e.heap.blocks f
  have htotals := hnone _ fun f => not_isFault_of_mem_totals e e.heap.census f
  have hverify := hnone _ fun f =>
    not_isFault_of_mem_verify e.recounted e.settings.renderDepth f
  have hwalk : (findingsOf (e.cleared.heap.walk e.probes).2).filter Finding.isFault =
      (followedFrom e.probes).filterMap fun entry => e.heap.fault? entry.1 entry.2 := by
    rw [Heap.faults_walk, Heap.filterMap_faultOf fun f hf => not_isFault_of_mem_reported hf]
    refine List.filterMap_congr fun entry _ => ?_
    exact e.heap.fault?_clearScratch _ _
  rw [findings_audit, List.filter_append, List.filter_append, List.filter_append, hreset, htotals,
    hwalk, hverify, List.nil_append, List.nil_append, List.append_nil]

/-- After a full pass every block carries the number of counted references that name it with its
category, every program the number of closures that pin it, and every reference that does not
resolve was found exactly once; whatever the heap looked like and whatever scratch it carried. -/
theorem recount_exact (e : Engine) (verbose : Bool) :
    (∀ h, ((e.audit ⟨verbose, false⟩).1.heap.get? h).map
        (fun b => (b.category, b.scratch.expected, b.scratch.pins)) =
      (e.heap.get? h).map fun b =>
        (b.category, (e.enumerated.map (·.2)).count (.counted h b.category),
         if b.category = .program then e.heap.pinCount h else 0)) ∧
    ((e.audit ⟨verbose, false⟩).2.report.findings.filter Finding.isFault).Perm
      (e.enumerated.filterMap fun entry => e.heap.fault? entry.1 entry.2) := by
  constructor
  · intro h
    rw [get?_audit, Option.map_map]
    refine Option.map_congr fun b _ => ?_
    simp only [Function.comp_apply, e.followed_perm.count_eq, count_pinned_enumerated]
    rfl
  · rw [faults_audit]
    exact e.followedFrom_perm.filterMap _

end Engine

end HeapAudit
