import HeapAudit.Audit.Report
import HeapAudit.Proofs.Audit.Following
import HeapAudit.Proofs.Heap.Stock

/-!
A full pass phase by phase. Clearing the scratch first makes no difference to what the pass follows,
so everything can be said about the engine the pass was given.

Main statements
* `Engine.reported_probes`: what a pass says of the blocks as it gets to them.
* `Engine.get?_audit`: every block after a pass.
* `Engine.findings_audit`: the findings of a pass are those of its phases, in order.
-/

namespace HeapAudit

/-! ## Payloads decide what is followed -/

theorem Heap.payload?_clearScratch (heap : Heap) : heap.clearScratch.payload? = heap.payload? := by
  funext h
  unfold Heap.payload? Heap.clearScratch
  rw [Heap.get?_mapBlocks]
  cases heap.get? h <;> rfl

theorem Heap.payload?_update (f : Block → Block) (hf : ∀ b, (f b).payload = b.payload)
    (heap : Heap) (h : Handle) : (heap.update h f).payload? = heap.payload? := by
  funext k
  unfold Heap.payload?
  rw [Heap.get?_update]
  by_cases hk : k = h
  · rw [if_pos hk, Option.map_map, hk]
    simp only [Function.comp_def, hf]
  · rw [if_neg hk]

section Congruence

variable {heap other : Heap}

theorem programOf?_congr (hp : heap.payload? = other.payload?) :
    heap.programOf? = other.programOf? := by
  funext ob
  unfold Heap.programOf?
  rw [hp]

theorem Closure.pinned?_congr (hp : heap.payload? = other.payload?) (c : Closure) :
    c.pinned? heap = c.pinned? other := by
  unfold Closure.pinned?
  rw [programOf?_congr hp]

theorem sentenceReferences_congr (hp : heap.payload? = other.payload?) :
    sentenceReferences heap = sentenceReferences other := by
  funext h
  unfold sentenceReferences
  rw [hp]

theorem sessionReferences_congr (hp : heap.payload? = other.payload?) :
    sessionReferences heap = sessionReferences other := by
  have hr : redirectReferences heap = redirectReferences other := by
    funext r
    unfold redirectReferences
    rw [hp]
  funext h
  unfold sessionReferences
  rw [hp, hr]

theorem callOutReferences_congr (hp : heap.payload? = other.payload?) :
    callOutReferences heap = callOutReferences other := by
  funext h
  unfold callOutReferences
  rw [hp]

theorem Roots.references_congr (hp : heap.payload? = other.payload?) (r : Roots)
    (failString : Option Handle) :
    r.references heap failString = r.references other failString := by
  unfold Roots.references
  rw [sessionReferences_congr hp, callOutReferences_congr hp]

theorem Heap.objectName?_congr (hp : heap.payload? = other.payload?) :
    heap.objectName? = other.objectName? := by
  funext h
  unfold Heap.objectName? Heap.ownText?
  rw [hp]

theorem Heap.stringText?_congr (hp : heap.payload? = other.payload?) :
    heap.stringText? = other.stringText? := by
  funext h
  unfold Heap.stringText?
  rw [hp]

theorem Heap.renderWith_congr (hp : heap.payload? = other.payload?) :
    heap.renderWith = other.renderWith := by
  funext slotsText v
  cases v with
  | ref kind h =>
    cases kind <;>
      simp only [Heap.renderWith, Heap.renderString, Heap.slots?, Heap.objectName?_congr hp, hp]
  | _ => rfl

theorem Heap.renderValue_congr (hp : heap.payload? = other.payload?) (depth : Nat) :
    heap.renderValue depth = other.renderValue depth := by
  induction depth with
  | zero => simp only [Heap.renderValue, Heap.renderWith_congr hp]
  | succ depth ih => simp only [Heap.renderValue, Heap.renderWith_congr hp, ih]

/-- The scratch of a block has no part in how it is named. -/
theorem describe_congr (hp : heap.payload? = other.payload?) (b : Block) (s : Scratch) :
    describe heap { b with scratch := s } = describe other b := by
  unfold describe
  simp only [Heap.stringText?_congr hp, Heap.objectName?_congr hp]

theorem shownContents_congr (hp : heap.payload? = other.payload?) (depth : Nat) (b : Block)
    (s : Scratch) :
    shownContents heap depth { b with scratch := s } = shownContents other depth b := by
  unfold shownContents Heap.renderItems
  simp only [Heap.renderValue_congr hp]

/-- What is said of a block after the walk depends on the payloads of the others alone. -/
theorem verifyBlock_congr (hp : heap.payload? = other.payload?) (depth : Nat) (h : Handle)
    (b : Block) : verifyBlock heap depth h b = verifyBlock other depth h b := by
  have hd : describe heap b = describe other b := describe_congr hp b b.scratch
  have hs : shownContents heap depth b = shownContents other depth b :=
    shownContents_congr hp depth b b.scratch
  have ho : describeOrphan heap b = describeOrphan other b := by
    unfold describeOrphan describeCallee
    simp only [Heap.stringText?_congr hp, Heap.objectName?_congr hp]
  unfold verifyBlock exemptEvents countFindings pinFindings markFindings
  rw [hd, hs, ho]

/-- The scratch of a block has no part in what it shows. -/
theorem blockProbes_congr (hp : heap.payload? = other.payload?) (listed : Handle → Bool)
    (h : Handle) (b : Block) (s : Scratch) :
    Engine.blockProbes heap listed h { b with scratch := s } =
      Engine.blockProbes other listed h b := by
  unfold Engine.blockProbes
  cases b.payload with
  | mapping table =>
    simp only [mappingReferences, tableReferences]
    rw [hp]
  | closure c => simp only [Closure.references, c.pinned?_congr hp]
  | object ob =>
    simp only [Engine.objectProbes, Object.references, Heap.ownText?, sentenceReferences_congr hp,
      Heap.objectName?_congr hp, hp]
  | _ => rfl

end Congruence

namespace Engine

/-! ## The engine a pass works on -/

/-- The engine once a pass has cleared the scratch. -/
def cleared (e : Engine) : Engine := e.setHeap e.heap.clearScratch

/-- Everything a full pass goes through after the totals. -/
def probes (e : Engine) : List Probe := e.rootProbes ++ e.scanProbes

/-- The heap once everything was followed. -/
def recounted (e : Engine) : Heap := (e.cleared.heap.walk e.probes).1

theorem entries_cleared (e : Engine) :
    e.cleared.heap.entries = e.heap.entries.map fun p => (p.1, { p.2 with scratch := {} }) :=
  Heap.entries_mapBlocks _ _

theorem get?_cleared (e : Engine) (h : Handle) :
    e.cleared.heap.get? h = (e.heap.get? h).map fun b => { b with scratch := {} } :=
  Heap.get?_mapBlocks _ _ _

theorem payload?_cleared (e : Engine) : e.cleared.heap.payload? = e.heap.payload? :=
  e.heap.payload?_clearScratch

theorem rootProbes_cleared (e : Engine) : e.cleared.rootProbes = e.rootProbes := by
  unfold rootProbes
  rw [Roots.references_congr e.payload?_cleared]
  rfl

theorem scanProbes_cleared (e : Engine) : e.cleared.scanProbes = e.scanProbes := by
  unfold scanProbes
  rw [entries_cleared, List.flatMap_map]
  exact List.flatMap_congr fun p _ => blockProbes_congr e.payload?_cleared _ _ _ _

theorem probes_cleared (e : Engine) : e.cleared.probes = e.probes := by
  rw [probes, probes, rootProbes_cleared, scanProbes_cleared]

/-! ## What is said on the way -/

/-- What a pass has to say of a block when it gets to it: sizes, programs and lists. -/
def blockReports (e : Engine) (h : Handle) (b : Block) : List Finding :=
  match b.payload with
  | .slots items => sizeFindings b items
  | .object ob =>
    (if ob.program.isNone then [.swapped ((e.heap.ownText? ob.name).getD "<unnamed>")] else [])
      ++ if e.isListed h then [] else [.notInObjectList ((e.heap.objectName? h).getD "<unnamed>")]
  | _ => []

theorem reported_map_follow (origin : Origin) (refs : List Reference) :
    reported (refs.map (.follow origin)) = [] := by
  simp [reported, Probe.report?]

theorem reported_blockProbes (e : Engine) (h : Handle) (b : Block) :
    reported (blockProbes e.heap e.isListed h b) = e.blockReports h b := by
  unfold blockProbes blockReports
  cases b.payload with
  | slots items =>
    have hr : ∀ fs : List Finding, reported (fs.map .report) = fs := by
      intro fs
      simp [reported, Function.comp_def, Probe.report?]
    simp [hr, reported_map_follow]
  | object ob =>
    simp only [reported_append, objectProbes]
    cases ob.program with
    | none =>
      simp only [reported_report, reported_map_follow]
      split <;> rfl
    | some program =>
      simp only [reported_follow, reported_map_follow]
      split <;> rfl
  | mapping | closure | program | identTable => simp [reported_map_follow]
  | _ => rfl

theorem rootProbes_eq (e : Engine) :
    e.rootProbes =
      ((e.roots.references e.heap e.defaultFailString?).map fun entry =>
        .follow (.root entry.1) entry.2) ++ e.providers.flatMap providerProbes :=
  rfl

theorem scanProbes_eq (e : Engine) :
    e.scanProbes = e.heap.entries.flatMap fun p => blockProbes e.heap e.isListed p.1 p.2 :=
  rfl

theorem reported_probes (e : Engine) :
    reported e.probes = e.heap.entries.flatMap fun p => e.blockReports p.1 p.2 := by
  have hproviders : reported (e.providers.flatMap providerProbes) = [] := by
    rw [reported_flatMap, List.flatMap_eq_nil_iff]
    intro p _
    simp [providerProbes, reported, Probe.report?]
  have hroots : reported e.rootProbes = [] := by
    rw [rootProbes_eq, reported_append, hproviders]
    simp [reported, Probe.report?]
  rw [probes, reported_append, hroots, List.nil_append, scanProbes_eq, reported_flatMap]
  simp only [reported_blockProbes]

/-! ## What is left of a pass -/

theorem get?_recounted (e : Engine) (h : Handle) :
    e.recounted.get? h =
      (e.heap.get? h).map fun b =>
        { b with scratch := Scratch.after {} (followed e.probes) h b.category } := by
  rw [recounted, Heap.get?_walk, get?_cleared, Option.map_map]
  rfl

theorem payload?_recounted (e : Engine) : e.recounted.payload? = e.heap.payload? := by
  funext h
  unfold Heap.payload?
  rw [get?_recounted, Option.map_map]
  rfl

theorem walkAll_cleared (e : Engine) : e.cleared.walkAll.1 = e.recounted := by
  rw [recounted, ← probes_cleared, probes, Heap.walk_append]
  simp only [walkAll]

/-- A full pass without its shortcuts. -/
theorem audit_full (e : Engine) (verbose : Bool) :
    e.audit ⟨verbose, false⟩ =
      (e.setHeap e.recounted.clearVisited,
       finishPass ⟨verbose, false⟩ e.cleared.heap.census e.cleared.heap.live
        (e.cleared.resetEvents ⟨verbose, false⟩ ++ e.cleared.reconcileEvents e.cleared.heap.census
          ++ e.cleared.walkAll.2
          ++ .phase .verify :: verifyEvents e.recounted e.settings.renderDepth)) := by
  rw [← walkAll_cleared]
  unfold audit
  simp only [Bool.false_eq_true, if_false]
  rfl

/-- A pass leaves on every block what was counted, and no mark. -/
theorem get?_audit (e : Engine) (verbose : Bool) (h : Handle) :
    (e.audit ⟨verbose, false⟩).1.heap.get? h =
      (e.heap.get? h).map fun b =>
        { b with
          scratch :=
            { expected := (followed e.probes).count ⟨.counted, h, b.category⟩
              pins := (followed e.probes).count ⟨.pinned, h, b.category⟩
              visited := false } } := by
  rw [audit_full]
  show e.recounted.clearVisited.get? h = _
  rw [Heap.clearVisited, Heap.get?_mapBlocks, get?_recounted, Option.map_map]
  cases e.heap.get? h <;> simp [Scratch.after]

/-! ## What a pass finds -/

theorem blocks_cleared (e : Engine) :
    e.cleared.heap.blocks = e.heap.blocks.map fun b => { b with scratch := {} } := by
  rw [Heap.blocks, entries_cleared, Heap.blocks, List.map_map, List.map_map]
  rfl

theorem tally_cleared (e : Engine) (c : Category) : e.cleared.heap.tally c = e.heap.tally c := by
  refine Tally.ofBlocks_congr ?_
  rw [blocks_cleared, List.filter_map, List.map_map]
  rfl

theorem resetFindings_cleared (e : Engine) (flags : Flags) :
    resetFindings flags e.cleared.heap.blocks = resetFindings flags e.heap.blocks := by
  unfold resetFindings
  rw [blocks_cleared, List.flatMap_map]
  rfl

theorem ofBlocks_cleared (e : Engine) :
    StringTotals.ofBlocks e.cleared.heap.blocks = .ofBlocks e.heap.blocks := by
  unfold StringTotals.ofBlocks
  rw [blocks_cleared, List.foldl_map]
  rfl

theorem findingsOf_phase (p : Phase) (events : List Event) :
    findingsOf (.phase p :: events) = findingsOf events := rfl

theorem findingsOf_finished (blocks findings : Nat) :
    findingsOf [.finished blocks findings] = [] := rfl

/-- The events of the two walks, one after the other. -/
theorem findingsOf_walkAll_cleared (e : Engine) :
    findingsOf e.cleared.walkAll.2 = findingsOf (e.cleared.heap.walk e.probes).2 := by
  rw [← probes_cleared, probes, Heap.walk_append, findingsOf_append]
  simp only [walkAll]
  rw [findingsOf_append, findingsOf_phase, findingsOf_phase]

theorem census_cleared (e : Engine) : e.cleared.heap.census = e.heap.census := by
  have hslots : e.cleared.heap.slots.size = e.heap.slots.size := Array.size_map
  have hfree : e.cleared.heap.free = e.heap.free := rfl
  have hentry : e.cleared.heap.tallyEntry = e.heap.tallyEntry := by
    funext c
    rw [Heap.tallyEntry, Heap.tallyEntry, tally_cleared]
  have htotal : Tally.ofBlocks e.cleared.heap.blocks = .ofBlocks e.heap.blocks := by
    refine Tally.ofBlocks_congr ?_
    rw [blocks_cleared, List.map_map]
    rfl
  simp only [Heap.census, hslots, hfree, hentry, htotal]

theorem live_cleared (e : Engine) : e.cleared.heap.live = e.heap.live := by
  rw [Heap.live, entries_cleared, List.length_map]
  rfl

theorem resetEvents_cleared (e : Engine) (flags : Flags) :
    e.cleared.resetEvents flags = e.resetEvents flags := by
  rw [resetEvents, resetFindings_cleared]
  rfl

theorem reconcileEvents_cleared (e : Engine) (census : Census) :
    e.cleared.reconcileEvents census = e.reconcileEvents census := by
  have hs : stringFindings e.cleared = stringFindings e := by
    unfold stringFindings
    rw [ofBlocks_cleared]
    rfl
  rw [reconcileEvents, hs]
  rfl

/-- A reset-only pass is over after its first phase. -/
theorem audit_resetOnly (e : Engine) (verbose : Bool) :
    e.audit ⟨verbose, true⟩ =
      (e.cleared, finishPass ⟨verbose, true⟩ e.heap.census e.heap.live
        (e.resetEvents ⟨verbose, true⟩)) := by
  rw [← census_cleared, ← live_cleared, ← resetEvents_cleared]
  rfl

/-- What a full pass says, of the engine it was given. -/
theorem pass_audit_full (e : Engine) (verbose : Bool) :
    (e.audit ⟨verbose, false⟩).2 =
      finishPass ⟨verbose, false⟩ e.heap.census e.heap.live
        (e.resetEvents ⟨verbose, false⟩ ++ e.reconcileEvents e.heap.census ++ e.cleared.walkAll.2
          ++ .phase .verify :: verifyEvents e.recounted e.settings.renderDepth) := by
  rw [audit_full, census_cleared, live_cleared, resetEvents_cleared, reconcileEvents_cleared]

/-- The findings of a full pass: the blocks by themselves, the totals, the walk, the comparison. -/
theorem findings_audit (e : Engine) (verbose : Bool) :
    (e.audit ⟨verbose, false⟩).2.report.findings =
      resetFindings ⟨verbose, false⟩ e.heap.blocks
        ++ (ceilingFindings e.heap.census e.settings.ceilings ++ gaugeFindings e e.heap.census
          ++ stringFindings e)
        ++ findingsOf (e.cleared.heap.walk e.probes).2
        ++ findingsOf (verifyEvents e.recounted e.settings.renderDepth) := by
  rw [pass_audit_full, Pass.report, Pass.findings, finishPass]
  simp only [findingsOf_append, resetEvents, reconcileEvents, findingsOf_phase,
    findingsOf_finished, findingsOf_map_finding, findingsOf_walkAll_cleared, List.append_nil]

/-- The comparison goes over the blocks in slot order. -/
theorem findingsOf_verifyEvents (e : Engine) (depth : Nat) :
    findingsOf (verifyEvents e.recounted depth) =
      e.heap.entries.flatMap fun p =>
        findingsOf (verifyBlock e.recounted depth p.1
          { p.2 with scratch := Scratch.after {} (followed e.probes) p.1 p.2.category }) := by
  rw [verifyEvents, findingsOf_flatMap, Heap.entries_eq_map e.get?_recounted, List.flatMap_map]

/-- The comparison is part of the pass. -/
theorem mem_events_of_verify {e : Engine} (verbose : Bool) {event : Event}
    (hv : event ∈ verifyEvents e.recounted e.settings.renderDepth) :
    event ∈ (e.audit ⟨verbose, false⟩).2.events := by
  rw [audit_full]
  simp only [finishPass, List.mem_append, List.mem_cons]
  exact .inl (.inr (.inr hv))

theorem mem_findings_of_verify {e : Engine} (verbose : Bool) {f : Finding}
    (hv : .finding f ∈ verifyEvents e.recounted e.settings.renderDepth) :
    f ∈ (e.audit ⟨verbose, false⟩).2.report.findings := by
  rw [findings_audit]
  exact List.mem_append_right _ (List.mem_filterMap.2 ⟨.finding f, hv, rfl⟩)

end Engine

end HeapAudit
