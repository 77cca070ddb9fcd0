import HeapAudit.Proofs.Audit.Story
import HeapAudit.Proofs.Engine.Totals

/-!
What a full pass makes of stored counts that were written over. Counts are compared block by block
and summed up over the strings; nothing else in a pass looks at them. So every wrong count is one
line, that line is the block's own, and no other line comes, goes or moves.

Main definitions
* `Heap.overwrite`, `lastWritten`: writing over stored counts, and what is stored then.
* `Engine.recount`: the count that a pass finds for a block.
* `Engine.countLine`: the line on a stored count.
* `Finding.readsCounts`: the findings that a stored count has a part in.

Main statements
* `Heap.Recounted.events_walk`: a walk over blocks with other counts says the same.
* `Engine.findings_overwrite`: a report before and after.
-/

namespace HeapAudit

/-! ## Writing over stored counts -/

/-- The count stored after the writes for a block that had the count `old`: the last one counts. -/
def lastWritten (writes : List (Handle × Nat)) (h : Handle) (old : Nat) : Nat :=
  (writes.reverse.lookup h).getD old

namespace Heap

/-- Writes over the stored counts of blocks, one after the other. -/
def overwrite (heap : Heap) (writes : List (Handle × Nat)) : Heap :=
  writes.foldl (fun heap w => heap.setRefs w.1 w.2) heap

/-- The same blocks with other stored counts. -/
def Recounted (count : Handle → Nat → Nat) (heap other : Heap) : Prop :=
  ∀ h, other.get? h = (heap.get? h).map fun b => { b with refs := count h b.refs }

/-- By the writes, the first one first: it is the stored count the others start from. -/
theorem recounted_overwrite (heap : Heap) (writes : List (Handle × Nat)) :
    heap.Recounted (lastWritten writes) (heap.overwrite writes) := by
  induction writes generalizing heap with
  | nil =>
    intro h
    exact Option.map_id'.symm
  | cons w ws ih =>
    obtain ⟨k, n⟩ := w
    intro h
    have hfirst : (heap.setRefs k n).get? h =
        (heap.get? h).map fun b => { b with refs := if h = k then n else b.refs } := by
      rw [setRefs, get?_update]
      by_cases hk : h = k
      · simp only [hk, if_true]
      · simp only [if_neg hk, Option.map_id']
    have hcount : ∀ old, lastWritten ws h (if h = k then n else old) =
        lastWritten ((k, n) :: ws) h old := by
      intro old
      unfold lastWritten
      rw [List.reverse_cons, List.lookup_append]
      cases ws.reverse.lookup h with
      | some m => rfl
      | none =>
        by_cases hk : h = k
        · simp [hk]
        · simp [hk, List.lookup_cons, beq_false_of_ne hk]
    show (overwrite (heap.setRefs k n) ws).get? h = _
    rw [ih, hfirst, Option.map_map]
    simp only [Function.comp_def, hcount]

variable {count : Handle → Nat → Nat} {heap other : Heap}

theorem Recounted.entries (hr : heap.Recounted count other) :
    other.entries =
      heap.entries.map fun p => (p.1, { p.2 with refs := count p.1 p.2.refs }) :=
  entries_eq_map hr

theorem Recounted.payload? (hr : heap.Recounted count other) : other.payload? = heap.payload? := by
  funext h
  unfold Heap.payload?
  rw [hr h, Option.map_map]
  rfl

/-! ## A walk looks at no count -/

theorem Recounted.follow (hr : heap.Recounted count other) (p : Probe) :
    (heap.follow p).1.Recounted count (other.follow p).1 := by
  intro h
  rw [get?_follow, get?_follow, hr h, Option.map_map, Option.map_map]
  rfl

theorem Recounted.resolve (hr : heap.Recounted count other) (origin : Origin) (ref : Reference) :
    other.resolve origin ref =
      (heap.resolve origin ref).map fun b => { b with refs := count ref.target b.refs } := by
  unfold Heap.resolve
  rw [hr ref.target]
  cases heap.get? ref.target with
  | none => rfl
  | some b =>
    simp only [Option.map_some]
    split <;> rfl

theorem Recounted.events_follow (hr : heap.Recounted count other) (p : Probe) :
    (other.follow p).2 = (heap.follow p).2 := by
  cases p with
  | follow origin ref =>
    show (other.followReference origin ref).2 = (heap.followReference origin ref).2
    unfold followReference
    rw [hr.resolve]
    cases heap.resolve origin ref <;> rfl
  | report f => rfl
  | consult name => rfl

/-- The same is said on the way, whatever the stored counts. -/
theorem Recounted.events_walk (hr : heap.Recounted count other) (ps : List Probe) :
    (other.walk ps).2 = (heap.walk ps).2 := by
  induction ps generalizing heap other with
  | nil => rfl
  | cons p ps ih =>
    have hfirst := hr.events_follow p
    have hrest := ih (hr.follow p)
    simp only [walk_cons, hfirst, hrest]

end Heap

/-! ## Findings that counts have a part in -/

/-- Whether a stored count has a part in a finding: by itself, or in a sum. -/
def Finding.readsCounts : Finding → Bool
  | .countMismatch .. | .stringStat .. => true
  | _ => false

theorem Heap.of_mem_walk {heap : Heap} {ps : List Probe} {f : Finding}
    (hf : f ∈ findingsOf (heap.walk ps).2) :
    f.isFault ∨ (∃ category description origin, f = .multipleOwners category description origin) ∨
      f ∈ reported ps := by
  induction ps generalizing heap with
  | nil => cases hf
  | cons p ps ih =>
    simp only [walk_cons, findingsOf_append, List.mem_append] at hf
    rcases hf with hf | hf
    · cases p with
      | follow origin ref =>
        change f ∈ findingsOf (heap.followReference origin ref).2 at hf
        rw [findingsOf_followReference] at hf
        obtain ⟨g, hg, -, hi⟩ | ⟨b, hb, -⟩ := heap.resolve_eq origin ref
        · rw [hg] at hf
          obtain rfl := List.mem_singleton.1 hf
          exact .inl hi
        · rw [hb] at hf
          simp only [sharedOwner] at hf
          split at hf
          · exact .inr (.inl ⟨_, _, _, List.mem_singleton.1 hf⟩)
          · cases hf
      | report g =>
        obtain rfl : f = g := List.mem_singleton.1 hf
        exact .inr (.inr List.mem_cons_self)
      | consult name => cases hf
    · refine (ih hf).imp_right fun h => h.imp_right fun h => ?_
      have hp : reported (p :: ps) = reported [p] ++ reported ps := reported_append [p] ps
      rw [hp]
      exact List.mem_append_right _ h

/-! ## What a pass says of a stored count -/

/-- The lines on the string totals. -/
def stringLines (stored actual : StringTotals) : List Finding :=
  (stringReadings stored actual).filterMap fun (gauge, stored, actual) =>
    if stored = actual then none else some (.stringStat gauge stored actual)

/-- What is said of a block after the walk whatever its stored count. -/
def countFree (heap : Heap) (b : Block) : List Finding :=
  if b.category.isCounted then
    if b.exempt then [.exempt b.category (describe heap b)] else pinFindings heap b
  else markFindings heap b

theorem not_readsCounts_of_mem_countFree {heap : Heap} {b : Block} {f : Finding}
    (hf : f ∈ countFree heap b) : f.readsCounts = false := by
  unfold countFree at hf
  split at hf
  · split at hf
    · rw [List.mem_singleton.1 hf]
      rfl
    · obtain ⟨_, _, _, rfl⟩ := of_mem_pinFindings hf
      rfl
  · obtain ⟨_, _, rfl | rfl⟩ := of_mem_markFindings hf <;> rfl

theorem countFree_congr {heap other : Heap} (hp : heap.payload? = other.payload?) (b : Block) :
    countFree heap b = countFree other b := by
  have hd : describe heap b = describe other b := describe_congr hp b b.scratch
  have ho : describeOrphan heap b = describeOrphan other b := by
    unfold describeOrphan describeCallee
    simp only [Heap.stringText?_congr hp, Heap.objectName?_congr hp]
  unfold countFree pinFindings markFindings
  rw [hd, ho]

theorem describe_refs (heap : Heap) (b : Block) (n : Nat) :
    describe heap { b with refs := n } = describe heap b := rfl

theorem shownContents_refs (heap : Heap) (depth : Nat) (b : Block) (n : Nat) :
    shownContents heap depth { b with refs := n } = shownContents heap depth b := rfl

theorem countFree_refs (heap : Heap) (b : Block) (n : Nat) :
    countFree heap { b with refs := n } = countFree heap b := rfl

/-- The comparison of a block: the line on its count first. -/
theorem findingsOf_verifyBlock (heap : Heap) (depth : Nat) (h : Handle) (b : Block) :
    findingsOf (verifyBlock heap depth h b) =
      (if b.category.isCounted ∧ ¬ b.exempt then countFindings heap depth b else []) ++
        countFree heap b := by
  unfold verifyBlock countFree
  by_cases hcounted : b.category.isCounted
  · by_cases hexempt : b.exempt
    · simp only [hcounted, hexempt, if_true, not_true, and_false, if_false]
      rfl
    · simp only [hcounted, hexempt, if_true, Bool.false_eq_true, if_false, not_false_eq_true,
        and_self, findingsOf_map_finding]
  · simp only [hcounted, Bool.false_eq_true, if_false, false_and, findingsOf_map_finding]
    rfl

namespace Engine

/-- Writes over the stored counts of blocks. -/
def overwrite (e : Engine) (writes : List (Handle × Nat)) : Engine :=
  e.setHeap (e.heap.overwrite writes)

/-- The count a full pass finds for the block behind `h`, as the pass leaves it on the block. -/
def recount (e : Engine) (h : Handle) : Nat :=
  (((e.audit {}).1.heap.get? h).map (·.scratch.expected)).getD 0

/-- The line on the count of a block, were `stored` its stored count. -/
def countLine (e : Engine) (h : Handle) (b : Block) (stored : Nat) : List Finding :=
  if b.category.isCounted ∧ ¬ b.exempt then
    if stored = e.recount h then []
    else
      [.countMismatch b.category (describe e.heap b) stored (e.recount h)
        (shownContents e.heap e.settings.renderDepth b)]
  else []

/-- What the string totals should be, were `count` the stored counts. -/
def stringTotalsAt (e : Engine) (count : Handle → Nat → Nat) : StringTotals :=
  { StringTotals.ofBlocks e.heap.blocks with
    references := (e.heap.entries.map fun p =>
      p.2.payload.stringCost?.elim 0 fun _ => count p.1 p.2.refs).sum
    allocatedBytes := (e.heap.entries.map fun p =>
      p.2.payload.stringCost?.elim 0 fun cost => count p.1 p.2.refs * cost).sum }

/-- The findings of a full pass, were `count` the stored counts: those that no count has a part in,
and the others where they belong. -/
def findingsAt (e : Engine) (early walked : List Finding)
    (others : Handle → Block → List Finding) (count : Handle → Nat → Nat) : List Finding :=
  early ++ stringLines e.strings.totals (e.stringTotalsAt count) ++ walked
    ++ e.heap.entries.flatMap fun p =>
        e.countLine p.1 p.2 (count p.1 p.2.refs) ++ others p.1 p.2

theorem recount_eq {e : Engine} {h : Handle} {b : Block} (hb : e.heap.get? h = some b) :
    e.recount h = (followed e.probes).count ⟨.counted, h, b.category⟩ := by
  unfold recount
  rw [get?_audit, hb, Option.map_some, Option.map_some, Option.getD_some]

theorem countFindings_recounted {e : Engine} {h : Handle} {b : Block}
    (hb : e.heap.get? h = some b) (stored : Nat) :
    countFindings e.recounted e.settings.renderDepth
        { b with refs := stored, scratch := .after {} (followed e.probes) h b.category } =
      if stored = e.recount h then []
      else
        [.countMismatch b.category (describe e.heap b) stored (e.recount h)
          (shownContents e.heap e.settings.renderDepth b)] := by
  have hexpected : (Scratch.after {} (followed e.probes) h b.category).expected = e.recount h := by
    rw [recount_eq hb]
    exact Nat.zero_add _
  have hdescribe := (describe_congr e.payload?_recounted { b with refs := stored }
    (.after {} (followed e.probes) h b.category)).trans (describe_refs e.heap b stored)
  have hshown := (shownContents_congr e.payload?_recounted e.settings.renderDepth
    { b with refs := stored } (.after {} (followed e.probes) h b.category)).trans
    (shownContents_refs e.heap e.settings.renderDepth b stored)
  unfold countFindings
  simp only [hexpected, hdescribe, hshown]

/-- What is found by comparing a block: the line on its count, and what its count has no part in. -/
theorem findingsOf_verifyBlock_recounted {e : Engine} {h : Handle} {b : Block}
    (hb : e.heap.get? h = some b) (stored : Nat) :
    findingsOf (verifyBlock e.recounted e.settings.renderDepth h
        { b with refs := stored, scratch := .after {} (followed e.probes) h b.category }) =
      e.countLine h b stored ++
        countFree e.heap { b with scratch := .after {} (followed e.probes) h b.category } := by
  rw [findingsOf_verifyBlock, countFindings_recounted hb, countFree_congr e.payload?_recounted,
    ← countFree_refs e.heap { b with scratch := _ } stored]
  rfl

/-- The comparison of an engine whose blocks carry other counts, block by block. -/
theorem findingsOf_verifyEvents_of_recounted {e next : Engine} {count : Handle → Nat → Nat}
    (hr : e.heap.Recounted count next.heap) (hp : next.probes = e.probes) :
    findingsOf (verifyEvents next.recounted e.settings.renderDepth) =
      e.heap.entries.flatMap fun p => e.countLine p.1 p.2 (count p.1 p.2.refs) ++
        countFree e.heap
          { p.2 with scratch := .after {} (followed e.probes) p.1 p.2.category } := by
  have hpay : next.recounted.payload? = e.recounted.payload? := by
    rw [payload?_recounted, payload?_recounted, hr.payload?]
  rw [findingsOf_verifyEvents, hr.entries, List.flatMap_map, hp]
  refine List.flatMap_congr fun p hmem => ?_
  rw [verifyBlock_congr hpay]
  exact findingsOf_verifyBlock_recounted (Heap.mem_entries_iff.1 hmem) _

/-! ## Before and after -/

section Overwrite

variable (e : Engine) (writes : List (Handle × Nat))

theorem recounted_overwrite : e.heap.Recounted (lastWritten writes) (e.overwrite writes).heap :=
  e.heap.recounted_overwrite writes

theorem probes_overwrite : (e.overwrite writes).probes = e.probes := by
  have hpay : (e.overwrite writes).heap.payload? = e.heap.payload? :=
    (e.recounted_overwrite writes).payload?
  have hroots : (e.overwrite writes).rootProbes = e.rootProbes := by
    rw [rootProbes_eq, rootProbes_eq, Roots.references_congr hpay]
    rfl
  have hscan : (e.overwrite writes).scanProbes = e.scanProbes := by
    rw [scanProbes_eq, scanProbes_eq, (e.recounted_overwrite writes).entries, List.flatMap_map]
    exact List.flatMap_congr fun p _ => blockProbes_congr hpay _ p.1 p.2 p.2.scratch
  rw [probes, probes, hroots, hscan]

theorem recounted_cleared :
    e.cleared.heap.Recounted (lastWritten writes) (e.overwrite writes).cleared.heap := by
  intro h
  rw [get?_cleared, get?_cleared, e.recounted_overwrite writes h, Option.map_map, Option.map_map]
  rfl

theorem blocks_overwrite :
    (e.overwrite writes).heap.blocks =
      e.heap.entries.map fun p => { p.2 with refs := lastWritten writes p.1 p.2.refs } := by
  rw [Heap.blocks, (e.recounted_overwrite writes).entries, List.map_map]
  rfl

theorem resetFindings_overwrite (flags : Flags) :
    resetFindings flags (e.overwrite writes).heap.blocks = resetFindings flags e.heap.blocks := by
  unfold resetFindings
  rw [blocks_overwrite, Heap.blocks, List.flatMap_map, List.flatMap_map]
  rfl

theorem live_overwrite : (e.overwrite writes).heap.live = e.heap.live := by
  rw [Heap.live, (e.recounted_overwrite writes).entries, List.length_map]
  rfl

/-- A census looks at categories and sizes. -/
theorem census_overwrite : (e.overwrite writes).heap.census = e.heap.census := by
  have hfree : (e.overwrite writes).heap.free = e.heap.free := by
    show (writes.foldl (fun heap w => heap.setRefs w.1 w.2) e.heap).free = _
    induction writes generalizing e with
    | nil => rfl
    | cons w ws ih => exact (ih (e.setHeap (e.heap.setRefs w.1 w.2))).trans (e.heap.free_update _ _)
  have htotal : Tally.ofBlocks (e.overwrite writes).heap.blocks = .ofBlocks e.heap.blocks := by
    refine Tally.ofBlocks_congr ?_
    rw [blocks_overwrite, Heap.blocks, List.map_map, List.map_map]
    rfl
  have htally : (e.overwrite writes).heap.tally = e.heap.tally := by
    funext c
    refine Tally.ofBlocks_congr ?_
    rw [blocks_overwrite, Heap.blocks, List.filter_map, List.filter_map, List.map_map,
      List.map_map]
    rfl
  have hentry : (e.overwrite writes).heap.tallyEntry = e.heap.tallyEntry := by
    funext c
    rw [Heap.tallyEntry, Heap.tallyEntry, htally]
  have hslots : (e.overwrite writes).heap.slots.size = e.heap.slots.size := by
    have hlive := e.live_overwrite writes
    have hbefore := e.heap.live_add_vacant
    have hafter := (e.overwrite writes).heap.live_add_vacant
    rw [← e.heap.free_perm_vacant.length_eq] at hbefore
    rw [← (e.overwrite writes).heap.free_perm_vacant.length_eq, hfree] at hafter
    omega
  simp only [Heap.census, hslots, hfree, hentry, htotal]

/-- A census of the strings sums up what was written. -/
theorem ofBlocks_overwrite :
    StringTotals.ofBlocks (e.overwrite writes).heap.blocks =
      e.stringTotalsAt (lastWritten writes) := by
  unfold stringTotalsAt
  rw [StringTotals.ofBlocks_eq, StringTotals.ofBlocks_eq]
  unfold StringTotals.ofStock total Heap.stock
  rw [(e.recounted_overwrite writes).entries]
  simp only [Multiset.map_coe, Multiset.sum_coe, List.map_map, Function.comp_def]

theorem recount_overwrite (h : Handle) : (e.overwrite writes).recount h = e.recount h := by
  unfold recount
  rw [get?_audit, get?_audit, e.recounted_overwrite writes h, probes_overwrite, Option.map_map,
    Option.map_map, Option.map_map]
  rfl

/-- Where no string is written over, the sums are what they were. -/
theorem stringTotalsAt_of_no_string
    (hw : ∀ w ∈ writes, StringTable.costAt? e.heap w.1 = none) :
    e.stringTotalsAt (lastWritten writes) = .ofBlocks e.heap.blocks := by
  have hsame : ∀ p ∈ e.heap.entries, ∀ cost, p.2.payload.stringCost? = some cost →
      lastWritten writes p.1 p.2.refs = p.2.refs := by
    intro p hp cost hcost
    have hnone : writes.reverse.lookup p.1 = none := by
      rw [List.lookup_eq_none_iff]
      intro w hwrite
      rw [bne_iff_ne]
      intro heq
      have hat := hw w (List.mem_reverse.1 hwrite)
      unfold StringTable.costAt? Heap.payload? at hat
      rw [← heq, Heap.mem_entries_iff.1 hp, Option.map_some, Option.bind_some, hcost] at hat
      cases hat
    rw [lastWritten, hnone, Option.getD_none]
  have hsum : ∀ f : Nat → Nat → Nat,
      (e.heap.entries.map fun p =>
        p.2.payload.stringCost?.elim 0 fun cost => f cost (lastWritten writes p.1 p.2.refs)).sum =
      (e.heap.entries.map fun p =>
        p.2.payload.stringCost?.elim 0 fun cost => f cost p.2.refs).sum := by
    intro f
    congr 1
    refine List.map_congr_left fun p hp => ?_
    cases hcost : p.2.payload.stringCost? with
    | none => rfl
    | some cost =>
      simp only [Option.elim_some]
      rw [hsame p hp cost hcost]
  unfold stringTotalsAt
  rw [hsum fun _ count => count, hsum fun cost count => count * cost]
  conv_rhs => rw [StringTotals.ofBlocks_eq]
  rw [StringTotals.ofBlocks_eq]
  unfold StringTotals.ofStock total Heap.stock
  simp only [Multiset.map_coe, Multiset.sum_coe]

end Overwrite

/-! ## The report -/

/-- The part of the totals that no count has a part in. -/
def countFreeTotals (e : Engine) : List Finding :=
  ceilingFindings e.heap.census e.settings.ceilings ++ gaugeFindings e e.heap.census

/-- A full pass over blocks with the counts that were written. -/
theorem findings_reportOf_overwrite (e : Engine) (writes : List (Handle × Nat)) (verbose : Bool) :
    ((e.overwrite writes).reportOf ⟨verbose, false⟩).findings =
      e.findingsAt (resetFindings ⟨verbose, false⟩ e.heap.blocks ++ e.countFreeTotals)
        (findingsOf (e.cleared.heap.walk e.probes).2)
        (fun h b => countFree e.heap
          { b with scratch := .after {} (followed e.probes) h b.category })
        (lastWritten writes) := by
  have hwalk : ((e.overwrite writes).cleared.heap.walk e.probes).2 =
      (e.cleared.heap.walk e.probes).2 :=
    (e.recounted_cleared writes).events_walk e.probes
  have hgauges : gaugeFindings (e.overwrite writes) e.heap.census =
      gaugeFindings e e.heap.census := rfl
  have hstrings : stringFindings (e.overwrite writes) =
      stringLines e.strings.totals (e.stringTotalsAt (lastWritten writes)) := by
    rw [← ofBlocks_overwrite]
    rfl
  rw [reportOf_eq, findings_audit, probes_overwrite, hwalk, resetFindings_overwrite,
    census_overwrite, hgauges, hstrings]
  show _ ++ findingsOf (verifyEvents _ e.settings.renderDepth) = _
  rw [findingsOf_verifyEvents_of_recounted (e.recounted_overwrite writes)
    (e.probes_overwrite writes)]
  simp only [findingsAt, countFreeTotals, List.append_assoc]
  rfl

theorem not_readsCounts_of_mem {e : Engine} (verbose : Bool) {f : Finding}
    (hf : f ∈ resetFindings ⟨verbose, false⟩ e.heap.blocks ++ e.countFreeTotals ++
      findingsOf (e.cleared.heap.walk e.probes).2) : f.readsCounts = false := by
  rcases List.mem_append.1 hf with hf | hwalk
  · rcases List.mem_append.1 hf with hreset | htotals
    · rcases of_mem_resetFindings hreset with ⟨_, _, rfl⟩ | ⟨_, _, _, rfl⟩ <;> rfl
    · rcases of_mem_gauges htotals with ⟨_, _, _, rfl⟩ | ⟨_, _, _, rfl⟩ | ⟨_, _, rfl⟩ <;> rfl
  · rcases Heap.of_mem_walk hwalk with hfault | ⟨_, _, _, rfl⟩ | hreported
    · cases f <;> first | rfl | cases hfault
    · rfl
    · rcases of_mem_reported hreported with ⟨_, _, _, _, rfl⟩ | ⟨_, rfl⟩ | ⟨_, rfl⟩ <;> rfl

/-- Counts have no part in which blocks are found exempt. -/
theorem countP_isExemption_findingsAt (e : Engine) (early walked : List Finding)
    (others : Handle → Block → List Finding) (count : Handle → Nat → Nat) :
    (e.findingsAt early walked others count).countP Finding.isExemption =
      early.countP Finding.isExemption + walked.countP Finding.isExemption +
        (e.heap.entries.flatMap fun p => others p.1 p.2).countP Finding.isExemption := by
  have hstrings : ∀ stored actual,
      (stringLines stored actual).countP Finding.isExemption = 0 := by
    intro stored actual
    refine List.countP_eq_zero.2 fun f hf => ?_
    obtain ⟨⟨gauge, stored, actual⟩, -, h⟩ := List.mem_filterMap.1 hf
    dsimp only at h
    split at h <;> cases h
    exact Bool.false_ne_true
  have hline : ∀ h b stored, (e.countLine h b stored).countP Finding.isExemption = 0 := by
    intro h b stored
    unfold countLine
    split
    · split <;> rfl
    · rfl
  simp only [findingsAt, List.countP_append, List.countP_flatMap, Function.comp_def, hstrings,
    hline, Nat.add_zero, Nat.zero_add]

theorem summary_audit (e : Engine) (verbose : Bool) :
    (e.audit ⟨verbose, false⟩).2.report.summary = if verbose then some e.heap.census else none := by
  rw [pass_audit_full]
  rfl

/-- Before and after stored counts were written over, a full pass finds the same but for the lines
on counts and on the sums over strings. The line on a block's count is there if the count is not
the one the pass finds, and names both; what the pass finds is the same as before. -/
theorem report_overwrite (e : Engine) (writes : List (Handle × Nat)) (verbose : Bool) :
    ∃ (early walked : List Finding) (others : Handle → Block → List Finding),
      (∀ f ∈ early ++ walked ++ e.heap.entries.flatMap fun p => others p.1 p.2,
        f.readsCounts = false) ∧
      (e.reportOf ⟨verbose, false⟩).findings = e.findingsAt early walked others (fun _ n => n) ∧
      ((e.overwrite writes).reportOf ⟨verbose, false⟩).findings =
        e.findingsAt early walked others (lastWritten writes) ∧
      (∀ h, (e.overwrite writes).recount h = e.recount h) ∧
      ((∀ w ∈ writes, StringTable.costAt? e.heap w.1 = none) →
        e.stringTotalsAt (lastWritten writes) = .ofBlocks e.heap.blocks) ∧
      ((e.overwrite writes).reportOf ⟨verbose, false⟩).exempted =
        (e.reportOf ⟨verbose, false⟩).exempted ∧
      ((e.overwrite writes).reportOf ⟨verbose, false⟩).blocksScanned =
        (e.reportOf ⟨verbose, false⟩).blocksScanned ∧
      ((e.overwrite writes).reportOf ⟨verbose, false⟩).summary =
        (e.reportOf ⟨verbose, false⟩).summary := by
  have hafter := e.findings_reportOf_overwrite writes verbose
  have hbefore := e.findings_reportOf_overwrite [] verbose
  have hnone : e.overwrite [] = e := rfl
  have hkept : lastWritten [] = fun _ n => n := rfl
  rw [hnone, hkept] at hbefore
  refine ⟨_, _, _, fun f hf => ?_, hbefore, hafter, e.recount_overwrite writes,
    e.stringTotalsAt_of_no_string writes, ?_, ?_, ?_⟩
  · rcases List.mem_append.1 hf with hf | hothers
    · exact not_readsCounts_of_mem verbose hf
    · obtain ⟨p, -, hp⟩ := List.mem_flatMap.1 hothers
      exact not_readsCounts_of_mem_countFree hp
  · have hcount : ∀ e : Engine, (e.reportOf ⟨verbose, false⟩).exempted =
        (e.reportOf ⟨verbose, false⟩).findings.countP Finding.isExemption := by
      intro e
      rw [reportOf_eq]
      exact (e.story_audit ⟨verbose, false⟩).exempted
    rw [hcount, hcount, hbefore, hafter, countP_isExemption_findingsAt,
      countP_isExemption_findingsAt]
  · rw [reportOf_eq, reportOf_eq, blocksScanned_audit, blocksScanned_audit, live_overwrite]
  · rw [reportOf_eq, reportOf_eq, summary_audit, summary_audit, census_overwrite]

/-- An array and a shared string on the stack. -/
def arrayAndText : Engine :=
  let (e, array) := newArray {} [.number 7]
  let (e, text) := newShared (e.push array) "torch"
  e.push text

theorem report_overwrite_arrayAndText :
    (∀ w ∈ [((⟨0, 0⟩ : Handle), 5)], StringTable.costAt? arrayAndText.heap w.1 = none) ∧
    arrayAndText.stringTotalsAt (lastWritten [(⟨0, 0⟩, 5)]) =
      .ofBlocks arrayAndText.heap.blocks ∧
    (arrayAndText.reportOf {}).findings = [] ∧
    ((arrayAndText.overwrite [(⟨0, 0⟩, 5)]).reportOf {}).findings =
      [.countMismatch .array "allocate_array" 5 1 (some "(\x7b 7 \x7d)")] := by
  have hw : ∀ w ∈ [((⟨0, 0⟩ : Handle), 5)],
      StringTable.costAt? arrayAndText.heap w.1 = none := by decide
  obtain ⟨_, _, _, -, -, -, -, hstrings, -⟩ := report_overwrite arrayAndText [(⟨0, 0⟩, 5)] false
  exact ⟨hw, hstrings hw, by decide +kernel, by decide +kernel⟩

end Engine

end HeapAudit
