import HeapAudit.Proofs.Audit.Recount

/-!
What a clean report says of the engine. The pass gets to tables, nodes, sentences, sessions and
timers only through what owns them; that nothing was left out shows in what was not found.

Main statements
* `Engine.Unblemished`: what the checks of a clean report amount to.
* `Engine.listed_of_unblemished`: every block that is entered through an owner was entered once.
* `Engine.counts_exact_of_clean`: after a clean report, stored counts and pins are exact.
-/

namespace HeapAudit

theorem Report.isClean_iff (r : Report) : r.isClean ↔ ∀ f ∈ r.findings, f.severity = .note := by
  simp [Report.isClean]

theorem Pass.exempted_eq_zero_iff (p : Pass) :
    p.report.exempted = 0 ↔ ∀ event ∈ p.events, ¬ Pass.isExemption event := by
  simp [Pass.report]

namespace Engine

/-- What there is to know after a report without anything worse than notes or exemptions. -/
structure Unblemished (e : Engine) : Prop where
  resolves : ∀ ref ∈ followed e.probes, e.heap.Resolves ref
  once : ((followed e.probes).filter fun ref => ref.hold = .owned).Nodup
  counts : ∀ h b, e.heap.get? h = some b → b.category.isCounted →
    b.refs = (followed e.probes).count (.counted h b.category)
  pins : ∀ h b p, e.heap.get? h = some b → b.category.isCounted → b.payload = .program p →
    p.pins = (followed e.probes).count ⟨.pinned, h, b.category⟩
  marks : ∀ h b, e.heap.get? h = some b → b.category.requiresMark →
    .owned h b.category ∈ followed e.probes
  callOuts : e.roots.callOuts.length = (e.heap.tally .callOut).blocks

/-! ## From the findings -/

theorem resolves_cleared (e : Engine) (ref : Reference) :
    e.cleared.heap.Resolves ref ↔ e.heap.Resolves ref := by
  unfold Heap.Resolves
  rw [get?_cleared]
  cases e.heap.get? ref.target <;> simp

theorem mem_entries_recounted {e : Engine} {h : Handle} {b : Block}
    (hb : e.heap.get? h = some b) :
    (h, { b with scratch := Scratch.after {} (followed e.probes) h b.category }) ∈
      e.recounted.entries := by
  rw [Heap.mem_entries_iff, get?_recounted, hb]
  rfl

/-- A counted block with nothing but notes to it has the right count and the right pins. -/
theorem counts_of_notes {heap : Heap} {depth : Nat} {h : Handle} {b : Block}
    (hcounted : b.category.isCounted)
    (hnote : ∀ f, Event.finding f ∈ verifyBlock heap depth h b → f.severity = .note)
    (hexempt : Event.exempt h b.category ∉ verifyBlock heap depth h b) :
    b.refs = b.scratch.expected ∧ ∀ p, b.payload = .program p → p.pins = b.scratch.pins := by
  unfold verifyBlock at hnote hexempt
  rw [if_pos hcounted] at hnote hexempt
  by_cases hx : b.exempt
  · rw [if_pos hx] at hexempt
    exact absurd (List.mem_cons_self ..) hexempt
  · rw [if_neg hx] at hnote
    constructor
    · by_contra hne
      have hf := hnote _ (List.mem_map_of_mem (List.mem_append_left _
        (by rw [countFindings, if_neg hne]; exact List.mem_singleton_self _)))
      cases hf
    · intro p hp
      by_contra hne
      have hf := hnote _ (List.mem_map_of_mem (List.mem_append_right _
        (by simp only [pinFindings, hp, if_neg hne]; exact List.mem_singleton_self _)))
      cases hf

/-- A block that has to be reached and has nothing but notes to it was reached. -/
theorem visited_of_notes {heap : Heap} {depth : Nat} {h : Handle} {b : Block}
    (hmark : b.category.requiresMark)
    (hnote : ∀ f, Event.finding f ∈ verifyBlock heap depth h b → f.severity = .note) :
    b.scratch.visited = true := by
  have hcounted : b.category.isCounted ≠ true :=
    fun hcounted => (Category.roles_disjoint b.category).1 ⟨hcounted, hmark⟩
  unfold verifyBlock at hnote
  rw [if_neg hcounted] at hnote
  by_contra hv
  have hf := hnote _ (List.mem_map_of_mem (by
    rw [markFindings, if_pos ⟨hmark, hv⟩]
    exact List.mem_singleton_self _))
  cases hf

/-- The last phase went over a block without anything but notes. -/
theorem verified_of_clean {e : Engine} {verbose : Bool}
    (hc : (e.audit ⟨verbose, false⟩).2.report.isClean)
    (hx : (e.audit ⟨verbose, false⟩).2.report.exempted = 0) {h : Handle} {b : Block}
    (hb : (h, b) ∈ e.recounted.entries) :
    (b.category.isCounted → b.refs = b.scratch.expected ∧
      ∀ p, b.payload = .program p → p.pins = b.scratch.pins) ∧
    (b.category.requiresMark → b.scratch.visited = true) := by
  have hin : ∀ event ∈ verifyBlock e.recounted e.settings.renderDepth h b,
      event ∈ verifyEvents e.recounted e.settings.renderDepth :=
    fun event he => List.mem_flatMap.2 ⟨(h, b), hb, he⟩
  have hnote : ∀ f, Event.finding f ∈ verifyBlock e.recounted e.settings.renderDepth h b →
      f.severity = .note := by
    intro f hf
    have hm := mem_findings_of_verify verbose (hin _ hf)
    exact (Report.isClean_iff _).1 hc f hm
  have hexempt : Event.exempt h b.category ∉
      verifyBlock e.recounted e.settings.renderDepth h b := by
    intro hm
    have hev := mem_events_of_verify verbose (hin _ hm)
    exact (Pass.exempted_eq_zero_iff _).1 hx _ hev rfl
  exact ⟨fun hcounted => counts_of_notes hcounted hnote hexempt,
    fun hmark => visited_of_notes hmark hnote⟩

theorem unblemished_of_clean {e : Engine} {verbose : Bool}
    (hc : (e.audit ⟨verbose, false⟩).2.report.isClean)
    (hx : (e.audit ⟨verbose, false⟩).2.report.exempted = 0) : e.Unblemished := by
  have hnote : ∀ f ∈ (e.audit ⟨verbose, false⟩).2.report.findings, f.severity = .note :=
    (Report.isClean_iff _).1 hc
  rw [findings_audit] at hnote
  have hentered : e.cleared.heap.Entered (followed e.probes) :=
    Heap.entered_of_notes fun f hf =>
      hnote f (List.mem_append_left _ (List.mem_append_right _ hf))
  refine ⟨?_, hentered.once, ?_, ?_, ?_, ?_⟩
  · exact fun ref hr => (resolves_cleared e ref).1 (hentered.resolves ref hr)
  · intro h b hb hcounted
    have hv := ((verified_of_clean hc hx (mem_entries_recounted hb)).1 hcounted).1
    simpa [Scratch.after, Reference.counted] using hv
  · intro h b p hb hcounted hp
    have hv := ((verified_of_clean hc hx (mem_entries_recounted hb)).1 hcounted).2 p hp
    simpa [Scratch.after] using hv
  · intro h b hb hmark
    have hv := (verified_of_clean hc hx (mem_entries_recounted hb)).2 hmark
    simpa [Scratch.after, Reference.owned] using hv
  · by_contra hne
    have hreading : (Gauge.pendingCallOuts, e.roots.callOuts.length,
        (e.heap.census.tally .callOut).blocks) ∈ gaugeReadings e e.heap.census := by
      simp [gaugeReadings]
    have hf := hnote (.aggregate .pendingCallOuts e.roots.callOuts.length
        (e.heap.census.tally .callOut).blocks) (by
      refine List.mem_append_left _ (List.mem_append_left _ (List.mem_append_right _
        (List.mem_append_left _ (List.mem_append_right _ (List.mem_append_left _
          (List.mem_filterMap.2 ⟨_, hreading, ?_⟩))))))
      rw [Heap.census_tally]
      exact if_neg hne)
    cases hf

/-! ## Every owned block is listed -/

/-- No block is owned twice. -/
theorem nodup_ownedIn_followed {e : Engine} (hu : e.Unblemished) (c : Category) :
    (ownedIn c (followed e.probes)).Nodup := by
  have hsub : (followed e.probes).filter (fun ref => ref.hold = .owned ∧ ref.expected = c) =
      ((followed e.probes).filter fun ref => ref.hold = .owned).filter
        fun ref => ref.expected = c := by
    rw [List.filter_filter]
    refine List.filter_congr fun ref _ => ?_
    rw [Bool.decide_and, Bool.and_comm]
  rw [ownedIn_coe, Multiset.coe_nodup, ownedOf, hsub]
  refine List.Nodup.map_on ?_ (hu.once.filter _)
  rintro ⟨hold, h, d⟩ hm ⟨hold', h', d'⟩ hm' heq
  simp only [List.mem_filter, decide_eq_true_eq] at hm hm'
  obtain ⟨⟨-, rfl⟩, rfl⟩ := hm
  obtain ⟨⟨-, rfl⟩, rfl⟩ := hm'
  cases heq
  rfl

theorem mem_handlesOf_of_ownedIn {e : Engine} (hu : e.Unblemished) {c : Category} {h : Handle}
    (hm : h ∈ ownedIn c (followed e.probes)) : h ∈ e.heap.handlesOf c := by
  have hr := hu.resolves (.owned h c) (Multiset.mem_coe.1 (mem_ownedIn.1 hm))
  exact Heap.mem_handlesOf.2 hr

/-- Blocks that would be orphans are owned; a timer is in the queue, for the queue is as long as
there are timers and names none twice. -/
theorem ownedIn_followed_eq {e : Engine} (hu : e.Unblemished) (hp : e.provided = [])
    {c : Category} (hc : c.isEntered) :
    ownedIn c (followed e.probes) = e.heap.handlesOf c := by
  have hle : ownedIn c (followed e.probes) ≤ e.heap.handlesOf c :=
    (Multiset.le_iff_subset (nodup_ownedIn_followed hu c)).2 fun h hm =>
      mem_handlesOf_of_ownedIn hu hm
  by_cases hmark : c.requiresMark
  · refine le_antisymm hle ((Multiset.le_iff_subset (Heap.nodup_handlesOf _ _)).2 ?_)
    intro h hm
    obtain ⟨b, hb, rfl⟩ := Heap.mem_handlesOf.1 hm
    exact mem_ownedIn.2 (Multiset.mem_coe.2 (hu.marks h b hb hmark))
  · have hcall : c = .callOut := by
      cases c <;> first | rfl | exact absurd rfl hmark | cases hc
    subst hcall
    refine Multiset.eq_of_le_of_card_le hle (Nat.le_of_eq ?_)
    have howned : ownedIn .callOut (followed e.probes) = (e.roots.callOuts : Multiset Handle) := by
      rw [Multiset.coe_eq_coe.2 e.followed_perm, e.ownedIn_enumerated rfl, hp]
      rw [ownedIn_coe, ownedOf_nil, Multiset.coe_nil, add_zero, listedAs]
    rw [Heap.card_handlesOf, howned, Multiset.coe_card, hu.callOuts]

theorem listed_of_unblemished {e : Engine} (hu : e.Unblemished) (hp : e.provided = [])
    (hf : e.roots.freeSentences = []) : e.Listed := by
  refine listed_of_ownedIn_enumerated hf hp fun c hc => ?_
  rw [← Multiset.coe_eq_coe.2 e.followed_perm]
  exact ownedIn_followed_eq hu hp hc

/-! ## Clean reports -/

/-- Where all references resolve, the counted references to a block are those with its category. -/
theorem slotCount_eq {e : Engine} (hr : ∀ ref ∈ e.held, e.heap.Resolves ref) {h : Handle}
    {b : Block} (hb : e.heap.get? h = some b) :
    e.slotCount h = e.held.count (.counted h b.category) := by
  unfold slotCount List.count
  refine List.countP_congr fun ref hm => ?_
  obtain ⟨hold, target, expected⟩ := ref
  obtain ⟨d, hd, hcat⟩ := hr _ hm
  simp only [decide_eq_true_eq, beq_iff_eq, Reference.counted, Reference.mk.injEq]
  constructor
  · rintro ⟨rfl, rfl⟩
    refine ⟨rfl, rfl, ?_⟩
    rw [hb] at hd
    rw [Option.some.inj hd]
    exact hcat.symm
  · rintro ⟨rfl, rfl, -⟩
    exact ⟨rfl, rfl⟩

/-- A clean report can be trusted: if the payloads fit the categories, no sentence waits for reuse
and no provider is registered, then after a full pass that found nothing worse than notes and
exempted nothing, every stored count is the number of slots that hold the block and every program
is pinned by as many closures as it says. -/
theorem counts_exact_of_clean {e : Engine} {verbose : Bool} (hw : e.heap.WellFormed)
    (hf : e.roots.freeSentences = []) (hp : e.providers = [])
    (hc : (e.audit ⟨verbose, false⟩).2.report.isClean)
    (hx : (e.audit ⟨verbose, false⟩).2.report.exempted = 0) :
    ∀ h b, e.heap.get? h = some b →
      (b.category.isCounted → b.refs = e.slotCount h) ∧
      ∀ p, b.payload = .program p → p.pins = e.heap.pinCount h := by
  have hu := unblemished_of_clean hc hx
  have hprov : e.provided = [] := by rw [provided, hp]; rfl
  have hheld : (followed e.probes).Perm e.held := by
    have hcoe := coe_enumerated_of_listed hw (listed_of_unblemished hu hprov hf)
    rw [hprov, Multiset.coe_nil, add_zero] at hcoe
    exact e.followed_perm.trans (Multiset.coe_eq_coe.1 hcoe)
  have hres : ∀ ref ∈ e.held, e.heap.Resolves ref :=
    fun ref hm => hu.resolves ref (hheld.mem_iff.2 hm)
  intro h b hb
  constructor
  · intro hcounted
    rw [hu.counts h b hb hcounted, slotCount_eq hres hb, hheld.count_eq]
  · intro p hpay
    have hcat : b.category = .program :=
      Category.carries_program_iff.1 (hpay ▸ hw h b hb)
    rw [hu.pins h b p hb (by rw [hcat]; rfl) hpay, e.followed_perm.count_eq,
      count_pinned_enumerated, if_pos hcat]

/-- A mapping with an array in it, on the stack. -/
def mappingOnStack : Engine :=
  let (e, inner) := newArray {} [.number 7]
  let (e, outer) := e.newMapping [(.number 1, inner)]
  e.push outer

theorem counts_exact_of_clean_mappingOnStack :
    mappingOnStack.heap.live = 4 ∧
    (mappingOnStack.audit ⟨false, false⟩).2.report.isClean ∧
    ∀ h b, mappingOnStack.heap.get? h = some b →
      (b.category.isCounted → b.refs = mappingOnStack.slotCount h) ∧
      ∀ p, b.payload = .program p → p.pins = mappingOnStack.heap.pinCount h := by
  have hw : mappingOnStack.heap.WellFormed := Heap.wellFormed_iff.2 (by decide)
  have hc : (mappingOnStack.audit ⟨false, false⟩).2.report.isClean := by decide +kernel
  exact ⟨by decide, hc, counts_exact_of_clean hw rfl rfl hc (by decide +kernel)⟩

end Engine

end HeapAudit
