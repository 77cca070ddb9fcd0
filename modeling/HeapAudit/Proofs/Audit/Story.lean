import HeapAudit.Proofs.Audit.Announced
import HeapAudit.Proofs.Audit.Watching

/-!
The text of a report, its findings and a recording of the pass tell one story, whoever watches.

Main definitions
* `Told`: events in which exempt blocks are named and found exempt, in one go.
* `Engine.Story`: what a report and a recording of the same pass have to do with each other.

Main statements
* `Engine.told_audit`: so they are in every pass.
* `Engine.recorded_audit_full`: the recording of a full pass, phase after phase.
* `Engine.one_story`: every report is the one of the recorded pass.
-/

namespace HeapAudit

/-! ## Exemptions -/

/-- The event says that a block is exempt, or finds it exempt. -/
def Event.ofExemption : Event → Bool
  | .exempt _ _ => true
  | .finding f => f.isExemption
  | _ => false

/-- Events in which a block of the heap is named as exempt exactly where it is found exempt, right
before that. -/
inductive Told (heap : Heap) : List Event → Prop
  | nil : Told heap []
  | event {event : Event} {rest : List Event} (he : ¬ event.ofExemption) (hr : Told heap rest) :
    Told heap (event :: rest)
  | exempt {h : Handle} {b : Block} {rest : List Event} (hb : heap.get? h = some b)
    (hr : Told heap rest) :
    Told heap (.exempt h b.category :: .finding (.exempt b.category (describe heap b)) :: rest)

namespace Told

variable {heap : Heap} {events more : List Event}

theorem append (h : Told heap events) (hm : Told heap more) : Told heap (events ++ more) := by
  induction h with
  | nil => exact hm
  | event he hr ih => exact .event he ih
  | exempt hb hr ih => exact .exempt hb ih

theorem of_forall (h : ∀ event ∈ events, ¬ event.ofExemption) : Told heap events := by
  induction events with
  | nil => exact .nil
  | cons event events ih =>
    exact .event (h event List.mem_cons_self) (ih fun e he => h e (List.mem_cons_of_mem _ he))

theorem findings {fs : List Finding} (h : ∀ f ∈ fs, ¬ f.isExemption) :
    Told heap (fs.map .finding) := by
  refine of_forall fun event he => ?_
  obtain ⟨f, hf, rfl⟩ := List.mem_map.1 he
  exact h f hf

theorem flatMap {α : Type} {xs : List α} {f : α → List Event} (h : ∀ x ∈ xs, Told heap (f x)) :
    Told heap (xs.flatMap f) := by
  induction xs with
  | nil => exact .nil
  | cons x xs ih =>
    rw [List.flatMap_cons]
    exact (h x List.mem_cons_self).append (ih fun y hy => h y (List.mem_cons_of_mem _ hy))

theorem recorded (h : Told heap events) : Told heap (recorded none events) := by
  induction h with
  | nil => exact .nil
  | @event event rest he hr ih =>
    show Told heap (List.filter _ _)
    rw [List.filter_cons]
    split
    · exact .event he ih
    · exact ih
  | exempt hb hr ih => exact .exempt hb ih

/-- There are as many exempt blocks as there are findings that say so. -/
theorem countP_eq (h : Told heap events) :
    events.countP Pass.isExemption = (findingsOf events).countP Finding.isExemption := by
  induction h with
  | nil => rfl
  | @event event rest he hr ih =>
    rw [findingsOf_cons, List.countP_append, List.countP_cons, ih]
    cases event <;> simp_all [Pass.isExemption, Event.ofExemption, Event.finding?]
  | exempt hb hr ih =>
    rw [findingsOf_cons, findingsOf_cons, List.countP_append, List.countP_append, List.countP_cons,
      List.countP_cons, ih]
    simp [Pass.isExemption, Event.finding?, Finding.isExemption]
    omega

/-- What follows when an exempt block is named. -/
theorem next (h : Told heap events) {before after : List Event} {k : Handle} {c : Category}
    (hsplit : events = before ++ .exempt k c :: after) :
    ∃ b rest, heap.get? k = some b ∧ b.category = c ∧
      after = .finding (.exempt c (describe heap b)) :: rest := by
  induction h generalizing before with
  | nil => simp at hsplit
  | @event event rest he hr ih =>
    cases before with
    | nil =>
      injection hsplit with hhead
      subst hhead
      simp [Event.ofExemption] at he
    | cons first before =>
      injection hsplit with _ htail
      exact ih htail
  | @exempt h b rest hb hr ih =>
    cases before with
    | nil =>
      injection hsplit with hhead htail
      injection hhead with hk hc
      subst hk hc
      exact ⟨b, rest, hb, rfl, htail.symm⟩
    | cons first before =>
      injection hsplit with _ htail
      cases before with
      | nil => simp at htail
      | cons second before =>
        injection htail with _ htail
        exact ih htail

end Told

namespace Engine

/-! ## The phases one by one -/

theorem told_walk (e : Engine) (heap : Heap) {ps : List Probe} (hps : ∀ p ∈ ps, p ∈ e.probes) :
    Told e.heap (heap.walk ps).2 := by
  refine .of_forall fun event he => ?_
  obtain ⟨p, hp, hv⟩ := Heap.voices_of_mem_walk he
  cases hv with
  | announced | consulted => simp [Event.ofExemption]
  | found hf => exact hf
  | reported f =>
    have hf : f ∈ reported e.probes := List.mem_filterMap.2 ⟨_, hps _ hp, rfl⟩
    obtain ⟨_, _, _, _, rfl⟩ | ⟨_, rfl⟩ | ⟨_, rfl⟩ := of_mem_reported hf <;>
      simp [Event.ofExemption, Finding.isExemption]

theorem told_verifyBlock {e : Engine} {h : Handle} {b : Block}
    (hb : (h, b) ∈ e.recounted.entries) (depth : Nat) :
    Told e.heap (verifyBlock e.recounted depth h b) := by
  obtain hx | ⟨fs, hfs, hsaid⟩ := verifyBlock_cases e.recounted depth h b
  · rw [hx]
    rw [Heap.mem_entries_iff, get?_recounted] at hb
    obtain ⟨c, hc, rfl⟩ := Option.map_eq_some_iff.1 hb
    simp only [exemptEvents, describe_congr e.payload?_recounted c]
    exact .exempt hc .nil
  · rw [hfs]
    refine .findings fun f hf => ?_
    rcases hsaid f hf with hc | hp | hm
    · obtain ⟨_, _, _, _, _, rfl⟩ := of_mem_countFindings hc
      simp [Finding.isExemption]
    · obtain ⟨_, _, _, rfl⟩ := of_mem_pinFindings hp
      simp [Finding.isExemption]
    · obtain ⟨_, _, rfl | rfl⟩ := of_mem_markFindings hm <;> simp [Finding.isExemption]

theorem told_verifyEvents (e : Engine) (depth : Nat) :
    Told e.heap (verifyEvents e.recounted depth) :=
  .flatMap fun _ hb => told_verifyBlock hb depth

theorem told_resetEvents (e : Engine) (flags : Flags) :
    Told e.heap (e.resetEvents flags) := by
  refine .event (by simp [Event.ofExemption]) (.findings fun f hf => ?_)
  obtain ⟨_, _, rfl⟩ | ⟨_, _, _, rfl⟩ := of_mem_resetFindings hf <;> simp [Finding.isExemption]

theorem told_reconcileEvents (e : Engine) (census : Census) :
    Told e.heap (e.reconcileEvents census) := by
  refine .event (by simp [Event.ofExemption]) (.findings fun f hf => ?_)
  obtain ⟨_, _, _, rfl⟩ | ⟨_, _, _, rfl⟩ | ⟨_, _, rfl⟩ | ⟨_, _, _, rfl⟩ := of_mem_totals hf <;>
    simp [Finding.isExemption]

theorem told_walkAll (e : Engine) : Told e.heap e.cleared.walkAll.2 := by
  simp only [walkAll, rootProbes_cleared, scanProbes_cleared]
  refine .append (.event (by simp [Event.ofExemption]) (e.told_walk _ fun p hp => ?_))
    (.event (by simp [Event.ofExemption]) (e.told_walk _ fun p hp => ?_))
  · exact List.mem_append_left _ hp
  · exact List.mem_append_right _ hp

theorem told_audit (e : Engine) (flags : Flags) : Told e.heap (e.audit flags).2.events := by
  have hfinished : ∀ blocks findings, Told e.heap [.finished blocks findings] := fun _ _ =>
    .event (by simp [Event.ofExemption]) .nil
  obtain ⟨verbose, resetOnly⟩ := flags
  cases resetOnly with
  | true =>
    rw [audit_resetOnly]
    exact (e.told_resetEvents _).append (hfinished _ _)
  | false =>
    rw [pass_audit_full]
    have hverify : Told e.heap
        (.phase .verify :: verifyEvents e.recounted e.settings.renderDepth) :=
      .event (by simp [Event.ofExemption]) (e.told_verifyEvents _)
    exact ((((e.told_resetEvents _).append (e.told_reconcileEvents _)).append
      e.told_walkAll).append hverify).append (hfinished _ _)

/-! ## The recording of a pass -/

theorem recorded_eq_self {events : List Event} (h : ∀ event ∈ events, event.isRecorded) :
    recorded none events = events :=
  List.filter_eq_self.2 h

theorem recorded_phase (p : Phase) (events : List Event) :
    recorded none (.phase p :: events) = .phase p :: recorded none events :=
  rfl

theorem recorded_resetEvents (e : Engine) (flags : Flags) :
    recorded none (e.resetEvents flags) = e.resetEvents flags := by
  rw [resetEvents, recorded_phase, recorded_findings]

theorem recorded_reconcileEvents (e : Engine) (census : Census) :
    recorded none (e.reconcileEvents census) = e.reconcileEvents census := by
  rw [reconcileEvents, recorded_phase, recorded_findings]

theorem recorded_walkAll_cleared (e : Engine) :
    recorded none e.cleared.walkAll.2 =
      .phase .roots :: e.heap.rootEvents [] e.rootReferences
        ++ .phase .scan
          :: (findingsOf ((e.cleared.heap.walk e.rootProbes).1.walk e.scanProbes).2).map
              .finding := by
  simp only [walkAll, rootProbes_cleared, scanProbes_cleared]
  rw [recorded_append, recorded_phase, recorded_phase, recorded_walk_rootProbes]
  conv_lhs => rw [walk_scanProbes, recorded_findings]

/-- After the walk blocks are named as exempt and findings made, nothing else. -/
theorem of_mem_verifyEvents {heap : Heap} {depth : Nat} {event : Event}
    (he : event ∈ verifyEvents heap depth) :
    (∃ f, event = .finding f) ∨ ∃ h category, event = .exempt h category := by
  obtain ⟨⟨h, b⟩, -, hb⟩ := List.mem_flatMap.1 he
  change event ∈ verifyBlock heap depth h b at hb
  obtain hx | ⟨fs, hfs, -⟩ := verifyBlock_cases heap depth h b
  · rw [hx] at hb
    rcases List.mem_cons.1 hb with rfl | hb
    · exact .inr ⟨_, _, rfl⟩
    · exact .inl ⟨_, List.mem_singleton.1 hb⟩
  · rw [hfs] at hb
    obtain ⟨f, -, rfl⟩ := List.mem_map.1 hb
    exact .inl ⟨f, rfl⟩

theorem recorded_verifyEvents (heap : Heap) (depth : Nat) :
    recorded none (verifyEvents heap depth) = verifyEvents heap depth := by
  refine recorded_eq_self fun event he => ?_
  obtain ⟨f, rfl⟩ | ⟨h, category, rfl⟩ := of_mem_verifyEvents he <;> rfl

theorem findings_finishPass (flags : Flags) (census : Census) (blocks : Nat)
    (events : List Event) :
    (finishPass flags census blocks events).report.findings = findingsOf events := by
  rw [Pass.report, Pass.findings, finishPass, findingsOf_append, findingsOf_finished,
    List.append_nil]

/-- A recording ends with the numbers of the report. -/
theorem recorded_finishPass (flags : Flags) (census : Census) (blocks : Nat)
    (events : List Event) :
    recorded none (finishPass flags census blocks events).events =
      recorded none events ++
        [.finished blocks (finishPass flags census blocks events).report.findings.length] := by
  rw [findings_finishPass, finishPass, recorded_append]
  rfl

theorem recorded_audit_resetOnly (e : Engine) (verbose : Bool) :
    recorded none (e.audit ⟨verbose, true⟩).2.events =
      e.resetEvents ⟨verbose, true⟩
        ++ [.finished e.heap.live (e.audit ⟨verbose, true⟩).2.report.findings.length] := by
  rw [audit_resetOnly, recorded_finishPass, recorded_resetEvents]

/-- The recording of a full pass, phase after phase. -/
theorem recorded_audit_full (e : Engine) (verbose : Bool) :
    ∃ fromBlocks : List Finding,
      recorded none (e.audit ⟨verbose, false⟩).2.events =
        e.resetEvents ⟨verbose, false⟩ ++ e.reconcileEvents e.heap.census
          ++ .phase .roots :: e.heap.rootEvents [] e.rootReferences
          ++ .phase .scan :: (fromBlocks.map .finding
            ++ .phase .verify :: verifyEvents e.recounted e.settings.renderDepth
            ++ [.finished e.heap.live (e.audit ⟨verbose, false⟩).2.report.findings.length]) := by
  refine ⟨findingsOf ((e.cleared.heap.walk e.rootProbes).1.walk e.scanProbes).2, ?_⟩
  rw [pass_audit_full, recorded_finishPass, recorded_append, recorded_append, recorded_append,
    recorded_resetEvents, recorded_reconcileEvents, recorded_walkAll_cleared, recorded_phase,
    recorded_verifyEvents]
  simp only [List.append_assoc, List.cons_append]

/-! ## One story -/

/-- A report and a recording of the same pass. -/
structure Story (e : Engine) (flags : Flags) (report : Report) (events : List Event) : Prop where
  /-- The header, a line for every finding, and the table. -/
  text : report.text =
    (if flags.resetOnly then "" else Text.line reportHeader)
      ++ String.join (report.findings.map fun f => Text.line f.text)
      ++ if flags.verbose then e.heap.census.table else ""
  exempted : report.exempted = report.findings.countP Finding.isExemption
  blocksScanned : report.blocksScanned = e.heap.live
  phases : events.filterMap Event.phase? =
    if flags.resetOnly then [.reset] else [.reset, .reconcile, .roots, .scan, .verify]
  findings : findingsOf events = report.findings
  /-- Every root reference is announced, in order, whether or not it resolves. -/
  roots : events.filterMap Event.root? =
    if flags.resetOnly then [] else e.rootReferences.map fun r => (r.1, r.2.target)
  /-- They are announced while the roots are followed, each right before what is wrong with it. -/
  announced : ¬ flags.resetOnly → ∃ before after,
    events = before ++ .phase .roots :: e.heap.rootEvents [] e.rootReferences
      ++ .phase .scan :: after ∧
    before.filterMap Event.root? = [] ∧ after.filterMap Event.root? = []
  /-- A block is named as exempt right before it is found exempt. -/
  exemptions : ∀ before h c after, events = before ++ .exempt h c :: after →
    ∃ b rest, e.heap.get? h = some b ∧ b.category = c ∧
      after = .finding (.exempt c (describe e.heap b)) :: rest
  finished : events.getLast? = some (.finished e.heap.live report.findings.length)

theorem filterMap_recorded {α : Type} {f : Event → Option α} (hf : ∀ name, f (.consult name) = none)
    (events : List Event) : (recorded none events).filterMap f = events.filterMap f := by
  show (List.filter _ _).filterMap f = _
  rw [List.filterMap_filter]
  refine List.filterMap_congr fun event _ => ?_
  cases event <;> simp [Event.isRecorded, hf]

theorem text_audit (e : Engine) (flags : Flags) :
    (e.audit flags).2.report.text =
      (if flags.resetOnly then "" else Text.line reportHeader)
        ++ String.join ((e.audit flags).2.report.findings.map fun f => Text.line f.text)
        ++ if flags.verbose then e.heap.census.table else "" := by
  obtain ⟨verbose, resetOnly⟩ := flags
  cases resetOnly with
  | true =>
    rw [audit_resetOnly]
    cases verbose <;> rfl
  | false =>
    rw [pass_audit_full]
    cases verbose <;> rfl

theorem blocksScanned_audit (e : Engine) (flags : Flags) :
    (e.audit flags).2.report.blocksScanned = e.heap.live := by
  obtain ⟨verbose, resetOnly⟩ := flags
  cases resetOnly with
  | true => rw [audit_resetOnly]; rfl
  | false => rw [pass_audit_full]; rfl

theorem filterMap_verifyEvents {α : Type} {f : Event → Option α}
    (hfinding : ∀ g, f (.finding g) = none) (hexempt : ∀ h category, f (.exempt h category) = none)
    (heap : Heap) (depth : Nat) : (verifyEvents heap depth).filterMap f = [] := by
  refine List.filterMap_eq_nil_iff.2 fun event he => ?_
  obtain ⟨g, rfl⟩ | ⟨h, category, rfl⟩ := of_mem_verifyEvents he
  · exact hfinding g
  · exact hexempt h category

/-- The roots are announced between their phase and the next, and nowhere else. -/
theorem announced_audit (e : Engine) (verbose : Bool) :
    ∃ before after,
      recorded none (e.audit ⟨verbose, false⟩).2.events =
        before ++ .phase .roots :: e.heap.rootEvents [] e.rootReferences
          ++ .phase .scan :: after ∧
      before.filterMap Event.phase? = [.reset, .reconcile] ∧
      after.filterMap Event.phase? = [.verify] ∧
      before.filterMap Event.root? = [] ∧ after.filterMap Event.root? = [] := by
  obtain ⟨fromBlocks, hevents⟩ := e.recorded_audit_full verbose
  have hphases := fun fs => Heap.filterMap_findings (f := Event.phase?) (fun _ => rfl) fs
  have hroots := fun fs => Heap.filterMap_findings (f := Event.root?) (fun _ => rfl) fs
  have hverify := filterMap_verifyEvents (f := Event.phase?) (fun _ => rfl) (fun _ _ => rfl)
    e.recounted e.settings.renderDepth
  have hverify' := filterMap_verifyEvents (f := Event.root?) (fun _ => rfl) (fun _ _ => rfl)
    e.recounted e.settings.renderDepth
  refine ⟨_, _, hevents, ?_, ?_, ?_, ?_⟩
  · simp only [resetEvents, reconcileEvents, List.filterMap_append, List.filterMap_cons, hphases]
    rfl
  · simp only [List.filterMap_append, List.filterMap_cons, hphases, hverify]
    rfl
  · simp only [resetEvents, reconcileEvents, List.filterMap_append, List.filterMap_cons, hroots]
    rfl
  · simp only [List.filterMap_append, List.filterMap_cons, hroots, hverify']
    rfl

theorem phases_audit (e : Engine) (flags : Flags) :
    (recorded none (e.audit flags).2.events).filterMap Event.phase? =
      if flags.resetOnly then [.reset] else [.reset, .reconcile, .roots, .scan, .verify] := by
  obtain ⟨verbose, resetOnly⟩ := flags
  cases resetOnly with
  | true =>
    rw [recorded_audit_resetOnly, resetEvents, List.filterMap_append, List.filterMap_cons,
      Heap.filterMap_findings fun _ => rfl]
    rfl
  | false =>
    obtain ⟨before, after, hevents, hbefore, hafter, -⟩ := e.announced_audit verbose
    rw [hevents, List.filterMap_append, List.filterMap_append, List.filterMap_cons,
      List.filterMap_cons, Heap.filterMap_phase?_rootEvents, hbefore, hafter]
    rfl

theorem roots_audit (e : Engine) (flags : Flags) :
    (recorded none (e.audit flags).2.events).filterMap Event.root? =
      if flags.resetOnly then [] else e.rootReferences.map fun r => (r.1, r.2.target) := by
  obtain ⟨verbose, resetOnly⟩ := flags
  cases resetOnly with
  | true =>
    rw [recorded_audit_resetOnly, resetEvents, List.filterMap_append, List.filterMap_cons,
      Heap.filterMap_findings fun _ => rfl]
    rfl
  | false =>
    obtain ⟨before, after, hevents, -, -, hbefore, hafter⟩ := e.announced_audit verbose
    simp only [hevents, List.filterMap_append, List.filterMap_cons, Event.root?,
      Heap.filterMap_root?_rootEvents, hbefore, hafter, List.nil_append, List.append_nil]
    rfl

theorem getLast?_recorded_audit (e : Engine) (flags : Flags) :
    (recorded none (e.audit flags).2.events).getLast? =
      some (.finished e.heap.live (e.audit flags).2.report.findings.length) := by
  obtain ⟨verbose, resetOnly⟩ := flags
  cases resetOnly with
  | true => rw [audit_resetOnly, recorded_finishPass, List.getLast?_concat]
  | false => rw [pass_audit_full, recorded_finishPass, List.getLast?_concat]

theorem story_audit (e : Engine) (flags : Flags) :
    e.Story flags (e.audit flags).2.report (recorded none (e.audit flags).2.events) where
  text := e.text_audit flags
  exempted := (e.told_audit flags).countP_eq
  blocksScanned := e.blocksScanned_audit flags
  phases := e.phases_audit flags
  findings := filterMap_recorded (fun _ => rfl) _
  roots := e.roots_audit flags
  announced := by
    obtain ⟨verbose, resetOnly⟩ := flags
    intro hr
    obtain rfl : resetOnly = false := by simpa using hr
    obtain ⟨before, after, hevents, -, -, hbefore, hafter⟩ := e.announced_audit verbose
    exact ⟨before, after, hevents, hbefore, hafter⟩
  exemptions := fun _ _ _ _ hsplit => (e.told_audit flags).recorded.next hsplit
  finished := e.getLast?_recorded_audit flags

/-- Whoever watches a pass, its report is the same, and a recording of the pass tells the story of
that report: the phases, the findings of the text in their order, every root reference right before
what is wrong with it, every exempt block right before the note on it, and the numbers at the end.
A recording with a limit is the beginning of it. -/
theorem one_story {σ : Type} (t : Tracer σ) (e : Engine) (flags : Flags) (s : σ) :
    (e.watch t flags s).2.1 = e.reportOf flags ∧
    e.Story flags (e.reportOf flags) (e.watch (.recording none) flags []).2.2 ∧
    ∀ limit, (e.watch (.recording (some limit)) flags []).2.2 =
      (e.watch (.recording none) flags []).2.2.take limit := by
  rw [reportOf_eq]
  refine ⟨?_, ?_, fun limit => ?_⟩
  · rw [watch_eq]
  · rw [watch_eq, Tracer.foldl_hear_recording]
    exact e.story_audit flags
  · rw [watch_eq, watch_eq, Tracer.foldl_hear_recording, Tracer.foldl_hear_recording]
    rfl

end Engine

end HeapAudit
