import HeapAudit.Proofs.Audit.Overwriting
import HeapAudit.Proofs.Audit.Pins

/-!
What a pass says of one category of blocks that are owned alone. Where the blocks that owners list
are the blocks there are, and what is in the slots resolves, it has nothing to say of them, however
many owners there are and in whichever order the pass gets to them.

Main definitions
* `Finding.concerns`: a finding about blocks of a category, or about a reference to one.
* `Engine.Resolving`: what is in the slots resolves.

Main statements
* `Heap.twice_of_mem_walk`: a block is found to have several owners when it was reached before.
* `Engine.Resolving.not_concerns_of_owned`: nothing is found that concerns the category.
-/

namespace HeapAudit

open Reference

/-- Blocks that nobody owns or that several own, references that should lead to one, and others
that do. A pin can outlive its program and, once generations wrap, come to name anything; that is
said of the program. -/
def Finding.concerns (c : Category) : Finding → Prop
  | .orphan category _ => category = c
  | .multipleOwners category _ _ => category = c
  | .dangling _ _ expected => expected = c
  | .wrongCategory _ _ expected found => expected = c ∨ found = c ∧ expected ≠ .program
  | _ => False

/-! ## Several owners -/

/-- One step finds several owners where it comes to a block that is marked. -/
theorem Heap.visited_of_followReference {heap : Heap} {o : Origin} {ref : Reference} {c : Category}
    {description : String} {origin : Origin}
    (hf : .multipleOwners c description origin ∈ findingsOf (heap.followReference o ref).2) :
    ref = .owned ref.target c ∧
      ∃ b, heap.get? ref.target = some b ∧ b.category = c ∧ b.scratch.visited := by
  rw [findingsOf_followReference] at hf
  obtain ⟨g, hg, -, hi⟩ | ⟨b, hb, -, hget, hcat⟩ := heap.resolve_eq o ref
  · rw [hg] at hf
    obtain rfl := List.mem_singleton.1 hf
    cases hi
  · rw [hb] at hf
    simp only [sharedOwner] at hf
    split at hf
    · rename_i hshared
      obtain ⟨rfl, -, -⟩ := Finding.multipleOwners.inj (List.mem_singleton.1 hf)
      refine ⟨?_, b, hget, hcat, hshared.2⟩
      rw [owned, ← hshared.1]
    · cases hf

/-- A block is found to have several owners when it was reached before, on this walk or earlier. -/
theorem Heap.twice_of_mem_walk {heap : Heap} {ps : List Probe} {c : Category}
    {description : String} {origin : Origin}
    (hreported : .multipleOwners c description origin ∉ reported ps)
    (hf : .multipleOwners c description origin ∈ findingsOf (heap.walk ps).2) :
    ∃ h b, heap.get? h = some b ∧ b.category = c ∧ .owned h c ∈ followed ps ∧
      (b.scratch.visited ∨ 2 ≤ (followed ps).count (.owned h c)) := by
  induction ps generalizing heap with
  | nil => cases hf
  | cons p ps ih =>
    have hfollowed : followed (p :: ps) = followed [p] ++ followed ps := followed_append [p] ps
    have hsplit : reported (p :: ps) = reported [p] ++ reported ps := reported_append [p] ps
    rw [hsplit, List.mem_append, not_or] at hreported
    simp only [walk_cons, findingsOf_append, List.mem_append] at hf
    rcases hf with hf | hf
    · cases p with
      | follow o ref =>
        obtain ⟨howned, b, hb, hcat, hvisited⟩ := visited_of_followReference hf
        exact ⟨ref.target, b, hb, hcat, howned ▸ List.mem_cons_self, .inl hvisited⟩
      | report g =>
        exact absurd (List.mem_singleton.1 hf ▸ List.mem_cons_self) hreported.1
      | consult name => cases hf
    · obtain ⟨h, d, hd, rfl, hin, htwice⟩ := ih hreported.2 hf
      rw [get?_follow, Option.map_eq_some_iff] at hd
      obtain ⟨b, hb, rfl⟩ := hd
      refine ⟨h, b, hb, rfl, hfollowed ▸ List.mem_append_right _ hin, ?_⟩
      have hmore : (followed ps).count (.owned h b.category) ≤
          (followed (p :: ps)).count (.owned h b.category) := by
        rw [hfollowed, List.count_append]
        exact Nat.le_add_left _ _
      rcases htwice with hvisited | htwice
      · simp only [Scratch.after, Bool.or_eq_true, decide_eq_true_eq] at hvisited
        refine hvisited.imp_right fun hfirst => ?_
        -- The step before was the first owner, and there is another one further on.
        rw [hfollowed, List.count_append]
        have hone := List.one_le_count_iff.2 hfirst
        have hother := List.one_le_count_iff.2 hin
        exact Nat.add_le_add hone hother
      · exact .inr (Nat.le_trans htwice hmore)

/-! ## Where references are found -/

theorem Heap.exists_of_mem_shown {heap : Heap} {f : Payload → List α} {a : α} {h : Handle}
    (ha : a ∈ heap.shown f h) : ∃ b, heap.get? h = some b ∧ a ∈ f b.payload := by
  unfold shown payload? at ha
  cases hb : heap.get? h with
  | none =>
    rw [hb] at ha
    cases ha
  | some b =>
    rw [hb] at ha
    exact ⟨b, rfl, ha⟩

theorem Heap.exists_of_mem_gathered {heap : Heap} {f : Payload → List α} {a : α}
    (ha : a ∈ heap.gathered f) : ∃ h b, heap.get? h = some b ∧ a ∈ f b.payload := by
  obtain ⟨⟨h, b⟩, hb, hm⟩ := Multiset.mem_bind.1 ha
  exact ⟨h, b, mem_stock.1 hb, hm⟩

namespace Engine

variable {e : Engine} {ref : Reference} {c : Category}

/-- What a pass follows is in the roots, in a block, or shown by a provider. -/
theorem cases_of_mem_enumerated (hr : ref ∈ e.enumerated.map (·.2)) :
    ref ∈ e.rootHeld.map (·.2) ∨ ref ∈ e.provided ∨
      ∃ h b, e.heap.get? h = some b ∧ ref ∈ b.payload.held e.heap := by
  have hsub : ∀ f : Payload → List Reference, (∀ p, ∀ r ∈ f p, r ∈ p.held e.heap) →
      ∀ hs : Multiset Handle, ref ∈ hs.bind (e.heap.shown f) →
        ∃ h b, e.heap.get? h = some b ∧ ref ∈ b.payload.held e.heap := by
    intro f hf hs hm
    obtain ⟨h, -, hshown⟩ := Multiset.mem_bind.1 hm
    obtain ⟨b, hb, hin⟩ := Heap.exists_of_mem_shown hshown
    exact ⟨h, b, hb, hf b.payload ref hin⟩
  have hm : ref ∈ (e.enumerated.map (·.2) : Multiset Reference) := hr
  rw [coe_enumerated] at hm
  simp only [Multiset.mem_add, Multiset.mem_coe, or_assoc] at hm
  obtain h | h | h | h | h | h | h | h := hm
  · exact .inl h
  · exact .inr (.inl h)
  · obtain ⟨k, b, hb, hin⟩ := Heap.exists_of_mem_gathered h
    refine .inr (.inr ⟨k, b, hb, ?_⟩)
    simp [Payload.held_eq, hin]
  all_goals
    refine .inr (.inr (hsub _ (fun p r hp => ?_) _ h))
    simp [Payload.held_eq, hp]

/-! ## What a pass finds -/

/-- What is in the roots and in the blocks resolves; pins need not. -/
structure Resolving (e : Engine) : Prop where
  roots : ∀ ref ∈ e.rootHeld.map (·.2), ref.hold ≠ .pinned → e.heap.Resolves ref
  slots : ∀ h b, e.heap.get? h = some b → ∀ ref ∈ b.payload.held e.heap, ref.hold ≠ .pinned →
    e.heap.Resolves ref

/-- No provider names a block of the category, or takes one for it. -/
def ProvidersSpare (e : Engine) (c : Category) : Prop :=
  ∀ ref ∈ e.provided, ref.expected ≠ c ∧ ∀ b, e.heap.get? ref.target = some b → b.category ≠ c

theorem expected_of_pinned (hr : ref ∈ e.enumerated.map (·.2)) (hp : ref.hold = .pinned) :
    ref.expected = .program := by
  have hm : ref ∈ (e.enumerated.map (·.2) : Multiset Reference).filter fun ref => isPin ref :=
    Multiset.mem_filter.2 ⟨hr, by simp [isPin, hp]⟩
  rw [filter_isPin_enumerated] at hm
  obtain ⟨_, -, rfl⟩ := Multiset.mem_map.1 hm
  rfl

/-- A reference that does not resolve is shown by a provider, or is a pin. -/
theorem Resolving.not_concerns_of_fault (hres : e.Resolving) (hprov : e.ProvidersSpare c)
    (hc : c ≠ .program) (hr : ref ∈ e.enumerated.map (·.2)) {origin : Origin} {f : Finding}
    (hf : e.heap.fault? origin ref = some f) : ¬ f.concerns c := by
  have hspared : ref.expected ≠ c ∧
      (ref.expected = .program ∨ ∀ b, e.heap.get? ref.target = some b → b.category ≠ c) := by
    by_cases hpin : ref.hold = .pinned
    · have hprogram := expected_of_pinned hr hpin
      exact ⟨fun h => hc (h.symm.trans hprogram), .inl hprogram⟩
    · rcases cases_of_mem_enumerated hr with hroot | hshown | ⟨h, b, hb, hheld⟩
      · rw [Heap.fault?_eq_none_iff.2 (hres.roots ref hroot hpin)] at hf
        cases hf
      · exact ⟨(hprov ref hshown).1, .inr (hprov ref hshown).2⟩
      · rw [Heap.fault?_eq_none_iff.2 (hres.slots h b hb ref hheld hpin)] at hf
        cases hf
  unfold Heap.fault? at hf
  cases hb : e.heap.get? ref.target with
  | none =>
    rw [hb] at hf
    cases hf
    exact hspared.1
  | some b =>
    rw [hb] at hf
    simp only at hf
    split at hf
    · cases hf
    · cases hf
      rintro (hexpected | ⟨hfound, hne⟩)
      · exact hspared.1 hexpected
      · exact hspared.2.elim hne fun h => h b hb hfound

/-- A reset-only pass looks at the blocks by themselves. -/
theorem findings_audit_resetOnly (e : Engine) (verbose : Bool) :
    (e.audit ⟨verbose, true⟩).2.report.findings = resetFindings ⟨verbose, true⟩ e.heap.blocks := by
  rw [audit_resetOnly, Pass.report, Pass.findings, finishPass]
  simp only [findingsOf_append, resetEvents, findingsOf_phase, findingsOf_finished,
    findingsOf_map_finding, List.append_nil]

/-- After the walk a category is only concerned by blocks of it that nobody owns. -/
theorem exists_unowned_of_verify {depth : Nat} {f : Finding}
    (hf : f ∈ findingsOf (verifyEvents e.recounted depth)) (hc : f.concerns c) :
    ∃ h b, e.heap.get? h = some b ∧ b.category = c ∧ .owned h c ∉ e.enumerated.map (·.2) := by
  rw [findingsOf_verifyEvents] at hf
  obtain ⟨⟨h, b⟩, hentry, hf⟩ := List.mem_flatMap.1 hf
  obtain hx | ⟨fs, hfs, hsaid⟩ := verifyBlock_cases e.recounted depth h
    { b with scratch := Scratch.after {} (followed e.probes) h b.category }
  · rw [hx] at hf
    obtain rfl := List.mem_singleton.1 hf
    cases hc
  rw [hfs, findingsOf_map_finding] at hf
  rcases hsaid f hf with hcount | hpin | hmark
  · obtain ⟨_, _, _, _, _, rfl⟩ := of_mem_countFindings hcount
    cases hc
  · obtain ⟨_, _, _, rfl⟩ := of_mem_pinFindings hpin
    cases hc
  · unfold markFindings at hmark
    split at hmark
    · rename_i hunmarked
      obtain rfl := List.mem_singleton.1 hmark
      refine ⟨h, b, Heap.mem_entries_iff.1 hentry, hc, fun hin => hunmarked.2 ?_⟩
      have hc : b.category = c := hc
      rw [← hc, ← e.followed_perm.mem_iff, owned] at hin
      simp [Scratch.after, hin]
    · split at hmark
      · obtain rfl := List.mem_singleton.1 hmark
        cases hc
      · cases hmark

/-- On the walk a category is only concerned by references that do not resolve, and by blocks of it
that are owned twice. -/
theorem twice_owned_of_walk {f : Finding} (hf : f ∈ findingsOf (e.cleared.heap.walk e.probes).2)
    (hc : f.concerns c) (hfault : ¬ f.isFault) :
    ∃ h, 2 ≤ (e.enumerated.map (·.2)).count (.owned h c) := by
  rcases Heap.of_mem_walk hf with h | ⟨category, description, origin, rfl⟩ | hreported
  · exact absurd h hfault
  · obtain rfl : category = c := hc
    have hreported : .multipleOwners category description origin ∉ reported e.probes := by
      intro hm
      rcases of_mem_reported hm with ⟨_, _, _, _, h⟩ | ⟨_, h⟩ | ⟨_, h⟩ <;> cases h
    obtain ⟨h, b, hb, -, -, hvisited | htwice⟩ := Heap.twice_of_mem_walk hreported hf
    · -- No block is marked when the walk begins.
      rw [get?_cleared, Option.map_eq_some_iff] at hb
      obtain ⟨d, -, rfl⟩ := hb
      cases hvisited
    · exact ⟨h, by rwa [e.followed_perm.count_eq] at htwice⟩
  · rcases of_mem_reported hreported with ⟨_, _, _, _, rfl⟩ | ⟨_, rfl⟩ | ⟨_, rfl⟩ <;> cases hc

theorem count_owned_le (refs : List Reference) (h : Handle) (c : Category) :
    refs.count (.owned h c) ≤ (ownedOf c refs).count h := by
  unfold ownedOf
  rw [← List.count_filter (p := fun ref : Reference => ref.hold = .owned ∧ ref.expected = c)
    (by simp [owned])]
  exact List.count_le_count_map (f := Reference.target) (x := .owned h c)

/-- Where a pass comes by every block of a category once, and by nothing else, it has nothing to
say of the category. -/
theorem Resolving.not_concerns_of_owned (hres : e.Resolving) (hprov : e.ProvidersSpare c)
    (hc : c ≠ .program) (hown : ownedIn c (e.enumerated.map (·.2)) = e.heap.handlesOf c)
    (flags : Flags) {f : Finding} (hf : f ∈ (e.audit flags).2.report.findings) :
    ¬ f.concerns c := by
  intro hconcerns
  obtain ⟨verbose, resetOnly⟩ := flags
  have hreset : ∀ flags, f ∉ resetFindings flags e.heap.blocks := by
    intro flags hm
    rcases of_mem_resetFindings hm with ⟨_, _, rfl⟩ | ⟨_, _, _, rfl⟩ <;> cases hconcerns
  cases resetOnly with
  | true => exact hreset _ (findings_audit_resetOnly e verbose ▸ hf)
  | false =>
    by_cases hfault : f.isFault
    · have hm := List.mem_filter.2 ⟨hf, hfault⟩
      rw [faults_audit] at hm
      obtain ⟨⟨origin, ref⟩, hin, hsaid⟩ := List.mem_filterMap.1 hm
      have hin := e.followedFrom_perm.mem_iff.1 hin
      exact hres.not_concerns_of_fault hprov hc (List.mem_map.2 ⟨_, hin, rfl⟩) hsaid hconcerns
    rw [findings_audit, List.mem_append, List.mem_append, List.mem_append] at hf
    rcases hf with ((hf | htotals) | hwalk) | hverify
    · exact hreset _ hf
    · rcases of_mem_totals htotals with ⟨_, _, _, rfl⟩ | ⟨_, _, _, rfl⟩ | ⟨_, _, rfl⟩ | ⟨_, _, _, rfl⟩
        <;> cases hconcerns
    · obtain ⟨h, htwice⟩ := twice_owned_of_walk hwalk hconcerns hfault
      have hnodup := e.heap.nodup_handlesOf c
      rw [← hown, ownedIn_coe, Multiset.coe_nodup] at hnodup
      have hone := List.nodup_iff_count_le_one.1 hnodup h
      have hle := count_owned_le (e.enumerated.map (·.2)) h c
      omega
    · obtain ⟨h, b, hb, hcat, hnot⟩ := exists_unowned_of_verify hverify hconcerns
      have hm : h ∈ e.heap.handlesOf c := Heap.mem_handlesOf.2 ⟨b, hb, hcat⟩
      rw [← hown, mem_ownedIn] at hm
      exact hnot hm

end Engine

end HeapAudit
