import HeapAudit.Proofs.Engine.Gauges

/-!
What an audit has to say of an engine whose client follows its references.

The slots and the client hold every reference between them, so a stored count is too high by as
many references as the client holds, and nothing else is out of order. Ceilings and the notes on
objects have nothing to do with references.

Main definitions
* `Heap.Loaded`: the programs that anonymous code was compiled into are still there.
* `Engine.blamed`: the mismatches that references in no slot give rise to.
* `Engine.Accounted`: an engine and a client that hold every reference between them.

Main statements
* `Engine.Accounted.followed_eq`: a pass follows all references but those of the client that no
  provider shows.
* `Client.blames_only_held`: the findings of a full pass, to the last one.
-/

namespace HeapAudit

open Reference

theorem Category.not_isTransient_of_isSettled {c : Category} (hc : c.isSettled) :
    ¬ c.isTransient := by
  revert hc
  cases c <;> decide

theorem Category.ne_ed_of_isSettled {c : Category} (hc : c.isSettled) : c ≠ .ed := by
  rintro rfl
  cases hc

theorem Category.isOwned_of_requiresMark {c : Category} (hc : c.isSettled)
    (hm : c.requiresMark) : c.isOwned := by
  revert hc hm
  cases c <;> decide

/-- Anonymous code still has the program it was compiled into. -/
def Heap.Loaded (heap : Heap) : Prop :=
  ∀ k b c p, heap.get? k = some b → b.payload = .closure c → c.kind = .functional p →
    heap.isLive p

instance (heap : Heap) : Decidable heap.Loaded :=
  decidable_of_iff
    (∀ x ∈ heap.entries, ∀ p ∈ x.2.payload.compiledInto?, heap.isLive p) <| by
    simp only [Prod.forall, Heap.mem_entries_iff, Option.mem_def,
      Payload.compiledInto?_eq_some_iff]
    exact ⟨fun h k b c p hb hc hk => h k b hb p ⟨c, hc, hk⟩,
      fun h k b hb p ⟨c, hc, hk⟩ => h k b c p hb hc hk⟩

namespace Engine

/-- What a pass notes on an object that runs no program or is on no list. -/
def objectNotes (e : Engine) (h : Handle) (b : Block) : List Finding :=
  match b.payload with
  | .object ob =>
    (if ob.program.isNone then [.swapped ((e.heap.ownText? ob.name).getD "<unnamed>")] else [])
      ++ if e.isListed h then [] else [.notInObjectList ((e.heap.objectName? h).getD "<unnamed>")]
  | _ => []

/-- The mismatches of blocks that `loose` holds without a slot: each is said to be counted too high
by as many references. -/
def blamed (e : Engine) (loose : Multiset Reference) : List Finding :=
  e.heap.entries.flatMap fun (h, b) =>
    let k := loose.count (.counted h b.category)
    if k = 0 then []
    else
      [.countMismatch b.category (describe e.heap b) b.refs (b.refs - k)
        (shownContents e.heap e.settings.renderDepth b)]

/-- An engine in order, every block with its payload, and a client of counted references. The
providers show some of these. -/
structure Accounted (e : Engine) (client : Multiset Reference) : Prop where
  consistent : e.Consistent client
  counted : ∀ ref ∈ client, ref.hold = .counted
  plain : e.heap.Plain
  shown : (e.provided : Multiset Reference) ≤ client

variable {e : Engine} {client : Multiset Reference}

/-! ## References that resolve -/

theorem Accounted.resolves (ha : e.Accounted client) (hl : e.heap.Loaded) (hu : e.heap.Unaliased)
    {ref : Reference} (hr : ref ∈ e.refs client) : e.heap.Resolves ref := by
  have hc := ha.consistent
  by_cases hpin : ref.hold = .pinned
  · obtain ⟨k, b, c, p, hb, hpay, hp, rfl⟩ :=
      exists_closure_of_pinned (fun ref hm => by simp [ha.counted ref hm]) hr hpin
    rcases Closure.pinned?_eq_some hp with hkind | ⟨ob, d, o, -, hob, hd, hrun⟩
    · obtain ⟨q, hq⟩ := Heap.isLive_iff.1 (hl k b c p hb hpay hkind)
      obtain ⟨r, hr⟩ := (hc.orderly.anchored k b c hb hpay).compiled p hp q hq
        (hu k b c p q hb hpay hkind hq)
      exact ⟨q, hq, (hc.orderly.sound p q hq).category_program hr⟩
    · exact live_of_run hc hob hd hrun
  · exact hc.balanced.resolves ref hr hpin

/-- A pass follows what is in the slots and what the providers show; of all references only those
of the client that no provider shows are left out. -/
theorem Accounted.followed_eq (ha : e.Accounted client) :
    e.refs client = ↑(followed e.probes) + (client - ↑e.provided) := by
  rw [Multiset.coe_eq_coe.2 e.followed_perm,
    coe_enumerated_of_listed ha.plain.wellFormed (ha.consistent.listed ha.counted ha.plain), refs_eq,
    add_assoc,
    add_tsub_cancel_of_le ha.shown]

/-! ## Phases with nothing to say -/

theorem Accounted.resetFindings_eq_nil (ha : e.Accounted client) (flags : Flags) :
    resetFindings flags e.heap.blocks = [] := by
  refine List.flatMap_eq_nil_iff.2 fun b hb => ?_
  obtain ⟨⟨h, b⟩, hentry, rfl⟩ := List.mem_map.1 hb
  have hget := Heap.mem_entries_iff.1 hentry
  have htransient : ¬ b.category.isTransient :=
    Category.not_isTransient_of_isSettled (ha.plain h b hget).2
  have hlength : lengthFindings b.payload = [] := by
    cases hpay : b.payload with
    | privateText content declared =>
      have hs := ha.consistent.orderly.sound h b hget
      exact if_pos (hs.proper.declared content declared hpay)
    | _ => rfl
  rw [hlength, List.append_nil]
  exact if_neg fun ht => htransient ht.1

/-! ## The walk -/

theorem Accounted.entered (ha : e.Accounted client) (hl : e.heap.Loaded)
    (hu : e.heap.Unaliased) : e.cleared.heap.Entered (followed e.probes) := by
  have hbal := ha.consistent.balanced
  have heq := ha.followed_eq
  have hmem : ∀ ref ∈ followed e.probes, ref ∈ e.refs client := fun ref hr => by
    rw [heq]
    exact Multiset.mem_add.2 (.inl (Multiset.mem_coe.2 hr))
  refine ⟨?_, ?_, ?_⟩
  · exact fun ref hr => (resolves_cleared e ref).2 (ha.resolves hl hu (hmem ref hr))
  · refine List.nodup_iff_count_le_one.2 ?_
    rintro ⟨hold, h, c⟩
    by_cases hm : (⟨hold, h, c⟩ : Reference) ∈
        (followed e.probes).filter fun ref => ref.hold = .owned
    · obtain ⟨hin, hhold⟩ := List.mem_filter.1 hm
      obtain rfl : hold = .owned := by simpa using hhold
      obtain ⟨b, hb, hcat⟩ := ha.resolves hl hu (hmem _ hin)
      have hone := hbal.owned h b hb (by rw [hcat]; exact hbal.fits _ (hmem _ hin))
      have hle : (followed e.probes).count (.owned h b.category) ≤ 1 := by
        rw [← hone, heq, Multiset.count_add, Multiset.coe_count]
        exact Nat.le_add_right _ _
      rw [hcat] at hle
      rw [List.count_filter (by simp)]
      exact hle
    · rw [List.count_eq_zero.2 hm]
      exact Nat.zero_le 1
  · intro ref _ _ b hb
    rw [get?_cleared, Option.map_eq_some_iff] at hb
    obtain ⟨a, -, rfl⟩ := hb
    rfl

theorem blockReports_eq (hc : e.Consistent client) {h : Handle} {b : Block}
    (hb : e.heap.get? h = some b) : e.blockReports h b = e.objectNotes h b := by
  cases hpay : b.payload with
  | slots items =>
    have hsize := (hc.orderly.sound h b hb).size items hpay
    simp [blockReports, objectNotes, hpay, sizeFindings, hsize]
  | _ => simp only [blockReports, objectNotes, hpay]

/-- On the way a pass only has notes on objects. -/
theorem Accounted.findingsOf_walk_eq (ha : e.Accounted client) (hl : e.heap.Loaded)
    (hu : e.heap.Unaliased) :
    findingsOf (e.cleared.heap.walk e.probes).2 =
      e.heap.entries.flatMap fun p => e.objectNotes p.1 p.2 := by
  rw [Heap.findingsOf_walk_of_entered (ha.entered hl hu), reported_probes]
  exact List.flatMap_congr fun p hp => blockReports_eq ha.consistent (Heap.mem_entries_iff.1 hp)

/-! ## The comparison -/

/-- A stored count is too high by what the client holds and no provider shows. -/
theorem Accounted.refs_eq_add (ha : e.Accounted client) {h : Handle} {b : Block}
    (hb : e.heap.get? h = some b) (hcounted : b.category.isCounted) :
    b.refs = (followed e.probes).count (.counted h b.category)
      + (client - ↑e.provided).count (.counted h b.category) := by
  have hne : b.payload ≠ .blank := fun hpay => by
    have hcar := (ha.plain h b hb).1
    rw [hpay] at hcar
    revert hcounted hcar
    cases b.category <;> decide
  rw [ha.consistent.balanced.counted h b hb hcounted, Payload.surplus_eq_zero hne, Nat.add_zero,
    ha.followed_eq, Multiset.count_add, Multiset.coe_count]

/-- What is no counted reference is in the slots, and a pass finds it. -/
theorem Accounted.count_followed_of_ne (ha : e.Accounted client) {ref : Reference}
    (hne : ref.hold ≠ .counted) :
    (followed e.probes).count ref = (e.refs client).count ref := by
  have hloose : (client - ↑e.provided).count ref = 0 :=
    Multiset.count_eq_zero.2 fun hm =>
      hne (ha.counted ref (Multiset.mem_of_le (Multiset.sub_le_self _ _) hm))
  rw [ha.followed_eq, Multiset.count_add, hloose, Multiset.coe_count, Nat.add_zero]

/-- A program has as many pins as a pass finds closures. -/
theorem Accounted.pinFindings_eq_nil (ha : e.Accounted client) {h : Handle} {b : Block}
    (hb : e.heap.get? h = some b) (heap : Heap) :
    pinFindings heap
      { b with scratch := Scratch.after {} (followed e.probes) h b.category } = [] := by
  unfold pinFindings
  cases hpay : b.payload with
  | program p =>
    have hcat := (ha.consistent.orderly.sound h b hb).category_program hpay
    have hpinned := ha.consistent.balanced.pinned h b p hb hpay
    rw [← ha.count_followed_of_ne (by simp [pinned])] at hpinned
    simp only [Scratch.after, Nat.zero_add, hcat]
    exact if_pos hpinned
  | _ => rfl

/-- What has to be reached is reached, and nobody edits. -/
theorem Accounted.markFindings_eq_nil (ha : e.Accounted client) {h : Handle} {b : Block}
    (hb : e.heap.get? h = some b) (heap : Heap) :
    markFindings heap
      { b with scratch := Scratch.after {} (followed e.probes) h b.category } = [] := by
  have hset := (ha.plain h b hb).2
  have hvisited : b.category.requiresMark →
      (Scratch.after {} (followed e.probes) h b.category).visited := by
    intro hmark
    have hone := ha.consistent.balanced.owned h b hb (Category.isOwned_of_requiresMark hset hmark)
    rw [← ha.count_followed_of_ne (by simp [owned])] at hone
    have hm : .owned h b.category ∈ followed e.probes := by
      refine List.count_pos_iff.1 ?_
      omega
    simp [Scratch.after, show (⟨.owned, h, b.category⟩ : Reference) ∈ followed e.probes from hm]
  unfold markFindings
  rw [if_neg fun hm => hm.2 (hvisited hm.1), if_neg (Category.ne_ed_of_isSettled hset)]

/-- After the walk a block is blamed for what the client holds of it, and for nothing else. -/
theorem Accounted.findingsOf_verifyBlock_eq (ha : e.Accounted client) {h : Handle} {b : Block}
    (hb : e.heap.get? h = some b) (depth : Nat) :
    findingsOf (verifyBlock e.recounted depth h
        { b with scratch := Scratch.after {} (followed e.probes) h b.category }) =
      if (client - ↑e.provided).count (.counted h b.category) = 0 then []
      else
        [.countMismatch b.category (describe e.heap b) b.refs
          (b.refs - (client - ↑e.provided).count (.counted h b.category))
          (shownContents e.heap depth b)] := by
  have hc := ha.consistent
  unfold verifyBlock
  by_cases hcounted : b.category.isCounted
  · have hrefs := ha.refs_eq_add hb hcounted
    have hexempt : ¬ b.exempt = true := by simp [(hc.orderly.sound h b hb).exempt]
    rw [if_pos hcounted, if_neg hexempt, ha.pinFindings_eq_nil hb, List.append_nil,
      findingsOf_map_finding]
    unfold countFindings
    rw [describe_congr e.payload?_recounted, shownContents_congr e.payload?_recounted]
    simp only [Scratch.after, Nat.zero_add]
    rw [show (⟨.counted, h, b.category⟩ : Reference) = .counted h b.category from rfl]
    by_cases hk : (client - ↑e.provided).count (.counted h b.category) = 0
    · rw [if_pos hk, if_pos (by omega)]
    · rw [if_neg hk, if_neg (by omega), show (followed e.probes).count (.counted h b.category) =
        b.refs - (client - ↑e.provided).count (.counted h b.category) by omega]
  · have hk : (client - ↑e.provided).count (.counted h b.category) = 0 :=
      Multiset.count_eq_zero.2 fun hm => hcounted (hc.balanced.fits _
        (mem_refs_of_client (Multiset.mem_of_le (Multiset.sub_le_self _ _) hm)))
    rw [if_neg hcounted, if_pos hk, findingsOf_map_finding, ha.markFindings_eq_nil hb]

theorem Accounted.findingsOf_verify_eq (ha : e.Accounted client) :
    findingsOf (verifyEvents e.recounted e.settings.renderDepth) =
      e.blamed (client - ↑e.provided) := by
  rw [findingsOf_verifyEvents]
  exact List.flatMap_congr fun p hm =>
    ha.findingsOf_verifyBlock_eq (Heap.mem_entries_iff.1 hm) _

end Engine

/-! ## Clients -/

namespace Client

/-- No false alarm: whatever a client of the helpers did that follows its references, a full pass
has found ceilings that are passed, notes on objects, and for every block the client holds
references to that no provider shows, that it is counted too high by these. -/
theorem blames_only_held {c : Client} (hr : Reachable Command.isHelper c)
    (hprov : (c.engine.provided : Multiset Reference) ≤ c.ledger) (hl : c.engine.heap.Loaded)
    (verbose : Bool) :
    (c.engine.audit ⟨verbose, false⟩).2.report.findings =
      ceilingFindings c.engine.heap.census c.engine.settings.ceilings
        ++ c.engine.heap.entries.flatMap (fun p => c.engine.objectNotes p.1 p.2)
        ++ c.engine.blamed (c.ledger - ↑c.engine.provided) := by
  obtain ⟨hi, hp⟩ := hr.plain
  have ha : c.engine.Accounted c.ledger :=
    ⟨hi.consistent.of_eq (add_zero _), hi.counted, hp, hprov⟩
  rw [Engine.findings_audit, ha.resetFindings_eq_nil,
    (ha.consistent.gauged ha.counted ha.plain).gaugeFindings_eq_nil,
    ha.consistent.tallied.tracks.stringFindings_eq_nil, ha.findingsOf_walk_eq hl hr.unaliased,
    ha.findingsOf_verify_eq]
  simp only [List.nil_append, List.append_nil]

/-- A client that holds a program and an array. The array, shown by a provider, holds a closure
compiled into the program, which an object runs. -/
def programAndArray : Client :=
  (fresh {}).play
    [.newProgram { filename := "a.c" }, .newObject "a" ⟨1, 0⟩,
      .newClosure (.functional ⟨1, 0⟩) (some ⟨3, 0⟩) [.number 7],
      .newArray [.ref .function ⟨5, 0⟩], .register ⟨"cache", [.counted ⟨6, 0⟩ .array]⟩]

theorem blames_only_held_programAndArray :
    Reachable Command.isHelper programAndArray ∧
    (programAndArray.engine.provided : Multiset Reference) ≤ programAndArray.ledger ∧
    programAndArray.engine.heap.Loaded ∧
    (programAndArray.engine.audit ⟨false, false⟩).2.report.findings =
      [.countMismatch .program "a.c" 2 1 none] := by
  have hr : Reachable Command.isHelper programAndArray :=
    ⟨{}, steps_play (by decide +kernel)⟩
  have hprov : (programAndArray.engine.provided : Multiset Reference) ≤ programAndArray.ledger := by
    decide +kernel
  have hl : programAndArray.engine.heap.Loaded := by decide +kernel
  exact ⟨hr, hprov, hl, (blames_only_held hr hprov hl false).trans (by decide +kernel)⟩

end Client

end HeapAudit
