import HeapAudit.Proofs.Audit.CleanReport
import HeapAudit.Proofs.Engine.Client

/-!
The engine's gauges against a census of its blocks.

Main definitions
* `Engine.Gauged`: counters and lists are what a census finds.

Main statements
* `Engine.Consistent.listed`: blocks that are owned alone are in the list or slot they belong to.
* `Engine.Consistent.gauged`: where clients hold counted references alone, the gauges are right.
* `Client.gauges_exact`: so they are in every run, and nothing taken off them stops at zero.
-/

namespace HeapAudit

open Reference

namespace Engine

/-- A census finds what the engine's counters and lists say. The counters have the bytes exactly, a
census what a word holds of them. -/
structure Gauged (e : Engine) : Prop where
  counters : e.counters =
    { sentences := (e.heap.tally .sentence).blocks
      objects := (e.heap.tally .object).blocks
      programs := (e.heap.tally .program).blocks
      arrays := (e.heap.tally .array).blocks
      arrayBytes := e.heap.bytesOf .array
      classes := (e.heap.tally .classInstance).blocks
      classBytes := e.heap.bytesOf .classInstance
      mappings := (e.heap.tally .mapping).blocks
      callOutBytes := e.heap.bytesOf .callOut }
  tables : (e.heap.tally .mapTable).blocks = e.counters.mappings
  callOuts : e.roots.callOuts.length = (e.heap.tally .callOut).blocks
  sessions : e.roots.sessions.length = (e.heap.tally .interactive).blocks

variable {e : Engine} {client : Multiset Reference}

theorem Gauged.gaugeFindings_eq_nil (hg : e.Gauged) : gaugeFindings e e.heap.census = [] := by
  have htables := hg.tables
  simp only [hg.counters] at htables
  simp [gaugeFindings, gaugeReadings, tableFindings, Heap.census_tally, Heap.wrap_bytesOf,
    hg.counters, hg.sessions, hg.callOuts, htables]

/-! ## Blocks that are owned alone -/

/-- The slots own every block that is owned alone and that the client does not own exactly once. -/
theorem Consistent.ownedIn_held_eq (hc : e.Consistent client) {c : Category} (ho : c.isOwned)
    (hnone : ∀ h, .owned h c ∉ client) : ownedIn c e.held = e.heap.handlesOf c := by
  ext h
  have hcount : (e.refs client).count (.owned h c) =
      (e.held : Multiset Reference).count (.owned h c) := by
    rw [refs_eq, Multiset.count_add, Multiset.count_eq_zero.2 (hnone h), Nat.add_zero]
  rw [count_ownedIn, ← hcount]
  by_cases hl : ∃ b, e.heap.get? h = some b ∧ b.category = c
  · obtain ⟨b, hb, rfl⟩ := hl
    rw [hc.balanced.owned h b hb ho, Multiset.count_eq_one_of_mem (Heap.nodup_handlesOf _ _)
      (Heap.mem_handlesOf.2 ⟨b, hb, rfl⟩)]
  · rw [Multiset.count_eq_zero.2, Multiset.count_eq_zero.2]
    · exact fun hm => hl (Heap.mem_handlesOf.1 hm)
    · exact fun hm => hl (hc.balanced.resolves _ hm (by simp [owned]))

theorem Consistent.listed (hc : e.Consistent client)
    (hcounted : ∀ ref ∈ client, ref.hold = .counted) (hp : e.heap.Plain) : e.Listed :=
  listed_of_ownedIn_held hp.wellFormed hc.unspent fun _ hentered =>
    hc.ownedIn_held_eq (Category.isOwned_of_isEntered hentered) fun _ hm => by
      simpa [owned] using hcounted _ hm

/-- Every mapping has one table. -/
theorem card_tables (hp : e.heap.Plain) :
    Multiset.card e.tables = (e.heap.tally .mapping).blocks := by
  rw [tables, Heap.gathered, Multiset.card_bind, ← Heap.total_oneOf, total]
  refine congrArg Multiset.sum (Multiset.map_congr rfl ?_)
  rintro ⟨h, b⟩ hb
  have hcar := (hp h b (Heap.mem_stock.1 hb)).1
  obtain ⟨category, size, refs, description, serial, tick, exempt, scratch, payload⟩ := b
  simp only [Function.comp_apply, Multiset.coe_card, Block.oneOf]
  cases payload with
  | mapping table =>
    rw [if_pos (Category.carries_mapping_iff.1 hcar)]
    rfl
  | _ =>
    rw [if_neg]
    · rfl
    · rintro rfl
      cases hcar

/-! ## Gauges -/

theorem Consistent.gauged (hc : e.Consistent client)
    (hcounted : ∀ ref ∈ client, ref.hold = .counted) (hp : e.heap.Plain) : e.Gauged := by
  have hlisted := hc.listed hcounted hp
  have hcounters := hc.tallied.counters.trans hp.wellFormed.ofStock_eq
  refine ⟨hcounters, ?_, ?_, ?_⟩
  · rw [hcounters, ← Heap.card_handlesOf, ← hlisted.tables, card_tables hp]
  · rw [← Heap.card_handlesOf, ← hlisted.callOuts, Multiset.coe_card]
  · rw [← Heap.card_handlesOf, ← hlisted.sessions, Multiset.coe_card]

end Engine

/-! ## Clients -/

namespace Client

variable {c : Client}

/-- Gauges are exact: a census agrees with them after any run, an audit has nothing to say of them,
and on the way no number is taken off that is not there. -/
theorem gauges_exact (hr : Reachable Command.isHelper c) :
    c.engine.Gauged ∧ gaugeFindings c.engine c.engine.heap.census = [] ∧
      ∀ d, Step Command.isHelper c d → c.engine.Course d.engine := by
  obtain ⟨hi, hp⟩ := hr.plain
  have hg := (hi.consistent.of_eq (add_zero _)).gauged hi.counted hp
  refine ⟨hg, hg.gaugeFindings_eq_nil, ?_⟩
  rintro _ ⟨cmd, hh, hpaid, hu⟩
  obtain ⟨rest, -, hl⟩ := hi.leads hh hpaid (.inr hu)
  exact hl.course

/-- A client whose object has a session and a timer; the timer carries an array, and the array a
closure that pins the object's program. -/
def timerWithClosure : Client :=
  (fresh {}).play
    [.newProgram { filename := "a.c" }, .newObject "a" ⟨1, 0⟩,
      .newClosure (.functional ⟨1, 0⟩) (some ⟨3, 0⟩) [], .newArray [.ref .function ⟨4, 0⟩],
      .callOut ⟨3, 0⟩ "tick" [.ref .array ⟨5, 0⟩] 5, .newMapping [(.number 1, .number 2)],
      .connect ⟨3, 0⟩]

theorem gauges_exact_timerWithClosure :
    Reachable Command.isHelper timerWithClosure ∧ timerWithClosure.engine.Gauged ∧
    timerWithClosure.engine.counters =
      { objects := 1, programs := 1, arrays := 1, arrayBytes := 40, mappings := 1
        callOutBytes := 64 } ∧
    gaugeFindings timerWithClosure.engine timerWithClosure.engine.heap.census = [] ∧
    timerWithClosure.engine.Course (timerWithClosure.after (.removeCallOut ⟨7, 0⟩)).engine ∧
    (timerWithClosure.after (.removeCallOut ⟨7, 0⟩)).engine.counters =
      { objects := 1, programs := 1, mappings := 1 } := by
  have hr : Reachable Command.isHelper timerWithClosure := ⟨{}, steps_play (by decide +kernel)⟩
  have hstep : Step Command.isHelper timerWithClosure
      (timerWithClosure.after (.removeCallOut ⟨7, 0⟩)) :=
    ⟨.removeCallOut ⟨7, 0⟩, rfl, by decide +kernel, by decide +kernel⟩
  obtain ⟨hg, hnone, hcourse⟩ := gauges_exact hr
  exact ⟨hr, hg, by decide +kernel, hnone, hcourse _ hstep, by decide +kernel⟩

end Client

end HeapAudit
