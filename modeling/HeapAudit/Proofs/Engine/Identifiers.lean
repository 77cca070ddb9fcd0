import HeapAudit.Proofs.Audit.Concerns
import HeapAudit.Proofs.Engine.Gauges
import HeapAudit.Proofs.Engine.IdentTables
import HeapAudit.Proofs.Engine.Lockstep

/-!
Identifier tables over whole runs. Whatever else a client does, and however often tables are made
and dropped in between, every identifier block there is belongs to one table, and to one only. So a
pass has nothing to say of them, and a table that is dropped takes its own blocks and no others.

Main definitions
* `Heap.identBlocks`: the identifier blocks of all tables.
* `Client.Turn`, `Client.Compiling`: runs in which tables come and go.

Main statements
* `Engine.Consistent.identBlocks_eq`: the tables own every identifier block there is, each once.
* `Engine.Consistent.release_identTable`: dropping a table keeps the engine in order.
* `Client.identTables_exact`: tables are made, audited and dropped, and nothing is lost or shared.
-/

namespace HeapAudit

open Reference

/-! ## The blocks of all tables -/

/-- The identifier blocks of a table. -/
def Payload.identBlocks : Payload → List Handle
  | .identTable t => t.blocks
  | _ => []

/-- The identifier blocks of all tables there are. -/
def Heap.identBlocks (heap : Heap) : Multiset Handle := heap.gathered Payload.identBlocks

theorem Payload.ownedOf_permIdent_held (heap : Heap) {p : Payload} (hp : p.Proper) :
    ownedOf .permIdent (p.held heap) = p.identBlocks := by
  cases p with
  | identTable t =>
    rw [held, IdentTable.held_eq_released (hp.idents t rfl), ownedOf_map_owned]
    rfl
  | _ =>
    rw [← ownedOf_uncounted, uncounted_held]
    simp [holdsAlone, identBlocks, ownedOf_cons_owned, ownedOf_map_owned]

/-- Tables are scanned wherever they are. -/
theorem Payload.ownedOf_permIdent_direct (heap : Heap) {p : Payload} (hp : p.Proper) :
    ownedOf .permIdent (p.direct heap) = p.identBlocks := by
  rw [← ownedOf_permIdent_held heap hp]
  cases p with
  | mapTable | mapNode | sentence | session | callOut =>
    rw [← ownedOf_uncounted _ (Payload.held _ _), uncounted_held]
    simp [direct, holdsAlone, ownedOf_map_owned]
  | _ => rfl

theorem Roots.ownedOf_permIdent_held (failString : Option Handle) (r : Roots) :
    ownedOf .permIdent ((r.held failString).map (·.2)) = [] := by
  rw [← ownedOf_uncounted]
  simp [Roots.held, map_snd_underRoot, ownedOf_map_owned]

/-- Tables name blocks for permanent identifiers only. -/
def Heap.Proper (heap : Heap) : Prop := ∀ h b, heap.get? h = some b → b.payload.Proper

theorem Heap.Proper.ownedIn_permIdent_gathered {heap : Heap} (hp : heap.Proper)
    {f : Payload → List Reference}
    (hf : ∀ p : Payload, p.Proper → ownedOf .permIdent (f p) = p.identBlocks) :
    ownedIn .permIdent (heap.gathered f) = heap.identBlocks := by
  rw [ownedIn_gathered]
  exact Multiset.bind_congr fun p hm => congrArg _ (hf _ (hp p.1 p.2 (mem_stock.1 hm)))

namespace Engine

variable {e : Engine} {client : Multiset Reference} {h : Handle} {b : Block}

theorem ownedIn_permIdent_roots (e : Engine) :
    ownedIn .permIdent (e.rootHeld.map (·.2) : Multiset Reference) = 0 := by
  rw [ownedIn_coe, rootHeld, Roots.ownedOf_permIdent_held, Multiset.coe_nil]

/-- A pass comes by the blocks of all tables, and by what the providers show. -/
theorem ownedIn_permIdent_enumerated (hp : e.heap.Proper) :
    ownedIn .permIdent (e.enumerated.map (·.2)) =
      e.heap.identBlocks + ownedIn .permIdent e.provided := by
  rw [coe_enumerated]
  simp only [ownedIn_add, ownedIn_bind, Heap.ownedIn_shown, ownedIn_permIdent_roots,
    hp.ownedIn_permIdent_gathered fun _ hp => Payload.ownedOf_permIdent_direct e.heap hp,
    Payload.ownedOf_ofTable, Payload.ownedOf_ofNode, Payload.ownedOf_ofSentence,
    Payload.ownedOf_ofCallOut, Payload.ownedOf_ofSession]
  simp [Heap.bind_shown_nil, add_comm]

/-- Where the tables own every identifier block there is, a pass finds them all in order. -/
theorem Resolving.not_concerns_permIdent (hres : e.Resolving) (hp : e.heap.Proper)
    (hprov : e.ProvidersSpare .permIdent)
    (hown : e.heap.identBlocks = e.heap.handlesOf .permIdent) (flags : Flags) {f : Finding}
    (hf : f ∈ (e.audit flags).2.report.findings) : ¬ f.concerns .permIdent := by
  refine hres.not_concerns_of_owned hprov (by decide) ?_ flags hf
  have hnone : ownedIn .permIdent e.provided = 0 := by
    refine Multiset.eq_zero_of_forall_notMem fun h hm => ?_
    exact (hprov _ (mem_ownedIn.1 hm)).1 rfl
  rw [ownedIn_permIdent_enumerated hp, hnone, add_zero, hown]

/-! ## Engines in order -/

theorem Consistent.proper (hc : e.Consistent client) : e.heap.Proper :=
  fun h b hb => (hc.orderly.sound h b hb).proper

theorem Consistent.resolving (hc : e.Consistent client) : e.Resolving := by
  refine ⟨fun ref hr hpin => ?_, fun h b hb ref hr hpin => ?_⟩
  · refine hc.balanced.resolves ref ?_ hpin
    exact Multiset.mem_add.2 (.inr (Multiset.mem_add.2 (.inl hr)))
  · exact hc.balanced.resolves ref (mem_refs_of_slot hb hr) hpin

/-- The tables own every identifier block there is, each once. -/
theorem Consistent.identBlocks_eq (hc : e.Consistent client)
    (hnone : ∀ h, .owned h .permIdent ∉ client) :
    e.heap.identBlocks = e.heap.handlesOf .permIdent := by
  have hown := hc.ownedIn_held_eq rfl hnone
  rwa [coe_held, ownedIn_add, ownedIn_permIdent_roots, zero_add,
    hc.proper.ownedIn_permIdent_gathered fun _ hp => Payload.ownedOf_permIdent_held e.heap hp]
    at hown

/-! ## Tables by themselves -/

/-- What there is to know of the identifier blocks: they are what the tables own, and leaves. -/
structure IdentsInOrder (e : Engine) : Prop where
  proper : e.heap.Proper
  resolving : e.Resolving
  owned : e.heap.identBlocks = e.heap.handlesOf .permIdent
  table : ∀ h b t, e.heap.get? h = some b → b.payload = .identTable t → b.category = .identTable
  leaf : ∀ h b, e.heap.get? h = some b → b.category = .permIdent → b.payload.isLeaf

theorem Consistent.category_identTable (hc : e.Consistent client) (hb : e.heap.get? h = some b)
    {t : IdentTable} (hp : b.payload = .identTable t) : b.category = .identTable := by
  have hcar := (hc.orderly.sound h b hb).carries (by simp [hp])
  rw [hp] at hcar
  revert hcar
  cases b.category <;> simp [Category.carries]

theorem Consistent.identsInOrder (hc : e.Consistent client)
    (hnone : ∀ h, .owned h .permIdent ∉ client) : e.IdentsInOrder := by
  refine ⟨hc.proper, hc.resolving, hc.identBlocks_eq hnone,
    fun h b t hb hp => hc.category_identTable hb hp, fun h b hb hcat => ?_⟩
  have hcar := (hc.orderly.sound h b hb).carries
  rw [hcat] at hcar
  cases hp : b.payload with
  | blank | text => rfl
  | _ =>
    rw [hp] at hcar
    cases hcar (by simp)

/-- The blocks of a table are there, each a block of its own. -/
theorem IdentsInOrder.blocks (hi : e.IdentsInOrder) (hb : e.heap.get? h = some b) {t : IdentTable}
    (hp : b.payload = .identTable t) :
    t.blocks.Nodup ∧ ∀ k ∈ t.blocks, k ≠ h ∧ ∃ d, e.heap.get? k = some d ∧ d.payload.isLeaf := by
  have hle : (t.blocks : Multiset Handle) ≤ e.heap.identBlocks := by
    unfold Heap.identBlocks Heap.gathered
    rw [Heap.stock_eq_cons_others hb, Multiset.cons_bind, hp]
    exact Multiset.le_add_right _ _
  rw [hi.owned] at hle
  refine ⟨Multiset.coe_nodup.1 (Multiset.nodup_of_le hle (e.heap.nodup_handlesOf _)), ?_⟩
  intro k hk
  obtain ⟨d, hd, hcat⟩ := Heap.mem_handlesOf.1 (Multiset.mem_of_le hle hk)
  refine ⟨?_, d, hd, hi.leaf k d hd hcat⟩
  rintro rfl
  rw [hb] at hd
  cases hd
  rw [hi.table k b t hb hp] at hcat
  cases hcat

/-- A table that is dropped takes its own blocks and no others. -/
theorem IdentsInOrder.loses_release (hi : e.IdentsInOrder) (hb : e.heap.get? h = some b)
    {t : IdentTable} (hp : b.payload = .identTable t) (hlast : ¬ 1 < b.refs) :
    e.Loses (e.release h) (h :: t.blocks) := by
  obtain ⟨hn, hblocks⟩ := hi.blocks hb hp
  exact Engine.loses_release hb (hi.table h b t hb hp) hp hlast hn hblocks

end Engine

/-! ## Loose engines -/

theorem Payload.Proper.of_loose {p : Payload} (hp : p.loose.Proper) : p.Proper := by
  cases p with
  | closure | program => exact ⟨by simp, by simp⟩
  | _ => exact hp

theorem Payload.isLeaf_loose (p : Payload) : p.loose.isLeaf = p.isLeaf := by
  cases p <;> rfl

theorem Payload.identBlocks_loose (p : Payload) : p.loose.identBlocks = p.identBlocks := by
  cases p <;> rfl

namespace Heap

variable (heap : Heap)

theorem sentenceOf?_loose (h : Handle) : heap.loose.sentenceOf? h = heap.sentenceOf? h := by
  unfold sentenceOf?
  rw [payload?_loose]
  cases heap.payload? h with
  | none => rfl
  | some p => cases p <;> rfl

/-- Pins apart, a loose heap holds what the heap holds. -/
theorem mem_held_loose {heap : Heap} {p : Payload} {ref : Reference} (hr : ref ∈ p.held heap)
    (hpin : ref.hold ≠ .pinned) : ref ∈ p.loose.held heap.loose := by
  cases p with
  | closure c =>
    rcases List.mem_append.1 hr with hr | hr
    · exact List.mem_append_left _ hr
    · obtain ⟨_, -, rfl⟩ := List.mem_map.1 hr
      exact absurd rfl hpin
  | session s =>
    have hsame : s.held heap.loose = s.held heap :=
      Session.held_congr fun k _ => heap.sentenceOf?_loose k
    show ref ∈ (s.held heap.loose).map (·.2)
    rw [hsame]
    exact hr
  | _ => exact hr

theorem resolves_loose (ref : Reference) : heap.loose.Resolves ref ↔ heap.Resolves ref := by
  unfold Resolves
  rw [get?_loose]
  cases heap.get? ref.target <;> simp [Block.loose]

theorem stock_loose : heap.loose.stock = heap.stock.map fun p => (p.1, p.2.loose) := by
  rw [stock, stock, loose, entries_mapBlocks, Multiset.map_coe]

theorem identBlocks_loose : heap.loose.identBlocks = heap.identBlocks := by
  unfold identBlocks gathered
  rw [stock_loose, Multiset.bind_map]
  exact Multiset.bind_congr fun p _ => congrArg _ p.2.payload.identBlocks_loose

theorem handlesOf_loose (c : Category) : heap.loose.handlesOf c = heap.handlesOf c := by
  unfold handlesOf
  rw [stock_loose, Multiset.filter_map, Multiset.map_map]
  rfl

end Heap

namespace Engine

variable {e : Engine} {client : Multiset Reference} {h : Handle} {b : Block}

theorem get?_loose_of_some (hb : e.heap.get? h = some b) : e.loose.heap.get? h = some b.loose := by
  simp [hb]

/-- What closures call has nothing to do with tables. -/
theorem identsInOrder_of_loose (hi : e.loose.IdentsInOrder) : e.IdentsInOrder := by
  have hpayload : ∀ {b : Block} {t : IdentTable}, b.payload = .identTable t →
      b.loose.payload = .identTable t := fun h => congrArg Payload.loose h
  refine ⟨fun h b hb => (hi.proper h b.loose (get?_loose_of_some hb)).of_loose, ⟨?_, ?_⟩, ?_, ?_, ?_⟩
  · intro ref hr hpin
    exact (e.heap.resolves_loose ref).1 (hi.resolving.roots ref hr hpin)
  · intro h b hb ref hr hpin
    exact (e.heap.resolves_loose ref).1 (hi.resolving.slots h b.loose (get?_loose_of_some hb) ref
      (Heap.mem_held_loose hr hpin) hpin)
  · have hown := hi.owned
    rwa [loose_heap, Heap.identBlocks_loose, Heap.handlesOf_loose] at hown
  · intro h b t hb hp
    exact hi.table h b.loose t (get?_loose_of_some hb) (hpayload hp)
  · intro h b hb hcat
    have hleaf := hi.leaf h b.loose (get?_loose_of_some hb) hcat
    rwa [Block.loose, Payload.isLeaf_loose] at hleaf

end Engine

/-! ## Dropping a table -/

namespace Heap

variable {heap : Heap} {refs outside : Multiset Reference} {h : Handle}

/-- A pin of something that is no program makes no difference. -/
theorem Balanced.idle_pin (hbal : heap.Balanced refs)
    (hn : ∀ b p, heap.get? h = some b → b.payload ≠ .program p) :
    heap.Balanced (.pinned h ::ₘ refs) := by
  refine ⟨?_, ?_, ?_, ?_, ?_⟩
  · intro ref hr hpin
    rcases Multiset.mem_cons.1 hr with rfl | hr
    · exact absurd rfl hpin
    · exact hbal.resolves ref hr hpin
  · intro ref hr
    rcases Multiset.mem_cons.1 hr with rfl | hr
    · rfl
    · exact hbal.fits ref hr
  · intro k c hk hc
    rw [hbal.counted k c hk hc, Multiset.count_cons_of_ne (by rintro h; cases h)]
  · intro k c hk ho
    rw [← hbal.owned k c hk ho, Multiset.count_cons_of_ne (by rintro h; cases h)]
  · intro k c p hk hp
    rw [hbal.pinned k c p hk hp, Multiset.count_cons_of_ne]
    rintro h
    cases h
    exact hn c p hk hp

theorem Orderly.idle_pin (ho : heap.Orderly outside)
    (hn : ∀ b p, heap.get? h = some b → b.payload ≠ .program p) :
    heap.Orderly (.pinned h ::ₘ outside) := by
  refine ⟨ho.sound, ho.anchored, ho.bounded, ?_⟩
  rw [Multiset.add_cons]
  exact ho.balanced.idle_pin hn

end Heap

namespace Engine

variable {e : Engine} {client : Multiset Reference} {h : Handle} {b : Block} {t : IdentTable}

/-- No reference leads to a table, so nothing stands in the way of its departure. -/
theorem exists_parting_of_identTable (hc : e.Consistent client) (hb : e.heap.get? h = some b)
    (hp : b.payload = .identTable t) : ∃ rest, e.Parting h b rest client := by
  obtain ⟨rest, hr⟩ := Heap.exists_remove hb
  have hcat := hc.category_identTable hb hp
  refine ⟨rest, hr, ?_, by rw [hp]; rfl, .pinned h, rfl, ?_, hc.tallied, hc.failing, hc.unspent⟩
  · rintro ref hm hpin rfl
    obtain ⟨d, hd, hexpected⟩ := hc.balanced.resolves ref hm hpin
    have hfits := hc.balanced.fits ref hm
    rw [hb] at hd
    cases hd
    obtain ⟨hold, target, expected⟩ := ref
    obtain rfl : expected = .identTable := hexpected.symm.trans hcat
    cases hold with
    | counted => cases hfits
    | owned => cases hfits
    | pinned => exact hpin rfl
  · rw [Multiset.add_cons]
    refine hc.orderly.idle_pin fun d p hd hprogram => ?_
    rw [hb] at hd
    cases hd
    rw [hp] at hprogram
    cases hprogram

/-- What is left when a release has taken a block out are the parts of that block. -/
theorem settles_release_of_last {mid : Engine} (hd : e.drop h = (some b, mid)) :
    Settlement (mid.unaccount b, ↑(b.payload.parts (mid.unaccount b).heap)) (e.release h, 0) := by
  have hapart := settles_dismantle b ⟨mid, []⟩ 0
  have hback := settles_releaseAll (dismantle b ⟨mid, []⟩).engine (dismantle b ⟨mid, []⟩).pending 0
  rw [show Cascade.due ⟨mid, []⟩ = 0 from rfl, zero_add, add_zero] at hapart
  rw [release_eq, hd]
  exact hapart.trans hback

theorem Consistent.release_identTable (hc : e.Consistent client) (hb : e.heap.get? h = some b)
    (hp : b.payload = .identTable t) : (e.release h).Consistent client := by
  have hcat := hc.category_identTable hb hp
  by_cases hmore : 1 < b.refs
  · rw [release_of_shared hb hcat hmore]
    exact (leads_recount_of_uncounted hc hb (by rw [hcat]; decide) (· - 1)).consistent
  · obtain ⟨rest, hparting⟩ := exists_parting_of_identTable hc hb hp
    have hdrop : e.drop h = (some b, e.setHeap rest) := by
      simp [drop, Heap.decRef, hb, hcat, hmore, hparting.removed]
    have hs := settles_release_of_last hdrop
    rw [← Payload.map_part_released, ← Multiset.map_coe] at hs
    have hproper := (hc.orderly.sound h b hb).proper
    exact (leads_of_settlement (fun ref hr => Payload.hold_of_mem_released hproper hr)
      hparting.yields_unaccount.consistent hs).consistent

end Engine

/-! ## Runs -/

/-- Bare identifier blocks belong to no table. -/
def Command.makesIdent : Command → Bool
  | .allocateBlock .permIdent _ _ => true
  | _ => false

namespace Client

/-- A command, paid for out of the ledger, or a table that is dropped. Tables are nobody's. -/
inductive Turn (c : Client) : Client → Prop
  | command (cmd : Command) (hm : cmd.makesIdent = false)
      (hpaid : cmd.spent c.engine ≤ c.ledger) : Turn c (c.after cmd)
  | drop (h : Handle) (t : IdentTable) (ht : c.engine.heap.payload? h = some (.identTable t)) :
      Turn c { c with engine := c.engine.release h }

/-- Any number of turns from a fresh engine, whatever becomes of generations. -/
def Compiling (c : Client) : Prop :=
  ∃ settings, Relation.ReflTransGen Turn (fresh settings) c

variable {c d : Client} {stray : Multiset Reference}

/-- The loose client is in order, and no identifier block hangs on nothing. -/
def IdentsHeld (c : Client) : Prop :=
  ∃ stray, c.loose.InOrder stray ∧ ∀ ref ∈ stray, ref.expected ≠ .permIdent

theorem IdentsHeld.after (hi : c.IdentsHeld) {cmd : Command} (hm : cmd.makesIdent = false)
    (hpaid : cmd.spent c.engine ≤ c.ledger) : (c.after cmd).IdentsHeld := by
  obtain ⟨stray, horder, hstray⟩ := hi
  obtain ⟨other, hother, hspent, hafter⟩ := c.exists_after_loose hpaid
  have hrun : (other.run c.loose.engine).heap.Unaliased := by
    rw [show other.run c.loose.engine = (cmd.run c.engine).loose from
      congrArg Client.engine hafter]
    exact Heap.unaliased_loose _
  unfold IdentsHeld
  rw [← hafter]
  by_cases hh : other.isHelper
  · obtain ⟨rest, hle, hd, -⟩ := horder.after hh hspent (.inr hrun)
    exact ⟨rest, hd, fun ref hr => hstray ref (Multiset.mem_of_le hle hr)⟩
  · obtain rfl := hother.resolve_right hh
    cases other with
    | allocateBlock category size description =>
      refine ⟨_, (horder.after_allocateBlock category size description).1, fun ref hr => ?_⟩
      rcases Multiset.mem_add.1 hr with hr | hr
      · rw [(Category.of_mem_firstReference hr).2.1]
        rintro rfl
        cases hm
      · exact hstray ref hr
    | _ => cases hh rfl

theorem IdentsHeld.drop (hi : c.IdentsHeld) {h : Handle} {t : IdentTable}
    (ht : c.engine.heap.payload? h = some (.identTable t)) :
    IdentsHeld { c with engine := c.engine.release h } := by
  obtain ⟨stray, horder, hstray⟩ := hi
  obtain ⟨b, hb, hp⟩ := Option.map_eq_some_iff.1 ht
  have hc := horder.consistent.release_identTable (Engine.get?_loose_of_some hb)
    (congrArg Payload.loose hp)
  rw [show c.loose.engine.release h = (c.engine.release h).loose from c.engine.release_loose h] at hc
  exact ⟨stray, ⟨horder.counted, horder.owned, hc⟩, hstray⟩

/-- By the run: no turn leaves an identifier block without its table. -/
theorem Compiling.identsHeld (hr : Compiling c) : c.IdentsHeld := by
  obtain ⟨settings, hrun⟩ := hr
  induction hrun with
  | refl =>
    refine ⟨0, ?_, by simp⟩
    rw [loose_fresh]
    exact inOrder_fresh settings
  | tail _ hturn ih =>
    cases hturn with
    | command cmd hm hpaid => exact ih.after hm hpaid
    | drop h t ht => exact ih.drop ht

theorem IdentsHeld.identsInOrder (hi : c.IdentsHeld) : c.engine.IdentsInOrder := by
  obtain ⟨stray, horder, hstray⟩ := hi
  refine Engine.identsInOrder_of_loose (horder.consistent.identsInOrder fun h hm => ?_)
  rcases Multiset.mem_add.1 hm with hm | hm
  · simpa [owned] using horder.counted _ hm
  · exact hstray _ hm rfl

/-- Identifier tables lose and share nothing. A table can be made on any engine, of any number of
buckets and any names: it has what it was given, every name in its bucket and in order there, and
blocks of its own. After any run every identifier block belongs to one table, a pass has nothing to
say of them unless a provider does, and a table that is dropped for the last time takes its own
blocks and no others. -/
theorem identTables_exact (hr : Compiling c) :
    (∀ (e : Engine) (count : Nat) (names : List (String × IdentKind)), ∃ t,
      e.Tabulates (e.newIdentTable count names).1 (e.newIdentTable count names).2 count names t) ∧
    c.engine.heap.identBlocks = c.engine.heap.handlesOf .permIdent ∧
    (c.engine.ProvidersSpare .permIdent → ∀ flags,
      ∀ f ∈ (c.engine.audit flags).2.report.findings, ¬ f.concerns .permIdent) ∧
    ∀ h b t, c.engine.heap.get? h = some b → b.payload = .identTable t →
      if 1 < b.refs then
        c.engine.release h =
          c.engine.setHeap (c.engine.heap.update h fun b => { b with refs := b.refs - 1 })
      else c.engine.Loses (c.engine.release h) (h :: t.blocks) := by
  have hi := hr.identsHeld.identsInOrder
  refine ⟨Engine.tabulates_newIdentTable, hi.owned, fun hprov flags f hf => ?_, fun h b t hb hp => ?_⟩
  · exact hi.resolving.not_concerns_permIdent hi.proper hprov hi.owned flags hf
  · split
    · exact Engine.release_of_shared hb (hi.table h b t hb hp) ‹_›
    · exact hi.loses_release hb hp ‹_›

/-- A table in a single bucket, dropped again; two more tables, the first in the slots that became
vacant. Names come up twice, in one table and in both. -/
def recompiled : Client :=
  let first := (fresh {}).after
    (.newIdentTable 0 [("foo", .builtin), ("foo", .localName), ("bar", .simulFunction)])
  let dropped : Client := { first with engine := first.engine.release ⟨2, 0⟩ }
  (dropped.after (.newIdentTable 2 [("foo", .builtin), ("bar", .define), ("foo", .builtin)])).after
    (.newIdentTable 1 [("bar", .simulFunction)])

theorem identTables_exact_recompiled :
    Compiling recompiled ∧ recompiled.engine.heap.identBlocks = {⟨1, 1⟩, ⟨0, 1⟩, ⟨3, 0⟩} ∧
    (∀ f ∈ (recompiled.engine.audit ⟨true, false⟩).2.report.findings, ¬ f.concerns .permIdent) ∧
    recompiled.engine.Loses (recompiled.engine.release ⟨2, 1⟩) [⟨2, 1⟩, ⟨1, 1⟩, ⟨0, 1⟩] := by
  have hr : Compiling recompiled := by
    refine ⟨{}, ?_⟩
    refine .tail ?_ (.command (.newIdentTable 1 _) rfl (by decide))
    refine .tail ?_ (.command (.newIdentTable 2 _) rfl (by decide))
    refine .tail ?_ (.drop ⟨2, 0⟩
      ⟨[[⟨"foo", .builtin, some ⟨0, 0⟩⟩, ⟨"foo", .localName, none⟩,
        ⟨"bar", .simulFunction, some ⟨1, 0⟩⟩]]⟩ (by decide +kernel))
    exact .single (.command (.newIdentTable 0 _) rfl (by decide))
  obtain ⟨-, hown, haudit, hdrop⟩ := identTables_exact hr
  have htable : recompiled.engine.heap.get? ⟨2, 1⟩ = some
      { category := .identTable, size := 48, refs := 1, description := "init_identifiers",
        serial := 6, tick := 0,
        payload := .identTable
          ⟨[[⟨"foo", .builtin, some ⟨1, 1⟩⟩, ⟨"foo", .builtin, some ⟨0, 1⟩⟩],
            [⟨"bar", .define, none⟩]]⟩ } := by
    decide +kernel
  exact ⟨hr, hown.trans (by decide +kernel), haudit (fun _ h => absurd h List.not_mem_nil) _,
    hdrop _ _ _ htable rfl⟩

end Client

end HeapAudit
