import HeapAudit.Proofs.Engine.Parts
import HeapAudit.Proofs.Engine.Settling
import HeapAudit.Proofs.Engine.Strings

/-!
Giving references back. In the middle of a release the references of the blocks that are gone are
owed; together with what the client keeps they account for every count.

Main definitions
* `Engine.Parting`: a block has left the heap together with its last holder.
* `Engine.Taken`: everything that giving one reference back can come to.
* `Engine.Repays`: a step of a release, with the references that are owed.

Main statements
* `Engine.taken_take`, `Engine.yields_settle`: one reference is settled.
* `Engine.repays_of_settlement`: whatever is settled, in any order, references are paid back.
* `Engine.Owes.solvent`: and nothing is taken off that is not there.
* `Engine.leads_release`: one reference less, whatever goes with it.
* `Engine.leads_releaseAll`, `Engine.leads_discard`: several references, blocks owned alone.
-/

namespace HeapAudit

namespace Engine

variable {e : Engine} {client : Multiset Reference} {h : Handle} {b : Block} {rest : Heap}

/-! ## Pins -/

theorem program_of_payload (hc : e.Consistent client) (hb : e.heap.get? h = some b) {p : Program}
    (hp : b.payload = .program p) : e.program h = .ok p :=
  program_eq_ok_iff.2 ⟨b, hb, (hc.orderly.sound h b hb).category_program hp, hp⟩

/-- Typed look-ups of objects find what the audit finds. -/
theorem pinnedBy_eq (hc : e.Consistent client) (c : Closure) :
    e.pinnedBy c = c.pinned? e.heap := by
  unfold pinnedBy Closure.pinned?
  refine congrArg (fun f => c.kind.pinned? (c.owner.bind f)) (funext fun owner => ?_)
  cases ho : e.object owner with
  | ok ob =>
    obtain ⟨b, hb, -, hp⟩ := object_eq_ok_iff.1 ho
    simp [Heap.programOf?, Heap.payload?, hb, hp, Payload.object?]
  | error err =>
    cases hb : e.heap.get? owner with
    | none => simp [Heap.programOf?, Heap.payload?, hb]
    | some b =>
      cases hp : b.payload with
      | object ob =>
        have hcat : b.category = .object := Category.carries_object_iff.1
          (hp ▸ (hc.orderly.sound owner b hb).carries (by simp [hp]))
        rw [object_eq_ok_iff.2 ⟨b, hb, hcat, hp⟩] at ho
        cases ho
      | _ => simp [Heap.programOf?, Heap.payload?, hb, hp, Payload.object?]

theorem yields_setPins (hc : e.Consistent client) (hb : e.heap.get? h = some b) {p : Program}
    (hp : b.payload = .program p) {pins : Nat} {left : Multiset Reference}
    (ho : (e.heap.setPayload h (.program { p with pins })).Orderly (e.rootRefs + left)) :
    e.Yields (e.setProgram h { p with pins }) left := by
  have hcat := (hc.orderly.sound h b hb).category_program hp
  refine ⟨⟨ho, ?_, hc.failing, hc.unspent⟩, ?_, ?_⟩
  · exact hc.tallied.update hb (fun c => by rw [hp]; rfl) (by rw [hp]; rfl) rfl
  · exact Heap.later_update hb ⟨rfl, rfl, fun c => by simp [hp], by simp [hp],
      fun ob h => by cases h⟩
  · exact fun hplain => hplain.update hb (by rw [hcat]; rfl) (hplain h b hb).2

/-- A pin comes off the program, if there still is one. -/
theorem yields_unpin (hc : e.Consistent (.pinned h ::ₘ client)) :
    e.Yields (e.unpin h) client := by
  have ho := hc.orderly
  rw [Multiset.add_cons] at ho
  unfold unpin
  cases hp : e.program h with
  | ok p =>
    obtain ⟨b, hb, -, hpay⟩ := program_eq_ok_iff.1 hp
    exact yields_setPins hc hb hpay (ho.unpin hb hpay)
  | error err =>
    refine ⟨⟨ho.forget_pin ?_, hc.tallied, hc.failing, hc.unspent⟩, .refl _, id⟩
    intro b p hb hpay
    rw [program_of_payload hc hb hpay] at hp
    cases hp

/-! ## A block goes with its last holder -/

structure Parting (e : Engine) (h : Handle) (b : Block) (rest : Heap)
    (client : Multiset Reference) : Prop where
  removed : e.heap.remove h = some (b, rest)
  unnamed : Heap.Unnamed h (e.refs client)
  plain : b.payload.stringCost? = none
  consistent : ∃ last : Reference, last.target = h ∧ e.Consistent (last ::ₘ client)

/-- What one owner holds alone goes with it. -/
theorem exists_parting_of_owned {c : Category} (hc : e.Consistent (.owned h c ::ₘ client)) :
    ∃ b rest, e.Parting h b rest client := by
  have hm : Reference.owned h c ∈ e.refs (.owned h c ::ₘ client) :=
    mem_refs_of_client (Multiset.mem_cons_self _ _)
  have hbal := hc.balanced
  obtain ⟨b, hb, rfl⟩ := hbal.resolves _ hm (by simp [Reference.owned])
  have howned : b.category.isOwned := hbal.fits _ hm
  obtain ⟨rest, hr⟩ := Heap.exists_remove hb
  simp only [Engine.refs, Multiset.add_cons] at hbal
  refine ⟨b, rest, hr, hbal.unnamed_of_owned hb, ?_, _, rfl, hc⟩
  refine (hc.orderly.sound h b hb).stringCost?_eq_none ?_
  rintro (hcat | hcat) <;> rw [hcat] at howned <;> cases howned

/-- A counted block goes with its last reference. -/
theorem exists_parting_of_last (hc : e.Consistent (.counted h b.category ::ₘ client))
    (hb : e.heap.get? h = some b) (hlast : ¬ 1 < b.refs) (hplain : b.payload.stringCost? = none) :
    ∃ rest, e.Parting h b rest client := by
  obtain ⟨rest, hr⟩ := Heap.exists_remove hb
  exact ⟨rest, hr, hc.unnamed_of_last hb hlast, hplain, _, rfl, hc⟩

/-- The blocks a departing block depends on are still there. -/
theorem Parting.held_eq (hp : e.Parting h b rest client) :
    b.payload.held e.heap = b.payload.held rest := by
  have hb := Heap.get?_of_remove hp.removed
  refine Payload.held_congr fun k hk => views_congr ?_
  obtain ⟨ref, hr, hpin, rfl⟩ := Payload.exists_of_mem_views hk e.heap
  have hne := hp.unnamed ref (mem_refs_of_slot hb hr) hpin
  unfold Heap.payload?
  rw [Heap.get?_remove hp.removed, if_neg hne]

/-- Out of the heap and out of the counters, its slots with the client. -/
theorem Parting.yields (hp : e.Parting h b rest client) :
    e.Yields
      { e with heap := rest, counters := e.counters.without b.category b.size b.payload }
      (↑(b.payload.held rest) + client) := by
  obtain ⟨last, ht, hc⟩ := hp.consistent
  refine ⟨⟨?_, hc.tallied.shrink hp.removed hp.plain, hc.failing, hc.unspent⟩,
    Heap.later_remove hp.removed, fun hplain => hplain.remove hp.removed⟩
  have ho := hc.orderly
  rw [Multiset.add_cons] at ho
  have hrest := ho.remove hp.removed ht hp.unnamed
  rw [hp.held_eq, add_left_comm] at hrest
  exact hrest

/-- What the client holds when a closure's pin is off. -/
theorem Parting.yields_unaccount (hp : e.Parting h b rest client) :
    e.Yields ((e.setHeap rest).unaccount b)
      (↑(b.payload.released ((e.setHeap rest).unaccount b).heap) + client) := by
  obtain ⟨last, ht, hc⟩ := hp.consistent
  have hs := hc.orderly.sound h b (Heap.get?_of_remove hp.removed)
  have hl := hp.yields
  rw [Payload.held_eq_released rest hs.proper] at hl
  unfold unaccount
  cases hpay : b.payload with
  | closure c =>
    rw [hpay] at hl
    have hpins := pinnedBy_eq hl.consistent c
    simp only [setHeap]
    rw [hpins]
    show e.Yields ((c.pinned? rest).elim _ _) (↑(Payload.released _ (.closure c)) + client)
    cases hpin : c.pinned? rest with
    | none =>
      simp only [Payload.pins, hpin, Option.toList_none, List.map_nil, Multiset.coe_nil,
        add_zero] at hl
      exact hl
    | some p =>
      simp only [Payload.pins, hpin, Option.toList_some, List.map_cons, List.map_nil,
        Multiset.coe_singleton] at hl
      rw [add_right_comm, add_comm _ {Reference.pinned p}, Multiset.singleton_add] at hl
      exact hl.trans (yields_unpin hl.consistent)
  | _ =>
    rw [hpay] at hl
    simp only [Payload.pins, List.map_nil, Multiset.coe_nil, add_zero] at hl
    exact hl

/-- What the block counted for is in the counters, and its pin is on its program. -/
theorem Parting.affords (hp : e.Parting h b rest client) : (e.setHeap rest).Affords b := by
  obtain ⟨last, ht, hc⟩ := hp.consistent
  refine ⟨?_, fun c program p hpay hpin hprog => ?_⟩
  · show (e.counters.without _ _ _).adding _ _ _ = e.counters
    rw [hc.tallied.counters, Heap.stock_remove hp.removed, Counters.ofStock_cons,
      Counters.without_adding]
  · have hl := hp.yields.consistent
    have hs := hc.orderly.sound h b (Heap.get?_of_remove hp.removed)
    rw [Payload.held_eq_released rest hs.proper, hpay] at hl
    have hpin : c.pinned? rest = some program := (pinnedBy_eq hl c).symm.trans hpin
    obtain ⟨d, hd, -, hprogram⟩ := program_eq_ok_iff.1 hprog
    have hcount := hl.balanced.pinned program d p hd hprogram
    rw [hcount, Multiset.count_pos]
    refine mem_refs_of_client ?_
    simp [Payload.pins, hpin]

/-! ## What settling comes to -/

/-- What becomes of the block behind a reference that is given back. -/
inductive Taken (e : Engine) (ref : Reference) (client : Multiset Reference) :
    Option Block × Engine → Prop
  /-- Others hold it too. -/
  | less {b : Block} {strings : StringTable} (hb : e.heap.get? ref.target = some b)
      (hcounted : b.category.isCounted) (hentries : strings.entries = e.strings.entries)
      (hl : e.Yields
        { e with
          strings
          heap := e.heap.update ref.target fun b => { b with refs := b.refs - 1 } } client) :
      Taken e ref client
        (none,
          { e with
            strings
            heap := e.heap.update ref.target fun b => { b with refs := b.refs - 1 } })
  /-- It was a string; the table settles that. -/
  | string {b : Block} {rest : Heap} {strings : StringTable}
      (hr : e.heap.remove ref.target = some (b, rest))
      (hu : Heap.Unnamed ref.target (e.refs client))
      (hentries : strings.entries = (e.strings.forget b.payload).entries)
      (hl : e.Yields { e with strings, heap := rest } client) :
      Taken e ref client (none, { e with strings, heap := rest })
  /-- It goes, and what it held is owed. -/
  | block {b : Block} {rest : Heap} (hp : e.Parting ref.target b rest client) :
      Taken e ref client (some b, e.setHeap rest)

/-- A reference that is not the last one. -/
theorem yields_decRef {c : Category} (hc : e.Consistent (.counted h c ::ₘ client))
    (hb : e.heap.get? h = some b) (hmore : 1 < b.refs) (hplain : b.payload.stringCost? = none) :
    e.Yields (e.setHeap (e.heap.update h fun b => { b with refs := b.refs - 1 })) client := by
  obtain ⟨d, hd, rfl, -⟩ := hc.live_of_client (Multiset.mem_cons_self _ _)
  rw [hb] at hd
  cases hd
  have ho := hc.orderly
  rw [Multiset.add_cons] at ho
  exact ⟨⟨ho.decRef hb hmore, hc.tallied.update hb (fun _ => rfl) hplain hplain, hc.failing,
      hc.unspent⟩,
    Heap.later_update hb (.of_payload rfl rfl rfl),
    fun hp => hp.update hb (hp h b hb).1 (hp h b hb).2⟩

/-- A reference to a string goes back; the last one frees the string. -/
theorem taken_string {c : Category} (hc : e.Consistent (.counted h c ::ₘ client))
    (hst : c = .sharedString ∨ c = .mallocString) :
    e.Taken (.counted h c) client
      (none,
        { e with
          strings := (e.strings.release e.heap h).1
          heap := (e.strings.release e.heap h).2 }) := by
  obtain ⟨b, cost, hb, rfl, -, hcost⟩ :=
    hc.string_of_counted (mem_refs_of_client (Multiset.mem_cons_self _ _)) hst
  have hat : StringTable.costAt? e.heap h = some cost := by
    simp [StringTable.costAt?, Heap.payload?, hb, hcost]
  by_cases hmore : 1 < b.refs
  · simp only [StringTable.release, hat, Heap.decRef, hb, if_pos hmore]
    exact .less hb (Category.isCounted_of_string hst) rfl (yields_lessString hc hb rfl hcost hmore)
  · obtain ⟨rest, hr⟩ := Heap.exists_remove hb
    simp only [StringTable.release, hat, Heap.decRef, hb, if_neg hmore, hr]
    exact .string hr (hc.unnamed_of_last hb hmore) (StringTable.entries_forget (by rfl) _)
      (yields_lastString hc hb rfl hcost hmore hr)

/-- Everything that giving back a counted reference or an owned block can come to. -/
theorem taken_take {ref : Reference} (hc : e.Consistent (ref ::ₘ client))
    (hpin : ref.hold ≠ .pinned) : e.Taken ref client (e.take ref.part) := by
  obtain ⟨hold, h, c⟩ := ref
  cases hold with
  | counted =>
    obtain ⟨b, hb, rfl, hcounted⟩ := hc.live_of_client (Multiset.mem_cons_self _ _)
    show e.Taken (.counted h b.category) client (e.drop h)
    by_cases hst : b.category = .sharedString ∨ b.category = .mallocString
    · simp only [drop, hb, if_pos hst]
      exact taken_string hc hst
    · have hplain := (hc.orderly.sound h b hb).stringCost?_eq_none hst
      by_cases hmore : 1 < b.refs
      · simp only [drop, hb, if_neg hst, Heap.decRef, if_pos hmore]
        exact .less hb hcounted rfl (yields_decRef hc hb hmore hplain)
      · obtain ⟨rest, hparting⟩ := exists_parting_of_last hc hb hmore hplain
        simp only [drop, hb, if_neg hst, Heap.decRef, if_neg hmore, hparting.removed]
        exact .block hparting
  | owned =>
    obtain ⟨b, rest, hparting⟩ := exists_parting_of_owned hc
    have htake : e.take (Reference.part ⟨.owned, h, c⟩) = (some b, e.setHeap rest) := by
      show e.take (.owned h) = _
      simp only [take, hparting.removed]
    rw [htake]
    exact .block hparting
  | pinned => exact absurd rfl hpin

/-- Settling a reference takes nothing off that is not there. -/
theorem affords_of_take {ref : Reference} (hc : e.Consistent (ref ::ₘ client))
    (hpin : ref.hold ≠ .pinned) :
    ∀ b mid, e.take ref.part = (some b, mid) → mid.Affords b := by
  have ht := taken_take hc hpin
  intro b mid htake
  rw [htake] at ht
  cases ht with
  | block hp => exact hp.affords

/-- A reference is settled in order; what is owed then are the parts that are due then. -/
theorem yields_settle {ref : Reference} (hc : e.Consistent (ref ::ₘ client))
    (hpin : ref.hold ≠ .pinned) :
    ∃ more : List Reference, (∀ r ∈ more, r.hold ≠ .pinned) ∧
      more.map Reference.part = (e.settle ref.part).2 ∧
      e.Yields (e.settle ref.part).1 (↑more + client) := by
  have ht := taken_take hc hpin
  obtain ⟨taken, htaken⟩ : ∃ taken, e.take ref.part = taken := ⟨_, rfl⟩
  rw [htaken] at ht
  cases ht with
  | less hb hcounted hentries hl =>
    rw [settle_of_take_none htaken]
    exact ⟨[], by simp, rfl, by rwa [Multiset.coe_nil, zero_add]⟩
  | string hr hu hentries hl =>
    rw [settle_of_take_none htaken]
    exact ⟨[], by simp, rfl, by rwa [Multiset.coe_nil, zero_add]⟩
  | @block b rest hp =>
    rw [settle_of_take_some htaken]
    have hs := hc.orderly.sound ref.target b (Heap.get?_of_remove hp.removed)
    exact ⟨b.payload.released _, fun r hr => Payload.hold_of_mem_released hs.proper hr,
      Payload.map_part_released _ _, hp.yields_unaccount⟩

/-! ## Runs -/

/-- A step with the references the parts are. The rest of what is owed is with the client. -/
inductive Repays (client : Multiset Reference) :
    Engine × Multiset Reference → Engine × Multiset Reference → Prop
  | reference {e : Engine} {ref : Reference} {owed : Multiset Reference} {more : List Reference}
      (hpin : ref.hold ≠ .pinned) (hc : e.Consistent (ref ::ₘ (owed + client)))
      (hl : e.Yields (e.settle ref.part).1 (↑more + (owed + client))) :
      Repays client (e, ref ::ₘ owed) ((e.settle ref.part).1, ↑more + owed)

/-- No pin is owed, and with what is owed the engine is in order. -/
structure Owes (e : Engine) (owed client : Multiset Reference) : Prop where
  unpinned : ∀ ref ∈ owed, ref.hold ≠ .pinned
  consistent : e.Consistent (owed + client)

variable {next : Engine} {owed left : Multiset Reference}

theorem repays_of_settles (ho : e.Owes owed client) {due : Multiset Part}
    (hs : Settles (e, owed.map Reference.part) (next, due)) :
    ∃ left, left.map Reference.part = due ∧ next.Owes left client ∧
      Repays client (e, owed) (next, left) := by
  obtain ⟨d, hd⟩ : ∃ d, owed.map Reference.part = d := ⟨_, rfl⟩
  rw [hd] at hs
  obtain ⟨_, p, rest⟩ := hs
  obtain ⟨ref, hm, rfl, hrest⟩ := (Multiset.map_eq_cons Reference.part owed rest p).2 hd
  obtain ⟨others, rfl⟩ := Multiset.exists_cons_of_mem hm
  rw [Multiset.erase_cons_head] at hrest
  have hpin := ho.unpinned ref (Multiset.mem_cons_self _ _)
  have hc : e.Consistent (ref ::ₘ (others + client)) :=
    ho.consistent.of_eq (Multiset.cons_add _ _ _)
  obtain ⟨more, hmore, hparts, hl⟩ := yields_settle hc hpin
  refine ⟨↑more + others, ?_, ⟨?_, hl.consistent.of_eq (add_assoc _ _ _).symm⟩,
    .reference hpin hc hl⟩
  · rw [Multiset.map_add, hrest, Multiset.map_coe, hparts]
  · intro r hr
    rcases Multiset.mem_add.1 hr with hr | hr
    · exact hmore r hr
    · exact ho.unpinned r (Multiset.mem_cons_of_mem hr)

/-- Whatever parts are settled, in any order, references are paid back. -/
theorem repays_of_settlement (ho : e.Owes owed client) {due : Multiset Part}
    (hs : Settlement (e, owed.map Reference.part) (next, due)) :
    ∃ left, left.map Reference.part = due ∧ next.Owes left client ∧
      Relation.ReflTransGen (Repays client) (e, owed) (next, left) := by
  obtain ⟨start, hstart⟩ : ∃ start, (e, owed.map Reference.part) = start := ⟨_, rfl⟩
  obtain ⟨finish, hfinish⟩ : ∃ finish, (next, due) = finish := ⟨_, rfl⟩
  rw [hstart, hfinish] at hs
  induction hs generalizing next due with
  | refl =>
    cases hstart
    cases hfinish
    exact ⟨owed, rfl, ho, .refl⟩
  | @tail mid _ _ hstep ih =>
    obtain ⟨between, rest⟩ := mid
    cases hfinish
    obtain ⟨left, rfl, hleft, hrun⟩ := ih rfl
    obtain ⟨last, hlast, hdone, hrepays⟩ := repays_of_settles hleft hstep
    exact ⟨last, hlast, hdone, hrun.tail hrepays⟩

theorem yields_of_repays (hc : e.Consistent (owed + client))
    (hr : Relation.ReflTransGen (Repays client) (e, owed) (next, left)) :
    e.Yields next (left + client) := by
  obtain ⟨finish, hfinish⟩ : ∃ finish, (next, left) = finish := ⟨_, rfl⟩
  rw [hfinish] at hr
  induction hr generalizing next left with
  | refl =>
    cases hfinish
    exact hc.yields
  | @tail mid _ _ hstep ih =>
    obtain ⟨between, rest⟩ := mid
    obtain ⟨hpin, hc, hl⟩ := hstep
    cases hfinish
    exact (ih rfl).trans ((hl.of_eq (add_assoc _ _ _).symm))

/-- In whatever order references are paid back: nothing is taken off that is not there. -/
theorem Owes.solvent (ho : e.Owes owed client) : e.Solvent (owed.map Reference.part) := by
  intro mid due hs
  obtain ⟨left, rfl, hleft, -⟩ := repays_of_settlement ho hs
  refine ⟨hleft.consistent.tallied.counters, fun p hp => ?_⟩
  obtain ⟨ref, hm, rfl⟩ := Multiset.mem_map.1 hp
  obtain ⟨others, rfl⟩ := Multiset.exists_cons_of_mem hm
  exact affords_of_take (hleft.consistent.of_eq (Multiset.cons_add _ _ _)) (hleft.unpinned ref hm)

/-- A run that settles everything pays everything back. -/
theorem leads_of_settlement (hpin : ∀ ref ∈ owed, ref.hold ≠ .pinned)
    (hc : e.Consistent (owed + client))
    (hs : Settlement (e, owed.map Reference.part) (next, 0)) : e.Leads next client := by
  have ho : e.Owes owed client := ⟨hpin, hc⟩
  obtain ⟨left, hleft, -, hr⟩ := repays_of_settlement ho hs
  rw [Multiset.map_eq_zero.1 hleft] at hr
  exact ⟨(yields_of_repays hc hr).of_eq (zero_add client), course_of_solvent hs ho.solvent⟩

/-! ## Releasing -/

/-- One reference goes back; what that frees goes with it, to the last block. -/
theorem leads_release {c : Category} (hc : e.Consistent (.counted h c ::ₘ client)) :
    e.Leads (e.release h) client := by
  have hs : Settlement (e, ({.counted h c} : Multiset Reference).map Reference.part)
      (e.release h, 0) := settles_release e h 0
  exact leads_of_settlement (by simp [Reference.counted])
    (hc.of_eq (Multiset.singleton_add _ _).symm) hs

/-- References that are released one by one are settled. -/
theorem settles_releaseCounted (e : Engine) {owed : List Reference}
    (hcounted : ∀ ref ∈ owed, ref.hold = .counted) :
    Settlement (e, (owed : Multiset Reference).map Reference.part)
      (e.releaseAll (owed.map (·.target)), 0) := by
  have hparts : ((owed.map (·.target) : List Handle) : Multiset Handle).map Part.counted =
      (owed : Multiset Reference).map Reference.part := by
    rw [Multiset.map_coe, Multiset.map_coe, List.map_map]
    refine congrArg _ (List.map_congr_left fun ref hr => ?_)
    simp only [Reference.part, hcounted ref hr, Function.comp_apply]
  have hs := settles_releaseAll e (owed.map (·.target)) 0
  rwa [hparts, add_zero] at hs

theorem leads_releaseAll {owed : List Reference} (hcounted : ∀ ref ∈ owed, ref.hold = .counted)
    (hc : e.Consistent (↑owed + client)) :
    e.Leads (e.releaseAll (owed.map (·.target))) client :=
  leads_of_settlement (fun ref hr => by simp [hcounted ref hr]) hc
    (settles_releaseCounted e hcounted)

/-- References to blocks of one category go back. -/
theorem leads_releaseHandles {c : Category} (hs : List Handle)
    (hc : e.Consistent (↑(hs.map (Reference.counted · c)) + client)) :
    e.Leads (e.releaseAll hs) client := by
  have htargets : hs = (hs.map (Reference.counted · c)).map (·.target) := by
    simp [Function.comp_def, Reference.counted]
  have hcounted : ∀ ref ∈ hs.map (Reference.counted · c), ref.hold = .counted := by
    intro ref hr
    obtain ⟨_, -, rfl⟩ := List.mem_map.1 hr
    rfl
  rw [htargets]
  exact leads_releaseAll hcounted hc

theorem hold_of_mem_ofValues {values : List Value} {ref : Reference}
    (hr : ref ∈ Reference.ofValues values) : ref.hold = .counted := by
  obtain ⟨v, -, hv⟩ := List.mem_filterMap.1 hr
  cases v with
  | ref kind target =>
    cases hv
    rfl
  | _ => cases hv

theorem leads_releaseValues {values : List Value}
    (hc : e.Consistent (↑(Reference.ofValues values) + client)) :
    e.Leads (e.releaseValues values) client := by
  have htargets : heldBy values = (Reference.ofValues values).map (·.target) := by
    rw [heldBy, Reference.ofValues, List.map_filterMap]
    refine List.filterMap_congr fun v _ => ?_
    cases v <;> rfl
  unfold releaseValues
  rw [htargets]
  exact leads_releaseAll (fun ref hr => hold_of_mem_ofValues hr) hc

theorem leads_releaseValue {v : Value} (hc : e.Consistent (↑(Reference.ofValues [v]) + client)) :
    e.Leads (e.releaseValue v) client := by
  have hl := leads_releaseValues hc
  cases v <;> exact hl

/-- Blocks owned alone go, and references go back. -/
theorem leads_discard (refs : List Reference) (hpin : ∀ ref ∈ refs, ref.hold ≠ .pinned)
    (hc : e.Consistent (↑refs + client)) :
    e.Leads (e.discard (refs.map Reference.part)) client := by
  have hs := settles_discard e (refs.map Reference.part) 0
  rw [← Multiset.map_coe, add_zero] at hs
  exact leads_of_settlement hpin hc hs

end Engine

end HeapAudit
