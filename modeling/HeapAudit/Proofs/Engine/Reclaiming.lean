import HeapAudit.Proofs.Engine.Client
import HeapAudit.Proofs.Engine.Remnant
import Mathlib.Order.Bounds.Basic

/-!
What releasing references comes to, exactly, and in whatever order they are released.

A counted block goes when its stored count is used up by the references that are given back and by
those of blocks that go; a block owned alone goes with its owner. The blocks that go are the fewest
that these two rules allow, so the order of the releases decides nothing but the order in which
slots become free.

Main definitions
* `Heap.Closed`: the two rules.
* `Engine.Reclaims`: the blocks that go, and every number that falls with them.
* `Engine.Alike`: the same engine, but for the order of the vacant slots.

Main statements
* `Engine.removed_subset_of_repays`: no more goes than has to.
* `Engine.reclaims_of_settlement`: any run that settles what it is asked to settle.
* `Engine.Reclaims.alike`: two such runs end alike.
* `Client.reclaims_in_any_order`: releases of a client.
-/

namespace HeapAudit

open Reference

/-! ## Sums of totals -/

def Counters.plus (c d : Counters) : Counters where
  sentences := c.sentences + d.sentences
  objects := c.objects + d.objects
  programs := c.programs + d.programs
  arrays := c.arrays + d.arrays
  arrayBytes := c.arrayBytes + d.arrayBytes
  classes := c.classes + d.classes
  classBytes := c.classBytes + d.classBytes
  mappings := c.mappings + d.mappings
  callOutBytes := c.callOutBytes + d.callOutBytes

instance : Add Counters := ⟨Counters.plus⟩

def StringTotals.plus (t u : StringTotals) : StringTotals :=
  ⟨t.distinct + u.distinct, t.references + u.references, t.distinctBytes + u.distinctBytes,
    t.allocatedBytes + u.allocatedBytes⟩

instance : Add StringTotals := ⟨StringTotals.plus⟩

/-! ## The two rules -/

/-- Sets of blocks that go when `given` is given back, as far as the rules are concerned. -/
structure Heap.Closed (heap : Heap) (given : Multiset Reference) (S : Set Handle) : Prop where
  /-- All references to it are given back, or are in blocks that go. -/
  counted : ∀ h b, heap.get? h = some b → b.category.isCounted →
    b.refs = (given + heap.heldIn S).count (.counted h b.category) → h ∈ S
  owned : ∀ k b, k ∈ S → heap.get? k = some b → ∀ h c, .owned h c ∈ b.payload.held heap → h ∈ S

namespace Engine

variable {e mid next : Engine} {given left keep : Multiset Reference} {h : Handle} {b d : Block}

/-! ## No more goes than has to -/

/-- Slots of blocks that are there and references given back are all among the references. -/
theorem add_heldIn_le (e : Engine) (given keep : Multiset Reference) (S : Set Handle) :
    given + e.heap.heldIn S ≤ e.refs (given + keep) := by
  have hslots := e.heap.heldIn_le S
  obtain ⟨more, hmore⟩ := Multiset.le_iff_exists_add.1 hslots
  refine Multiset.le_iff_exists_add.2 ⟨more + (e.rootRefs + keep), ?_⟩
  rw [refs, hmore]
  abel

/-- When a block goes with `ref`, all other references to it were given back before, or were in
blocks that have gone. -/
theorem count_eq_of_unnamed {ref : Reference} {owed : Multiset Reference} (hr : e.Remnant mid)
    (hc : e.Consistent (given + keep)) (hm : mid.Consistent (ref ::ₘ (owed + keep)))
    (hpin : ref.hold ≠ .pinned) (hu : Heap.Unnamed ref.target (mid.refs (owed + keep))) :
    (e.refs (given + keep)).count ref = (given + e.lost mid).count ref := by
  have hm : mid.Consistent (ref ::ₘ owed + keep) := hm.of_eq (Multiset.cons_add _ _ _).symm
  have hadd := hr.refs_add hc hm
  have hnone : (mid.refs (owed + keep)).count ref = 0 :=
    Multiset.count_eq_zero.2 fun hin => hu ref hin hpin rfl
  have hrest : owed.count ref = 0 :=
    Multiset.count_eq_zero.2 fun hin =>
      hu ref (mem_refs_of_client (Multiset.mem_add.2 (.inl hin))) hpin rfl
  have hcons : mid.refs (ref ::ₘ owed + keep) = ref ::ₘ mid.refs (owed + keep) := by
    simp only [refs, Multiset.cons_add, Multiset.add_cons]
  have hcount := congrArg (Multiset.count ref) hadd
  rw [hcons, Multiset.count_add, Multiset.count_cons_self, hrest, Multiset.count_add _ (_ ::ₘ _),
    Multiset.count_cons_self, hnone] at hcount
  omega

/-- The rules ask for every block that goes. -/
theorem target_mem_of_closed {S : Set Handle} (hS : e.heap.Closed given S) (hp : e.heap.Plain)
    (hgiven : ∀ ref ∈ given, ref.hold = .counted) (hc : e.Consistent (given + keep))
    (hr : e.Remnant mid) (hsub : e.removed mid ⊆ S) {ref : Reference} {owed : Multiset Reference}
    (hm : mid.Consistent (ref ::ₘ (owed + keep))) (hpin : ref.hold ≠ .pinned)
    (hu : Heap.Unnamed ref.target (mid.refs (owed + keep))) : ref.target ∈ S := by
  have hin := mem_refs_of_client (e := mid) (Multiset.mem_cons_self ref (owed + keep))
  obtain ⟨d, hd, hcat⟩ := hm.balanced.resolves ref hin hpin
  have hfits := hm.balanced.fits ref hin
  obtain ⟨b, hb, hcore, -⟩ := hr.heap.block ref.target d hd
  have hexpected : ref.expected = b.category := by rw [← hcat, Block.category_of_core hcore]
  have hcount := count_eq_of_unnamed hr hc hm hpin hu
  obtain ⟨hold, h, c⟩ := ref
  obtain rfl : c = b.category := hexpected
  cases hold with
  | counted =>
    refine hS.counted h b hb hfits (Nat.le_antisymm ?_ ?_)
    · rw [hc.refs_eq_count hp hb hfits]
      show (e.refs (given + keep)).count ⟨.counted, h, b.category⟩ ≤ _
      rw [hcount]
      exact Multiset.count_le_of_le _ (add_le_add_right (Heap.heldIn_mono hsub) given)
    · rw [hc.refs_eq_count hp hb hfits]
      exact Multiset.count_le_of_le _ (e.add_heldIn_le given keep S)
  | owned =>
    have hone : (e.refs (given + keep)).count (.owned h b.category) = 1 :=
      hc.balanced.owned h b hb hfits
    have hmem : .owned h b.category ∈ given + e.lost mid := by
      refine Multiset.count_pos.1 ?_
      show 0 < (given + e.lost mid).count ⟨.owned, h, b.category⟩
      rw [← hcount]
      exact hone ▸ Nat.one_pos
    rcases Multiset.mem_add.1 hmem with hmem | hmem
    · exact absurd (hgiven _ hmem) (by simp [Reference.owned])
    · obtain ⟨k, a, hk, ha, hslot⟩ := Heap.mem_heldIn.1 hmem
      exact hS.owned k a (hsub hk) ha h b.category hslot
  | pinned => exact absurd rfl hpin

/-- By the steps of the run: what has gone so far is in every set that the rules allow. -/
theorem removed_subset_of_repays (hp : e.heap.Plain) (hgiven : ∀ ref ∈ given, ref.hold = .counted)
    (hc : e.Consistent (given + keep))
    (hr : Relation.ReflTransGen (Repays keep) (e, given) (next, left)) :
    e.Remnant next ∧ ∀ S, e.heap.Closed given S → e.removed next ⊆ S := by
  obtain ⟨finish, hfinish⟩ : ∃ finish, (next, left) = finish := ⟨_, rfl⟩
  rw [hfinish] at hr
  induction hr generalizing next left with
  | refl =>
    cases hfinish
    exact ⟨.refl e, fun S _ h hh => absurd hh.1 hh.2⟩
  | @tail between _ _ hstep ih =>
    obtain ⟨mid, owed⟩ := between
    obtain ⟨hrem, hsub⟩ := ih rfl
    obtain ⟨hpin, hm, -⟩ := hstep
    cases hfinish
    obtain ⟨hrest, hgone⟩ := remnant_settle hm hpin
    refine ⟨hrem.trans hrest, fun S hS h hh => ?_⟩
    rcases removed_trans hh with hh | hh
    · exact hsub S hS hh
    · obtain ⟨rfl, hu⟩ := hgone h hh
      exact target_mem_of_closed hS hp hgiven hc hrem (hsub S hS) hm hpin hu

/-! ## What is left when nothing is owed -/

/-- References that were given back or went with their blocks are all that is missing. -/
theorem Remnant.refs_eq (hr : e.Remnant next) (hc : e.Consistent (given + keep))
    (hn : next.Consistent keep) :
    e.refs (given + keep) = next.refs keep + (given + e.lost next) := by
  have hn : next.Consistent (0 + keep) := hn.of_eq (zero_add keep).symm
  have hadd := hr.refs_add hc hn
  rwa [add_zero, zero_add] at hadd

/-- Stored counts fall by the references that are missing. -/
theorem Remnant.refs_of_left (hr : e.Remnant next) (hp : e.heap.Plain) (hq : next.heap.Plain)
    (hc : e.Consistent (given + keep)) (hn : next.Consistent keep) (hb : e.heap.get? h = some b)
    (hd : next.heap.get? h = some d) :
    b.refs = d.refs + (given + e.lost next).count (.counted h b.category) := by
  obtain ⟨b', hb', hcore, hsame⟩ := hr.heap.block h d hd
  rw [hb] at hb'
  cases hb'
  have hcat := Block.category_of_core hcore
  by_cases hcounted : b.category.isCounted
  · rw [hc.refs_eq_count hp hb hcounted, hn.refs_eq_count hq hd (by rwa [hcat]), hcat,
      hr.refs_eq hc hn, Multiset.count_add]
  · have hnone : (given + e.lost next).count (.counted h b.category) = 0 := by
      refine Multiset.count_eq_zero.2 fun hm => hcounted ?_
      exact hc.balanced.fits _ (Multiset.mem_of_le (e.add_heldIn_le given keep _) hm)
    rw [hnone, hsame hcounted, Nat.add_zero]

/-- Stored counts of blocks that go are used up. -/
theorem Remnant.refs_of_gone (hr : e.Remnant next) (hp : e.heap.Plain)
    (hc : e.Consistent (given + keep)) (hn : next.Consistent keep) (hb : e.heap.get? h = some b)
    (hcounted : b.category.isCounted) (hgone : next.heap.get? h = none) :
    b.refs = (given + e.lost next).count (.counted h b.category) := by
  have hnone : (next.refs keep).count (.counted h b.category) = 0 :=
    Heap.count_eq_zero_of_unnamed (hn.balanced.unnamed hgone) (by simp) _
  rw [hc.refs_eq_count hp hb hcounted, hr.refs_eq hc hn, Multiset.count_add, hnone, Nat.zero_add]

/-- Everything goes that the rules ask for. -/
theorem Remnant.closed_removed (hr : e.Remnant next) (hp : e.heap.Plain) (hq : next.heap.Plain)
    (hc : e.Consistent (given + keep)) (hn : next.Consistent keep) :
    e.heap.Closed given (e.removed next) := by
  have hkept : ∀ h b, e.heap.get? h = some b → h ∉ e.removed next →
      ∃ d, next.heap.get? h = some d ∧ d.category = b.category := by
    intro h b hb hh
    obtain ⟨d, hd⟩ := Option.ne_none_iff_exists'.1 fun hnone =>
      hh (mem_removed_iff.2 ⟨⟨b, hb⟩, hnone⟩)
    obtain ⟨b', hb', hcore, -⟩ := hr.heap.block h d hd
    rw [hb] at hb'
    cases hb'
    exact ⟨d, hd, Block.category_of_core hcore⟩
  refine ⟨?_, ?_⟩
  · intro h b hb hcounted hrefs
    by_contra hh
    obtain ⟨d, hd, hcat⟩ := hkept h b hb hh
    have hfall := hr.refs_of_left hp hq hc hn hb hd
    have hpos := (hn.orderly.sound h d hd).stored (by rwa [hcat])
    rw [← lost] at hrefs
    omega
  · intro k a hk ha h c hslot
    by_contra hh
    have hm : .owned h c ∈ e.lost next := Heap.mem_heldIn.2 ⟨k, a, hk, ha, hslot⟩
    have hin : .owned h c ∈ e.refs (given + keep) := mem_refs_of_slot ha hslot
    obtain ⟨b, hb, rfl⟩ := hc.balanced.resolves _ hin (by simp [Reference.owned])
    obtain ⟨d, hd, hcat⟩ := hkept h b hb hh
    have howned : b.category.isOwned := hc.balanced.fits _ hin
    have hbefore := hc.balanced.owned h b hb howned
    have hafter := hn.balanced.owned h d hd (by rwa [hcat])
    have hpos := Multiset.count_pos.2 hm
    rw [hr.refs_eq hc hn, ← hcat, Multiset.count_add, hafter, Multiset.count_add] at hbefore
    rw [← hcat] at hpos
    omega

/-! ## Pins -/

/-- Only a closure holds a pin, and only one. -/
theorem count_pinned_slots (heap : Heap) (p : Payload) (h : Handle) :
    (p.held heap).count (.pinned h) = if h ∈ p.pins heap then 1 else 0 := by
  have hfilter : (p.held heap : Multiset Reference).filter (fun ref => isPin ref) =
      (p.pins heap : Multiset Handle).map .pinned := by
    rw [Multiset.filter_coe, Multiset.map_coe, ← p.filter_isPin_held heap]
    simp
  have hcount := count_pinned_of_filter hfilter h .program
  rw [if_pos rfl, Multiset.coe_count, Multiset.coe_count] at hcount
  rw [show Reference.pinned h = ⟨.pinned, h, .program⟩ from rfl, hcount]
  cases p with
  | closure c =>
    cases hc : c.pinned? heap with
    | none => simp [Payload.pins, hc]
    | some k =>
      by_cases hk : h = k
      · simp [Payload.pins, hc, hk]
      · simp [Payload.pins, hc, hk, Ne.symm hk]
  | _ => rfl

theorem count_pinned_lost (e next : Engine) (h : Handle) :
    (e.lost next).count (.pinned h) =
      (e.gone next).countP fun x => h ∈ x.2.payload.pins e.heap := by
  rw [lost_eq]
  induction e.gone next using Multiset.induction_on with
  | empty => rfl
  | cons x rest ih =>
    rw [Multiset.cons_bind, Multiset.count_add, ih, Multiset.coe_count, count_pinned_slots,
      Multiset.countP_cons, Nat.add_comm]

/-- Pins fall by the closures that have gone. -/
theorem Remnant.pins_of_left (hr : e.Remnant next) (hgiven : ∀ ref ∈ given, ref.hold = .counted)
    (hc : e.Consistent (given + keep)) (hn : next.Consistent keep) (hb : e.heap.get? h = some b)
    (hd : next.heap.get? h = some d) {p q : Program} (hp : b.payload = .program p)
    (hq : d.payload = .program q) :
    p.pins = q.pins + (e.gone next).countP fun x => h ∈ x.2.payload.pins e.heap := by
  have hnone : given.count (.pinned h) = 0 :=
    Multiset.count_eq_zero.2 fun hm => by simpa [pinned] using hgiven _ hm
  rw [hc.balanced.pinned h b p hb hp, hn.balanced.pinned h d q hd hq, hr.refs_eq hc hn,
    Multiset.count_add, Multiset.count_add, hnone, Nat.zero_add, count_pinned_lost]

/-! ## Counters -/

theorem Remnant.total_stock (hr : e.Remnant next) {f : Block → Nat}
    (hf : ∀ b : Block, f b.core = f b) :
    total f e.heap.stock = total f next.heap.stock + total f (e.gone next) :=
  hr.sum_stock fun p => hf p.2

/-- Counters fall by what has gone. -/
theorem Remnant.counters_eq (hr : e.Remnant next) (hc : e.Tallied) (hn : next.Tallied) :
    e.counters = next.counters + .ofStock (e.gone next) := by
  have htotal : ∀ f : Counters → Nat, total (fun b => f (.ofBlock b)) e.heap.stock =
      total (fun b => f (.ofBlock b)) next.heap.stock
        + total (fun b => f (.ofBlock b)) (e.gone next) :=
    fun f => hr.total_stock fun b => congrArg f (Block.ofBlock_of_core b.core_core)
  rw [hc.counters, hn.counters]
  show Counters.ofStock _ = Counters.plus _ _
  unfold Counters.ofStock Counters.plus
  congr 1 <;> exact htotal _

/-! ## String totals -/

/-- What the strings cost that are given back, one entry a reference. -/
def returned (e : Engine) (refs : Multiset Reference) : Multiset Nat :=
  refs.filterMap fun ref =>
    if ref.hold = .counted then StringTable.costAt? e.heap ref.target else none

theorem returned_singleton (ref : Reference) :
    e.returned {ref} =
      ((if ref.hold = .counted then StringTable.costAt? e.heap ref.target else none).map
        singleton).getD 0 := by
  rw [returned, ← Multiset.cons_zero, Multiset.filterMap_cons, Multiset.filterMap_zero, add_zero]

/-- What one reference gives back, found by going through all blocks. -/
theorem sum_returned_singleton (w : Nat → Nat) {ref : Reference}
    (hres : ref.hold = .counted → e.heap.Resolves ref) :
    ((e.returned {ref}).map w).sum =
      (e.heap.stock.map fun p =>
        if ref = .counted p.1 p.2.category then p.2.payload.stringCost?.elim 0 w else 0).sum := by
  by_cases hcounted : ref.hold = .counted
  · obtain ⟨b, hb, hcat⟩ := hres hcounted
    have hothers : ((e.heap.others ref.target).map fun p =>
        if ref = .counted p.1 p.2.category then p.2.payload.stringCost?.elim 0 w else 0).sum
          = 0 := by
      refine Multiset.sum_eq_zero fun n hn => ?_
      obtain ⟨⟨k, c⟩, hk, rfl⟩ := Multiset.mem_map.1 hn
      refine if_neg ?_
      rintro rfl
      exact (Heap.mem_others.1 hk).2 rfl
    have hat : StringTable.costAt? e.heap ref.target = b.payload.stringCost? := by
      simp [StringTable.costAt?, Heap.payload?, hb]
    have hself : ref = .counted ref.target b.category := by
      rw [hcat, Reference.counted, ← hcounted]
    rw [Heap.stock_eq_cons_others hb, Multiset.map_cons, Multiset.sum_cons, hothers,
      if_pos hself, Nat.add_zero]
    rw [returned_singleton, if_pos hcounted, hat]
    cases b.payload.stringCost? <;> simp
  · have hnone : ∀ p : Handle × Block, ref ≠ .counted p.1 p.2.category := by
      rintro p rfl
      exact hcounted rfl
    simp [hnone, returned_singleton, hcounted]

theorem returned_cons (ref : Reference) (refs : Multiset Reference) :
    e.returned (ref ::ₘ refs) = e.returned {ref} + e.returned refs := by
  unfold returned
  rw [← Multiset.singleton_add, Multiset.filterMap_add]

/-- A sum over references to strings is a sum over the strings that counts the references. -/
theorem sum_returned (w : Nat → Nat) {refs : Multiset Reference}
    (hres : ∀ ref ∈ refs, ref.hold = .counted → e.heap.Resolves ref) :
    ((e.returned refs).map w).sum =
      (e.heap.stock.map fun p => p.2.payload.stringCost?.elim 0 fun cost =>
        refs.count (.counted p.1 p.2.category) * w cost).sum := by
  induction refs using Multiset.induction_on with
  | empty =>
    refine (Multiset.sum_eq_zero fun n hn => ?_).symm
    obtain ⟨p, -, rfl⟩ := Multiset.mem_map.1 hn
    cases p.2.payload.stringCost? <;> simp
  | cons ref refs ih =>
    have hone := sum_returned_singleton w (hres ref (Multiset.mem_cons_self _ _))
    rw [returned_cons, Multiset.map_add, Multiset.sum_add, hone,
      ih fun r hr => hres r (Multiset.mem_cons_of_mem hr), ← Multiset.sum_map_add]
    -- block by block: the count grows by one where `ref` refers to
    refine congrArg Multiset.sum (Multiset.map_congr rfl fun p _ => ?_)
    cases p.2.payload.stringCost? with
    | none => simp
    | some cost =>
      by_cases hp : ref = .counted p.1 p.2.category
      · simp [hp, Nat.add_mul, Nat.add_comm]
      · simp [hp, Ne.symm hp]

/-- The stored count behind a handle; none behind a stale one. -/
def storedCount (e : Engine) (h : Handle) : Nat := (e.heap.get? h).elim 0 (·.refs)

/-- What is left of the count of a string. -/
theorem Remnant.refs_of_string (hr : e.Remnant next) (hp : e.heap.Plain) (hq : next.heap.Plain)
    (hc : e.Consistent (given + keep)) (hn : next.Consistent keep) (hb : e.heap.get? h = some b)
    {cost : Nat} (hcost : b.payload.stringCost? = some cost) :
    b.refs = next.storedCount h + (given + e.lost next).count (.counted h b.category) := by
  unfold storedCount
  cases hd : next.heap.get? h with
  | some d => exact hr.refs_of_left hp hq hc hn hb hd
  | none =>
    rw [Option.elim_none, Nat.zero_add]
    refine hr.refs_of_gone hp hc hn hb ?_ hd
    by_contra hcounted
    rw [Category.stringCost?_eq_none (hp h b hb).1
      fun hst => hcounted (Category.isCounted_of_string hst)] at hcost
    cases hcost

/-- References to strings, weighted by the cost of the string, fall by those that are given back. -/
theorem Remnant.sum_strings (hr : e.Remnant next) (hp : e.heap.Plain) (hq : next.heap.Plain)
    (hc : e.Consistent (given + keep)) (hn : next.Consistent keep) (w : Nat → Nat) :
    total (fun b => b.payload.stringCost?.elim 0 fun cost => b.refs * w cost) e.heap.stock =
      total (fun b => b.payload.stringCost?.elim 0 fun cost => b.refs * w cost) next.heap.stock
        + ((e.returned (given + e.lost next)).map w).sum := by
  have hres : ∀ ref ∈ given + e.lost next, ref.hold = .counted → e.heap.Resolves ref :=
    fun ref hm hcounted => hc.balanced.resolves ref
      (Multiset.mem_of_le (e.add_heldIn_le given keep _) hm) (by simp [hcounted])
  have hcount : ∀ p ∈ e.heap.stock,
      (p.2.payload.stringCost?.elim 0 fun cost => p.2.refs * w cost) =
        (p.2.payload.stringCost?.elim 0 fun cost => next.storedCount p.1 * w cost)
          + p.2.payload.stringCost?.elim 0 fun cost =>
            (given + e.lost next).count (.counted p.1 p.2.category) * w cost := by
    rintro ⟨h, b⟩ hm
    cases hcost : b.payload.stringCost? with
    | none => rfl
    | some cost =>
      have hrefs := hr.refs_of_string hp hq hc hn (Heap.mem_stock.1 hm) hcost
      simp only [Option.elim_some]
      rw [hrefs, Nat.add_mul]
  have hstock := hr.sum_stock
    (f := fun p => p.2.payload.stringCost?.elim 0 fun cost => next.storedCount p.1 * w cost)
    fun p => by rw [show p.2.core.payload = p.2.payload.unpinned from rfl,
      p.2.payload.stringCost?_unpinned]
  have hgone : ((e.gone next).map fun p =>
      p.2.payload.stringCost?.elim 0 fun cost => next.storedCount p.1 * w cost).sum = 0 := by
    refine Multiset.sum_eq_zero fun n hn => ?_
    obtain ⟨p, hm, rfl⟩ := Multiset.mem_map.1 hn
    have hnone : next.heap.get? p.1 = none := by
      simpa [Heap.isLive] using (Multiset.mem_filter.1 hm).2
    cases p.2.payload.stringCost? <;> simp [storedCount, hnone]
  have hleft : ((next.heap.stock.map fun p =>
      p.2.payload.stringCost?.elim 0 fun cost => next.storedCount p.1 * w cost)).sum =
      total (fun b => b.payload.stringCost?.elim 0 fun cost => b.refs * w cost)
        next.heap.stock := by
    refine congrArg Multiset.sum (Multiset.map_congr rfl fun p hm => ?_)
    simp only [storedCount, Heap.mem_stock.1 hm, Option.elim_some]
  rw [hgone, Nat.add_zero, hleft] at hstock
  rw [sum_returned w hres, ← hstock, ← Multiset.sum_map_add]
  exact congrArg Multiset.sum (Multiset.map_congr rfl hcount)

/-- Totals of strings fall by the strings that have gone and the references given back to
strings. -/
theorem Remnant.totals_eq (hr : e.Remnant next) (hp : e.heap.Plain) (hq : next.heap.Plain)
    (hc : e.Consistent (given + keep)) (hn : next.Consistent keep) :
    e.strings.totals = next.strings.totals +
      ⟨(StringTotals.ofStock (e.gone next)).distinct,
        Multiset.card (e.returned (given + e.lost next)),
        (StringTotals.ofStock (e.gone next)).distinctBytes,
        (e.returned (given + e.lost next)).sum⟩ := by
  have hf : ∀ f : Option Nat → Nat, total (fun b => f b.payload.stringCost?) e.heap.stock =
      total (fun b => f b.payload.stringCost?) next.heap.stock
        + total (fun b => f b.payload.stringCost?) (e.gone next) :=
    fun f => hr.total_stock fun b => congrArg f b.payload.stringCost?_unpinned
  have hone := hr.sum_strings hp hq hc hn fun _ => 1
  have hcosts := hr.sum_strings hp hq hc hn id
  rw [hc.tallied.totals, hn.tallied.totals]
  show StringTotals.ofStock _ = StringTotals.plus _ _
  unfold StringTotals.ofStock StringTotals.plus
  simp only [Nat.mul_one, Multiset.map_const', Multiset.sum_replicate, Nat.nsmul_eq_mul, id_eq,
    Multiset.map_id'] at hone hcosts
  rw [StringTotals.mk.injEq]
  exact ⟨hf fun cost => cost.elim 0 fun _ => 1, hone, hf fun cost => cost.elim 0 id, hcosts⟩

/-! ## Exactly what is released -/

/-- `next` is left of `e` when `given` is given back. -/
structure Reclaims (e : Engine) (given : Multiset Reference) (next : Engine) : Prop where
  /-- Nothing but numbers changes in what is left. -/
  remnant : e.Remnant next
  removed : IsLeast {S | e.heap.Closed given S} (e.removed next)
  refs : ∀ h b d, e.heap.get? h = some b → next.heap.get? h = some d →
    b.refs = d.refs + (given + e.lost next).count (.counted h b.category)
  pins : ∀ h b d p q, e.heap.get? h = some b → next.heap.get? h = some d →
    b.payload = .program p → d.payload = .program q →
    p.pins = q.pins + (e.gone next).countP fun x => h ∈ x.2.payload.pins e.heap
  counters : e.counters = next.counters + .ofStock (e.gone next)
  totals : e.strings.totals = next.strings.totals +
    ⟨(StringTotals.ofStock (e.gone next)).distinct,
      Multiset.card (e.returned (given + e.lost next)),
      (StringTotals.ofStock (e.gone next)).distinctBytes,
      (e.returned (given + e.lost next)).sum⟩

/-- Parts may be settled in any order, those of different blocks mixed. -/
theorem reclaims_of_settlement (hp : e.heap.Plain) (hgiven : ∀ ref ∈ given, ref.hold = .counted)
    (hc : e.Consistent (given + keep))
    (hs : Settlement (e, given.map Reference.part) (next, 0)) :
    e.Reclaims given next ∧ next.Consistent keep := by
  have hpin : ∀ ref ∈ given, ref.hold ≠ .pinned := fun ref hm => by simp [hgiven ref hm]
  obtain ⟨left, hleft, -, hr⟩ := repays_of_settlement ⟨hpin, hc⟩ hs
  rw [Multiset.map_eq_zero.1 hleft] at hr
  have hl := (yields_of_repays hc hr).of_eq (zero_add keep)
  obtain ⟨hrem, hsub⟩ := removed_subset_of_repays hp hgiven hc hr
  have hn := hl.consistent
  have hq := hl.plain hp
  exact ⟨⟨hrem, ⟨hrem.closed_removed hp hq hc hn, fun S hS => hsub S hS⟩,
    fun h b d hb hd => hrem.refs_of_left hp hq hc hn hb hd,
    fun h b d p q hb hd => hrem.pins_of_left hgiven hc hn hb hd,
    hrem.counters_eq hc.tallied hn.tallied, hrem.totals_eq hp hq hc hn⟩, hn⟩

end Engine

/-! ## The order of releases -/

/-- The same slots; what is vacant may be used again in another order. -/
structure Heap.Alike (a b : Heap) : Prop where
  slots : a.slots = b.slots
  free : a.free.Perm b.free
  issued : a.issued = b.issued
  tick : a.tick = b.tick

theorem Heap.alike_of_slots {a b : Heap} (hs : a.slots = b.slots) (hi : a.issued = b.issued)
    (ht : a.tick = b.tick) : a.Alike b := by
  refine ⟨hs, ?_, hi, ht⟩
  refine (List.perm_ext_iff_of_nodup a.free_nodup b.free_nodup).2 fun i => ?_
  rw [a.mem_free_iff, b.mem_free_iff, hs]

namespace Engine

/-- The same engine, but for the order in which vacant slots are used again. -/
structure Alike (a b : Engine) : Prop where
  heap : a.heap.Alike b.heap
  rest : { a with heap := b.heap } = b

variable {e a b : Engine} {given keep : Multiset Reference} {h : Handle}

/-- Which blocks go is settled by the rules. -/
theorem Reclaims.isLive_eq (ha : e.Reclaims given a) (hb : e.Reclaims given b) (h : Handle) :
    a.heap.isLive h = b.heap.isLive h := by
  have hsame : e.removed a = e.removed b := ha.removed.unique hb.removed
  have hleft : ∀ {x y : Engine}, e.Remnant x → e.removed x = e.removed y → x.heap.isLive h →
      y.heap.isLive h := by
    intro x y hr hxy hl
    by_contra hn
    have hm : h ∈ e.removed y := ⟨hr.heap.isLive hl, hn⟩
    rw [← hxy] at hm
    exact hm.2 hl
  rw [Bool.eq_iff_iff]
  exact ⟨hleft ha.remnant hsame, hleft hb.remnant hsame.symm⟩

/-- So is what becomes of the others. -/
theorem Reclaims.get?_eq (ha : e.Reclaims given a) (hb : e.Reclaims given b) (h : Handle) :
    a.heap.get? h = b.heap.get? h := by
  have hlive := ha.isLive_eq hb
  have hlost : e.lost a = e.lost b := by
    unfold lost
    rw [ha.removed.unique hb.removed]
  have hgone : e.gone a = e.gone b := by
    unfold gone
    refine Multiset.filter_congr fun p _ => ?_
    rw [hlive]
  cases hd : a.heap.get? h with
  | none =>
    have hl := hlive h
    rw [Heap.isLive, hd, Heap.isLive] at hl
    exact (by simpa using hl.symm : b.heap.get? h = none).symm
  | some d =>
    obtain ⟨d', hd'⟩ := Heap.isLive_iff.1 ((hlive h).symm.trans (Heap.isLive_iff.2 ⟨d, hd⟩))
    obtain ⟨c, hc, hcore, -⟩ := ha.remnant.heap.block h d hd
    obtain ⟨c', hc', hcore', -⟩ := hb.remnant.heap.block h d' hd'
    rw [hc] at hc'
    cases hc'
    have hrefs := ha.refs h c d hc hd
    have hrefs' := hb.refs h c d' hc hd'
    rw [hlost] at hrefs
    rw [hd', Block.eq_of_core (hcore.trans hcore'.symm) (by omega) ?_]
    intro p q hp hq
    obtain ⟨r, hr⟩ : ∃ r, c.payload = .program r := by
      have hpay := Block.unpinned_of_core hcore
      rw [hp] at hpay
      cases hcp : c.payload with
      | program r => exact ⟨r, rfl⟩
      | _ =>
        rw [hcp] at hpay
        cases hpay
    have hpins := ha.pins h c d r p hc hd hr hp
    have hpins' := hb.pins h c d' r q hc hd' hr hq
    rw [hgone] at hpins
    omega

/-- Any two ways of giving the same references back end alike. -/
theorem Reclaims.alike (ha : e.Reclaims given a) (hb : e.Reclaims given b) (hac : a.Consistent keep)
    (hbc : b.Consistent keep) : a.Alike b := by
  have hslots : a.heap.slots = b.heap.slots := by
    refine Heap.slots_eq (fun i => ?_) (ha.get?_eq hb)
    rw [ha.remnant.heap.generation, hb.remnant.heap.generation]
  have hheap : a.heap.Alike b.heap := Heap.alike_of_slots hslots
    (ha.remnant.heap.issued.trans hb.remnant.heap.issued.symm)
    (ha.remnant.heap.tick.trans hb.remnant.heap.tick.symm)
  have hstock : a.heap.stock = b.heap.stock := by
    unfold Heap.stock Heap.entries
    rw [hslots]
  have hfind : ∀ text, a.strings.find? text = b.strings.find? text := by
    intro text
    refine Option.ext fun k => ?_
    rw [hac.tallied.interned, hbc.tallied.interned, ha.get?_eq hb]
  have hentries : a.strings.entries = b.strings.entries := by
    rw [ha.remnant.strings, hb.remnant.strings]
    simp only [hfind]
  have htotals : a.strings.totals = b.strings.totals := by
    rw [hac.tallied.totals, hbc.tallied.totals, hstock]
  have hstrings : a.strings = b.strings := by
    cases hs : a.strings
    cases ht : b.strings
    rw [hs, ht] at hentries htotals
    cases hentries
    cases htotals
    rfl
  have hcounters : a.counters = b.counters := by
    rw [hac.tallied.counters, hbc.tallied.counters, hstock]
  refine ⟨hheap, ?_⟩
  rw [hb.remnant.rest, ha.remnant.rest]
  simp only [hstrings, hcounters]

end Engine

/-! ## Clients -/

/-- Commands that give one reference back. -/
inductive Command.GivesBack : Command → Reference → Prop
  | value (kind : RefKind) (h : Handle) :
    GivesBack (.releaseValue (.ref kind h)) (.counted h kind.category)
  | block (h : Handle) (c : Category) : GivesBack (.release h) (.counted h c)

namespace Client

open Engine

variable {c : Client}

theorem play_eq_releaseAll {cmds : List Command} {given : List Reference}
    (hcmds : List.Forall₂ Command.GivesBack cmds given) (c : Client) :
    (c.play cmds).engine = c.engine.releaseAll (given.map (·.target)) := by
  induction hcmds generalizing c with
  | nil => rfl
  | cons hcmd _ ih =>
    rw [play, ih]
    cases hcmd <;> rfl

/-- Exact reclamation: references of the client are given back one by one, and what goes, what
falls and what stays is settled by the references alone; another order ends alike. -/
theorem reclaims_in_any_order (hr : Reachable Command.isHelper c) {given : List Reference}
    (hheld : (given : Multiset Reference) ≤ c.ledger) {cmds : List Command}
    (hcmds : List.Forall₂ Command.GivesBack cmds given) :
    c.engine.Reclaims given (c.play cmds).engine ∧
      ∀ cmds' given', given'.Perm given → List.Forall₂ Command.GivesBack cmds' given' →
        (c.play cmds').engine.Alike (c.play cmds).engine := by
  obtain ⟨hi, hp⟩ := hr.plain
  have hcounted : ∀ ref ∈ (given : Multiset Reference), ref.hold = .counted :=
    fun ref hm => hi.counted ref (Multiset.mem_of_le hheld hm)
  have hc : c.engine.Consistent (↑given + (c.ledger - ↑given)) :=
    hi.consistent.of_eq (by rw [add_tsub_cancel_of_le hheld, add_zero])
  have hrun : ∀ cmds' (given' : List Reference), (given' : Multiset Reference) = given →
      List.Forall₂ Command.GivesBack cmds' given' →
      c.engine.Reclaims given (c.play cmds').engine ∧
        (c.play cmds').engine.Consistent (c.ledger - ↑given) := by
    intro cmds' given' hsame hcmds'
    have hs : Settlement (c.engine, (given' : Multiset Reference).map Reference.part)
        (c.engine.releaseAll (given'.map (·.target)), 0) :=
      settles_releaseCounted c.engine fun ref hm => hcounted ref (hsame ▸ Multiset.mem_coe.2 hm)
    rw [hsame] at hs
    rw [play_eq_releaseAll hcmds']
    exact reclaims_of_settlement hp hcounted hc hs
  obtain ⟨hfirst, hkept⟩ := hrun cmds given rfl hcmds
  refine ⟨hfirst, fun cmds' given' hperm hcmds' => ?_⟩
  obtain ⟨hother, hkept'⟩ := hrun cmds' given' (Multiset.coe_eq_coe.2 hperm) hcmds'
  exact hother.alike hfirst hkept' hkept

/-- A client that holds a mapping and an array. The array holds the mapping too, and the mapping a
closure compiled into a program that the client keeps. -/
def mappingInArray : Client :=
  (fresh {}).play
    [.newProgram { filename := "a.c" }, .newClosure (.functional ⟨1, 0⟩) none [], .newShared "key",
      .retain ⟨3, 0⟩, .newMapping [(.ref .shared ⟨3, 0⟩, .ref .function ⟨2, 0⟩)], .retain ⟨6, 0⟩,
      .newArray [.ref .mapping ⟨6, 0⟩]]

theorem reclaims_in_any_order_mappingInArray :
    Reachable Command.isHelper mappingInArray ∧
    (([.counted ⟨6, 0⟩ .mapping, .counted ⟨7, 0⟩ .array] : List Reference) : Multiset Reference) ≤
      mappingInArray.ledger ∧
    mappingInArray.engine.Reclaims
      (([.counted ⟨6, 0⟩ .mapping, .counted ⟨7, 0⟩ .array] : List Reference) : Multiset Reference)
      (mappingInArray.play [.release ⟨6, 0⟩, .releaseValue (.ref .array ⟨7, 0⟩)]).engine ∧
    (mappingInArray.play [.releaseValue (.ref .array ⟨7, 0⟩), .release ⟨6, 0⟩]).engine.Alike
      (mappingInArray.play [.release ⟨6, 0⟩, .releaseValue (.ref .array ⟨7, 0⟩)]).engine ∧
    (mappingInArray.play
      [.release ⟨6, 0⟩, .releaseValue (.ref .array ⟨7, 0⟩)]).engine.heap.entries.map (·.1) =
        [⟨0, 0⟩, ⟨1, 0⟩, ⟨3, 0⟩] := by
  have hr : Reachable Command.isHelper mappingInArray :=
    ⟨{}, steps_play (by decide +kernel)⟩
  have hheld : (([.counted ⟨6, 0⟩ .mapping, .counted ⟨7, 0⟩ .array] : List Reference) :
      Multiset Reference) ≤ mappingInArray.ledger := by
    decide +kernel
  have hmapping : Command.GivesBack (.release ⟨6, 0⟩) (.counted ⟨6, 0⟩ .mapping) := .block _ _
  have harray : Command.GivesBack (.releaseValue (.ref .array ⟨7, 0⟩)) (.counted ⟨7, 0⟩ .array) :=
    .value .array _
  obtain ⟨hreclaims, hany⟩ :=
    reclaims_in_any_order hr hheld (.cons hmapping (.cons harray .nil))
  refine ⟨hr, hheld, hreclaims, ?_, by decide +kernel⟩
  exact hany _ _ (.swap _ _ _) (.cons harray (.cons hmapping .nil))

end Client

end HeapAudit
