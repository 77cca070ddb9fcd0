import HeapAudit.Proofs.Engine.Courses
import HeapAudit.Proofs.Engine.Interning
import HeapAudit.Proofs.Engine.Orderly

/-!
The engine's invariant, and what the simplest changes do to it.

The references of an engine are in the slots of its blocks, in its roots, or with the client. An
operation moves references between these places; it is described by what the client holds before
and after.

Main definitions
* `Engine.Tallied`: the running totals and the string table are right.
* `Engine.Consistent`: the engine is in order, given the references the client holds.
* `Engine.Yields`: an operation ends in order, and the blocks that were there are still the same.
* `Engine.Leads`: and its counters never ran short on the way.

Main statements
* `Engine.leads_grow`, `Engine.leads_setRoots`, `Engine.leads_setPayload`: a new block, new roots,
  a new payload.
-/

namespace HeapAudit

namespace Engine

/-- The running totals are sums over the blocks; the table finds the shared strings there are. -/
structure Tallied (e : Engine) : Prop where
  counters : e.counters = .ofStock e.heap.stock
  totals : e.strings.totals = .ofStock e.heap.stock
  interned : ∀ text h, e.strings.find? text = some h ↔
    ∃ b, e.heap.get? h = some b ∧ b.payload = .sharedText text

/-- The references the roots hold. -/
def rootRefs (e : Engine) : Multiset Reference := ↑(e.rootHeld.map (·.2))

/-- Everything in order, where `client` are the references the client holds. -/
structure Consistent (e : Engine) (client : Multiset Reference) : Prop where
  orderly : e.heap.Orderly (e.rootRefs + client)
  tallied : e.Tallied
  /-- The string held for the default failure message is in the table. -/
  failing : ∀ text, e.roots.defaultFailMessage = some text →
    (e.strings.find? (failText text)).isSome
  unspent : e.roots.freeSentences = []

/-- The engine `next` is in order, and its old blocks are those of `e`. -/
structure Yields (e next : Engine) (client : Multiset Reference) : Prop where
  consistent : next.Consistent client
  later : e.heap.Later next.heap
  plain : e.heap.Plain → next.heap.Plain

/-- And so was every engine on the way, as far as the counters go. -/
structure Leads (e next : Engine) (client : Multiset Reference) : Prop
    extends e.Yields next client where
  course : e.Course next

variable {e mid next : Engine} {client : Multiset Reference} {h : Handle} {b : Block}

theorem Consistent.yields (hc : e.Consistent client) : e.Yields e client :=
  ⟨hc, .refl _, id⟩

theorem Consistent.leads (hc : e.Consistent client) : e.Leads e client :=
  ⟨hc.yields, .refl⟩

theorem Consistent.of_eq (hc : e.Consistent client) {more : Multiset Reference}
    (h : client = more) : e.Consistent more :=
  h ▸ hc

theorem Yields.of_eq (hy : e.Yields next client) {more : Multiset Reference} (h : client = more) :
    e.Yields next more :=
  h ▸ hy

theorem Leads.of_eq (hl : e.Leads next client) {more : Multiset Reference} (h : client = more) :
    e.Leads next more :=
  h ▸ hl

theorem Yields.trans {between : Multiset Reference} (hm : e.Yields mid between)
    (hl : mid.Yields next client) : e.Yields next client :=
  ⟨hl.consistent, hm.later.trans hl.later, fun hp => hl.plain (hm.plain hp)⟩

theorem Leads.trans {between : Multiset Reference} (hm : e.Leads mid between)
    (hl : mid.Leads next client) : e.Leads next client :=
  ⟨hm.toYields.trans hl.toYields, hm.course.trans hl.course⟩

/-- A change that lets no block go. -/
theorem Yields.leads (hy : e.Yields next client) (hg : e.heap.Grows next.heap) :
    e.Leads next client :=
  ⟨hy, course_of_grows hg hy.consistent.tallied.counters⟩

/-- All references of the engine and its client. -/
def refs (e : Engine) (client : Multiset Reference) : Multiset Reference :=
  e.heap.heldRefs + (e.rootRefs + client)

theorem Consistent.balanced (hc : e.Consistent client) : e.heap.Balanced (e.refs client) :=
  hc.orderly.balanced

theorem mem_refs_of_client {ref : Reference} (hm : ref ∈ client) : ref ∈ e.refs client :=
  Multiset.mem_add.2 (.inr (Multiset.mem_add.2 (.inr hm)))

theorem mem_refs_of_slot {ref : Reference} (hb : e.heap.get? h = some b)
    (hm : ref ∈ b.payload.held e.heap) : ref ∈ e.refs client :=
  Multiset.mem_add.2 (.inl (Heap.mem_heldRefs.2 ⟨h, b, hb, hm⟩))

/-- What the client holds is there. -/
theorem Consistent.live_of_client (hc : e.Consistent client) {c : Category}
    (hm : .counted h c ∈ client) :
    ∃ b, e.heap.get? h = some b ∧ b.category = c ∧ c.isCounted := by
  obtain ⟨b, hb, hcat⟩ :=
    hc.balanced.resolves _ (mem_refs_of_client hm) (by simp [Reference.counted])
  exact ⟨b, hb, hcat, hc.balanced.fits _ (mem_refs_of_client hm)⟩

/-- Where every block has its payload, stored counts are numbers of references. -/
theorem Consistent.refs_eq_count (hc : e.Consistent keep) (hp : e.heap.Plain)
    (hb : e.heap.get? h = some b) (hcounted : b.category.isCounted) :
    b.refs = (e.refs keep).count (.counted h b.category) := by
  have hne : b.payload ≠ .blank := by
    intro hblank
    have hcar := (hp h b hb).1
    rw [hblank] at hcar
    revert hcounted hcar
    cases b.category <;> decide
  rw [hc.balanced.counted h b hb hcounted, Payload.surplus_eq_zero hne, Nat.add_zero]

/-! ## Totals -/

theorem Tallied.tracks (ht : e.Tallied) : e.strings.Tracks e.heap :=
  ⟨ht.totals, ht.interned⟩

/-- A change that no total looks at. -/
theorem Tallied.update (ht : e.Tallied) (hb : e.heap.get? h = some b) {f : Block → Block}
    (hadd : ∀ c : Counters, c.adding (f b).category (f b).size (f b).payload =
      c.adding b.category b.size b.payload)
    (hold : b.payload.stringCost? = none) (hnew : (f b).payload.stringCost? = none) :
    (e.setHeap (e.heap.update h f)).Tallied := by
  have hstrings := ht.tracks.update hb hold hnew
  refine ⟨?_, hstrings.totals, hstrings.interned⟩
  show e.counters = Counters.ofStock (e.heap.update h f).stock
  rw [ht.counters, Heap.stock_eq_cons_others hb, Heap.stock_update hb f, Counters.ofStock_cons,
    Counters.ofStock_cons, hadd]

/-- A new block that is no string, noted in the counters. -/
theorem Tallied.grow (ht : e.Tallied) (category : Category) {payload : Payload} (size : Nat)
    (description : String) (hp : payload.stringCost? = none) :
    Tallied { e with
      heap := (e.heap.allocateSized category payload size description).1
      counters := e.counters.adding category size payload } := by
  have hstrings := ht.tracks.allocate category size description hp
  refine ⟨?_, hstrings.totals, hstrings.interned⟩
  show e.counters.adding category size payload = _
  rw [ht.counters, Heap.stock_allocateSized, Counters.ofStock_cons]

/-- A block less that was no string, taken out of the counters. -/
theorem Tallied.shrink {rest : Heap} (ht : e.Tallied) (hr : e.heap.remove h = some (b, rest))
    (hp : b.payload.stringCost? = none) :
    Tallied { e with
      heap := rest
      counters := e.counters.without b.category b.size b.payload } := by
  have hstrings := ht.tracks.remove hr hp
  refine ⟨?_, hstrings.totals, hstrings.interned⟩
  show e.counters.without b.category b.size b.payload = _
  rw [ht.counters, Heap.stock_remove hr, Counters.ofStock_cons, Counters.without_adding]

/-! ## A new block -/

/-- The engine with one block more, noted in its counters. -/
def grow (e : Engine) (category : Category) (payload : Payload) (size : Nat)
    (description : String) : Engine :=
  { e with
    heap := (e.heap.allocateSized category payload size description).1
    counters := e.counters.adding category size payload }

/-- What a new block has to be. Strings are made by the string table. -/
structure Fresh (e : Engine) (client : Multiset Reference) (category : Category)
    (payload : Payload) (size : Nat) : Prop where
  carries : category.carries payload
  settled : category.isSettled
  proper : payload.Proper
  size : ∀ items, payload = .slots items → size = Payload.aggregateSize items.length
  pins : ∀ p, payload = .program p →
    p.pins = 0 ∧ (e.refs client).count (.pinned e.heap.nextHandle) = 0
  closure : ∀ c, payload = .closure c → c.Anchored e.heap (e.heap.issued + 1)
  plain : payload.stringCost? = none

theorem leads_grow (category : Category) (payload : Payload) (size : Nat)
    (hc : e.Consistent (↑(payload.held e.heap) + client)) (description : String)
    (hf : e.Fresh (↑(payload.held e.heap) + client) category payload size) :
    e.Leads (e.grow category payload size description)
      (category.firstReference payload e.heap.nextHandle + client) := by
  refine Yields.leads
    ⟨⟨?_, hc.tallied.grow category size description hf.plain, hc.failing, hc.unspent⟩,
      Heap.later_allocateSized _ _ _ _ _, fun hp => hp.allocateSized size description hf.carries
        hf.settled⟩ (Heap.grows_allocateSized _ _ _ _ _)
  have ho := hc.orderly
  rw [add_left_comm] at ho
  have hpins := hf.pins
  rw [refs, add_left_comm e.rootRefs] at hpins
  have hgrown := ho.allocateSized category payload size description (fun _ => hf.carries)
    hf.proper hf.size hpins
    hf.closure
  rw [add_left_comm] at hgrown
  exact hgrown

/-! ## Roots and payloads -/

/-- References move between the roots and the client. -/
theorem leads_setRoots (hc : e.Consistent client) {roots : Roots} {left : Multiset Reference}
    (hmove : e.rootRefs + client = ({ e with roots } : Engine).rootRefs + left)
    (hfail : ∀ text, roots.defaultFailMessage = some text →
      (e.strings.find? (failText text)).isSome)
    (hfree : roots.freeSentences = []) : e.Leads { e with roots } left := by
  refine Yields.leads
    ⟨⟨?_, ⟨hc.tallied.counters, hc.tallied.totals, hc.tallied.interned⟩, hfail, hfree⟩,
      .refl _, id⟩ (.refl _)
  rw [← hmove]
  exact hc.orderly

/-- References move between a block and the client. -/
theorem leads_setPayload (payload : Payload) (hc : e.Consistent client)
    (hb : e.heap.get? h = some b) (hbecomes : b.Becomes { b with payload })
    (hcar : b.category.carries payload) (hproper : payload.Proper)
    (hadd : ∀ c : Counters, c.adding b.category b.size payload =
      c.adding b.category b.size b.payload)
    (hold : b.payload ≠ .blank) (hnew : payload ≠ .blank)
    (hsize : ∀ items, payload ≠ .slots items) (hpins : ∀ p, payload ≠ .program p)
    (hcost : b.payload.stringCost? = none) (hplain : payload.stringCost? = none)
    (hviews : ∀ k c, (e.heap.setPayload h payload).get? k = some c → ∀ v ∈ c.payload.views,
      e.heap.programOf? v = (e.heap.setPayload h payload).programOf? v ∧
        e.heap.sentenceOf? v = (e.heap.setPayload h payload).sentenceOf? v)
    {left : Multiset Reference}
    (hmove : ↑(b.payload.held e.heap) + client = ↑(payload.held e.heap) + left) :
    e.Leads (e.setHeap (e.heap.setPayload h payload)) left := by
  have hpinned : b.payload.pinCount = 0 := by
    cases hp : b.payload with
    | program p =>
      obtain ⟨q, hq⟩ := hbecomes.program.2 ⟨p, hp⟩
      exact absurd hq (hpins q)
    | _ => rfl
  refine Yields.leads
    ⟨⟨?_, hc.tallied.update hb hadd hcost hplain, hc.failing, hc.unspent⟩,
      Heap.later_update hb hbecomes, fun hp => hp.update hb hcar (hp h b hb).2⟩
    (Heap.grows_update hb (hadd {}) (hpinned ▸ Nat.zero_le _))
  refine hc.orderly.setPayload hb hbecomes hcar hold hnew hproper hsize hpins hviews ?_
  rw [add_left_comm, hmove]
  exact add_left_comm _ _ _

/-- Settings and providers are no part of the references. -/
theorem Consistent.withSettings (hc : e.Consistent client) (settings : Settings)
    (providers : List Provider) : Consistent { e with settings, providers } client :=
  ⟨hc.orderly, ⟨hc.tallied.counters, hc.tallied.totals, hc.tallied.interned⟩, hc.failing,
    hc.unspent⟩

end Engine

end HeapAudit
