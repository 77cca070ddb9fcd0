import HeapAudit.Proofs.Engine.Remnant
import Mathlib.Data.Prod.Lex
import Mathlib.Order.WellFounded

/-!
A release on any heap, however little its counts and handles can be trusted. It settles one part
after the other, and as long as blocks go or fewer parts are due it cannot go on for ever. What it
touches lies along the handles that payloads store, and of what stays only counts and pins go down.

Main definitions
* `Payload.handles`: every handle that a payload stores.
* `Heap.Reaches`: along such handles.
* `Block.Lowered`: a block with a lower count and, of a program, fewer pins.
* `Engine.Receded`: what may become of an engine when only some of its blocks are touched.

Main statements
* `Engine.wellFounded_settles`: settling comes to an end.
* `Engine.receded_settle`, `Engine.receded_of_settlement`: one step, and any number of them.
* `Engine.release_recedes`: a release comes to an end, adds nothing, and keeps to what the released
  handle leads to.
-/

namespace HeapAudit

/-! ## The handles in a payload -/

def Closure.handles (c : Closure) : List Handle :=
  (match c.kind with
    | .functional program => [program]
    | .named _ | .builtin _ | .ownCode _ _ => []) ++ c.owner.toList ++ c.args.toList

def Object.handles (ob : Object) : List Handle :=
  ob.name :: ob.program.toList ++ heldBy ob.vars ++ ob.sentences ++ ob.livingName.toList
    ++ ob.replacedProgram.toList ++ ob.privileges.toList

def Program.handles (p : Program) : List Handle :=
  p.filename :: p.inherits.map (·.program) ++ p.functionNames.filterMap id ++ p.variableNames
    ++ p.strings ++ p.lineInfo.toList

def Sentence.handles (s : Sentence) : List Handle :=
  s.owner :: s.callee.target :: s.verb.toList

def Redirect.handles (r : Redirect) : List Handle := r.sentence :: heldBy r.carried

def Session.handles (s : Session) : List Handle :=
  s.object :: s.redirect.elim [] Redirect.handles ++ s.failMessage.toList.map Callee.target

def CallOut.handles (c : CallOut) : List Handle :=
  c.callee.target :: c.object.toList ++ heldBy c.args

/-- Every handle that a payload stores, whether it stands for a reference or not. -/
def Payload.handles : Payload → List Handle
  | .slots items => heldBy items
  | .mapping table => [table]
  | .mapTable nodes => nodes
  | .mapNode key value => heldBy [key, value]
  | .closure c => c.handles
  | .object ob => ob.handles
  | .program p => p.handles
  | .sentence s => s.handles
  | .session s => s.handles
  | .callOut c => c.handles
  | .identTable t => t.entries.filterMap (·.block)
  | .blank | .text _ | .privateText _ _ | .sharedText _ | .bytes _ => []

namespace Heap

/-- The payload behind `h` stores `k`. -/
def Links (heap : Heap) (h k : Handle) : Prop := ∃ p, heap.payload? h = some p ∧ k ∈ p.handles

/-- From `h` to `k` along stored handles; every handle reaches itself. -/
def Reaches (heap : Heap) : Handle → Handle → Prop := Relation.ReflTransGen heap.Links

/-- With every block of `S`, what its payload stores is in `S`. -/
def ClosedUnder (heap : Heap) (S : Set Handle) : Prop := ∀ h ∈ S, ∀ k, heap.Links h k → k ∈ S

theorem links_of_get? {heap : Heap} {h k : Handle} {b : Block} (hb : heap.get? h = some b)
    (hk : k ∈ b.payload.handles) : heap.Links h k :=
  ⟨b.payload, by rw [payload?, hb]; rfl, hk⟩

theorem closedUnder_reaches (heap : Heap) (h : Handle) :
    heap.ClosedUnder {k | heap.Reaches h k} :=
  fun _ hk _ hl => Relation.ReflTransGen.tail hk hl

end Heap

theorem Payload.handles_unpinned (p : Payload) : p.unpinned.handles = p.handles := by
  cases p <;> rfl

/-! ## Parts lie along stored handles -/

def Part.target : Part → Handle
  | counted h | owned h => h

section Parts

variable {heap : Heap} {S : Set Handle} {q : Part}

theorem Part.target_mem_of_held {values : List Value} (hq : q ∈ Part.held values) :
    q.target ∈ heldBy values := by
  obtain ⟨k, hk, rfl⟩ := List.mem_map.1 hq
  exact hk

theorem Part.target_mem_of_optional {h : Option Handle} (hq : q ∈ Part.optional h) :
    q.target ∈ h.toList := by
  obtain ⟨k, hk, rfl⟩ := List.mem_map.1 hq
  exact hk

/-- The sentence of a redirect is looked into; its owner is one handle further. -/
theorem Redirect.target_mem_of_parts (hs : heap.ClosedUnder S) {r : Redirect}
    (hr : ∀ k ∈ r.handles, k ∈ S) (hq : q ∈ r.parts heap) : q.target ∈ S := by
  have hsentence : r.sentence ∈ S := hr _ List.mem_cons_self
  unfold Redirect.parts at hq
  rcases List.mem_append.1 hq with hq | hq
  · simp only [List.mem_map, Option.mem_toList, Option.map_eq_some_iff,
      Option.bind_eq_some_iff] at hq
    obtain ⟨_, ⟨s, ⟨p, hp, hview⟩, rfl⟩, rfl⟩ := hq
    rw [Payload.sentence?_eq_some_iff] at hview
    exact hs _ hsentence _ ⟨p, hp, hview ▸ List.mem_cons_self⟩
  · rcases List.mem_cons.1 hq with rfl | hq
    · exact hsentence
    · exact hr _ (List.mem_cons_of_mem _ (Part.target_mem_of_held hq))

theorem Object.target_mem_of_parts {ob : Object} (hq : q ∈ ob.parts) : q.target ∈ ob.handles := by
  simp only [parts, List.mem_append, List.mem_cons, List.mem_map] at hq
  simp only [handles, List.mem_append, List.mem_cons]
  rcases hq with (((((rfl | ⟨k, hk, rfl⟩) | hq) | hq) | hq) | hq) | hq
  · exact .inl (.inl (.inl (.inl (.inl (.inl rfl)))))
  · exact .inl (.inl (.inl (.inr hk)))
  · exact .inl (.inl (.inl (.inl (.inl (.inr (Part.target_mem_of_optional hq))))))
  · exact .inl (.inl (.inl (.inl (.inr (Part.target_mem_of_held hq)))))
  · exact .inl (.inl (.inr (Part.target_mem_of_optional hq)))
  · exact .inl (.inr (Part.target_mem_of_optional hq))
  · exact .inr (Part.target_mem_of_optional hq)

theorem Program.target_mem_of_parts {p : Program} (hq : q ∈ p.parts) : q.target ∈ p.handles := by
  simp only [parts, List.mem_append, List.mem_cons, List.mem_map] at hq
  simp only [handles, List.mem_append, List.mem_cons, List.mem_map]
  rcases hq with ((((rfl | ⟨i, hi, rfl⟩) | ⟨k, hk, rfl⟩) | ⟨k, hk, rfl⟩) | ⟨k, hk, rfl⟩) |
    ⟨k, hk, rfl⟩
  · exact .inl (.inl (.inl (.inl (.inl rfl))))
  · exact .inl (.inl (.inl (.inl (.inr ⟨i, hi, rfl⟩))))
  · exact .inl (.inl (.inl (.inr hk)))
  · exact .inl (.inl (.inr hk))
  · exact .inl (.inr hk)
  · exact .inr hk

theorem Session.target_mem_of_parts (hs : heap.ClosedUnder S) {s : Session}
    (hp : ∀ k ∈ s.handles, k ∈ S) (hq : q ∈ s.parts heap) : q.target ∈ S := by
  simp only [handles, List.mem_append, List.mem_cons] at hp
  simp only [parts, List.mem_append, List.mem_cons] at hq
  rcases hq with (rfl | hq) | hq
  · exact hp _ (.inl (.inl rfl))
  · cases hr : s.redirect with
    | none => simp [hr] at hq
    | some r =>
      rw [hr] at hp hq
      exact r.target_mem_of_parts hs (fun k hk => hp k (.inl (.inr hk))) hq
  · refine hp _ (.inr ?_)
    simp only [Option.mem_toList, Option.map_eq_some_iff] at hq
    obtain ⟨m, hm, rfl⟩ := hq
    exact List.mem_map.2 ⟨m, Option.mem_toList.2 hm, rfl⟩

/-- What a payload lets go of is among its handles, but for the owner of a redirect. -/
theorem Payload.target_mem_of_parts (hs : heap.ClosedUnder S) {p : Payload}
    (hp : ∀ k ∈ p.handles, k ∈ S) (hq : q ∈ p.parts heap) : q.target ∈ S := by
  cases p with
  | slots items => exact hp _ (Part.target_mem_of_held hq)
  | mapping table =>
    obtain rfl := List.mem_singleton.1 hq
    exact hp _ List.mem_cons_self
  | mapTable nodes =>
    obtain ⟨k, hk, rfl⟩ := List.mem_map.1 hq
    exact hp _ hk
  | mapNode key value => exact hp _ (Part.target_mem_of_held hq)
  | closure c =>
    refine hp _ ?_
    rcases List.mem_append.1 hq with hq | hq
    · simp [handles, Closure.handles, Part.target_mem_of_optional hq]
    · simp [handles, Closure.handles, Part.target_mem_of_optional hq]
  | object ob => exact hp _ (Object.target_mem_of_parts hq)
  | program p => exact hp _ (Program.target_mem_of_parts hq)
  | sentence s =>
    refine hp _ ?_
    rcases List.mem_cons.1 hq with rfl | hq
    · simp [handles, Sentence.handles, Part.target]
    · simp [handles, Sentence.handles, Part.target_mem_of_optional hq]
  | session s => exact s.target_mem_of_parts hs hp hq
  | callOut c =>
    refine hp _ ?_
    simp only [parts, CallOut.parts, List.mem_append, List.mem_cons] at hq
    rcases hq with (rfl | hq) | hq
    · simp [handles, CallOut.handles, Part.target]
    · simp [handles, CallOut.handles, Part.target_mem_of_optional hq]
    · simp [handles, CallOut.handles, Part.target_mem_of_held hq]
  | identTable t =>
    obtain ⟨k, hk, rfl⟩ := List.mem_map.1 hq
    exact hp _ hk
  | blank | text | privateText | sharedText | bytes => cases hq

end Parts

/-! ## What stays of a block -/

/-- A block with a lower count and, of a program, fewer pins; all else is the same. -/
structure Block.Lowered (b d : Block) : Prop where
  core : d.core = b.core
  refs : d.refs ≤ b.refs
  pins : ∀ p q, b.payload = .program p → d.payload = .program q → q.pins ≤ p.pins

namespace Block

variable {a b d : Block}

theorem Lowered.refl (b : Block) : b.Lowered b := by
  refine ⟨rfl, Nat.le_refl _, fun p q hp hq => ?_⟩
  rw [hp] at hq
  cases hq
  exact Nat.le_refl _

theorem program_of_core (h : d.core = b.core) {p : Program} (hp : b.payload = .program p) :
    ∃ q, d.payload = .program q := by
  have hu := unpinned_of_core h
  rw [hp] at hu
  cases hd : d.payload with
  | program q => exact ⟨q, rfl⟩
  | _ =>
    rw [hd] at hu
    cases hu

theorem Lowered.trans (hab : a.Lowered b) (hbd : b.Lowered d) : a.Lowered d := by
  refine ⟨hbd.core.trans hab.core, Nat.le_trans hbd.refs hab.refs, fun p q hp hq => ?_⟩
  obtain ⟨m, hm⟩ := program_of_core hab.core hp
  exact Nat.le_trans (hbd.pins m q hm hq) (hab.pins p m hp hm)

theorem handles_of_core (h : d.core = b.core) : d.payload.handles = b.payload.handles := by
  rw [← d.payload.handles_unpinned, unpinned_of_core h, b.payload.handles_unpinned]

theorem lowered_refs (b : Block) {n : Nat} (hn : n ≤ b.refs) : b.Lowered { b with refs := n } :=
  ⟨rfl, hn, (Lowered.refl b).pins⟩

theorem lowered_pins {b : Block} {p : Program} (hp : b.payload = .program p) {n : Nat}
    (hn : n ≤ p.pins) : b.Lowered { b with payload := .program { p with pins := n } } := by
  refine ⟨?_, Nat.le_refl _, fun q r hq hr => ?_⟩
  · simp only [core, hp, Payload.unpinned]
  · rw [hp] at hq
    cases hq
    cases hr
    exact hn

end Block

/-! ## What one operation does to the heap -/

namespace Heap

/-- The block that goes with a reference is the one behind it. -/
theorem get?_of_decRef {heap rest : Heap} {h : Handle} {b : Block}
    (hd : heap.decRef h = (some b, rest)) : heap.get? h = some b := by
  unfold decRef at hd
  cases hb : heap.get? h with
  | none => simp [hb] at hd
  | some c =>
    simp only [hb] at hd
    split at hd
    · cases hd
    · obtain ⟨left, hr⟩ := exists_remove hb
      simp only [hr, Prod.mk.injEq, Option.some.injEq] at hd
      rw [hd.1]

end Heap

/-- The string table either leaves the heap alone or takes one reference off the block. -/
theorem StringTable.heap_release (t : StringTable) (heap : Heap) (h : Handle) :
    (t.release heap h).2 = heap ∨ (t.release heap h).2 = (heap.decRef h).2 := by
  unfold release
  cases costAt? heap h with
  | none => exact .inl rfl
  | some cost =>
    refine .inr ?_
    simp only
    obtain ⟨gone, rest⟩ := heap.decRef h
    cases gone <;> rfl

/-! ## What stays of an engine -/

namespace Engine

/-- What may become of an engine when only blocks of `S` are touched: some blocks go, counts and
pins go down. `freed` are the handles of the blocks that go, the last one first. -/
structure Receded (S : Set Handle) (e next : Engine) : Prop where
  /-- Roots, settings and providers are left alone. -/
  rest : next = { e with heap := next.heap, strings := next.strings, counters := next.counters }
  /-- Nothing is allocated. -/
  issued : next.heap.issued = e.heap.issued
  tick : next.heap.tick = e.heap.tick
  generation : ∀ i, next.heap.generation? i = e.heap.generation? i
  /-- Every slot that was vacated is on the free list, above those that were vacant. -/
  freed : ∃ freed : List Handle, next.heap.free = freed.map (·.index) ++ e.heap.free ∧
    ∀ h, h ∈ freed ↔ h ∈ e.removed next
  block : ∀ h d, next.heap.get? h = some d → ∃ b, e.heap.get? h = some b ∧ b.Lowered d
  frame : ∀ h ∉ S, next.heap.get? h = e.heap.get? h

variable {S : Set Handle} {e mid next : Engine} {h : Handle} {b : Block} {p : Part}

theorem Receded.isLive (hr : e.Receded S next) (hl : next.heap.isLive h) : e.heap.isLive h := by
  obtain ⟨d, hd⟩ := Heap.isLive_iff.1 hl
  obtain ⟨b, hb, -⟩ := hr.block h d hd
  exact Heap.isLive_iff.2 ⟨b, hb⟩

theorem removed_self (e : Engine) : e.removed e = ∅ :=
  Set.eq_empty_iff_forall_notMem.2 fun _ hh => hh.2 hh.1

theorem Receded.refl (S : Set Handle) (e : Engine) : e.Receded S e where
  rest := rfl
  issued := rfl
  tick := rfl
  generation _ := rfl
  freed := ⟨[], rfl, fun h => by simp [removed_self]⟩
  block _ d hd := ⟨d, hd, .refl d⟩
  frame _ _ := rfl

theorem Receded.trans (hm : e.Receded S mid) (hn : mid.Receded S next) : e.Receded S next where
  rest := by rw [hn.rest, hm.rest]
  issued := hn.issued.trans hm.issued
  tick := hn.tick.trans hm.tick
  generation i := (hn.generation i).trans (hm.generation i)
  freed := by
    obtain ⟨first, hfirst, hmem⟩ := hm.freed
    obtain ⟨second, hsecond, hmem'⟩ := hn.freed
    refine ⟨second ++ first, ?_, fun h => ?_⟩
    · rw [hsecond, hfirst, List.map_append, List.append_assoc]
    · rw [List.mem_append, hmem, hmem']
      constructor
      · rintro (⟨hlive, hgone⟩ | ⟨hlive, hgone⟩)
        · exact ⟨hm.isLive hlive, hgone⟩
        · exact ⟨hlive, fun hl => hgone (hn.isLive hl)⟩
      · intro hh
        exact (removed_trans hh).symm
  block h d hd := by
    obtain ⟨c, hc, hcd⟩ := hn.block h d hd
    obtain ⟨b, hb, hbc⟩ := hm.block h c hc
    exact ⟨b, hb, hbc.trans hcd⟩
  frame h hh := (hn.frame h hh).trans (hm.frame h hh)

/-- Blocks that stay store what they stored, so a closed set stays closed. -/
theorem Receded.closedUnder (hr : e.Receded S next) {T : Set Handle} (hT : e.heap.ClosedUnder T) :
    next.heap.ClosedUnder T := by
  rintro h hh k ⟨p, hp, hk⟩
  obtain ⟨d, hd, rfl⟩ := Option.map_eq_some_iff.1 hp
  obtain ⟨b, hb, hlow⟩ := hr.block h d hd
  rw [Block.handles_of_core hlow.core] at hk
  exact hT h hh k (Heap.links_of_get? hb hk)

/-! ## One step -/

/-- Counters and strings may change at will. -/
theorem receded_bookkeeping (S : Set Handle) (e : Engine) (strings : StringTable)
    (counters : Counters) : e.Receded S { e with strings, counters } :=
  { Receded.refl S e with rest := rfl }

theorem receded_update (hS : h ∈ S) (hb : e.heap.get? h = some b) {f : Block → Block}
    (hf : b.Lowered (f b)) : e.Receded S (e.setHeap (e.heap.update h f)) where
  rest := rfl
  issued := e.heap.issued_update h f
  tick := e.heap.tick_update h f
  generation := e.heap.generation?_update h f
  freed := by
    refine ⟨[], e.heap.free_update h f, fun k => ?_⟩
    have hlive := e.heap.isLive_update h f k
    simp [removed, setHeap, hlive]
  block k d hd := by
    rcases Heap.of_get?_update hb hd with ⟨rfl, rfl⟩ | ⟨-, hd⟩
    · exact ⟨b, hb, hf⟩
    · exact ⟨d, hd, .refl d⟩
  frame k hk := by
    have hne : k ≠ h := fun heq => hk (heq ▸ hS)
    show (e.heap.update h f).get? k = _
    rw [Heap.get?_update, if_neg hne]

theorem receded_remove (hS : h ∈ S) {rest : Heap} (hr : e.heap.remove h = some (b, rest)) :
    e.Receded S (e.setHeap rest) where
  rest := rfl
  issued := Heap.issued_remove hr
  tick := Heap.tick_remove hr
  generation := Heap.generation?_remove hr
  freed := by
    refine ⟨[h], Heap.free_remove hr, fun k => ?_⟩
    rw [List.mem_singleton, mem_removed_iff, setHeap, Heap.get?_remove hr]
    constructor
    · rintro rfl
      exact ⟨⟨b, Heap.get?_of_remove hr⟩, if_pos rfl⟩
    · rintro ⟨⟨c, hc⟩, hgone⟩
      by_contra hne
      rw [if_neg hne, hc] at hgone
      cases hgone
  block k d hd := ⟨d, (Heap.of_get?_remove hr hd).2, .refl d⟩
  frame k hk := by
    have hne : k ≠ h := fun heq => hk (heq ▸ hS)
    show rest.get? k = _
    rw [Heap.get?_remove hr, if_neg hne]

/-- One reference less, whatever the count says. -/
theorem receded_decRef (hS : h ∈ S) : e.Receded S (e.setHeap (e.heap.decRef h).2) := by
  unfold Heap.decRef
  cases hb : e.heap.get? h with
  | none => exact .refl S e
  | some b =>
    simp only
    split
    · exact receded_update hS hb (b.lowered_refs (Nat.sub_le _ _))
    · cases hr : e.heap.remove h with
      | none => exact .refl S e
      | some r => exact receded_remove hS hr

theorem receded_drop (hS : h ∈ S) : e.Receded S (e.drop h).2 := by
  have hdec : e.Receded S (e.setHeap (e.heap.decRef h).2) := receded_decRef hS
  unfold drop
  cases e.heap.get? h with
  | none => exact .refl S e
  | some b =>
    simp only
    split
    · have hstrings : e.Receded S (e.setHeap (e.strings.release e.heap h).2) := by
        rcases e.strings.heap_release e.heap h with heq | heq
        · rw [heq]
          exact .refl S e
        · rw [heq]
          exact hdec
      exact hstrings.trans
        (receded_bookkeeping S _ (e.strings.release e.heap h).1 e.counters)
    · exact hdec

theorem receded_take (hS : p.target ∈ S) : e.Receded S (e.take p).2 := by
  cases p with
  | counted h => exact receded_drop hS
  | owned h =>
    cases hr : e.heap.remove h with
    | none =>
      simp only [take, hr]
      exact .refl S e
    | some r =>
      simp only [take, hr]
      exact receded_remove hS hr

/-- A block that goes was the one behind the part. -/
theorem get?_of_take (ht : e.take p = (some b, next)) : e.heap.get? p.target = some b := by
  cases p with
  | counted h =>
    have hd : e.drop h = (some b, next) := ht
    unfold drop at hd
    cases hb : e.heap.get? h with
    | none => simp [hb] at hd
    | some c =>
      simp only [hb] at hd
      split at hd
      · cases hd
      · rw [Prod.mk.injEq] at hd
        exact hb ▸ Heap.get?_of_decRef (Prod.ext hd.1 rfl)
  | owned h =>
    cases hr : e.heap.remove h with
    | none => simp [take, hr] at ht
    | some r =>
      simp only [take, hr, Prod.mk.injEq, Option.some.injEq] at ht
      obtain ⟨rfl, -⟩ := ht
      exact Heap.get?_of_remove hr

theorem receded_unpin (hS : h ∈ S) : e.Receded S (e.unpin h) := by
  unfold unpin
  cases hp : e.program h with
  | error err => exact .refl S e
  | ok p =>
    obtain ⟨b, hb, -, hpay⟩ := program_eq_ok_iff.1 hp
    exact receded_update hS hb (Block.lowered_pins hpay (Nat.sub_le _ _))

/-- The program a closure pins is stored in the closure or in its owner. -/
theorem mem_of_pinnedBy (hs : e.heap.ClosedUnder S) {c : Closure} (hc : ∀ k ∈ c.handles, k ∈ S)
    (hp : e.pinnedBy c = some h) : h ∈ S := by
  obtain ⟨kind, owner, args⟩ := c
  cases kind with
  | functional program =>
    cases hp
    exact hc _ List.mem_cons_self
  | ownCode index bindable =>
    cases bindable with
    | true => cases hp
    | false =>
      cases owner with
      | none => cases hp
      | some owner =>
        simp only [pinnedBy, Option.bind_some, ClosureKind.pinned?] at hp
        cases hob : e.object owner with
        | error err => simp [hob] at hp
        | ok ob =>
          simp only [hob] at hp
          obtain ⟨b, hb, -, hpay⟩ := object_eq_ok_iff.1 hob
          refine hs owner (hc _ (by simp [Closure.handles])) h (Heap.links_of_get? hb ?_)
          rw [hpay]
          simp [Payload.handles, Object.handles, hp]
  | named | builtin => cases hp

theorem receded_unaccount (hs : e.heap.ClosedUnder S) (hb : ∀ k ∈ b.payload.handles, k ∈ S) :
    e.Receded S (e.unaccount b) := by
  have hcounters : ∀ counters, e.Receded S { e with counters } := fun counters =>
    receded_bookkeeping S e e.strings counters
  unfold unaccount
  cases hpay : b.payload with
  | closure c =>
    simp only
    rw [hpay] at hb
    cases hp : pinnedBy _ c with
    | none => exact hcounters _
    | some program => exact (hcounters _).trans (receded_unpin (mem_of_pinnedBy hs hb hp))
  | _ => exact hcounters _

/-- Settling one part keeps to a closed set, and what is due then is in it. -/
theorem receded_settle (hs : e.heap.ClosedUnder S) (hp : p.target ∈ S) :
    e.Receded S (e.settle p).1 ∧ ∀ q ∈ (e.settle p).2, q.target ∈ S := by
  have htake : e.Receded S (e.take p).2 := receded_take hp
  obtain ⟨gone, next, ht⟩ : ∃ gone next, e.take p = (gone, next) := ⟨_, _, rfl⟩
  rw [ht] at htake
  cases gone with
  | none =>
    rw [settle_of_take_none ht]
    exact ⟨htake, fun q hq => absurd hq List.not_mem_nil⟩
  | some b =>
    have hhandles : ∀ k ∈ b.payload.handles, k ∈ S := fun k hk =>
      hs _ hp k (Heap.links_of_get? (get?_of_take ht) hk)
    have hun : next.Receded S (next.unaccount b) :=
      receded_unaccount (htake.closedUnder hs) hhandles
    rw [settle_of_take_some ht]
    exact ⟨htake.trans hun, fun q hq =>
      Payload.target_mem_of_parts (hun.closedUnder (htake.closedUnder hs)) hhandles hq⟩

/-! ## Any number of steps -/

/-- By the run: blocks recede from the first engine, and what is due stays in the closed set. -/
theorem receded_of_settlement (hs : e.heap.ClosedUnder S) {due left : Multiset Part}
    (hdue : ∀ q ∈ due, q.target ∈ S) (hrun : Settlement (e, due) (next, left)) :
    e.Receded S next ∧ ∀ q ∈ left, q.target ∈ S := by
  obtain ⟨finish, hfinish⟩ : ∃ finish, (next, left) = finish := ⟨_, rfl⟩
  rw [hfinish] at hrun
  induction hrun generalizing next left with
  | refl =>
    cases hfinish
    exact ⟨.refl S e, hdue⟩
  | @tail mid _ _ hstep ih =>
    obtain ⟨between, due⟩ := mid
    obtain ⟨hrec, htargets⟩ := ih rfl
    obtain ⟨_, p, due⟩ := hstep
    cases hfinish
    obtain ⟨hsettle, hparts⟩ := receded_settle (hrec.closedUnder hs)
      (htargets p (Multiset.mem_cons_self p due))
    refine ⟨hrec.trans hsettle, fun q hq => ?_⟩
    rcases Multiset.mem_add.1 hq with hq | hq
    · exact hparts q (Multiset.mem_coe.1 hq)
    · exact htargets q (Multiset.mem_cons_of_mem hq)

/-- What is left to do: the live blocks, then the parts that are due. -/
def toSettle (s : Engine × Multiset Part) : Nat ×ₗ Nat := toLex (s.1.heap.live, s.2.card)

theorem live_take (e : Engine) (p : Part) :
    (e.take p).2.heap.live + (if (e.take p).1.isSome then 1 else 0) ≤ e.heap.live := by
  cases p with
  | counted h => exact live_drop e h
  | owned h =>
    cases hr : e.heap.remove h with
    | none => simp [take, hr]
    | some r =>
      have hlive := Heap.live_remove hr
      simp only [take, hr, setHeap, Option.isSome_some, if_true]
      omega

/-- A step takes a block out, or one part is due less. -/
theorem toSettle_lt {s t : Engine × Multiset Part} (hstep : Settles s t) :
    toSettle t < toSettle s := by
  obtain ⟨e, p, due⟩ := hstep
  have hlive := live_take e p
  obtain ⟨gone, next, ht⟩ : ∃ gone next, e.take p = (gone, next) := ⟨_, _, rfl⟩
  rw [ht] at hlive
  refine Prod.Lex.toLex_lt_toLex.2 ?_
  cases gone with
  | none =>
    rw [settle_of_take_none ht, Multiset.coe_nil, zero_add, Multiset.card_cons]
    have hle : next.heap.live ≤ e.heap.live := by simpa using hlive
    rcases Nat.lt_or_eq_of_le hle with hlt | heq
    · exact .inl hlt
    · exact .inr ⟨heq, Nat.lt_succ_self _⟩
  | some b =>
    rw [settle_of_take_some ht]
    refine .inl ?_
    have hun := live_unaccount next b
    simp only [Option.isSome_some, if_true] at hlive
    show (next.unaccount b).heap.live < e.heap.live
    omega

/-- No part is settled for ever, whatever the heap is like. -/
theorem wellFounded_settles : WellFounded fun t s => Settles s t :=
  Subrelation.wf toSettle_lt (InvImage.wf toSettle wellFounded_lt)

/-! ## Releases -/

/-- On any heap a release comes to an end with nothing left to settle, and its depth is never used
up. It allocates nothing, gives back each slot at most once, keeps to the blocks that the handle
leads to, and leaves lower counts and fewer pins at most. -/
theorem release_recedes (e : Engine) (h : Handle) :
    (¬ ∃ run : Nat → Engine × Multiset Part,
      run 0 = (e, {.counted h}) ∧ ∀ n, Settles (run n) (run (n + 1))) ∧
    Settlement (e, {.counted h}) (e.release h, 0) ∧
    (∀ depth, e.heap.live < depth → e.releaseWithin depth h = e.release h) ∧
    e.Receded {k | e.heap.Reaches h k} (e.release h) ∧ (e.release h).heap.free.Nodup := by
  have hrun : Settlement (e, {.counted h}) (e.release h, 0) := settles_release e h 0
  refine ⟨?_, hrun, fun depth hd => (release_eq_within hd).symm, ?_, Heap.free_nodup _⟩
  · rintro ⟨run, -, hsteps⟩
    exact (wellFounded_iff_isEmpty_descending_chain.1 wellFounded_settles).false ⟨run, hsteps⟩
  · refine (receded_of_settlement (e.heap.closedUnder_reaches h) (fun q hq => ?_) hrun).1
    obtain rfl := Multiset.mem_singleton.1 hq
    exact Relation.ReflTransGen.refl

end Engine

end HeapAudit
