import HeapAudit.Proofs.Engine.Client
import Mathlib.Data.Fintype.Order

/-!
Only cycles leak. Every live block has a holder, so going back from holder to holder ends at the
roots, at the client, or goes round for ever.

Identifier tables are held by nothing; they live as long as the engine.

Main definitions
* `Heap.Holds`: the handles in payloads that count, or that own.
* `Client.Keeps`: where going back from holder to holder may end.

Main statements
* `Engine.Consistent.exists_holder`: a live block is referred to.
* `Heap.exists_source`: the way back ends.
* `Client.leaks_only_cycles`: what a client of the helpers can leave behind.
-/

namespace HeapAudit

open Reference Relation

/-! ## Handles in payloads -/

/-- The counting and the owning handles of a payload. No other block is looked at: in an empty heap
there is none. -/
def Payload.kept (p : Payload) : List Handle :=
  ((p.held .empty).filter (·.hold ≠ .pinned)).map (·.target)

/-- The block behind the first handle holds that behind the second. -/
inductive Heap.Holds (heap : Heap) : Handle → Handle → Prop
  | slot {h k : Handle} {b : Block} (hb : heap.get? h = some b) (hk : k ∈ b.payload.kept) :
    Holds heap h k
  /-- The sentence of a redirect counts its owner; other sentences do not. -/
  | redirect {h : Handle} {b : Block} {s : Session} {r : Redirect} {t : Sentence}
      (hb : heap.get? h = some b) (hs : b.payload = .session s) (hr : s.redirect = some r)
      (ht : heap.sentenceOf? r.sentence = some t) : Holds heap r.sentence t.owner

/-- An identifier table, or what one holds. -/
def Heap.Identifies (heap : Heap) (h : Handle) : Prop :=
  ∃ t b, heap.get? t = some b ∧ b.category = .identTable ∧ (h = t ∨ heap.Holds t h)

namespace Payload

variable {heap : Heap} {p : Payload} {ref : Reference}

theorem mem_kept (hr : ref ∈ p.held .empty) (hp : ref.hold ≠ .pinned) : ref.target ∈ p.kept :=
  List.mem_map_of_mem (List.mem_filter.2 ⟨hr, by simpa using hp⟩)

/-- Other blocks are looked at for pins and for the owner of a redirect's sentence. -/
theorem kept_or_owner (hr : ref ∈ p.held heap) (hp : ref.hold ≠ .pinned) :
    ref.target ∈ p.kept ∨ ∃ s r t, p = .session s ∧ s.redirect = some r ∧
      heap.sentenceOf? r.sentence = some t ∧ ref.target = t.owner := by
  cases p with
  | closure c =>
    refine .inl (mem_kept ?_ hp)
    rcases List.mem_append.1 hr with hr | hr
    · exact List.mem_append_left _ hr
    · obtain ⟨k, -, rfl⟩ := List.mem_map.1 hr
      exact absurd rfl hp
  | session s =>
    have hheld : ∀ heap, Payload.held heap (.session s) =
        .counted s.object .object :: s.redirect.elim [] (Redirect.held heap)
          ++ s.failMessage.toList.map .ofCallee := by
      intro heap
      simp [Payload.held, Session.held, underRoot]
    have hkept : ref ∈ Payload.held .empty (.session s) → ref.target ∈ kept (.session s) :=
      fun hm => mem_kept hm hp
    rw [hheld] at hr hkept
    rcases List.mem_append.1 hr with hr | hr
    · rcases List.mem_cons.1 hr with rfl | hr
      · exact .inl (hkept (List.mem_append_left _ (List.mem_cons_self ..)))
      · cases hredirect : s.redirect with
        | none => simp [hredirect] at hr
        | some r =>
          simp only [hredirect, Option.elim_some, Redirect.held, List.mem_append, List.mem_cons,
            List.mem_map, Option.mem_toList] at hr hkept
          rcases hr with (hr | ⟨t, ht, rfl⟩) | hr
          · exact .inl (hkept (.inl (.inr (.inl (.inl hr)))))
          · exact .inr ⟨s, r, t, rfl, hredirect, ht, rfl⟩
          · exact .inl (hkept (.inl (.inr (.inr hr))))
    · exact .inl (hkept (List.mem_append_right _ hr))
  | _ => exact .inl (mem_kept hr hp)

end Payload

namespace Heap

variable {heap : Heap} {h k : Handle} {b : Block}

/-- What an enumeration of the slots shows is held, the owner of a redirect's sentence through the
sentence. -/
theorem transGen_holds_of_held {ref : Reference} (hb : heap.get? h = some b)
    (hr : ref ∈ b.payload.held heap) (hp : ref.hold ≠ .pinned) :
    TransGen heap.Holds h ref.target := by
  rcases Payload.kept_or_owner hr hp with hk | ⟨s, r, t, hs, hredirect, ht, howner⟩
  · exact .single (.slot hb hk)
  · have hsentence : r.sentence ∈ b.payload.kept := by
      rw [hs]
      have hslot : Reference.owned r.sentence .sentence ∈ Payload.held .empty (.session s) := by
        simp [Payload.held, Session.held, Redirect.held, underRoot, hredirect]
      exact Payload.mem_kept hslot (by simp [Reference.owned])
    rw [howner]
    exact .tail (.single (.slot hb hsentence)) (.redirect hb hs hredirect ht)

theorem finite_live (heap : Heap) : {h | heap.isLive h}.Finite := by
  refine (heap.entries.map (·.1)).toFinset.finite_toSet.subset fun h hl => ?_
  obtain ⟨b, hb⟩ := isLive_iff.1 hl
  simp only [List.coe_toFinset, List.mem_map, Set.mem_ofPred_eq]
  exact ⟨(h, b), mem_entries_iff.2 hb, rfl⟩

theorem payload_of_sentenceOf? {s : Sentence} (hb : heap.get? h = some b)
    (hs : heap.sentenceOf? h = some s) : b.payload = .sentence s := by
  simpa [sentenceOf?, payload?, hb, Payload.sentence?_eq_some_iff] using hs

/-- A text holds nothing. -/
theorem not_holds_of_text {content : String} (hb : heap.get? h = some b)
    (htext : b.payload = .text content) : ¬ heap.Holds h k := by
  intro hk
  cases hk with
  | slot hb' hk =>
    rw [hb] at hb'
    cases hb'
    rw [htext] at hk
    cases hk
  | redirect _ _ _ ht =>
    have hs := payload_of_sentenceOf? hb ht
    rw [htext] at hs
    cases hs

/-- Where every live block that is looked at is a start or has a live holder that is looked at, the
way back ends at a start or on a cycle. -/
theorem exists_source {P Start : Handle → Prop}
    (hback : ∀ k, heap.isLive k → P k →
      Start k ∨ ∃ h, heap.isLive h ∧ P h ∧ TransGen heap.Holds h k)
    (hl : heap.isLive k) (hk : P k) :
    ∃ a, (Start a ∨ TransGen heap.Holds a a) ∧ ReflTransGen heap.Holds a k := by
  let Open := {h : Handle // heap.isLive h ∧ ¬ TransGen heap.Holds h h}
  let Before (a b : Open) : Prop := TransGen heap.Holds a.1 b.1
  have : Finite Open := (heap.finite_live.subset fun h hh => hh.1).to_subtype
  have : IsTrans Open Before := ⟨fun _ _ _ hab hbc => TransGen.trans hab hbc⟩
  have : Std.Irrefl Before := ⟨fun a => a.2.2⟩
  have hwf : WellFounded Before := Finite.wellFounded_of_trans_of_irrefl _
  by_cases hcycle : TransGen heap.Holds k k
  · exact ⟨k, .inr hcycle, .refl⟩
  obtain ⟨a, ha⟩ : ∃ a : Open, a.1 = k := ⟨⟨k, hl, hcycle⟩, rfl⟩
  -- Going back on a finite set, never to the same block twice.
  induction a using hwf.induction generalizing k with
  | h a ih =>
    subst ha
    rcases hback a.1 hl hk with hs | ⟨h, hlive, hp, hholds⟩
    · exact ⟨a.1, .inl hs, .refl⟩
    · by_cases hround : TransGen heap.Holds h h
      · exact ⟨h, .inr hround, hholds.to_reflTransGen⟩
      · obtain ⟨s, hs, hreach⟩ := ih ⟨h, hlive, hround⟩ hholds hlive hp hround rfl
        exact ⟨s, hs, hreach.trans hholds.to_reflTransGen⟩

end Heap

namespace Engine

variable {e : Engine} {client : Multiset Reference} {h k : Handle} {b : Block}

/-- A live block is referred to: it is counted at least once, or it has an owner. -/
theorem Consistent.exists_holder (hc : e.Consistent client) (hp : e.heap.Plain)
    (hb : e.heap.get? k = some b) (htable : b.category ≠ .identTable) :
    ∃ ref ∈ e.refs client, ref.hold ≠ .pinned ∧ ref.target = k := by
  have hsettled := (hp k b hb).2
  by_cases hcounted : b.category.isCounted
  · refine ⟨.counted k b.category, ?_, by simp [counted], rfl⟩
    rw [← Multiset.count_pos, ← hc.refs_eq_count hp hb hcounted]
    exact (hc.orderly.sound k b hb).stored hcounted
  · refine ⟨.owned k b.category, ?_, by simp [owned], rfl⟩
    have howned : b.category.isOwned := by simpa [Category.isSettled, hcounted, htable] using hsettled
    rw [← Multiset.count_pos, hc.balanced.owned k b hb howned]
    exact Nat.one_pos

/-- An identifier table holds names, each the text of an identifier. -/
theorem text_of_ident_holds {t : Handle} {d : Block} (hc : e.Consistent client) (hp : e.heap.Plain)
    (hd : e.heap.get? t = some d) (htable : d.category = .identTable) (hh : e.heap.Holds t h) :
    ∃ b content, e.heap.get? h = some b ∧ b.payload = .text content := by
  have hcar := (hp t d hd).1
  rw [htable] at hcar
  cases hh with
  | slot hb hk =>
    rw [hd] at hb
    cases hb
    cases hpay : d.payload with
    | identTable table =>
      rw [hpay] at hk
      obtain ⟨ref, hr, rfl⟩ := List.mem_map.1 hk
      have hr : ref ∈ table.held := (List.mem_filter.1 hr).1
      obtain ⟨entry, -, hentry⟩ := List.mem_flatMap.1 hr
      obtain ⟨i, -, rfl⟩ := List.mem_map.1 hentry
      obtain ⟨b, hb, hcat⟩ := hc.balanced.resolves (.owned i .permIdent)
        (mem_refs_of_slot hd (by rw [hpay]; exact hr)) (by simp [owned])
      have hident := (hp i b hb).1
      rw [hcat] at hident
      cases htext : b.payload with
      | text content => exact ⟨b, content, hb, htext⟩
      | _ =>
        rw [htext] at hident
        cases hident
    | _ =>
      rw [hpay] at hcar
      cases hcar
  | redirect _ _ _ ht =>
    rw [Heap.payload_of_sentenceOf? hd ht] at hcar
    cases hcar

/-- What an identifier table holds holds nothing. -/
theorem not_holds_of_ident {t : Handle} {d : Block} (hc : e.Consistent client) (hp : e.heap.Plain)
    (hd : e.heap.get? t = some d) (htable : d.category = .identTable) (hh : e.heap.Holds t h) :
    ¬ e.heap.Holds h k := by
  obtain ⟨b, content, hb, htext⟩ := text_of_ident_holds hc hp hd htable hh
  exact Heap.not_holds_of_text hb htext

/-- The way from what identifies leads nowhere else. -/
theorem identifies_of_transGen (hc : e.Consistent client) (hp : e.heap.Plain)
    (hi : e.heap.Identifies h) (hh : TransGen e.heap.Holds h k) : e.heap.Identifies k := by
  obtain ⟨x, hx, hrest⟩ := TransGen.head'_iff.1 hh
  obtain ⟨t, d, hd, htable, rfl | ht⟩ := hi
  · rcases ReflTransGen.cases_head hrest with rfl | ⟨y, hy, -⟩
    · exact ⟨h, d, hd, htable, .inr hx⟩
    · exact absurd hy (not_holds_of_ident hc hp hd htable hx)
  · exact absurd hx (not_holds_of_ident hc hp hd htable ht)

/-- The way back: what a block is held by is outside, or it is a live block. -/
theorem Consistent.outside_or_back (hc : e.Consistent client) (hp : e.heap.Plain)
    (hl : e.heap.isLive k) (hident : ¬ e.heap.Identifies k) :
    (∃ ref ∈ e.rootRefs + client, ref.target = k) ∨
      ∃ h, e.heap.isLive h ∧ ¬ e.heap.Identifies h ∧ TransGen e.heap.Holds h k := by
  obtain ⟨b, hb⟩ := Heap.isLive_iff.1 hl
  have htable : b.category ≠ .identTable := fun hcat => hident ⟨k, b, hb, hcat, .inl rfl⟩
  obtain ⟨ref, hm, hpin, rfl⟩ := hc.exists_holder hp hb htable
  rcases Multiset.mem_add.1 hm with hm | hm
  · obtain ⟨h, d, hd, hslot⟩ := Heap.mem_heldRefs.1 hm
    have hholds := Heap.transGen_holds_of_held hd hslot hpin
    exact .inr ⟨h, Heap.isLive_iff.2 ⟨d, hd⟩,
      fun hi => hident (identifies_of_transGen hc hp hi hholds), hholds⟩
  · exact .inl ⟨ref, hm, rfl⟩

/-- Without live blocks there is nothing to find and nothing to add up. -/
theorem Tallied.eq_zero (ht : e.Tallied) (hempty : e.heap.entries = []) :
    e.strings.entries = [] ∧ e.counters = {} ∧ e.strings.totals = {} := by
  have hstock : e.heap.stock = 0 := by
    rw [Heap.stock, hempty]
    rfl
  refine ⟨List.eq_nil_iff_forall_not_mem.2 ?_, ?_, ?_⟩
  · rintro ⟨text, h⟩ hm
    obtain ⟨k, hk⟩ := Option.isSome_iff_exists.1 (StringTable.isSome_find?_of_mem hm)
    obtain ⟨b, hb, -⟩ := (ht.interned text k).1 hk
    have hin := Heap.mem_entries_iff.2 hb
    rw [hempty] at hin
    cases hin
  · rw [ht.counters, hstock]
    rfl
  · rw [ht.totals, hstock]
    rfl

end Engine

/-! ## Clients -/

namespace Client

variable {c : Client}

/-- Where the way back from holder to holder may end. -/
inductive Keeps (c : Client) : Handle → Prop
  | root {slot : RootKind × Reference} (hs : slot ∈ c.engine.rootHeld) : c.Keeps slot.2.target
  | client {ref : Reference} (hr : ref ∈ c.ledger) : c.Keeps ref.target
  | cycle {h : Handle} (hc : TransGen c.engine.heap.Holds h h) : c.Keeps h

/-- Only cycles leak: from what the roots and the client hold and from cycles, all blocks are
reached. Without any of these, and without identifier tables, nothing is left. -/
theorem leaks_only_cycles (hr : Reachable Command.isHelper c) :
    (∀ h, c.engine.heap.isLive h → ¬ c.engine.heap.Identifies h →
      ∃ a, c.Keeps a ∧ ReflTransGen c.engine.heap.Holds a h) ∧
    (c.engine.roots.held none = [] → c.engine.roots.defaultFailMessage = none → c.ledger = 0 →
      (∀ h b, c.engine.heap.get? h = some b → b.category ≠ .identTable) →
      (∀ h, ¬ TransGen c.engine.heap.Holds h h) →
      c.engine.heap.entries = [] ∧ c.engine.strings.entries = [] ∧ c.engine.counters = {} ∧
        c.engine.strings.totals = {}) := by
  obtain ⟨hi, hp⟩ := hr.plain
  have hc : c.engine.Consistent c.ledger := hi.consistent.of_eq (add_zero _)
  have hback : ∀ h, c.engine.heap.isLive h → ¬ c.engine.heap.Identifies h →
      ∃ a, c.Keeps a ∧ ReflTransGen c.engine.heap.Holds a h := by
    intro h hl hident
    obtain ⟨a, ha, hreach⟩ := Heap.exists_source
      (fun k hk hident => hc.outside_or_back hp hk hident) hl hident
    refine ⟨a, ?_, hreach⟩
    rcases ha with ⟨ref, hm, rfl⟩ | hcycle
    · rcases Multiset.mem_add.1 hm with hm | hm
      · obtain ⟨slot, hs, rfl⟩ := List.mem_map.1 (Multiset.mem_coe.1 hm)
        exact .root hs
      · exact .client hm
    · exact .cycle hcycle
  refine ⟨hback, fun hroots hfail hledger htables hcycles => ?_⟩
  have hempty : c.engine.heap.entries = [] := by
    refine List.eq_nil_iff_forall_not_mem.2 ?_
    rintro ⟨h, b⟩ hm
    have hb := Heap.mem_entries_iff.1 hm
    obtain ⟨a, ha, -⟩ := hback h (Heap.isLive_iff.2 ⟨b, hb⟩)
      fun ⟨t, d, hd, htable, _⟩ => htables t d hd htable
    cases ha with
    | root hs =>
      rw [Engine.rootHeld, Engine.defaultFailString?, hfail, Option.bind_none, hroots] at hs
      cases hs
    | client hr =>
      rw [hledger] at hr
      cases hr
    | cycle hround => exact hcycles a hround
  exact ⟨hempty, hc.tallied.eq_zero hempty⟩

/-- A client that has let go of everything, but for an object that is in a variable of its own. -/
def objectInItself : Client :=
  (fresh {}).play
    [.newProgram { filename := "a.c", variableNames := ["self"] }, .newObject "a" ⟨2, 0⟩,
      .release ⟨2, 0⟩, .objectValue ⟨4, 0⟩, .setVariable ⟨4, 0⟩ 0 (.ref .object ⟨4, 0⟩),
      .destruct ⟨4, 0⟩, .flushDestructed]

/-- A client that has let go of everything it made. -/
def arrayLetGo : Client :=
  (fresh {}).play
    [.newShared "item", .newArray [.ref .shared ⟨0, 0⟩], .push (.ref .array ⟨1, 0⟩),
      .setDefaultFail (some "What?"), .pop, .release ⟨1, 0⟩, .setDefaultFail none]

theorem leaks_only_cycles_objectInItself :
    (Reachable Command.isHelper objectInItself ∧ objectInItself.ledger = 0 ∧
      objectInItself.engine.rootHeld = [] ∧ objectInItself.engine.heap.isLive ⟨1, 0⟩ ∧
      ∃ a, objectInItself.Keeps a ∧
        ReflTransGen objectInItself.engine.heap.Holds a ⟨1, 0⟩) ∧
    Reachable Command.isHelper arrayLetGo ∧ arrayLetGo.engine.heap.issued = 3 ∧
      arrayLetGo.engine.heap.entries = [] ∧ arrayLetGo.engine.counters = {} := by
  have hcycle : Reachable Command.isHelper objectInItself := ⟨{}, steps_play (by decide +kernel)⟩
  have hgone : Reachable Command.isHelper arrayLetGo := ⟨{}, steps_play (by decide +kernel)⟩
  have hlive : objectInItself.engine.heap.isLive ⟨1, 0⟩ := by decide +kernel
  have htables : ∀ p ∈ objectInItself.engine.heap.entries, p.2.category ≠ .identTable := by
    decide +kernel
  have hempty : arrayLetGo.engine.heap.entries = [] := by decide +kernel
  have hnone : ∀ h b, arrayLetGo.engine.heap.get? h ≠ some b := by
    intro h b hb
    have hm := Heap.mem_entries_iff.2 hb
    rw [hempty] at hm
    cases hm
  have hacyclic : ∀ h, ¬ TransGen arrayLetGo.engine.heap.Holds h h := by
    intro h hround
    obtain ⟨k, hk, -⟩ := TransGen.head'_iff.1 hround
    cases hk with
    | slot hb hk => exact hnone _ _ hb
    | redirect hb hs hr ht => exact hnone _ _ hb
  refine ⟨⟨hcycle, by decide +kernel, by decide +kernel, hlive, ?_⟩, hgone, by decide +kernel, ?_⟩
  · refine (leaks_only_cycles hcycle).1 _ hlive ?_
    rintro ⟨t, b, hb, htable, -⟩
    exact htables (t, b) (Heap.mem_entries_iff.2 hb) htable
  · obtain ⟨hentries, -, hcounters, -⟩ := (leaks_only_cycles hgone).2 (by decide +kernel)
      (by decide +kernel) (by decide +kernel) (fun h b hb => absurd hb (hnone h b)) hacyclic
    exact ⟨hentries, hcounters⟩

end Client

end HeapAudit
