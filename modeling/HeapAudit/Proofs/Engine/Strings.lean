import HeapAudit.Engine.Values
import HeapAudit.Proofs.Engine.Consistent

/-!
Strings: the table and the totals move together with the references.

Main statements
* `Engine.leads_intern`, `Engine.leads_newPrivate`: a new reference to a string.
* `Engine.yields_recount`: a string with another stored count.
* `Engine.yields_lessString`, `Engine.yields_lastString`: a reference to a string is given back.
-/

namespace HeapAudit

theorem Category.stringCost?_of_carries {c : Category} {p : Payload} (hcar : c.carries p)
    (hst : c = .sharedString ∨ c = .mallocString) : ∃ cost, p.stringCost? = some cost := by
  rcases hst with rfl | rfl <;> cases p <;> first | exact ⟨_, rfl⟩ | cases hcar

theorem Category.stringCost?_eq_none {c : Category} {p : Payload} (hcar : c.carries p)
    (hst : ¬ (c = .sharedString ∨ c = .mallocString)) : p.stringCost? = none := by
  cases p with
  | sharedText | privateText =>
    refine absurd ?_ hst
    cases c <;> simp [carries] at hcar ⊢
  | _ => rfl

/-- No other block is a string. -/
theorem Block.Sound.stringCost?_eq_none {issued : Nat} {b : Block} (hs : b.Sound issued)
    (hst : ¬ (b.category = .sharedString ∨ b.category = .mallocString)) :
    b.payload.stringCost? = none := by
  by_cases hblank : b.payload = .blank
  · rw [hblank]
    rfl
  · exact Category.stringCost?_eq_none (hs.carries hblank) hst

namespace Engine

variable {e : Engine} {client : Multiset Reference} {h : Handle} {b : Block}

/-- A reference to a string names a block with a text. -/
theorem Consistent.string_of_counted (hc : e.Consistent client) {c : Category}
    (hm : .counted h c ∈ e.refs client) (hst : c = .sharedString ∨ c = .mallocString) :
    ∃ b cost, e.heap.get? h = some b ∧ b.category = c ∧ b.payload ≠ .blank ∧
      b.payload.stringCost? = some cost := by
  obtain ⟨b, hb, rfl⟩ := hc.balanced.resolves _ hm (by simp [Reference.counted])
  have hs := hc.orderly.sound h b hb
  have hne : b.payload ≠ .blank := by
    intro hp
    have hrefs := hc.balanced.counted h b hb (Category.isCounted_of_string hst)
    have hpos := Multiset.count_pos.2 hm
    rw [hs.bare hp hst, hp] at hrefs
    simp only [Payload.surplus] at hrefs
    omega
  obtain ⟨cost, hcost⟩ := Category.stringCost?_of_carries (hs.carries hne) hst
  exact ⟨b, cost, hb, rfl, hne, hcost⟩

/-! ## Roots -/

theorem mem_rootRefs_of_failing {text : String} (hd : e.roots.defaultFailMessage = some text)
    (hf : e.strings.find? (failText text) = some h) : .counted h .sharedString ∈ e.rootRefs := by
  have hs : e.defaultFailString? = some h := by
    unfold defaultFailString?
    rw [hd]
    exact hf
  refine Multiset.mem_coe.2 (List.mem_map.2
    ⟨(.defaultFailMessage, .counted h .sharedString), ?_, rfl⟩)
  simp [rootHeld, Roots.held, hs, underRoot, Reference.sharedStrings]

/-- Strings come and go; the one held for the default failure message stays. -/
theorem yields_strings (hc : e.Consistent client) {strings : StringTable} {heap : Heap}
    {left : Multiset Reference} (ho : heap.Orderly (e.rootRefs + left))
    (ht : Tallied { e with strings, heap })
    (hkeep : ∀ text k, e.roots.defaultFailMessage = some text →
      e.strings.find? (failText text) = some k → strings.find? (failText text) = some k)
    (hl : e.heap.Later heap) (hp : e.heap.Plain → heap.Plain) :
    e.Yields { e with strings, heap } left := by
  have hfail : ({ e with strings, heap } : Engine).defaultFailString? = e.defaultFailString? := by
    unfold defaultFailString?
    cases hd : e.roots.defaultFailMessage with
    | none => rfl
    | some text =>
      obtain ⟨k, hk⟩ := Option.isSome_iff_exists.1 (hc.failing text hd)
      show strings.find? (failText text) = e.strings.find? (failText text)
      rw [hk, hkeep text k hd hk]
  have hroot : ({ e with strings, heap } : Engine).rootRefs = e.rootRefs := by
    unfold rootRefs rootHeld
    rw [hfail]
  refine ⟨⟨?_, ht, ?_, hc.unspent⟩, hl, hp⟩
  · rw [hroot]
    exact ho
  · intro text hd
    obtain ⟨k, hk⟩ := Option.isSome_iff_exists.1 (hc.failing text hd)
    exact Option.isSome_iff_exists.2 ⟨k, hkeep text k hd hk⟩

/-! ## Stored counts -/

/-- The stored count of a string changes, and the totals with it. -/
theorem yields_recount (hc : e.Consistent client) (hb : e.heap.get? h = some b)
    (count : Nat → Nat) {totals : StringTotals} {left : Multiset Reference}
    (htotals : ∀ t : StringTotals, e.strings.totals = t.countBlock b →
      totals = t.countBlock { b with refs := count b.refs })
    (ho : (e.heap.update h fun b => { b with refs := count b.refs }).Orderly
      (e.rootRefs + left)) :
    e.Yields
      { e with
        strings := { e.strings with totals }
        heap := e.heap.update h fun b => { b with refs := count b.refs } } left := by
  have ht := hc.tallied.tracks.recount hb count htotals
  refine yields_strings hc ho ⟨?_, ht.totals, ht.interned⟩ (fun _ _ _ hk => hk)
    (Heap.later_update hb (.of_payload rfl rfl rfl)) fun hp =>
      hp.update hb (hp h b hb).1 (hp h b hb).2
  show e.counters = Counters.ofStock (e.heap.update h _).stock
  rw [hc.tallied.counters, Heap.stock_eq_cons_others hb, Heap.stock_update hb,
    Counters.ofStock_cons, Counters.ofStock_cons]

/-- One reference more to a string that is there. -/
theorem leads_moreString (hc : e.Consistent client) (hb : e.heap.get? h = some b)
    (hst : b.category = .sharedString ∨ b.category = .mallocString) {cost : Nat}
    (hcost : b.payload.stringCost? = some cost) :
    e.Leads
      { e with
        strings := { e.strings with totals := e.strings.totals.addReference cost }
        heap := e.heap.incRef h } (.counted h b.category ::ₘ client) := by
  have hne : b.payload ≠ .blank := by
    intro hp
    rw [hp] at hcost
    cases hcost
  have ho := hc.orderly.incRef hb (Category.isCounted_of_string hst) fun _ => hne
  rw [← Multiset.add_cons] at ho
  refine (yields_recount hc hb (· + 1) (fun t ht => ?_) ho).leads
    (Heap.grows_update hb rfl (Nat.le_refl _))
  rw [ht, StringTotals.countBlock_more hcost]

/-- One reference less to a string that others hold. -/
theorem yields_lessString {c : Category} (hc : e.Consistent (.counted h c ::ₘ client))
    (hb : e.heap.get? h = some b) (hcat : b.category = c) {cost : Nat}
    (hcost : b.payload.stringCost? = some cost) (hmore : 1 < b.refs) :
    e.Yields
      { e with
        strings := { e.strings with totals := e.strings.totals.dropReference cost }
        heap := e.heap.update h fun b => { b with refs := b.refs - 1 } } client := by
  have ho := hc.orderly
  rw [← hcat, Multiset.add_cons] at ho
  refine yields_recount hc hb (· - 1) (fun t ht => ?_) (ho.decRef hb hmore)
  rw [ht, StringTotals.dropReference_countBlock hcost hmore]

/-! ## New strings -/

/-- A new string block; `find?` says whether the table has it. -/
theorem leads_newString (hc : e.Consistent client) {category : Category} {payload : Payload}
    {cost : Nat} (description : String) (hcar : category.carries payload)
    (hproper : payload.Proper) (hst : category = .sharedString ∨ category = .mallocString)
    (hcost : payload.stringCost? = some cost) {strings : StringTable}
    (htotals : strings.totals = e.strings.totals.addBlock cost)
    (hkeep : ∀ text k, e.strings.find? text = some k → strings.find? text = some k)
    (hfind : ∀ text k, strings.find? text = some k ↔
      e.strings.find? text = some k ∨ k = e.heap.nextHandle ∧ payload = .sharedText text) :
    e.Leads
      { e with strings, heap := (e.heap.allocate category payload description).1 }
      (.counted e.heap.nextHandle category ::ₘ client) := by
  have hcounted := Category.isCounted_of_string hst
  have hne : payload ≠ .blank := by
    rintro rfl
    cases hcost
  have hheld : payload.held e.heap = [] := by
    cases payload <;> first | rfl | cases hcost
  have ht := hc.tallied.tracks.new category payload.footprint description hcost htotals hfind
  refine Yields.leads (yields_strings hc ?_ ⟨?_, ht.totals, ht.interned⟩
    (fun text k _ hk => hkeep _ k hk) (Heap.later_allocateSized _ _ _ _ _)
    fun hp => hp.allocateSized _ _ hcar (by
      rw [Category.isSettled, hcounted]
      rfl)) (Heap.grows_allocateSized _ _ _ _ _)
  · have ho := hc.orderly
    rw [← zero_add (e.rootRefs + client), ← Multiset.coe_nil, ← hheld] at ho
    have hnew := ho.allocateSized category payload payload.footprint description (fun _ => hcar)
      hproper
      (by rintro _ rfl; cases hcost) (by rintro _ rfl; cases hcost) (by rintro _ rfl; cases hcost)
    rw [Category.firstReference, if_pos hcounted, Payload.surplus_eq_zero hne] at hnew
    rw [Multiset.add_cons]
    exact hnew
  · show e.counters = Counters.ofStock (e.heap.allocateSized _ _ _ _).1.stock
    rw [Heap.stock_allocateSized, Counters.ofStock_cons, hc.tallied.counters]
    cases payload <;> first | rfl | cases hcost

theorem leads_intern (hc : e.Consistent client) (text : String) :
    e.Leads (e.intern text).1 (.counted (e.intern text).2 .sharedString ::ₘ client) := by
  unfold intern StringTable.intern
  cases hf : e.strings.find? text with
  | none =>
    refine leads_newString hc "make_shared_string" rfl ⟨by simp, by simp⟩ (.inl rfl) rfl rfl ?_ ?_
    · intro other k hk
      show (e.strings.put text e.heap.nextHandle).find? other = some k
      rw [StringTable.find?_put, if_neg ?_]
      · exact hk
      · rintro rfl
        rw [hf] at hk
        cases hk
    · intro other k
      show (e.strings.put text e.heap.nextHandle).find? other = some k ↔ _
      rw [StringTable.find?_put]
      by_cases ho : other = text
      · rw [if_pos ho, ho, hf]
        simp [eq_comm]
      · rw [if_neg ho]
        simp [Ne.symm ho]
  | some h =>
    obtain ⟨b, hb, hp⟩ := (hc.tallied.interned text h).1 hf
    have hcat : b.category = .sharedString := by
      have hcar := (hc.orderly.sound h b hb).carries (by simp [hp])
      rw [hp] at hcar
      cases hcat : b.category <;> rw [hcat] at hcar <;> first | rfl | cases hcar
    rw [← hcat]
    simp only [Heap.isLive_iff.2 ⟨b, hb⟩, if_true]
    exact leads_moreString hc hb (.inl hcat) (by rw [hp]; rfl)

theorem leads_newPrivate (hc : e.Consistent client) (text : String) :
    e.Leads (e.newPrivate text).1 (.counted e.heap.nextHandle .mallocString ::ₘ client) := by
  refine leads_newString hc "new_string" rfl ?_ (.inr rfl) rfl rfl (fun _ _ hk => hk) ?_
  · refine ⟨?_, by simp⟩
    rintro content n h
    cases h
    rfl
  · intro other k
    simp only [reduceCtorEq, and_false, or_false]
    rfl

/-! ## Giving references back -/

/-- The block behind the client's last reference to it is named by nothing else. -/
theorem Consistent.unnamed_of_last (hc : e.Consistent (.counted h b.category ::ₘ client))
    (hb : e.heap.get? h = some b) (hlast : ¬ 1 < b.refs) : Heap.Unnamed h (e.refs client) := by
  have hbal := hc.balanced
  simp only [refs, Multiset.add_cons] at hbal
  exact hbal.unnamed_of_last hb hlast

/-- The last reference to a string goes back, and the string is gone from the table too. -/
theorem yields_lastString {c : Category} (hc : e.Consistent (.counted h c ::ₘ client))
    (hb : e.heap.get? h = some b) (hcat : b.category = c) {cost : Nat}
    (hcost : b.payload.stringCost? = some cost) (hlast : ¬ 1 < b.refs) {rest : Heap}
    (hr : e.heap.remove h = some (b, rest)) :
    e.Yields
      { e with
        strings := { e.strings with
          totals := (e.strings.totals.dropReference cost).dropBlock cost }.forget b.payload
        heap := rest } client := by
  subst hcat
  have hm := mem_refs_of_client (e := e) (Multiset.mem_cons_self (.counted h b.category) client)
  have hone : b.refs = 1 := by
    have hcount := hc.balanced.counted h b hb (hc.balanced.fits _ hm)
    have hpos := Multiset.count_pos.2 hm
    omega
  have ho := hc.orderly
  rw [Multiset.add_cons] at ho
  have hunnamed := hc.unnamed_of_last hb hlast
  have hheld : b.payload.held e.heap = [] := by
    cases hp : b.payload <;> first | rfl | (rw [hp] at hcost; cases hcost)
  have ht := hc.tallied.tracks.forget hr hcost hone
  refine yields_strings hc ?_ ⟨?_, ht.totals, ht.interned⟩ ?_ (Heap.later_remove hr)
    fun hp => hp.remove hr
  · have hrest := ho.remove hr rfl hunnamed
    rw [hheld, Multiset.coe_nil, zero_add] at hrest
    exact hrest
  · show e.counters = Counters.ofStock rest.stock
    rw [hc.tallied.counters, Heap.stock_remove hr, Counters.ofStock_cons]
    cases hp : b.payload <;> rw [hp] at hcost <;> first | rfl | cases hcost
  · intro text k hd hk
    refine (hc.tallied.tracks.find?_forget hb _ _ k).2 ⟨?_, hk⟩
    exact hunnamed _ (Multiset.mem_add.2 (.inr (Multiset.mem_add.2
      (.inl (mem_rootRefs_of_failing hd hk))))) (by simp [Reference.counted])

end Engine

end HeapAudit
