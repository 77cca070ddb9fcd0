import HeapAudit.Engine.DriverRoots
import HeapAudit.Proofs.Engine.Sessions

/-!
What the engine holds on its own account, and blocks without a payload.

Main statements
* `Engine.leads_push`, `Engine.leads_pop`, `Engine.leads_setApplyReturn`: values.
* `Engine.leads_setDefaultFail`: the string is held as long as the message stands.
* `Engine.leads_newIdentTable`: a table with its identifier blocks.
* `Engine.consistent_allocateBlock`: a block that holds nothing and counts for nothing.
-/

namespace HeapAudit

open Reference

namespace Engine

variable {e next : Engine} {client left : Multiset Reference} {ob h : Handle} {b : Block}

/-! ## Values -/

theorem dropLast_append_toList (l : List α) : l.dropLast ++ l.getLast?.toList = l := by
  cases hl : l.getLast? with
  | none =>
    rw [List.getLast?_eq_none_iff] at hl
    rw [hl]
    rfl
  | some a => exact List.dropLast_append_getLast? a hl

theorem leads_push {v : Value} (hc : e.Consistent (↑(ofValues [v]) + client)) :
    e.Leads (e.push v) client := by
  refine leads_fillRoots hc rfl rfl ?_
  simp only [Roots.movable, coe_ofValues_append]
  abel

theorem leads_pop (hc : e.Consistent client) :
    e.Leads e.pop.1 (↑(ofValues e.pop.2.toList) + client) := by
  refine leads_emptyRoots hc rfl rfl ?_
  have hstack : (ofValues e.roots.stack : Multiset Reference) =
      ↑(ofValues e.roots.stack.dropLast) + ↑(ofValues e.roots.stack.getLast?.toList) := by
    rw [← coe_ofValues_append, dropLast_append_toList]
  have hpop : e.pop.2 = e.roots.stack.getLast? := rfl
  simp only [Roots.movable]
  rw [hstack, hpop]
  abel

theorem leads_setApplyReturn {v : Value} (hc : e.Consistent (↑(ofValues [v]) + client)) :
    e.Leads (e.setApplyReturn v) client := by
  have hset : e.Leads { e with roots := { e.roots with applyReturn := v } }
      (↑(ofValues [e.roots.applyReturn]) + client) := by
    refine leads_moveRoots hc rfl rfl ?_
    simp only [Roots.movable]
    abel
  exact hset.trans (leads_releaseValue hset.consistent)

/-! ## Objects -/

/-- A root that holds one object gets another, and what it held goes back. -/
theorem leads_exchangeObject {o : Object} (hc : e.Consistent client) (ho : e.object ob = .ok o)
    {roots : Roots} (old : Option Handle)
    (hfail : roots.defaultFailMessage = e.roots.defaultFailMessage)
    (hfree : roots.freeSentences = e.roots.freeSentences)
    (hmove : ↑[counted ob .object] + e.roots.movable =
      roots.movable + ↑(Reference.objects old.toList)) :
    e.Leads (({ e.incRef ob with roots } : Engine).releaseAll old.toList) client := by
  have hinc := leads_incRef_object hc ho
  have hset : (e.incRef ob).Leads { e.incRef ob with roots }
      (↑(Reference.objects old.toList) + client) := by
    refine leads_moveRoots hinc.consistent hfail hfree ?_
    show e.roots.movable + _ = _
    rw [← add_assoc, ← hmove, ← Multiset.singleton_add, ← Multiset.coe_singleton, add_left_comm,
      add_assoc]
  exact (hinc.trans hset).trans (leads_releaseHandles _ hset.consistent)

theorem leads_setMaster (hc : e.Consistent client) (ob : Handle) :
    e.Leads (e.setMaster ob).1 client := by
  unfold setMaster
  cases ho : e.object ob with
  | error err => exact hc.leads
  | ok o =>
    refine leads_exchangeObject hc ho e.roots.master rfl rfl ?_
    simp only [Roots.movable, Option.toList_some, objects_singleton]
    abel

theorem leads_setSimulOwner (hc : e.Consistent client) (ob : Handle) :
    e.Leads (e.setSimulOwner ob).1 client := by
  unfold setSimulOwner
  cases ho : e.object ob with
  | error err => exact hc.leads
  | ok o =>
    refine leads_exchangeObject hc ho e.roots.simulOwner rfl rfl ?_
    simp only [Roots.movable, Option.toList_some, objects_singleton]
    abel

theorem leads_pushCommandGiver (hc : e.Consistent client) (ob : Handle) :
    e.Leads (e.pushCommandGiver ob).1 client := by
  unfold pushCommandGiver
  cases ho : e.object ob with
  | error err => exact hc.leads
  | ok o =>
    have hinc := leads_incRef_object hc ho
    exact hinc.trans
      (leads_fillRoots hinc.consistent rfl rfl (Roots.movable_addCommandGiver _ _))

theorem leads_popCommandGiver (hc : e.Consistent client) : e.Leads e.popCommandGiver client := by
  have hgivers : (Reference.objects e.roots.commandGivers : Multiset Reference) =
      ↑(Reference.objects e.roots.commandGivers.dropLast)
        + ↑(Reference.objects e.roots.commandGivers.getLast?.toList) := by
    rw [← coe_objects_append, dropLast_append_toList]
  have hset : e.Leads
      { e with roots := { e.roots with commandGivers := e.roots.commandGivers.dropLast } }
      (↑(Reference.objects e.roots.commandGivers.getLast?.toList) + client) := by
    refine leads_emptyRoots hc rfl rfl ?_
    simp only [Roots.movable]
    rw [hgivers]
    abel
  exact hset.trans (leads_releaseHandles _ hset.consistent)

/-! ## Names -/

theorem leads_addConfigString (hc : e.Consistent client) (text : String) :
    e.Leads (e.addConfigString text).1 client := by
  have hnew := leads_allocate .plainString (.text text)
    (hc.of_eq (zero_add client).symm) "config file" (fresh_of_isSimple _ rfl rfl rfl) rfl
  exact hnew.trans (leads_fillRoots hnew.consistent rfl rfl (Roots.movable_addConfigString _ _))

theorem leads_addPredefine (hc : e.Consistent client) (name : String) :
    e.Leads (e.addPredefine name).1 client := by
  have hnew := leads_allocate .predefine (.text name)
    (hc.of_eq (zero_add client).symm) "predefines" (fresh_of_isSimple _ rfl rfl rfl) rfl
  exact hnew.trans (leads_fillRoots hnew.consistent rfl rfl (Roots.movable_addPredefine _ _))

theorem leads_addSimulName (hc : e.Consistent client) (name : String) :
    e.Leads (e.addSimulName name).1 client := by
  have hnew := leads_intern hc name
  exact hnew.trans (leads_fillRoots hnew.consistent rfl rfl (Roots.movable_addSimulName _ _))

theorem leads_cacheAddressName (hc : e.Consistent client) (name : String) :
    e.Leads (e.cacheAddressName name).1 client := by
  have hnew := leads_intern hc name
  exact hnew.trans (leads_fillRoots hnew.consistent rfl rfl (Roots.movable_addAddressName _ _))

/-! ## The default failure message -/

/-- What an interned text is found as. -/
theorem find?_intern (e : Engine) (text : String) :
    (e.intern text).1.strings.find? text = some (e.intern text).2 := by
  have hnew : (e.strings.internNew e.heap text).1.find? text =
      some (e.strings.internNew e.heap text).2.2 := by
    show (e.strings.put text e.heap.nextHandle).find? text = some e.heap.nextHandle
    rw [StringTable.find?_put, if_pos rfl]
  unfold intern StringTable.intern
  cases hf : e.strings.find? text with
  | none => exact hnew
  | some h =>
    by_cases hlive : e.heap.isLive h
    · simp only [hlive, if_true]
      exact hf
    · simp only [hlive, Bool.false_eq_true, if_false]
      exact hnew

/-- A release leaves the roots alone. -/
theorem roots_releaseAll (e : Engine) (hs : List Handle) : (e.releaseAll hs).roots = e.roots :=
  roots_of_settlement (settles_releaseAll e hs 0)

/-- No message, and the string is the client's. -/
theorem leads_clearDefaultFail (hc : e.Consistent client) :
    e.Leads { e with roots := { e.roots with defaultFailMessage := none } }
      (↑(sharedStrings e.defaultFailString?.toList) + client) := by
  refine leads_setRoots hc ?_ (by simp) hc.unspent
  rw [rootRefs_eq, rootRefs_eq]
  show _ = e.roots.movable + (0 : Multiset Reference) + _ + _
  abel

/-- The message that stands is the one whose string the client gives. -/
theorem leads_fillDefaultFail {text : String}
    (hf : e.strings.find? (failText text) = some h)
    (hc : e.Consistent (.counted h .sharedString ::ₘ client))
    (hnone : e.roots.defaultFailMessage = none) :
    e.Leads { e with roots := { e.roots with defaultFailMessage := some text } } client := by
  have hold : e.defaultFailString? = none := by
    unfold defaultFailString?
    rw [hnone]
    rfl
  have hnew : ({ e with roots := { e.roots with defaultFailMessage := some text } } :
      Engine).defaultFailString? = some h := hf
  refine leads_setRoots hc ?_ ?_ hc.unspent
  · rw [rootRefs_eq, rootRefs_eq, hold, hnew]
    show e.roots.movable + (0 : Multiset Reference) + _ + _ =
      e.roots.movable + ↑(sharedStrings [h]) + _ + _
    have hs : (sharedStrings [h] : Multiset Reference) = {.counted h .sharedString} := rfl
    rw [hs, ← Multiset.singleton_add]
    abel
  · rintro other hother
    cases hother
    rw [hf]
    rfl

theorem leads_setDefaultFail (hc : e.Consistent client) (text : Option String) :
    e.Leads (e.setDefaultFail text) client := by
  have hclear := leads_clearDefaultFail hc
  obtain ⟨cleared, hcleared⟩ : ∃ next, next =
      ({ e with roots := { e.roots with defaultFailMessage := none } } : Engine).releaseAll
        e.defaultFailString?.toList := ⟨_, rfl⟩
  have hl : e.Leads cleared client := by
    rw [hcleared]
    exact hclear.trans (leads_releaseHandles _ hclear.consistent)
  have hroots : cleared.roots.defaultFailMessage = none := by
    rw [hcleared, roots_releaseAll]
  unfold setDefaultFail
  simp only [← hcleared]
  cases text with
  | none => exact hl
  | some text =>
    have hintern := hl.trans (leads_intern hl.consistent (failText text))
    exact hintern.trans (leads_fillDefaultFail (cleared.find?_intern (failText text))
      hintern.consistent hroots)

/-! ## Identifiers -/

/-- A table under construction: its identifier blocks are the client's. -/
structure Growing (e : Engine) (t : IdentTable) (client : Multiset Reference) : Prop where
  consistent : e.Consistent (↑((t.entries.filterMap (·.block)).map (owned · .permIdent)) + client)
  proper : ∀ entry ∈ t.entries, entry.block.isSome → entry.kind.isPermanent
  buckets : 0 < t.buckets.length

theorem leads_newIdent (hc : e.Consistent client) (name : String) (kind : IdentKind) :
    e.Leads (e.newIdent name kind).1
        (↑((e.newIdent name kind).2.block.toList.map (owned · .permIdent)) + client) ∧
      ((e.newIdent name kind).2.block.isSome → (e.newIdent name kind).2.kind.isPermanent) := by
  unfold newIdent
  by_cases hk : kind.isPermanent
  · rw [if_pos hk]
    refine ⟨?_, fun _ => hk⟩
    exact leads_allocate .permIdent (.text name)
      (hc.of_eq (zero_add client).symm) "add_permanent_ident" (fresh_of_isSimple _ rfl rfl rfl) rfl
  · rw [if_neg hk]
    exact ⟨hc.leads.of_eq (zero_add client).symm, by simp⟩

theorem leads_insertIdents {t : IdentTable} (entries : List (String × IdentKind))
    (hg : e.Growing t client) :
    e.Leads (e.insertIdents t entries).1
        (↑(((e.insertIdents t entries).2.entries.filterMap (·.block)).map (owned · .permIdent))
          + client) ∧
      (e.insertIdents t entries).1.Growing (e.insertIdents t entries).2 client := by
  induction entries generalizing e t with
  | nil => exact ⟨hg.consistent.leads, hg⟩
  | cons entry rest ih =>
    obtain ⟨name, kind⟩ := entry
    obtain ⟨hl, hkind⟩ := leads_newIdent hg.consistent name kind
    obtain ⟨⟨e₁, new⟩, h₁⟩ : ∃ r, e.newIdent name kind = r := ⟨_, rfl⟩
    rw [h₁] at hl hkind
    have hperm := IdentTable.entries_insert_perm hg.buckets new
    have hblocks : (((t.insert new).entries.filterMap (·.block)).map (owned · .permIdent) :
        Multiset Reference) = ↑(new.block.toList.map (owned · .permIdent))
          + ↑((t.entries.filterMap (·.block)).map (owned · .permIdent)) := by
      rw [Multiset.coe_eq_coe.2 ((hperm.filterMap _).map _)]
      cases hb : new.block with
      | none => rw [List.filterMap_cons_none hb]; rfl
      | some k => rw [List.filterMap_cons_some hb]; rfl
    have hg₁ : e₁.Growing (t.insert new) client := by
      refine ⟨hl.consistent.of_eq (by rw [hblocks, add_assoc]), ?_, by
        rw [IdentTable.size_insert]
        exact hg.buckets⟩
      intro entry hm hsome
      rcases List.mem_cons.1 (hperm.mem_iff.1 hm) with rfl | hm
      · exact hkind hsome
      · exact hg.proper entry hm hsome
    obtain ⟨hrest, hdone⟩ := ih hg₁
    unfold insertIdents
    simp only [h₁]
    exact ⟨hl.trans hrest, hdone⟩

theorem leads_newIdentTable (hc : e.Consistent client) (buckets : Nat)
    (entries : List (String × IdentKind)) : e.Leads (e.newIdentTable buckets entries).1 client := by
  have hg : e.Growing (.ofSize buckets) client := by
    refine ⟨?_, by simp, ?_⟩
    · simpa using hc
    · rw [IdentTable.size_ofSize]
      omega
  obtain ⟨hl, hdone⟩ := leads_insertIdents entries hg
  obtain ⟨⟨e₁, t⟩, h₁⟩ : ∃ r, e.insertIdents (.ofSize buckets) entries = r := ⟨_, rfl⟩
  rw [h₁] at hl hdone
  have hproper : (Payload.identTable t).Proper := by
    refine ⟨by simp, ?_⟩
    rintro u hu
    cases hu
    exact hdone.proper
  have hheld : t.held = (t.entries.filterMap (·.block)).map (owned · .permIdent) :=
    IdentTable.held_eq_released hdone.proper
  have htable := leads_allocate .identTable (.identTable t)
    (hl.consistent.of_eq (by
      show _ = (t.held : Multiset Reference) + client
      rw [hheld])) "init_identifiers"
    ⟨rfl, rfl, hproper, by simp, by simp, by simp, rfl⟩ rfl
  unfold newIdentTable
  simp only [h₁]
  exact (hl.trans htable).of_eq (zero_add client)

/-! ## Bookkeeping -/

/-- A block without a payload may have any category; the reference it could be owned by is nobody's
but the client's. -/
theorem consistent_allocateBlock (hc : e.Consistent client) (category : Category) (size : Nat)
    (description : String) :
    (e.allocateBlock category size description).1.Consistent
        (category.firstReference .blank e.heap.nextHandle + client) ∧
      e.heap.Later (e.allocateBlock category size description).1.heap := by
  refine ⟨⟨?_, hc.tallied.grow category size description rfl, hc.failing, hc.unspent⟩,
    Heap.later_allocateSized _ _ _ _ _⟩
  have ho := hc.orderly
  rw [← zero_add (e.rootRefs + client)] at ho
  have hnew := ho.allocateSized category .blank size description
    (by simp) ⟨by simp, by simp⟩ (by simp) (by simp) (by simp)
  rw [add_left_comm] at hnew
  exact hnew

end Engine

end HeapAudit
