import HeapAudit.Proofs.Engine.Values

/-!
The references among the roots, field by field, and what it takes to move one in or out.

Main definitions
* `Roots.movable`: the roots as a sum over the fields a client can fill and empty.

Main statements
* `Engine.rootRefs_eq`: what there is besides these fields.
* `Engine.leads_moveRoots`: references move between these fields and the client.
-/

namespace HeapAudit

open Reference

/-- Everything but the sentences kept for reuse and the string of the default failure message. -/
def Roots.movable (r : Roots) : Multiset Reference :=
  ↑(r.sessions.map (owned · .interactive)) + ↑(r.configStrings.map (owned · .plainString))
    + ↑(ofValues r.stack) + ↑(ofValues [r.applyReturn]) + ↑(Reference.objects r.commandGivers)
    + ↑(r.callOuts.map (owned · .callOut)) + ↑(sharedStrings r.simulNames)
    + ↑(r.predefines.map (owned · .predefine)) + ↑(sharedStrings r.addressNames)
    + ↑(Reference.objects r.master.toList) + ↑(Reference.objects r.simulOwner.toList)
    + ↑(Reference.objects r.objects)
    + ↑(Reference.objects r.destructed)

theorem coe_objects_append (hs ks : List Handle) :
    (objects (hs ++ ks) : Multiset Reference) = ↑(objects hs) + ↑(objects ks) := by
  rw [objects, List.map_append, ← Multiset.coe_add]
  rfl

theorem objects_singleton (h : Handle) : Reference.objects [h] = [counted h .object] := rfl

theorem coe_ofValues_append (values more : List Value) :
    (ofValues (values ++ more) : Multiset Reference) = ↑(ofValues values) + ↑(ofValues more) := by
  rw [ofValues_append, Multiset.coe_add]

theorem coe_map_append (f : Handle → Reference) (hs ks : List Handle) :
    ((hs ++ ks).map f : Multiset Reference) = ↑(hs.map f) + ↑(ks.map f) := by
  rw [List.map_append, Multiset.coe_add]

namespace Roots

variable (r : Roots) (h : Handle)

theorem movable_addObject :
    ({ r with objects := r.objects ++ [h] } : Roots).movable =
      ↑[counted h .object] + r.movable := by
  simp only [movable, coe_objects_append, objects_singleton]
  abel

theorem movable_addSession :
    ({ r with sessions := r.sessions ++ [h] } : Roots).movable =
      ↑[owned h .interactive] + r.movable := by
  simp only [movable, coe_map_append, List.map_cons, List.map_nil]
  abel

theorem movable_addCallOut :
    ({ r with callOuts := r.callOuts ++ [h] } : Roots).movable =
      ↑[owned h .callOut] + r.movable := by
  simp only [movable, coe_map_append, List.map_cons, List.map_nil]
  abel

theorem movable_addCommandGiver :
    ({ r with commandGivers := r.commandGivers ++ [h] } : Roots).movable =
      ↑[counted h .object] + r.movable := by
  simp only [movable, coe_objects_append, objects_singleton]
  abel

theorem movable_addConfigString :
    ({ r with configStrings := r.configStrings ++ [h] } : Roots).movable =
      ↑[owned h .plainString] + r.movable := by
  simp only [movable, coe_map_append, List.map_cons, List.map_nil]
  abel

theorem movable_addPredefine :
    ({ r with predefines := r.predefines ++ [h] } : Roots).movable =
      ↑[owned h .predefine] + r.movable := by
  simp only [movable, coe_map_append, List.map_cons, List.map_nil]
  abel

theorem movable_addSimulName :
    ({ r with simulNames := r.simulNames ++ [h] } : Roots).movable =
      ↑(sharedStrings [h]) + r.movable := by
  simp only [movable, coe_sharedStrings_append]
  abel

theorem movable_addAddressName :
    ({ r with addressNames := r.addressNames ++ [h] } : Roots).movable =
      ↑(sharedStrings [h]) + r.movable := by
  simp only [movable, coe_sharedStrings_append]
  abel

end Roots

namespace Engine

variable {e : Engine} {client : Multiset Reference}

theorem rootRefs_eq (e : Engine) :
    e.rootRefs =
      e.roots.movable + ↑(sharedStrings e.defaultFailString?.toList)
        + ↑(e.roots.freeSentences.map (owned · .sentence)) := by
  simp only [rootRefs, rootHeld, Roots.held, List.map_append, map_snd_underRoot, ← Multiset.coe_add,
    Roots.movable]
  abel

/-- References move between the roots and the client. -/
theorem leads_moveRoots (hc : e.Consistent client) {roots : Roots} {left : Multiset Reference}
    (hfail : roots.defaultFailMessage = e.roots.defaultFailMessage)
    (hfree : roots.freeSentences = e.roots.freeSentences)
    (hmove : e.roots.movable + client = roots.movable + left) :
    e.Leads { e with roots } left := by
  refine leads_setRoots hc ?_ (hfail ▸ hc.failing) (hfree ▸ hc.unspent)
  have hstring : ({ e with roots } : Engine).defaultFailString? = e.defaultFailString? := by
    unfold defaultFailString?
    rw [hfail]
  rw [rootRefs_eq, rootRefs_eq, hstring]
  show _ = roots.movable + _ + ↑(roots.freeSentences.map (owned · .sentence)) + left
  rw [hfree]
  calc _ = e.roots.movable + client + (↑(sharedStrings e.defaultFailString?.toList)
        + ↑(e.roots.freeSentences.map (owned · .sentence))) := by abel
    _ = _ := by
      rw [hmove]
      abel

/-- References of the client go to the roots. -/
theorem leads_fillRoots {given : Multiset Reference} (hc : e.Consistent (given + client))
    {roots : Roots} (hfail : roots.defaultFailMessage = e.roots.defaultFailMessage)
    (hfree : roots.freeSentences = e.roots.freeSentences)
    (hmove : roots.movable = given + e.roots.movable) : e.Leads { e with roots } client := by
  refine leads_moveRoots hc hfail hfree ?_
  rw [hmove, add_left_comm, add_assoc]

/-- References of the roots go to the client. -/
theorem leads_emptyRoots {taken : Multiset Reference} (hc : e.Consistent client) {roots : Roots}
    (hfail : roots.defaultFailMessage = e.roots.defaultFailMessage)
    (hfree : roots.freeSentences = e.roots.freeSentences)
    (hmove : e.roots.movable = taken + roots.movable) :
    e.Leads { e with roots } (taken + client) := by
  refine leads_moveRoots hc hfail hfree ?_
  rw [hmove, add_left_comm, add_assoc]

/-- There is no pin among the roots. -/
theorem hold_of_mem_rootRefs {ref : Reference} (hr : ref ∈ e.rootRefs) : ref.hold ≠ .pinned := by
  intro hp
  have hm : ref ∈ e.rootRefs.filter fun ref => isPin ref :=
    Multiset.mem_filter.2 ⟨hr, by simp [isPin, hp]⟩
  rw [rootRefs, e.filter_isPin_roots] at hm
  exact Multiset.notMem_zero _ hm

end Engine

end HeapAudit
