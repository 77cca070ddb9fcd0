import HeapAudit.Heap.Basic

/-!
How many blocks are live, and how many slots are vacant.

Main statements
* `live_update`: changing a block keeps the number.
* `live_remove`: taking a block out lowers it by one.
* `free_perm_vacant`: the free list is a list of the vacant slots.
-/

namespace HeapAudit.Heap

theorem live_eq_countP (heap : Heap) :
    heap.live = heap.slots.toList.countP (·.block.isSome) := by
  have hz : heap.slots.toList = heap.slots.toList.zipIdx.map Prod.fst :=
    (List.zipIdx_map_fst 0 _).symm
  rw [live, entries, List.length_filterMap_eq_countP, hz, List.countP_map, ← hz]
  congr 1
  funext p
  simp

private theorem countP_setIfInBounds {slots : Array Slot} {i : Nat} {old : Slot}
    (hs : slots[i]? = some old) (new : Slot) :
    (slots.setIfInBounds i new).toList.countP (·.block.isSome)
        + (if old.block.isSome then 1 else 0)
      = slots.toList.countP (·.block.isSome) + (if new.block.isSome then 1 else 0) := by
  obtain ⟨hlt, hi⟩ := Array.getElem?_eq_some_iff.1 hs
  have hl : i < slots.toList.length := by simpa using hlt
  have ho : slots.toList[i] = old := by simpa using hi
  rw [Array.toList_setIfInBounds, List.countP_set hl, ho]
  by_cases hb : old.block.isSome
  · have hp : 0 < slots.toList.countP (·.block.isSome) :=
      List.countP_pos_iff.2 ⟨old, ho ▸ List.getElem_mem hl, hb⟩
    simp only [hb, if_true]
    omega
  · simp [hb]

theorem live_update (heap : Heap) (h : Handle) (f : Block → Block) :
    (heap.update h f).live = heap.live := by
  unfold update
  split
  · rfl
  · rename_i b hb
    have := countP_setIfInBounds (get?_eq_some_iff.1 hb) ⟨h.generation, some (f b)⟩
    simp only [live_eq_countP]
    simpa using this

theorem live_remove {heap rest : Heap} {h : Handle} {b : Block}
    (hr : heap.remove h = some (b, rest)) : rest.live + 1 = heap.live := by
  have hs := get?_eq_some_iff.1 (get?_of_remove hr)
  unfold remove at hr
  split at hr
  · cases hr
  · cases hr
    have := countP_setIfInBounds hs ⟨h.generation, none⟩
    simp only [live_eq_countP]
    simpa using this

/-- A reference less takes at most the one block out. -/
theorem live_decRef (heap : Heap) (h : Handle) :
    (heap.decRef h).2.live + (if (heap.decRef h).1.isSome then 1 else 0) = heap.live := by
  unfold decRef
  cases heap.get? h with
  | none => simp
  | some b =>
    simp only
    split
    · simp [live_update]
    · cases hr : heap.remove h with
      | none => simp
      | some r => simpa using live_remove hr

/-! ## Vacant slots -/

/-- The slots without a block, by looking at every slot. -/
def vacant (heap : Heap) : List Nat :=
  heap.slots.toList.zipIdx.filterMap fun (s, i) => if s.block = none then some i else none

theorem mem_vacant {heap : Heap} {i : Nat} :
    i ∈ heap.vacant ↔ ∃ s, heap.slots[i]? = some s ∧ s.block = none := by
  simp only [vacant, List.mem_filterMap, List.mem_zipIdx_iff_getElem?, Prod.exists,
    Array.getElem?_toList, Option.ite_none_right_eq_some, Option.some.injEq]
  constructor
  · rintro ⟨s, _, hs, hb, rfl⟩
    exact ⟨s, hs, hb⟩
  · rintro ⟨s, hs, hb⟩
    exact ⟨s, i, hs, hb, rfl⟩

theorem pairwise_zipIdx (heap : Heap) :
    heap.slots.toList.zipIdx.Pairwise fun p q => p.2 < q.2 := by
  rw [← List.pairwise_map (f := Prod.snd) (R := (· < ·)), List.zipIdx_map_snd]
  exact List.pairwise_lt_range'

theorem nodup_vacant (heap : Heap) : heap.vacant.Nodup := by
  refine List.Pairwise.filterMap _ ?_ heap.pairwise_zipIdx
  rintro ⟨s, i⟩ ⟨t, j⟩ hij _ hp _ hq
  simp only [Option.ite_none_right_eq_some, Option.some.injEq] at hp hq
  obtain ⟨-, rfl⟩ := hp
  obtain ⟨-, rfl⟩ := hq
  exact Nat.ne_of_lt hij

/-- The free list is a list of the vacant slots. -/
theorem free_perm_vacant (heap : Heap) : heap.free.Perm heap.vacant := by
  refine (List.perm_ext_iff_of_nodup heap.free_nodup heap.nodup_vacant).2 fun i => ?_
  rw [heap.mem_free_iff, mem_vacant]

theorem live_add_vacant (heap : Heap) : heap.live + heap.vacant.length = heap.slots.size := by
  have hv : heap.vacant.length = heap.slots.toList.countP (¬ ·.block.isSome) := by
    rw [vacant, List.length_filterMap_eq_countP, ← List.zipIdx_map_fst 0 heap.slots.toList,
      List.countP_map, List.zipIdx_map_fst]
    refine List.countP_congr fun p _ => ?_
    by_cases hb : p.1.block = none <;> simp [hb]
  rw [live_eq_countP, hv, ← Array.length_toList]
  exact (List.length_eq_countP_add_countP _).symm

end HeapAudit.Heap
