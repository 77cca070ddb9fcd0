import HeapAudit.Proofs.Heap.Generations
import Mathlib.Data.List.Basic

/-!
Going over all live blocks, one by one or all at once.

Main statements
* `eq_of_get?`: heaps with the same vacant slots are known by what look-ups find.
* `foldl_update_entries`: changing one block after the other changes them all.
* `mapBlocks_update`: a change that is undone everywhere does not show.
* `update_mapBlocks`, `remove_mapBlocks`, `allocateSized_mapBlocks`: changing all blocks first, or
  last.
-/

namespace HeapAudit.Heap

theorem eq_of_parts {heap other : Heap} (hs : heap.slots = other.slots)
    (hf : heap.free = other.free) (hi : heap.issued = other.issued) (ht : heap.tick = other.tick) :
    heap = other := by
  cases heap
  cases other
  simp only at hs hf hi ht
  subst hs hf hi ht
  rfl

theorem eq_of_get? {heap other : Heap} (hg : ∀ i, heap.generation? i = other.generation? i)
    (hfind : ∀ h, heap.get? h = other.get? h) (hf : heap.free = other.free)
    (hi : heap.issued = other.issued) (ht : heap.tick = other.tick) : heap = other :=
  eq_of_parts (slots_eq hg hfind) hf hi ht

theorem generation?_mapBlocks (heap : Heap) (f : Block → Block) (i : Nat) :
    (heap.mapBlocks f).generation? i = heap.generation? i := by
  simp only [generation?, mapBlocks, Array.getElem?_map, Option.map_map, Function.comp_def]

theorem mapBlocks_mapBlocks (heap : Heap) (f g : Block → Block) :
    (heap.mapBlocks f).mapBlocks g = heap.mapBlocks fun b => g (f b) := by
  refine eq_of_get? (fun i => ?_) (fun h => ?_) rfl rfl rfl
  · simp only [generation?_mapBlocks]
  · simp only [get?_mapBlocks, Option.map_map, Function.comp_def]

/-- A change that `g` undoes does not show once `g` was applied everywhere. -/
theorem mapBlocks_update {f g : Block → Block} {heap : Heap} {h : Handle}
    (hfg : ∀ b, heap.get? h = some b → g (f b) = g b) :
    (heap.update h f).mapBlocks g = heap.mapBlocks g := by
  refine eq_of_get? (fun i => ?_) (fun k => ?_) (heap.free_update h f) (heap.issued_update h f)
    (heap.tick_update h f)
  · rw [generation?_mapBlocks, generation?_mapBlocks, generation?_update]
  · rw [get?_mapBlocks, get?_mapBlocks, get?_update]
    by_cases hk : k = h
    · rw [if_pos hk, Option.map_map, hk]
      exact Option.map_congr hfg
    · rw [if_neg hk]

/-! ## One block after the other -/

section Sweep

variable (f : Block → Block)

theorem foldl_update_view {α : Type} (view : Heap → α)
    (hv : ∀ heap h, view (heap.update h f) = view heap) (heap : Heap) (hs : List Handle) :
    view (hs.foldl (fun heap h => heap.update h f) heap) = view heap := by
  induction hs generalizing heap with
  | nil => rfl
  | cons h hs ih => rw [List.foldl_cons, ih, hv]

theorem get?_foldl_update (heap : Heap) {hs : List Handle} (hn : hs.Nodup) (k : Handle) :
    (hs.foldl (fun heap h => heap.update h f) heap).get? k =
      if k ∈ hs then (heap.get? k).map f else heap.get? k := by
  induction hs generalizing heap with
  | nil => simp
  | cons h hs ih =>
    obtain ⟨hh, hn⟩ := List.nodup_cons.1 hn
    rw [List.foldl_cons, ih _ hn, get?_update]
    by_cases hk : k = h
    · subst hk
      simp [hh]
    · simp [hk]

theorem nodup_handles (heap : Heap) : (heap.entries.map (·.1)).Nodup :=
  List.pairwise_map.2 (heap.pairwise_entries.imp fun hlt heq => by
    rw [heq] at hlt
    exact Nat.lt_irrefl _ hlt)

theorem mem_handles_iff {heap : Heap} {h : Handle} :
    h ∈ heap.entries.map (·.1) ↔ (heap.get? h).isSome := by
  simp only [List.mem_map, Prod.exists, mem_entries_iff, Option.isSome_iff_exists]
  constructor
  · rintro ⟨k, b, hb, rfl⟩
    exact ⟨b, hb⟩
  · rintro ⟨b, hb⟩
    exact ⟨h, b, hb, rfl⟩

theorem foldl_update_entries (heap : Heap) :
    heap.entries.foldl (fun heap p => heap.update p.1 f) heap = heap.mapBlocks f := by
  have hhandles : heap.entries.foldl (fun heap p => heap.update p.1 f) heap =
      (heap.entries.map (·.1)).foldl (fun heap h => heap.update h f) heap := by
    rw [List.foldl_map]
  rw [hhandles]
  refine eq_of_get? (fun i => ?_) (fun k => ?_) ?_ ?_ ?_
  · rw [generation?_mapBlocks]
    exact foldl_update_view f (generation? · i) (fun heap h => heap.generation?_update h f i) _ _
  · rw [get?_foldl_update f heap heap.nodup_handles, get?_mapBlocks]
    by_cases hk : k ∈ heap.entries.map (·.1)
    · rw [if_pos hk]
    · rw [if_neg hk]
      rw [mem_handles_iff, Option.not_isSome_iff_eq_none] at hk
      rw [hk]
      rfl
  · exact foldl_update_view f free (fun heap h => heap.free_update h f) _ _
  · exact foldl_update_view f issued (fun heap h => heap.issued_update h f) _ _
  · exact foldl_update_view f tick (fun heap h => heap.tick_update h f) _ _

end Sweep

/-! ## One block and all blocks, in either order -/

section Either

variable {heap : Heap} {g : Block → Block}

theorem live_mapBlocks (heap : Heap) (g : Block → Block) :
    (heap.mapBlocks g).live = heap.live := by
  rw [live, live, entries_mapBlocks, List.length_map]

theorem nextHandle_mapBlocks (heap : Heap) (g : Block → Block) :
    (heap.mapBlocks g).nextHandle = heap.nextHandle := by
  have hfree : (heap.mapBlocks g).free = heap.free := rfl
  unfold nextHandle
  rw [hfree]
  cases heap.free with
  | nil => simp [mapBlocks]
  | cons i rest =>
    simp only [mapBlocks, Array.getElem?_map, Option.map_map]
    rfl

/-- Where `f'` is to the changed blocks what `f` is to the old ones. -/
theorem update_mapBlocks {f f' : Block → Block} (hf : ∀ b, f' (g b) = g (f b)) (h : Handle) :
    (heap.mapBlocks g).update h f' = (heap.update h f).mapBlocks g := by
  refine eq_of_get? (fun i => ?_) (fun k => ?_) ?_ ?_ ?_
  · rw [generation?_update, generation?_mapBlocks, generation?_mapBlocks, generation?_update]
  · rw [get?_update, get?_mapBlocks, get?_mapBlocks, get?_mapBlocks, get?_update]
    split
    · simp only [Option.map_map, Function.comp_def, hf]
    · rfl
  · exact (free_update ..).trans (heap.free_update h f).symm
  · exact (issued_update ..).trans (heap.issued_update h f).symm
  · exact (tick_update ..).trans (heap.tick_update h f).symm

theorem remove_mapBlocks (heap : Heap) (g : Block → Block) (h : Handle) :
    (heap.mapBlocks g).remove h = (heap.remove h).map fun r => (g r.1, r.2.mapBlocks g) := by
  cases hr : heap.remove h with
  | none =>
    rw [remove_eq_none_iff] at hr
    rw [Option.map_none, remove_eq_none_iff, get?_mapBlocks, hr]
    rfl
  | some r =>
    obtain ⟨b, rest⟩ := r
    have hb : (heap.mapBlocks g).get? h = some (g b) := by
      rw [get?_mapBlocks, get?_of_remove hr]
      rfl
    obtain ⟨rest', hr'⟩ := exists_remove hb
    have hrest : rest' = rest.mapBlocks g := by
      refine eq_of_get? (fun i => ?_) (fun k => ?_) ?_ ?_ ?_
      · rw [generation?_remove hr', generation?_mapBlocks, generation?_mapBlocks,
          generation?_remove hr]
      · rw [get?_remove hr', get?_mapBlocks, get?_mapBlocks, get?_remove hr]
        split <;> rfl
      · exact (free_remove hr').trans (free_remove hr).symm
      · exact (issued_remove hr').trans (issued_remove hr).symm
      · exact (tick_remove hr').trans (tick_remove hr).symm
    rw [hr', hrest]
    rfl

theorem decRef_mapBlocks (hrefs : ∀ b, (g b).refs = b.refs)
    (hset : ∀ b n, { g b with refs := n } = g { b with refs := n }) (h : Handle) :
    (heap.mapBlocks g).decRef h = ((heap.decRef h).1.map g, (heap.decRef h).2.mapBlocks g) := by
  unfold decRef
  rw [get?_mapBlocks]
  cases hb : heap.get? h with
  | none => rfl
  | some b =>
    simp only [Option.map_some, hrefs, remove_mapBlocks]
    split
    · refine Prod.ext rfl (update_mapBlocks (fun b => ?_) h)
      rw [hrefs]
      exact hset b _
    · cases heap.remove h <;> rfl

/-- Where `payload'` is to a changed block what `payload` is to an old one. -/
theorem allocateSized_mapBlocks {payload payload' : Payload}
    (hg : ∀ b : Block, b.payload = payload → g b = { b with payload := payload' })
    (category : Category) (size : Nat) (description : String) :
    (heap.mapBlocks g).allocateSized category payload' size description =
      ((heap.allocateSized category payload size description).1.mapBlocks g,
        (heap.allocateSized category payload size description).2) := by
  refine Prod.ext ?_ (nextHandle_mapBlocks heap g)
  refine eq_of_get? (fun i => ?_) (fun k => ?_) ?_ rfl ?_
  · rw [generation?_allocateSized, generation?_mapBlocks, generation?_mapBlocks,
      generation?_allocateSized, nextHandle_mapBlocks]
  · rw [get?_allocateSized, get?_mapBlocks, get?_mapBlocks, get?_allocateSized,
      nextHandle_mapBlocks]
    split
    · rw [Option.map_some, hg _ rfl]
      rfl
    · rfl
  · exact (free_place _ _).trans (free_place heap _).symm
  · exact (tick_place _ _).trans (tick_place heap _).symm

end Either

end HeapAudit.Heap
