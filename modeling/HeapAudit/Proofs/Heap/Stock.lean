import HeapAudit.Heap.Live
import Mathlib.Data.Multiset.Bind

/-!
The live blocks of a heap without their order, and what each operation does to them.

Main statements
* `of_get?_update`, `of_get?_allocateSized`, `of_get?_remove`: a block that is found was there
  before or is the one the operation wrote.
* `pairwise_entries`, `entries_eq_map`: the listing is in slot order, so look-ups settle it.
* `stock_place`, `stock_remove`: one block more, one block less.
* `stock_update`: one block in the place of another.
* `stock_allocateSized`: an allocation is a new block of stored count one.
-/

namespace HeapAudit.Heap

/-! ## Where a block comes from -/

theorem of_get?_update {heap : Heap} {h k : Handle} {b c : Block} (hb : heap.get? h = some b)
    {f : Block → Block} (hk : (heap.update h f).get? k = some c) :
    k = h ∧ c = f b ∨ k ≠ h ∧ heap.get? k = some c := by
  rw [get?_update] at hk
  split at hk
  · rename_i hkh
    rw [hb] at hk
    cases hk
    exact .inl ⟨hkh, rfl⟩
  · rename_i hne
    exact .inr ⟨hne, hk⟩

theorem of_get?_allocateSized {heap : Heap} {category : Category} {payload : Payload} {size : Nat}
    {description : String} {k : Handle} {c : Block}
    (hk : (heap.allocateSized category payload size description).1.get? k = some c) :
    k = heap.nextHandle ∧
        c = { category, size, refs := 1, description, serial := heap.issued + 1,
              tick := heap.tick, payload } ∨
      k ≠ heap.nextHandle ∧ heap.get? k = some c := by
  rw [get?_allocateSized] at hk
  split at hk
  · rename_i hn
    cases hk
    exact .inl ⟨hn, rfl⟩
  · rename_i hne
    exact .inr ⟨hne, hk⟩

/-- What is there stays there when a block is added. -/
theorem get?_allocateSized_of_some {heap : Heap} {h : Handle} {b : Block}
    (hb : heap.get? h = some b) (category : Category) (payload : Payload) (size : Nat)
    (description : String) :
    (heap.allocateSized category payload size description).1.get? h = some b := by
  have hne : h ≠ heap.nextHandle := by
    rintro rfl
    rw [get?_nextHandle] at hb
    cases hb
  rwa [get?_allocateSized, if_neg hne]

theorem of_get?_remove {heap rest : Heap} {h k : Handle} {b c : Block}
    (hr : heap.remove h = some (b, rest)) (hk : rest.get? k = some c) :
    k ≠ h ∧ heap.get? k = some c := by
  rw [get?_remove hr] at hk
  split at hk
  · cases hk
  · rename_i hne
    exact ⟨hne, hk⟩

/-! ## The listing -/

/-- Entries come in slot order. -/
theorem pairwise_entries (heap : Heap) :
    heap.entries.Pairwise fun p q => p.1.index < q.1.index := by
  refine List.Pairwise.filterMap _ ?_ heap.pairwise_zipIdx
  rintro ⟨s, i⟩ ⟨t, j⟩ hij p hp q hq
  simp only [Option.map_eq_some_iff] at hp hq
  obtain ⟨b, -, rfl⟩ := hp
  obtain ⟨c, -, rfl⟩ := hq
  exact hij

theorem nodup_entries (heap : Heap) : heap.entries.Nodup :=
  heap.pairwise_entries.imp fun hlt heq => absurd (heq ▸ hlt) (Nat.lt_irrefl _)

/-- The live blocks with their handles. -/
def stock (heap : Heap) : Multiset (Handle × Block) := heap.entries

theorem mem_stock {heap : Heap} {h : Handle} {b : Block} :
    (h, b) ∈ heap.stock ↔ heap.get? h = some b := by
  rw [stock, Multiset.mem_coe, mem_entries_iff]

theorem nodup_stock (heap : Heap) : heap.stock.Nodup :=
  Multiset.coe_nodup.2 heap.nodup_entries

theorem stock_place (heap : Heap) (b : Block) :
    (heap.place b).stock = (heap.nextHandle, b) ::ₘ heap.stock := by
  have hn : (heap.nextHandle, b) ∉ heap.stock := by
    rw [mem_stock, get?_nextHandle]
    simp
  refine (Multiset.Nodup.ext (nodup_stock _)
    (Multiset.nodup_cons.2 ⟨hn, heap.nodup_stock⟩)).2 ?_
  rintro ⟨k, c⟩
  rw [Multiset.mem_cons, mem_stock, mem_stock, get?_place, Prod.mk.injEq]
  by_cases hk : k = heap.nextHandle
  · subst hk
    simp [get?_nextHandle, eq_comm]
  · simp [hk]

theorem stock_remove {heap rest : Heap} {h : Handle} {b : Block}
    (hr : heap.remove h = some (b, rest)) : heap.stock = (h, b) ::ₘ rest.stock := by
  have hn : (h, b) ∉ rest.stock := by
    rw [mem_stock, get?_remove hr]
    simp
  refine (Multiset.Nodup.ext heap.nodup_stock
    (Multiset.nodup_cons.2 ⟨hn, nodup_stock _⟩)).2 ?_
  rintro ⟨k, c⟩
  rw [Multiset.mem_cons, mem_stock, mem_stock, get?_remove hr, Prod.mk.injEq]
  by_cases hk : k = h
  · subst hk
    simp [get?_of_remove hr, eq_comm]
  · simp [hk]

theorem exists_remove {heap : Heap} {h : Handle} {b : Block} (hb : heap.get? h = some b) :
    ∃ rest, heap.remove h = some (b, rest) := by
  cases hr : heap.remove h with
  | none =>
    rw [remove_eq_none_iff, hb] at hr
    cases hr
  | some r =>
    obtain ⟨d, rest⟩ := r
    have hd := get?_of_remove hr
    rw [hb] at hd
    cases hd
    exact ⟨rest, rfl⟩

/-- The live blocks but the one behind `h`. -/
def others (heap : Heap) (h : Handle) : Multiset (Handle × Block) :=
  heap.stock.filter fun p => p.1 ≠ h

theorem stock_eq_cons_others {heap : Heap} {h : Handle} {b : Block} (hb : heap.get? h = some b) :
    heap.stock = (h, b) ::ₘ heap.others h := by
  have hn : (h, b) ∉ heap.others h := by simp [others]
  refine (Multiset.Nodup.ext heap.nodup_stock
    (Multiset.nodup_cons.2 ⟨hn, heap.nodup_stock.filter _⟩)).2 ?_
  rintro ⟨k, c⟩
  rw [Multiset.mem_cons, others, Multiset.mem_filter, mem_stock, Prod.mk.injEq]
  by_cases hk : k = h
  · subst hk
    simp [hb, eq_comm]
  · simp [hk]

theorem others_update (heap : Heap) (h : Handle) (f : Block → Block) :
    (heap.update h f).others h = heap.others h := by
  refine (Multiset.Nodup.ext ((nodup_stock _).filter _) ((nodup_stock _).filter _)).2 ?_
  rintro ⟨k, c⟩
  simp only [Multiset.mem_filter, mem_stock, get?_update]
  by_cases hk : k = h <;> simp [hk]

theorem stock_update {heap : Heap} {h : Handle} {b : Block} (hb : heap.get? h = some b)
    (f : Block → Block) : (heap.update h f).stock = (h, f b) ::ₘ heap.others h := by
  have hf : (heap.update h f).get? h = some (f b) := by rw [get?_update, if_pos rfl, hb]; rfl
  rw [stock_eq_cons_others hf, others_update]

theorem mem_others {heap : Heap} {h k : Handle} {b : Block} :
    (k, b) ∈ heap.others h ↔ heap.get? k = some b ∧ k ≠ h := by
  rw [others, Multiset.mem_filter, mem_stock]

theorem stock_allocateSized (heap : Heap) (category : Category) (payload : Payload) (size : Nat)
    (description : String) :
    (heap.allocateSized category payload size description).1.stock =
      (heap.nextHandle,
        { category, size, refs := 1, description, serial := heap.issued + 1,
          tick := heap.tick, payload }) ::ₘ heap.stock :=
  stock_place heap _

/-- Blocks that change where they are do so in the listing too. -/
theorem entries_eq_map {heap other : Heap} {f : Handle → Block → Block}
    (h : ∀ k, other.get? k = (heap.get? k).map (f k)) :
    other.entries = heap.entries.map fun p => (p.1, f p.1 p.2) := by
  have hsorted : (heap.entries.map fun p => (p.1, f p.1 p.2)).Pairwise
      fun p q => p.1.index < q.1.index :=
    List.pairwise_map.2 heap.pairwise_entries
  have hnodup : (heap.entries.map fun p => (p.1, f p.1 p.2)).Nodup :=
    hsorted.imp fun hlt heq => absurd (heq ▸ hlt) (Nat.lt_irrefl _)
  have hperm : other.entries.Perm (heap.entries.map fun p => (p.1, f p.1 p.2)) := by
    refine (List.perm_ext_iff_of_nodup other.nodup_entries hnodup).2 ?_
    rintro ⟨k, b⟩
    simp only [mem_entries_iff, h k, List.mem_map, Prod.exists, Option.map_eq_some_iff,
      Prod.mk.injEq]
    constructor
    · rintro ⟨a, ha, rfl⟩
      exact ⟨k, a, ha, rfl, rfl⟩
    · rintro ⟨_, a, ha, rfl, rfl⟩
      exact ⟨a, ha, rfl⟩
  exact hperm.eq_of_pairwise (fun p q _ _ hpq hqp => absurd hpq (Nat.lt_asymm hqp))
    other.pairwise_entries hsorted

theorem entries_mapBlocks (heap : Heap) (f : Block → Block) :
    (heap.mapBlocks f).entries = heap.entries.map fun p => (p.1, f p.2) :=
  entries_eq_map fun k => heap.get?_mapBlocks f k

end HeapAudit.Heap
