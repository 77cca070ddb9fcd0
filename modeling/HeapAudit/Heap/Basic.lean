import HeapAudit.Block.Payload

/-!
The registry of blocks. Blocks live in slots; a slot given back is reused by a later allocation,
last one first, under a new generation, so that no old handle resolves to the new block.

Main definitions
* `Heap.get?`: the block behind a handle.
* `Heap.allocate`, `Heap.update`, `Heap.remove`: the three ways a slot changes.

Main statements
* `get?_update`, `get?_remove`, `get?_allocate`: the look-up after each of them.
* `mem_entries_iff`: the listing of the live blocks shows what look-ups show.
-/

namespace HeapAudit

/-! ## Blocks -/

/-- What one audit pass notes on a block; it has no meaning outside a pass. -/
structure Scratch where
  expected : Nat := 0
  pins : Nat := 0
  visited : Bool := false
deriving DecidableEq, Repr

structure Block where
  category : Category
  /-- The bytes recorded at allocation or at the last resizing. -/
  size : Nat
  /-- The stored reference count. -/
  refs : Nat
  description : String
  /-- Unique for the lifetime of the heap. -/
  serial : Nat
  /-- The tick at which the block was allocated. -/
  tick : Nat
  exempt : Bool := false
  scratch : Scratch := {}
  payload : Payload
deriving DecidableEq, Repr

structure Slot where
  generation : Nat
  block : Option Block
deriving DecidableEq, Repr

/-- The generation a slot gets when it is used again; generations are 32-bit words. -/
def Slot.nextGeneration (s : Slot) : Nat := (s.generation + 1) % UInt32.size

/-! ## The heap -/

/-- `free` is a stack of the vacant slots. -/
structure Heap where
  slots : Array Slot
  free : List Nat
  /-- The serial number issued last. -/
  issued : Nat
  tick : Nat
  free_nodup : free.Nodup
  mem_free_iff : ∀ i, i ∈ free ↔ ∃ s, slots[i]? = some s ∧ s.block = none

namespace Heap

def empty : Heap where
  slots := #[]
  free := []
  issued := 0
  tick := 0
  free_nodup := List.nodup_nil
  mem_free_iff := by simp

instance : Inhabited Heap := ⟨empty⟩

/-- The block behind a handle, if the slot still holds the block the handle was issued for. -/
def get? (heap : Heap) (h : Handle) : Option Block :=
  match heap.slots[h.index]? with
  | some s => if s.generation = h.generation then s.block else none
  | none => none

def payload? (heap : Heap) (h : Handle) : Option Payload := (heap.get? h).map (·.payload)

def isLive (heap : Heap) (h : Handle) : Bool := (heap.get? h).isSome

/-- The live blocks in slot order. -/
def entries (heap : Heap) : List (Handle × Block) :=
  heap.slots.toList.zipIdx.filterMap fun (s, i) => s.block.map (⟨i, s.generation⟩, ·)

def blocks (heap : Heap) : List Block := heap.entries.map (·.2)

/-- The number of live blocks. -/
def live (heap : Heap) : Nat := heap.entries.length

/-! ## Operations -/

private theorem mem_free_set {heap : Heap} {h : Handle} {b c : Block} (hb : heap.get? h = some b)
    (i : Nat) :
    i ∈ heap.free ↔
      ∃ s, (heap.slots.setIfInBounds h.index ⟨h.generation, some c⟩)[i]? = some s
        ∧ s.block = none := by
  rw [heap.mem_free_iff, Array.getElem?_setIfInBounds]
  by_cases hi : h.index = i
  · subst hi
    unfold get? at hb
    cases hs : heap.slots[h.index]? with
    | none => simp [hs] at hb
    | some s =>
      simp only [hs] at hb
      split at hb
      · simp [hb, (Array.getElem?_eq_some_iff.1 hs).1]
      · cases hb
  · simp [hi]

/-- Changes the live block behind `h`; a stale handle changes nothing. -/
def update (heap : Heap) (h : Handle) (f : Block → Block) : Heap :=
  match hb : heap.get? h with
  | none => heap
  | some b =>
    { heap with
      slots := heap.slots.setIfInBounds h.index ⟨h.generation, some (f b)⟩
      mem_free_iff := mem_free_set hb }

private theorem mem_free_vacate {heap : Heap} {h : Handle} {b : Block}
    (hb : heap.get? h = some b) (i : Nat) :
    i ∈ h.index :: heap.free ↔
      ∃ s, (heap.slots.setIfInBounds h.index ⟨h.generation, none⟩)[i]? = some s
        ∧ s.block = none := by
  rw [List.mem_cons, heap.mem_free_iff, Array.getElem?_setIfInBounds]
  by_cases hi : h.index = i
  · subst hi
    unfold get? at hb
    cases hs : heap.slots[h.index]? with
    | none => simp [hs] at hb
    | some s => simp [(Array.getElem?_eq_some_iff.1 hs).1]
  · simp [hi, Ne.symm hi]

private theorem index_not_free {heap : Heap} {h : Handle} {b : Block}
    (hb : heap.get? h = some b) : h.index ∉ heap.free := by
  rw [heap.mem_free_iff]
  rintro ⟨s, hs, hn⟩
  simp [get?, hs, hn] at hb

/-- Takes the block behind `h` out, whatever its stored count. -/
def remove (heap : Heap) (h : Handle) : Option (Block × Heap) :=
  match hb : heap.get? h with
  | none => none
  | some b =>
    some (b,
      { heap with
        slots := heap.slots.setIfInBounds h.index ⟨h.generation, none⟩
        free := h.index :: heap.free
        free_nodup := List.nodup_cons.2 ⟨index_not_free hb, heap.free_nodup⟩
        mem_free_iff := mem_free_vacate hb })

private theorem mem_free_reuse {heap : Heap} {i : Nat} {rest : List Nat} {s : Slot}
    (hf : heap.free = i :: rest) (j : Nat) (hb : s.block ≠ none) :
    j ∈ rest ↔ ∃ t, (heap.slots.setIfInBounds i s)[j]? = some t ∧ t.block = none := by
  have hn : i ∉ rest := (List.nodup_cons.1 (hf ▸ heap.free_nodup)).1
  have hm := heap.mem_free_iff j
  rw [hf, List.mem_cons] at hm
  rw [Array.getElem?_setIfInBounds]
  by_cases hij : i = j
  · subst hij
    by_cases hlt : i < heap.slots.size <;> simp [hn, hlt, hb]
  · rw [if_neg hij, ← hm]
    exact ⟨Or.inr, fun h => h.resolve_left (Ne.symm hij)⟩

private theorem mem_free_push {heap : Heap} {s : Slot} (j : Nat) (hb : s.block ≠ none) :
    j ∈ heap.free ↔ ∃ t, (heap.slots.push s)[j]? = some t ∧ t.block = none := by
  rw [heap.mem_free_iff, Array.getElem?_push]
  by_cases hj : j = heap.slots.size
  · subst hj
    simp [hb]
  · simp [hj]

/-- The slot the next block goes to: the one given back last, or a new one. -/
def nextHandle (heap : Heap) : Handle :=
  match heap.free with
  | [] => ⟨heap.slots.size, 0⟩
  | i :: _ => ⟨i, (heap.slots[i]?.map Slot.nextGeneration).getD 0⟩

/-- Puts a block into the slot of `nextHandle`. -/
def place (heap : Heap) (b : Block) : Heap :=
  match hf : heap.free with
  | [] =>
    { heap with
      slots := heap.slots.push ⟨0, some b⟩
      mem_free_iff := fun j => mem_free_push j (by simp) }
  | i :: rest =>
    { heap with
      slots := heap.slots.setIfInBounds i ⟨heap.nextHandle.generation, some b⟩
      free := rest
      free_nodup := (List.nodup_cons.1 (hf ▸ heap.free_nodup)).2
      mem_free_iff := fun j => mem_free_reuse hf j (by simp) }

/-- Allocates a block with a stored count of one and the given recorded size. -/
def allocateSized (heap : Heap) (category : Category) (payload : Payload) (size : Nat)
    (description : String) : Heap × Handle :=
  let serial := heap.issued + 1
  let b : Block :=
    { category, size, refs := 1, description, serial, tick := heap.tick, payload }
  ({ heap.place b with issued := serial }, heap.nextHandle)

/-- Allocates a block sized from its payload. -/
def allocate (heap : Heap) (category : Category) (payload : Payload) (description : String) :
    Heap × Handle :=
  heap.allocateSized category payload payload.footprint description

def advanceTick (heap : Heap) : Heap := { heap with tick := heap.tick + 1 }

/-- Adds one to the stored count. -/
def incRef (heap : Heap) (h : Handle) : Heap :=
  heap.update h fun b => { b with refs := b.refs + 1 }

/-- Takes one from the stored count; the last reference takes the block out and hands it over. -/
def decRef (heap : Heap) (h : Handle) : Option Block × Heap :=
  match heap.get? h with
  | none => (none, heap)
  | some b =>
    if 1 < b.refs then (none, heap.update h fun b => { b with refs := b.refs - 1 })
    else
      match heap.remove h with
      | none => (none, heap)
      | some (b, rest) => (some b, rest)

def setRefs (heap : Heap) (h : Handle) (count : Nat) : Heap :=
  heap.update h fun b => { b with refs := count }

def setSize (heap : Heap) (h : Handle) (size : Nat) : Heap :=
  heap.update h fun b => { b with size }

def setExempt (heap : Heap) (h : Handle) (exempt : Bool) : Heap :=
  heap.update h fun b => { b with exempt }

def setPayload (heap : Heap) (h : Handle) (payload : Payload) : Heap :=
  heap.update h fun b => { b with payload }

/-- Changes every live block. -/
def mapBlocks (heap : Heap) (f : Block → Block) : Heap :=
  { heap with
    slots := heap.slots.map fun s => { s with block := s.block.map f }
    mem_free_iff := by
      intro i
      rw [heap.mem_free_iff, Array.getElem?_map]
      cases heap.slots[i]? <;> simp }

/-! ## Look-up after each operation -/

@[simp] theorem get?_empty (h : Handle) : empty.get? h = none := by
  simp [get?, empty]

theorem get?_eq_some_iff {heap : Heap} {h : Handle} {b : Block} :
    heap.get? h = some b ↔ heap.slots[h.index]? = some ⟨h.generation, some b⟩ := by
  unfold get?
  cases hs : heap.slots[h.index]? with
  | none => simp
  | some s =>
    obtain ⟨g, o⟩ := s
    by_cases hg : g = h.generation <;> simp [hg]

theorem isLive_iff {heap : Heap} {h : Handle} : heap.isLive h ↔ ∃ b, heap.get? h = some b := by
  simp [isLive, Option.isSome_iff_exists]

theorem update_of_stale {heap : Heap} {h : Handle} (hs : heap.get? h = none) (f : Block → Block) :
    heap.update h f = heap := by
  unfold update
  split
  · rfl
  · rename_i hb
    simp [hs] at hb

theorem get?_update (heap : Heap) (h k : Handle) (f : Block → Block) :
    (heap.update h f).get? k = if k = h then (heap.get? h).map f else heap.get? k := by
  cases hb : heap.get? h with
  | none =>
    rw [update_of_stale hb]
    split
    · rename_i hk
      rw [hk, hb]
      rfl
    · rfl
  | some b =>
    have hu : (heap.update h f).slots
        = heap.slots.setIfInBounds h.index ⟨h.generation, some (f b)⟩ := by
      unfold update
      split
      · rename_i hn
        simp [hb] at hn
      · rename_i c hc
        rw [hb] at hc
        cases hc
        rfl
    have hs := get?_eq_some_iff.1 hb
    have hlt := (Array.getElem?_eq_some_iff.1 hs).1
    unfold get?
    rw [hu, Array.getElem?_setIfInBounds]
    by_cases hi : h.index = k.index
    · rw [if_pos hi, if_pos hlt, ← hi, hs]
      by_cases hg : h.generation = k.generation
      · simp [Handle.ext_iff_fields, hi, hg]
      · simp [Handle.ext_iff_fields, hg, Ne.symm hg]
    · have hk : k ≠ h := fun e => hi (by rw [e])
      rw [if_neg hi, if_neg hk]

theorem remove_eq_none_iff {heap : Heap} {h : Handle} :
    heap.remove h = none ↔ heap.get? h = none := by
  unfold remove
  split <;> simp_all

theorem get?_of_remove {heap rest : Heap} {h : Handle} {b : Block}
    (hr : heap.remove h = some (b, rest)) : heap.get? h = some b := by
  unfold remove at hr
  split at hr
  · cases hr
  · rename_i hb
    cases hr
    exact hb

theorem get?_remove {heap rest : Heap} {h : Handle} {b : Block}
    (hr : heap.remove h = some (b, rest)) (k : Handle) :
    rest.get? k = if k = h then none else heap.get? k := by
  have hs := get?_eq_some_iff.1 (get?_of_remove hr)
  have hlt := (Array.getElem?_eq_some_iff.1 hs).1
  unfold remove at hr
  split at hr
  · cases hr
  · cases hr
    unfold get?
    simp only [Array.getElem?_setIfInBounds]
    by_cases hi : h.index = k.index
    · rw [if_pos hi, if_pos hlt, ← hi, hs]
      by_cases hg : h.generation = k.generation
      · simp [Handle.ext_iff_fields, hi, hg]
      · simp [Handle.ext_iff_fields, hg, Ne.symm hg]
    · have hk : k ≠ h := fun e => hi (by rw [e])
      rw [if_neg hi, if_neg hk]

/-- The handle a new block gets resolves to nothing before. -/
theorem get?_nextHandle (heap : Heap) : heap.get? heap.nextHandle = none := by
  unfold nextHandle
  split
  · simp [get?]
  · rename_i i rest hf
    obtain ⟨s, hs, hb⟩ := (heap.mem_free_iff i).1 (by rw [hf]; exact List.mem_cons_self)
    simp [get?, hs, hb]

theorem get?_place (heap : Heap) (b : Block) (k : Handle) :
    (heap.place b).get? k = if k = heap.nextHandle then some b else heap.get? k := by
  unfold place
  split
  · rename_i hf
    simp only [get?, nextHandle, hf, Array.getElem?_push]
    by_cases hk : k.index = heap.slots.size
    · by_cases hg : k.generation = 0
      · simp [Handle.ext_iff_fields, hk, hg]
      · simp [Handle.ext_iff_fields, hk, hg, Ne.symm hg]
    · simp [Handle.ext_iff_fields, hk]
  · rename_i i rest hf
    obtain ⟨s, hs, hb⟩ := (heap.mem_free_iff i).1 (by rw [hf]; exact List.mem_cons_self)
    have hlt := (Array.getElem?_eq_some_iff.1 hs).1
    simp only [get?, nextHandle, hf, Array.getElem?_setIfInBounds, hs]
    by_cases hk : i = k.index
    · subst hk
      by_cases hg : k.generation = s.nextGeneration
      · simp [Handle.ext_iff_fields, hlt, hg]
      · have hn : heap.slots[k.index].block = none := by
          rw [(Array.getElem?_eq_some_iff.1 hs).2, hb]
        simp [Handle.ext_iff_fields, hlt, hg, Ne.symm hg, hn]
    · simp [Handle.ext_iff_fields, hk, Ne.symm hk]

theorem get?_allocateSized (heap : Heap) (category : Category) (payload : Payload) (size : Nat)
    (description : String) (k : Handle) :
    (heap.allocateSized category payload size description).1.get? k =
      if k = heap.nextHandle then
        some { category, size, refs := 1, description, serial := heap.issued + 1,
               tick := heap.tick, payload }
      else heap.get? k :=
  get?_place heap _ k

theorem get?_mapBlocks (heap : Heap) (f : Block → Block) (h : Handle) :
    (heap.mapBlocks f).get? h = (heap.get? h).map f := by
  simp only [get?, mapBlocks, Array.getElem?_map]
  cases heap.slots[h.index]? with
  | none => rfl
  | some s => by_cases hg : s.generation = h.generation <;> simp [hg]

theorem mem_entries_iff {heap : Heap} {h : Handle} {b : Block} :
    (h, b) ∈ heap.entries ↔ heap.get? h = some b := by
  rw [get?_eq_some_iff]
  simp only [entries, List.mem_filterMap, List.mem_zipIdx_iff_getElem?, Prod.exists,
    Array.getElem?_toList, Option.map_eq_some_iff, Prod.mk.injEq]
  constructor
  · rintro ⟨s, i, hs, c, hc, rfl, rfl⟩
    rw [hs, ← hc]
  · intro hs
    exact ⟨_, _, hs, b, rfl, rfl, rfl⟩

end Heap

end HeapAudit
