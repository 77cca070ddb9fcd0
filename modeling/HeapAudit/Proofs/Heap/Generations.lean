import HeapAudit.Proofs.Heap.Stock

/-!
Generations of slots. A slot is used again under the next generation, so a handle that was issued
never names a later block, as long as the 32-bit words of the generations do not wrap.

Main definitions
* `Heap.generation?`: the generation a slot is in.
* `Heap.Knows`: a handle that was issued.

Main statements
* `Heap.slots_eq`: the slots are known by their generations and by what look-ups find.
* `Heap.Bounded.allocateSized`: a slot is in no higher generation than blocks were made.
* `Heap.Knows.allocateSized`, `Heap.Bounded.not_knows_nextHandle`: issued handles stay issued, and
  none is issued again.
-/

namespace HeapAudit.Heap

def generation? (heap : Heap) (i : Nat) : Option Nat := (heap.slots[i]?).map (·.generation)

/-- A handle of the present generation of its slot, or of an earlier one. -/
def Knows (heap : Heap) (h : Handle) : Prop :=
  ∃ g, heap.generation? h.index = some g ∧ h.generation ≤ g

/-- No slot was used more often than blocks were made. -/
def Bounded (heap : Heap) : Prop :=
  ∀ i g, heap.generation? i = some g → g < heap.issued

variable {heap : Heap} {h : Handle} {b : Block}

theorem generation?_of_get? (hb : heap.get? h = some b) :
    heap.generation? h.index = some h.generation := by
  rw [generation?, get?_eq_some_iff.1 hb]
  rfl

theorem knows_of_get? (hb : heap.get? h = some b) : heap.Knows h :=
  ⟨h.generation, generation?_of_get? hb, Nat.le_refl _⟩

theorem Knows.of_generation? {other : Heap} (hk : heap.Knows h)
    (hg : ∀ i, other.generation? i = heap.generation? i) : other.Knows h := by
  obtain ⟨g, hs, hle⟩ := hk
  exact ⟨g, (hg _).trans hs, hle⟩

/-- Slots are known by their generations and what look-ups find. -/
theorem slots_eq {a b : Heap} (hg : ∀ i, a.generation? i = b.generation? i)
    (hfind : ∀ h, a.get? h = b.get? h) : a.slots = b.slots := by
  refine Array.ext_getElem? fun i => ?_
  have hi := hg i
  unfold generation? at hi
  cases ha : a.slots[i]? with
  | none =>
    rw [ha, Option.map_none, eq_comm, Option.map_eq_none_iff] at hi
    exact hi.symm
  | some s =>
    rw [ha, Option.map_some, eq_comm, Option.map_eq_some_iff] at hi
    obtain ⟨t, ht, hgen⟩ := hi
    have hblock := hfind ⟨i, s.generation⟩
    simp only [get?, ha, ht, hgen, if_true] at hblock
    obtain ⟨g, block⟩ := t
    obtain ⟨g', block'⟩ := s
    cases hgen
    cases hblock
    exact ht.symm

/-! ## What happens to a slot -/

/-- A slot that is set under the generation it is in. -/
theorem generation?_setIfInBounds (hb : heap.get? h = some b) (block : Option Block) (i : Nat) :
    ((heap.slots.setIfInBounds h.index ⟨h.generation, block⟩)[i]?).map (·.generation) =
      heap.generation? i := by
  have hs := get?_eq_some_iff.1 hb
  have hlt := (Array.getElem?_eq_some_iff.1 hs).1
  rw [Array.getElem?_setIfInBounds]
  by_cases hi : h.index = i
  · subst hi
    rw [if_pos rfl, if_pos hlt, generation?_of_get? hb]
    rfl
  · rw [if_neg hi]
    rfl

theorem generation?_update (heap : Heap) (h : Handle) (f : Block → Block) (i : Nat) :
    (heap.update h f).generation? i = heap.generation? i := by
  unfold update
  split
  · rfl
  · rename_i b hb
    exact generation?_setIfInBounds hb _ i

theorem free_update (heap : Heap) (h : Handle) (f : Block → Block) :
    (heap.update h f).free = heap.free := by
  unfold update
  split <;> rfl

@[simp] theorem issued_update (heap : Heap) (h : Handle) (f : Block → Block) :
    (heap.update h f).issued = heap.issued := by
  unfold update
  split <;> rfl

theorem tick_update (heap : Heap) (h : Handle) (f : Block → Block) :
    (heap.update h f).tick = heap.tick := by
  unfold update
  split <;> rfl

theorem generation?_remove {rest : Heap} (hr : heap.remove h = some (b, rest)) (i : Nat) :
    rest.generation? i = heap.generation? i := by
  unfold remove at hr
  split at hr
  · cases hr
  · rename_i d hd
    cases hr
    exact generation?_setIfInBounds hd _ i

/-- The vacated slot is the next to be used. -/
theorem free_remove {rest : Heap} (hr : heap.remove h = some (b, rest)) :
    rest.free = h.index :: heap.free := by
  unfold remove at hr
  split at hr
  · cases hr
  · cases hr
    rfl

theorem issued_remove {rest : Heap} (hr : heap.remove h = some (b, rest)) :
    rest.issued = heap.issued := by
  unfold remove at hr
  split at hr
  · cases hr
  · cases hr
    rfl

theorem tick_remove {rest : Heap} (hr : heap.remove h = some (b, rest)) :
    rest.tick = heap.tick := by
  unfold remove at hr
  split at hr
  · cases hr
  · cases hr
    rfl

/-- A new block gets a new slot, or a free one in its next generation. -/
theorem nextHandle_cases (heap : Heap) :
    (heap.generation? heap.nextHandle.index = none ∧ heap.nextHandle.generation = 0) ∨
      ∃ g, heap.generation? heap.nextHandle.index = some g ∧
        heap.nextHandle.generation = (g + 1) % 2 ^ 32 := by
  unfold nextHandle
  split
  · refine .inl ⟨?_, rfl⟩
    simp [generation?]
  · rename_i i rest hf
    obtain ⟨s, hs, -⟩ := (heap.mem_free_iff i).1 (by rw [hf]; exact List.mem_cons_self)
    refine .inr ⟨s.generation, ?_, ?_⟩
    · simp [generation?, hs]
    · simp [hs, Slot.nextGeneration]

theorem generation?_place (heap : Heap) (b : Block) (i : Nat) :
    (heap.place b).generation? i =
      if i = heap.nextHandle.index then some heap.nextHandle.generation
      else heap.generation? i := by
  unfold place
  split
  · rename_i hf
    simp only [generation?, nextHandle, hf, Array.getElem?_push]
    split <;> rfl
  · rename_i j rest hf
    obtain ⟨s, hs, -⟩ := (heap.mem_free_iff j).1 (by rw [hf]; exact List.mem_cons_self)
    have hlt := (Array.getElem?_eq_some_iff.1 hs).1
    have hj : heap.nextHandle.index = j := by simp [nextHandle, hf]
    simp only [generation?, Array.getElem?_setIfInBounds, hj]
    by_cases hi : j = i
    · subst hi
      rw [if_pos rfl, if_pos hlt, if_pos rfl]
      rfl
    · rw [if_neg hi, if_neg (Ne.symm hi)]

theorem free_place (heap : Heap) (b : Block) : (heap.place b).free = heap.free.tail := by
  unfold place
  split
  · rename_i hf
    rw [hf]
    rfl
  · rename_i i rest hf
    show rest = heap.free.tail
    rw [hf]
    rfl

theorem tick_place (heap : Heap) (b : Block) : (heap.place b).tick = heap.tick := by
  unfold place
  split <;> rfl

theorem generation?_allocateSized (heap : Heap) (category : Category) (payload : Payload)
    (size : Nat) (description : String) (i : Nat) :
    (heap.allocateSized category payload size description).1.generation? i =
      if i = heap.nextHandle.index then some heap.nextHandle.generation
      else heap.generation? i :=
  heap.generation?_place _ i

/-! ## Issued handles -/

theorem Bounded.of_generation? {other : Heap} (hbound : heap.Bounded)
    (hg : ∀ i, other.generation? i = heap.generation? i) (hi : other.issued = heap.issued) :
    other.Bounded := by
  intro i g h
  rw [hi]
  exact hbound i g ((hg i).symm.trans h)

theorem Bounded.allocateSized (hbound : heap.Bounded) (category : Category) (payload : Payload)
    (size : Nat) (description : String) :
    (heap.allocateSized category payload size description).1.Bounded := by
  intro i g hg
  show g < heap.issued + 1
  rw [generation?_allocateSized] at hg
  split at hg
  · cases hg
    rcases heap.nextHandle_cases with ⟨-, hz⟩ | ⟨g, hg, hnext⟩
    · omega
    · have hlt := hbound _ g hg
      have hmod := Nat.mod_le (g + 1) (2 ^ 32)
      omega
  · exact Nat.lt_succ_of_lt (hbound i g hg)

theorem Bounded.not_knows_nextHandle (hbound : heap.Bounded) (hfew : heap.issued < 2 ^ 32) :
    ¬ heap.Knows heap.nextHandle := by
  rintro ⟨g, hg, hle⟩
  rcases heap.nextHandle_cases with ⟨hnone, -⟩ | ⟨g', hg', hnext⟩
  · rw [hnone] at hg
    cases hg
  · rw [hg'] at hg
    cases hg
    have hlt := hbound _ g hg'
    rw [hnext, Nat.mod_eq_of_lt (by omega)] at hle
    omega

theorem Knows.allocateSized (hk : heap.Knows h) (hbound : heap.Bounded)
    (hfew : heap.issued < 2 ^ 32) (category : Category) (payload : Payload) (size : Nat)
    (description : String) :
    (heap.allocateSized category payload size description).1.Knows h := by
  obtain ⟨g, hg, hle⟩ := hk
  unfold Knows
  simp only [generation?_allocateSized]
  split
  · rename_i hi
    rcases heap.nextHandle_cases with ⟨hnone, -⟩ | ⟨g', hg', hnext⟩
    · rw [hi, hnone] at hg
      cases hg
    · rw [hi, hg'] at hg
      cases hg
      have hlt := hbound _ g hg'
      rw [Nat.mod_eq_of_lt (by omega)] at hnext
      exact ⟨_, rfl, by omega⟩
  · exact ⟨g, hg, hle⟩

end HeapAudit.Heap
