import HeapAudit.Heap.Census
import HeapAudit.Heap.Live
import HeapAudit.Proofs.Heap.Generations

/-!
A heap and its history. The history is kept by the caller: a line for every handle that was issued,
with what the block was made of, and a line for every block that was handed back.

Main definitions
* `Heap.Op`: the operations, on any handles.
* `Heap.Deed`, `Heap.history`: what a run of operations did, in order.
* `Heap.Standing`: a handle that was issued and whose block was not handed back since.

Main statements
* `Heap.Faithful.after`: one operation keeps heap and history in step.
* `Heap.handles_never_alias`: over any run a handle names the one block it was issued for.
-/

namespace HeapAudit.Heap

/-! ## Operations and what they did -/

/-- What never changes about a block while it is live. -/
structure Birth where
  category : Category
  description : String
  serial : Nat
  tick : Nat
  payload : Payload
deriving DecidableEq, Repr

def birthOf (b : Block) : Birth := ⟨b.category, b.description, b.serial, b.tick, b.payload⟩

inductive Op where
  | allocate (category : Category) (payload : Payload) (description : String)
  | allocateSized (category : Category) (payload : Payload) (size : Nat) (description : String)
  | incRef (h : Handle)
  | decRef (h : Handle)
  | remove (h : Handle)
  | setRefs (h : Handle) (count : Nat)
  | setSize (h : Handle) (size : Nat)
  | setExempt (h : Handle) (exempt : Bool)
  | advanceTick

inductive Deed where
  | issued (h : Handle) (birth : Birth)
  | removed (h : Handle)
deriving DecidableEq, Repr

namespace Op

def run (heap : Heap) : Op → Heap
  | allocate category payload description => (heap.allocate category payload description).1
  | allocateSized category payload size description =>
    (heap.allocateSized category payload size description).1
  | incRef h => heap.incRef h
  | decRef h => (heap.decRef h).2
  | remove h => (heap.remove h).elim heap (·.2)
  | setRefs h count => heap.setRefs h count
  | setSize h size => heap.setSize h size
  | setExempt h exempt => heap.setExempt h exempt
  | advanceTick => heap.advanceTick

/-- Told from what the operation was given and what it answers. -/
def deeds (heap : Heap) : Op → List Deed
  | allocate category payload description =>
    [.issued (heap.allocate category payload description).2
      ⟨category, description, heap.issued + 1, heap.tick, payload⟩]
  | allocateSized category payload size description =>
    [.issued (heap.allocateSized category payload size description).2
      ⟨category, description, heap.issued + 1, heap.tick, payload⟩]
  | decRef h => if (heap.decRef h).1.isSome then [.removed h] else []
  | remove h => if (heap.remove h).isSome then [.removed h] else []
  | _ => []

end Op

/-- A heap with everything that was done to it. -/
structure History where
  heap : Heap
  deeds : List Deed

def History.after (c : History) (op : Op) : History :=
  ⟨op.run c.heap, c.deeds ++ op.deeds c.heap⟩

/-- A run from an empty heap. -/
def history (ops : List Op) : History := ops.foldl History.after ⟨.empty, []⟩

/-! ## Reading a history -/

def Deed.handle? : Deed → Option Handle
  | issued h _ => some h
  | removed _ => none

/-- The handles that were issued, in order. -/
def issuedHandles (deeds : List Deed) : List Handle := deeds.filterMap Deed.handle?

/-- How often a block was put into a slot. -/
def uses (deeds : List Deed) (i : Nat) : Nat := (issuedHandles deeds).countP fun h => h.index = i

/-- How often a slot was used again; its first block is no reuse. -/
def reuses (deeds : List Deed) (i : Nat) : Nat := uses deeds i - 1

/-- Issued for a block of this birth, and not handed back since. -/
def Standing (deeds : List Deed) (h : Handle) (birth : Birth) : Prop :=
  ∃ before after, deeds = before ++ .issued h birth :: after ∧ .removed h ∉ after

theorem not_standing_nil (h : Handle) (birth : Birth) : ¬ Standing [] h birth := by
  rintro ⟨before, after, hd, -⟩
  simp at hd

theorem standing_concat {deeds : List Deed} {d : Deed} {h : Handle} {birth : Birth} :
    Standing (deeds ++ [d]) h birth ↔
      d = .issued h birth ∨ d ≠ .removed h ∧ Standing deeds h birth := by
  constructor
  · rintro ⟨before, after, hd, hn⟩
    rcases List.eq_nil_or_concat after with rfl | ⟨after, last, rfl⟩
    · exact .inl (List.append_inj_right' hd rfl |> List.singleton_inj.1)
    · rw [List.concat_eq_append, ← List.cons_append, ← List.append_assoc] at hd
      obtain ⟨hinit, hlast⟩ := List.append_inj' hd rfl
      simp only [List.concat_eq_append, List.mem_append, List.mem_singleton, not_or] at hn
      obtain rfl := List.singleton_inj.1 hlast
      exact .inr ⟨Ne.symm hn.2, before, after, hinit, hn.1⟩
  · rintro (rfl | ⟨hne, before, after, rfl, hn⟩)
    · exact ⟨deeds, [], rfl, by simp⟩
    · refine ⟨before, after ++ [d], by simp, ?_⟩
      simp [hn, hne.symm]

theorem issuedHandles_append (deeds more : List Deed) :
    issuedHandles (deeds ++ more) = issuedHandles deeds ++ issuedHandles more :=
  List.filterMap_append

theorem uses_append (deeds more : List Deed) (i : Nat) :
    uses (deeds ++ more) i = uses deeds i + uses more i := by
  rw [uses, issuedHandles_append, List.countP_append]
  rfl

theorem reuses_le_length (deeds : List Deed) (i : Nat) : reuses deeds i ≤ deeds.length :=
  (Nat.sub_le _ _).trans (List.countP_le_length.trans (List.length_filterMap_le _ _))

/-! ## Heap and history in step -/

/-- The slots are in the generations the history implies, no handle was issued twice, and look-ups
find the blocks that stand. -/
structure Faithful (c : History) : Prop where
  generation : ∀ i, c.heap.generation? i =
    if uses c.deeds i = 0 then none else some (uses c.deeds i - 1)
  below : ∀ h ∈ issuedHandles c.deeds, h.generation < uses c.deeds h.index
  nodup : (issuedHandles c.deeds).Nodup
  standing : ∀ h birth, Standing c.deeds h birth ↔ ∃ b, c.heap.get? h = some b ∧ birthOf b = birth

namespace Faithful

variable {c : History} {h : Handle} {b : Block} {rest : Heap}

theorem empty : Faithful ⟨.empty, []⟩ where
  generation := fun i => by simp [generation?, Heap.empty, uses, issuedHandles]
  below := by simp [issuedHandles]
  nodup := List.nodup_nil
  standing := fun h birth => by simp [not_standing_nil]

/-- Nothing is issued or handed back, and blocks keep what they were born with. -/
theorem quiet (hf : Faithful c) {next : Heap}
    (hg : ∀ i, next.generation? i = c.heap.generation? i)
    (hb : ∀ k, (next.get? k).map birthOf = (c.heap.get? k).map birthOf) :
    Faithful ⟨next, c.deeds⟩ where
  generation := fun i => (hg i).trans (hf.generation i)
  below := hf.below
  nodup := hf.nodup
  standing := fun k birth => by
    rw [hf.standing]
    have := hb k
    constructor
    · rintro ⟨b, hk, rfl⟩
      rw [hk, Option.map_some, Option.map_eq_some_iff] at this
      exact this
    · rintro ⟨b, hk, rfl⟩
      rw [hk, Option.map_some, eq_comm, Option.map_eq_some_iff] at this
      exact this

theorem update (hf : Faithful c) (h : Handle) {f : Block → Block}
    (hb : ∀ b, birthOf (f b) = birthOf b) : Faithful ⟨c.heap.update h f, c.deeds⟩ := by
  refine hf.quiet (c.heap.generation?_update h f) fun k => ?_
  rw [get?_update]
  split
  · rename_i hk
    subst hk
    rw [Option.map_map]
    exact Option.map_congr fun b _ => hb b
  · rfl

/-- A block is handed back. -/
theorem remove (hf : Faithful c) (hr : c.heap.remove h = some (b, rest)) :
    Faithful ⟨rest, c.deeds ++ [.removed h]⟩ := by
  have hi : issuedHandles (c.deeds ++ [.removed h]) = issuedHandles c.deeds := by
    rw [issuedHandles_append]
    exact List.append_nil _
  have hu : uses (c.deeds ++ [.removed h]) = uses c.deeds := by
    funext i
    rw [uses, hi, uses]
  refine ⟨fun i => ?_, ?_, ?_, fun k birth => ?_⟩
  · rw [hu, generation?_remove hr, hf.generation]
  · rw [hi, hu]
    exact hf.below
  · rw [hi]
    exact hf.nodup
  · rw [standing_concat, hf.standing, get?_remove hr]
    by_cases hk : k = h
    · simp [hk]
    · simp [hk, Ne.symm hk]

/-- Up to the last generation, a slot is used under the number of times it was used before. -/
theorem generation_nextHandle (hf : Faithful c)
    (hu : uses c.deeds c.heap.nextHandle.index < 2 ^ 32) :
    c.heap.nextHandle.generation = uses c.deeds c.heap.nextHandle.index := by
  have hg := hf.generation c.heap.nextHandle.index
  rcases c.heap.nextHandle_cases with ⟨hnone, hzero⟩ | ⟨g, hsome, hnext⟩
  · rw [hnone] at hg
    split at hg
    · omega
    · cases hg
  · rw [hsome] at hg
    split at hg
    · cases hg
    · simp only [Option.some.injEq] at hg
      rw [hnext, Nat.mod_eq_of_lt (by omega)]
      omega

/-- A block is put into the next slot, which must not have gone through all generations. -/
theorem allocateSized (hf : Faithful c) (category : Category) (payload : Payload) (size : Nat)
    (description : String) (hu : uses c.deeds c.heap.nextHandle.index < 2 ^ 32) :
    Faithful ⟨(c.heap.allocateSized category payload size description).1,
      c.deeds ++ [.issued c.heap.nextHandle
        ⟨category, description, c.heap.issued + 1, c.heap.tick, payload⟩]⟩ := by
  have hgen := hf.generation_nextHandle hu
  have hi : ∀ birth, issuedHandles (c.deeds ++ [.issued c.heap.nextHandle birth]) =
      issuedHandles c.deeds ++ [c.heap.nextHandle] := fun birth => issuedHandles_append _ _
  have huses : ∀ birth i, uses (c.deeds ++ [.issued c.heap.nextHandle birth]) i =
      uses c.deeds i + if i = c.heap.nextHandle.index then 1 else 0 := by
    intro birth i
    rw [uses, hi, List.countP_append, List.countP_singleton, uses]
    simp only [decide_eq_true_eq, @eq_comm _ i]
  refine ⟨fun i => ?_, fun k hk => ?_, ?_, fun k birth => ?_⟩
  · rw [huses, generation?_allocateSized]
    by_cases hn : i = c.heap.nextHandle.index
    · subst hn
      simp [hgen]
    · simp [hn, hf.generation i]
  · rw [hi, List.mem_append, List.mem_singleton] at hk
    rw [huses]
    rcases hk with hk | rfl
    · exact Nat.lt_of_lt_of_le (hf.below k hk) (Nat.le_add_right _ _)
    · rw [if_pos rfl, hgen]
      exact Nat.lt_succ_self _
  · rw [hi]
    refine List.nodup_append.2 ⟨hf.nodup, List.nodup_singleton _, ?_⟩
    rintro k hk _ hm rfl
    have hlt := hf.below k hk
    rw [List.mem_singleton.1 hm, hgen] at hlt
    exact Nat.lt_irrefl _ hlt
  · rw [standing_concat, hf.standing, get?_allocateSized]
    by_cases hk : k = c.heap.nextHandle
    · subst hk
      simp [get?_nextHandle, birthOf]
    · simp [hk, Ne.symm hk]

/-- One operation, as long as no slot went through all generations. -/
theorem after (hf : Faithful c) (op : Op) (hu : ∀ i, uses (c.after op).deeds i ≤ 2 ^ 32) :
    Faithful (c.after op) := by
  have hroom : ∀ birth, op.deeds c.heap = [.issued c.heap.nextHandle birth] →
      uses c.deeds c.heap.nextHandle.index < 2 ^ 32 := by
    intro birth hd
    have hone : uses [Deed.issued c.heap.nextHandle birth] c.heap.nextHandle.index = 1 := by
      simp [uses, issuedHandles, Deed.handle?]
    have := hu c.heap.nextHandle.index
    rw [History.after, hd, uses_append, hone] at this
    omega
  have hsame : op.deeds c.heap = [] → Faithful ⟨op.run c.heap, c.deeds⟩ →
      Faithful (c.after op) := by
    intro hd hn
    rwa [History.after, hd, List.append_nil]
  cases op with
  | allocate category payload description =>
    exact hf.allocateSized category payload payload.footprint description (hroom _ rfl)
  | allocateSized category payload size description =>
    exact hf.allocateSized category payload size description (hroom _ rfl)
  | incRef h => exact hsame rfl (hf.update h fun _ => rfl)
  | setRefs h count => exact hsame rfl (hf.update h fun _ => rfl)
  | setSize h size => exact hsame rfl (hf.update h fun _ => rfl)
  | setExempt h exempt => exact hsame rfl (hf.update h fun _ => rfl)
  | advanceTick => exact hsame rfl (hf.quiet (fun _ => rfl) fun _ => rfl)
  | remove h =>
    cases hr : c.heap.remove h with
    | none =>
      refine hsame (by simp [Op.deeds, hr]) ?_
      simpa [Op.run, hr] using hf
    | some r =>
      simpa [History.after, Op.deeds, Op.run, hr] using hf.remove hr
  | decRef h =>
    cases hb : c.heap.get? h with
    | none =>
      have hd : c.heap.decRef h = (none, c.heap) := by simp [Heap.decRef, hb]
      exact hsame (by simp [Op.deeds, hd]) (by simpa [Op.run, hd] using hf)
    | some b =>
      by_cases hmore : 1 < b.refs
      · have hd : c.heap.decRef h =
            (none, c.heap.update h fun b => { b with refs := b.refs - 1 }) := by
          simp [Heap.decRef, hb, hmore]
        refine hsame (by simp [Op.deeds, hd]) ?_
        simpa [Op.run, hd] using hf.update h (f := fun b => { b with refs := b.refs - 1 })
          fun _ => rfl
      · obtain ⟨rest, hr⟩ := exists_remove hb
        have hd : c.heap.decRef h = (some b, rest) := by simp [Heap.decRef, hb, hmore, hr]
        simpa [History.after, Op.deeds, Op.run, hd] using hf.remove hr

end Faithful

theorem uses_le_after (c : History) (op : Op) (i : Nat) :
    uses c.deeds i ≤ uses (c.after op).deeds i := by
  rw [History.after, uses_append]
  exact Nat.le_add_right _ _

/-- Along a whole run heap and history stay in step. -/
theorem faithful_history (ops : List Op) (hu : ∀ i, uses (history ops).deeds i ≤ 2 ^ 32) :
    Faithful (history ops) := by
  induction ops using List.reverseRecOn with
  | nil => exact .empty
  | append_singleton ops op ih =>
    have hlast : history (ops ++ [op]) = (history ops).after op := by
      simp [history, List.foldl_append]
    rw [hlast] at hu ⊢
    exact (ih fun i => (uses_le_after _ op i).trans (hu i)).after op hu

/-! ## Whole runs -/

/-- Over any run in which no slot is used again `2 ^ 32` times, whatever handles it is given: no
handle is issued twice; a handle finds a block exactly when it was issued and its block was not
handed back since, and then the block it was issued for; the listing shows what handles find, once
each and in slot order; the free list holds the vacant slots, once each. Slots are numbered without
a bound. -/
theorem handles_never_alias (ops : List Op)
    (hreuse : ∀ i, reuses (history ops).deeds i < 2 ^ 32) :
    (issuedHandles (history ops).deeds).Nodup ∧
    (∀ h birth, Standing (history ops).deeds h birth ↔
      ∃ b, (history ops).heap.get? h = some b ∧ birthOf b = birth) ∧
    (∀ h b, (h, b) ∈ (history ops).heap.entries ↔ (history ops).heap.get? h = some b) ∧
    ((history ops).heap.entries.Pairwise fun p q => p.1.index < q.1.index) ∧
    (history ops).heap.free.Perm (history ops).heap.vacant ∧
    (history ops).heap.census.liveBlocks + (history ops).heap.census.freeSlots =
      (history ops).heap.census.totalSlots := by
  have hf : Faithful (history ops) := by
    refine faithful_history ops fun i => ?_
    have := hreuse i
    unfold reuses at this
    omega
  exact ⟨hf.nodup, hf.standing, fun h b => mem_entries_iff, pairwise_entries _,
    free_perm_vacant _, census_slots _⟩

/-- A slot is used again; the old handle is tried on the new block. -/
def ropeAfterLamp : List Op :=
  [.allocate .buffer (.bytes [1]) "lamp", .incRef ⟨0, 0⟩, .decRef ⟨0, 0⟩, .decRef ⟨0, 0⟩,
    .advanceTick, .allocateSized .buffer (.bytes [2]) 64 "rope", .remove ⟨0, 0⟩, .decRef ⟨0, 0⟩,
    .setSize ⟨0, 0⟩ 8, .allocate .misc .blank "scratch", .remove ⟨1, 0⟩]

theorem handles_never_alias_ropeAfterLamp :
    (∀ i, reuses (history ropeAfterLamp).deeds i < 2 ^ 32) ∧
    issuedHandles (history ropeAfterLamp).deeds = [⟨0, 0⟩, ⟨0, 1⟩, ⟨1, 0⟩] ∧
    (¬ ∃ birth, Standing (history ropeAfterLamp).deeds ⟨0, 0⟩ birth) ∧
    Standing (history ropeAfterLamp).deeds ⟨0, 1⟩ ⟨.buffer, "rope", 2, 1, .bytes [2]⟩ ∧
    (history ropeAfterLamp).heap.free.Perm [1] := by
  have hreuse : ∀ i, reuses (history ropeAfterLamp).deeds i < 2 ^ 32 := fun i =>
    (reuses_le_length _ i).trans_lt (by decide +kernel)
  obtain ⟨-, hstands, -, -, hfree, -⟩ := handles_never_alias ropeAfterLamp hreuse
  refine ⟨hreuse, by decide +kernel, ?_, (hstands _ _).2 ?_, ?_⟩
  · rintro ⟨birth, hs⟩
    obtain ⟨b, hb, -⟩ := (hstands _ _).1 hs
    have hnone : (history ropeAfterLamp).heap.get? ⟨0, 0⟩ = none := by decide +kernel
    rw [hnone] at hb
    cases hb
  · have hsome : ((history ropeAfterLamp).heap.get? ⟨0, 1⟩).map birthOf =
        some ⟨.buffer, "rope", 2, 1, .bytes [2]⟩ := by decide +kernel
    exact Option.map_eq_some_iff.1 hsome
  · have hv : (history ropeAfterLamp).heap.vacant = [1] := by decide +kernel
    rwa [hv] at hfree

end HeapAudit.Heap
