import HeapAudit.Engine.Unwinding
import HeapAudit.Engine.DriverRoots
import HeapAudit.Proofs.Heap.Stock

/-!
Identifier tables, made and taken apart. Nothing is asked of the engine here: whatever its heap
looks like, a new table has the entries it was given, and a table whose blocks are its own goes with
them and nothing else.

Main definitions
* `IdentTable.blocks`: the identifier blocks of a table.
* `IdentTable.filled`: the table that some entries make.
* `IdentEntry.Backed`: an entry has the block it should have.
* `Engine.Tabulates`: a table with given entries was made.
* `Engine.Loses`: some blocks are gone, everything else is as before.

Main statements
* `IdentTable.getElem?_buckets_filled`: a bucket has the entries of its hash, in order.
* `Engine.tabulates_newIdentTable`: what it takes to make a table.
* `Engine.loses_release`: what goes with one.
-/

namespace HeapAudit

/-! ## Entries in buckets -/

/-- A name, and what it stands for. -/
def IdentEntry.named (x : IdentEntry) : String × IdentKind := (x.name, x.kind)

namespace IdentTable

/-- The identifier blocks, bucket after bucket. -/
def blocks (t : IdentTable) : List Handle := t.entries.filterMap (·.block)

theorem size_foldl_insert (t : IdentTable) (added : List IdentEntry) :
    (added.foldl insert t).buckets.length = t.buckets.length := by
  induction added generalizing t with
  | nil => rfl
  | cons x rest ih => rw [List.foldl_cons, ih, size_insert]

theorem getElem?_buckets_insert (t : IdentTable) (x : IdentEntry) (i : Nat) :
    (t.insert x).buckets[i]? =
      t.buckets[i]?.map (· ++ [x].filter fun y => bucketOf y.name t.buckets.length = i) := by
  unfold insert
  rw [List.getElem?_modify]
  by_cases hi : bucketOf x.name t.buckets.length = i <;> simp [hi]

/-- Entries go to the end of the bucket of their hash, and so stay in order there. -/
theorem getElem?_buckets_foldl_insert (t : IdentTable) (added : List IdentEntry) (i : Nat) :
    (added.foldl insert t).buckets[i]? =
      t.buckets[i]?.map (· ++ added.filter fun x => bucketOf x.name t.buckets.length = i) := by
  induction added generalizing t with
  | nil => simp
  | cons x rest ih =>
    rw [List.foldl_cons, ih, size_insert, getElem?_buckets_insert, Option.map_map]
    refine congrArg (Option.map · _) (funext fun bucket => ?_)
    rw [Function.comp_apply, List.append_assoc, ← List.filter_append, List.singleton_append]

theorem entries_foldl_insert_perm {t : IdentTable} (ht : 0 < t.buckets.length)
    (added : List IdentEntry) : (added.foldl insert t).entries.Perm (t.entries ++ added) := by
  induction added generalizing t with
  | nil => rw [List.append_nil]; exact .refl _
  | cons x rest ih =>
    have hinsert : 0 < (t.insert x).buckets.length := by rwa [size_insert]
    refine (ih hinsert).trans (((entries_insert_perm ht x).append_right rest).trans ?_)
    exact List.perm_middle.symm

/-- A table of `max count 1` buckets after so many entries. -/
def filled (count : Nat) (added : List IdentEntry) : IdentTable :=
  added.foldl insert (ofSize count)

variable (count : Nat) (added : List IdentEntry)

theorem size_filled : (filled count added).buckets.length = max count 1 := by
  rw [filled, size_foldl_insert, size_ofSize]

theorem entries_filled_perm : (filled count added).entries.Perm added := by
  have hpos : 0 < (ofSize count).buckets.length := by
    rw [size_ofSize]
    exact Nat.lt_of_lt_of_le Nat.one_pos (Nat.le_max_right _ _)
  have hperm := entries_foldl_insert_perm hpos added
  rwa [entries_ofSize, List.nil_append] at hperm

theorem getElem?_buckets_filled {count i : Nat} (hi : i < max count 1) :
    (filled count added).buckets[i]? =
      some (added.filter fun x => bucketOf x.name (max count 1) = i) := by
  rw [filled, getElem?_buckets_foldl_insert, size_ofSize]
  simp only [ofSize, List.getElem?_replicate, if_pos hi, Option.map_some, List.nil_append]

end IdentTable

/-! ## Making a table -/

/-- A permanent identifier has a block of its own that was not there before, with its name. -/
def IdentEntry.Backed (heap next : Heap) (x : IdentEntry) : Prop :=
  if x.kind.isPermanent then
    ∃ h b, x.block = some h ∧ heap.get? h = none ∧ next.get? h = some b ∧
      b.category = .permIdent ∧ b.payload = .text x.name
  else x.block = none

/-- It has its block in every heap that keeps the blocks there are, and the block is as new for
every heap whose blocks were kept until then. -/
theorem IdentEntry.Backed.mono {old heap mid next : Heap} {x : IdentEntry}
    (hx : x.Backed heap mid) (hbefore : ∀ k b, old.get? k = some b → heap.get? k = some b)
    (hafter : ∀ k b, mid.get? k = some b → next.get? k = some b) : x.Backed old next := by
  unfold Backed at hx ⊢
  split at hx
  · obtain ⟨h, b, hblock, hnew, hb, hd⟩ := hx
    rw [if_pos ‹_›]
    refine ⟨h, b, hblock, Option.eq_none_iff_forall_ne_some.2 fun d hold => ?_, hafter h b hb, hd⟩
    rw [hbefore h d hold] at hnew
    cases hnew
  · rwa [if_neg ‹_›]

namespace Engine

variable {e mid next : Engine}

/-- Entries for names, and between `e` and `next` nothing but their blocks. -/
structure Enters (e next : Engine) (names : List (String × IdentKind)) (added : List IdentEntry) :
    Prop where
  named : added.map IdentEntry.named = names
  backed : ∀ x ∈ added, x.Backed e.heap next.heap
  distinct : (added.filterMap (·.block)).Nodup
  rest : next = e.setHeap next.heap
  others : ∀ h, h ∉ added.filterMap (·.block) → next.heap.get? h = e.heap.get? h

namespace Enters

variable {names more : List (String × IdentKind)} {added new : List IdentEntry}

theorem nil (e : Engine) : e.Enters e [] [] :=
  ⟨rfl, by simp, .nil, rfl, fun _ _ => rfl⟩

theorem live_of_mem (hm : e.Enters next names added) {h : Handle}
    (hh : h ∈ added.filterMap (·.block)) :
    e.heap.get? h = none ∧ ∃ b, next.heap.get? h = some b ∧ b.category = .permIdent := by
  obtain ⟨x, hx, hblock⟩ := List.mem_filterMap.1 hh
  have hback := hm.backed x hx
  unfold IdentEntry.Backed at hback
  split at hback
  · obtain ⟨k, b, hk, hnew, hb, hcat, -⟩ := hback
    rw [hk] at hblock
    cases hblock
    exact ⟨hnew, b, hb, hcat⟩
  · rw [hback] at hblock
    cases hblock

/-- What is there already stays. -/
theorem get?_of_live (hm : e.Enters next names added) {h : Handle} {b : Block}
    (hb : e.heap.get? h = some b) : next.heap.get? h = some b := by
  rw [hm.others h, hb]
  intro hh
  rw [(hm.live_of_mem hh).1] at hb
  cases hb

theorem trans (hm : e.Enters mid names added) (hn : mid.Enters next more new) :
    e.Enters next (names ++ more) (added ++ new) := by
  refine ⟨?_, ?_, ?_, ?_, ?_⟩
  · rw [List.map_append, hm.named, hn.named]
  · intro x hx
    rcases List.mem_append.1 hx with hx | hx
    · exact (hm.backed x hx).mono (fun _ _ => id) fun _ _ => hn.get?_of_live
    · exact (hn.backed x hx).mono (fun _ _ => hm.get?_of_live) fun _ _ => id
  · rw [List.filterMap_append, List.nodup_append]
    refine ⟨hm.distinct, hn.distinct, ?_⟩
    rintro h hh _ hk rfl
    obtain ⟨-, b, hb, -⟩ := hm.live_of_mem hh
    rw [(hn.live_of_mem hk).1] at hb
    cases hb
  · rw [hn.rest, hm.rest]
    rfl
  · intro h hh
    rw [List.filterMap_append, List.mem_append, not_or] at hh
    rw [hn.others h hh.2, hm.others h hh.1]

end Enters

theorem enters_newIdent (e : Engine) (name : String) (kind : IdentKind) :
    e.Enters (e.newIdent name kind).1 [(name, kind)] [(e.newIdent name kind).2] := by
  unfold newIdent
  by_cases hk : kind.isPermanent
  · rw [if_pos hk]
    have hget : ∀ k, ((e.allocate .permIdent (.text name) "add_permanent_ident").1.heap).get? k =
        _ := Heap.get?_allocateSized e.heap .permIdent (.text name) _ "add_permanent_ident"
    refine ⟨rfl, ?_, List.nodup_singleton _, rfl, fun h hh => ?_⟩
    · intro x hx
      rw [List.mem_singleton.1 hx, IdentEntry.Backed, if_pos hk]
      exact ⟨_, _, rfl, e.heap.get?_nextHandle, (hget _).trans (if_pos rfl), rfl, rfl⟩
    · exact (hget h).trans (if_neg fun hn => hh (List.mem_singleton.2 hn))
  · rw [if_neg hk]
    refine ⟨rfl, ?_, .nil, rfl, fun _ _ => rfl⟩
    intro x hx
    rw [List.mem_singleton.1 hx, IdentEntry.Backed, if_neg hk]

/-- The names are entered one after the other. -/
theorem exists_enters_insertIdents (e : Engine) (t : IdentTable)
    (names : List (String × IdentKind)) :
    ∃ added, e.Enters (e.insertIdents t names).1 names added ∧
      (e.insertIdents t names).2 = added.foldl IdentTable.insert t := by
  induction names generalizing e t with
  | nil => exact ⟨[], .nil e, rfl⟩
  | cons entry rest ih =>
    obtain ⟨name, kind⟩ := entry
    obtain ⟨added, hadded, htable⟩ := ih (e.newIdent name kind).1 (t.insert (e.newIdent name kind).2)
    exact ⟨(e.newIdent name kind).2 :: added, (e.enters_newIdent name kind).trans hadded, htable⟩

/-- There is a new table behind `h`, of `max count 1` buckets, with these entries. -/
structure Tabulates (e next : Engine) (h : Handle) (count : Nat)
    (names : List (String × IdentKind)) (t : IdentTable) : Prop where
  live : ∃ b, next.heap.get? h = some b ∧ b.category = .identTable ∧ b.payload = .identTable t ∧
    b.refs = 1
  new : e.heap.get? h = none
  size : t.buckets.length = max count 1
  inRange : ∀ x ∈ names, IdentTable.bucketOf x.1 t.buckets.length < t.buckets.length
  whole : (t.entries.map IdentEntry.named).Perm names
  /-- Every bucket has the names of its hash, in the order in which they were given. -/
  ordered : ∀ i < max count 1, t.buckets[i]?.map (·.map IdentEntry.named) =
    some (names.filter fun x => (IdentTable.hash x.1).toNat % max count 1 = i)
  backed : ∀ x ∈ t.entries, x.Backed e.heap next.heap
  distinct : t.blocks.Nodup
  rest : next = e.setHeap next.heap
  others : ∀ k, k ≠ h → k ∉ t.blocks → next.heap.get? k = e.heap.get? k

/-- The table is one more block on top of those of its entries. -/
theorem Enters.tabulates {names : List (String × IdentKind)} {added : List IdentEntry}
    (hm : e.Enters mid names added) (count : Nat) :
    e.Tabulates
      (mid.allocate .identTable (.identTable (IdentTable.filled count added)) "init_identifiers").1
      mid.heap.nextHandle count names (IdentTable.filled count added) := by
  have hentries := IdentTable.entries_filled_perm count added
  have hblocks : (IdentTable.filled count added).blocks.Perm (added.filterMap (·.block)) :=
    hentries.filterMap _
  have hget := Heap.get?_allocateSized mid.heap .identTable
    (.identTable (IdentTable.filled count added))
    (Payload.footprint (.identTable (IdentTable.filled count added))) "init_identifiers"
  refine ⟨⟨_, (hget _).trans (if_pos rfl), rfl, rfl, rfl⟩, ?_, IdentTable.size_filled count added,
    ?_, ?_, ?_, ?_, ?_, ?_, ?_⟩
  · refine Option.eq_none_iff_forall_ne_some.2 fun b hold => ?_
    have hb := hm.get?_of_live hold
    rw [mid.heap.get?_nextHandle] at hb
    cases hb
  · intro x _
    refine IdentTable.bucketOf_lt x.1 ?_
    rw [IdentTable.size_filled]
    exact Nat.lt_of_lt_of_le Nat.one_pos (Nat.le_max_right _ _)
  · exact (hentries.map _).trans (.of_eq hm.named)
  · intro i hi
    rw [IdentTable.getElem?_buckets_filled added hi, Option.map_some, ← hm.named, List.filter_map]
    rfl
  · intro x hx
    refine (hm.backed x (hentries.mem_iff.1 hx)).mono (fun _ _ => id) fun _ _ hb => ?_
    exact Heap.get?_allocateSized_of_some hb _ _ _ _
  · exact hblocks.nodup_iff.2 hm.distinct
  · rw [hm.rest]
    rfl
  · intro k hk hnot
    refine ((hget k).trans (if_neg hk)).trans (hm.others k fun hin => hnot ?_)
    exact hblocks.mem_iff.2 hin

/-- A table can always be made: with what it was given, and without a word about the heap. -/
theorem tabulates_newIdentTable (e : Engine) (count : Nat) (names : List (String × IdentKind)) :
    ∃ t, e.Tabulates (e.newIdentTable count names).1 (e.newIdentTable count names).2 count names
      t := by
  obtain ⟨added, hm, htable⟩ := e.exists_enters_insertIdents (.ofSize count) names
  have hmade : e.newIdentTable count names =
      (e.insertIdents (.ofSize count) names).1.allocate .identTable
        (.identTable (IdentTable.filled count added)) "init_identifiers" := by
    rw [IdentTable.filled, ← htable]
    rfl
  rw [hmade]
  exact ⟨_, hm.tabulates count⟩

end Engine

/-! ## Taking a table apart -/

/-- Text, or nothing at all: such a block lets go of nothing. -/
def Payload.isLeaf : Payload → Bool
  | .blank | .text _ => true
  | _ => false

namespace Engine

/-- Without the blocks of `gone`, and otherwise as before. -/
structure Loses (e next : Engine) (gone : List Handle) : Prop where
  rest : next = e.setHeap next.heap
  heap : ∀ k, next.heap.get? k = if k ∈ gone then none else e.heap.get? k

variable {e next : Engine} {h : Handle} {b : Block} {rest : Heap} {gone : List Handle}

theorem Loses.nil (e : Engine) : e.Loses e [] :=
  ⟨rfl, by simp⟩

theorem Loses.cons (hr : e.heap.remove h = some (b, rest))
    (hl : (e.setHeap rest).Loses next gone) : e.Loses next (h :: gone) := by
  refine ⟨hl.rest, fun k => ?_⟩
  have hrest : (e.setHeap rest).heap.get? k = _ := Heap.get?_remove hr k
  rw [hl.heap, hrest]
  by_cases hk : k = h <;> simp [hk]

theorem dismantle_leaf (hb : b.payload.isLeaf) (c : Cascade) : dismantle b c = c := by
  rw [dismantle_eq]
  unfold unaccount
  cases hp : b.payload with
  | blank | text content => rfl
  | _ =>
    rw [hp] at hb
    cases hb

/-- Leaves go one after the other, and nothing is to be given back. -/
theorem exists_loses_foldl_letGo {hs : List Handle} (hn : hs.Nodup) (c : Cascade)
    (hleaf : ∀ k ∈ hs, ∃ b, c.engine.heap.get? k = some b ∧ b.payload.isLeaf) :
    ∃ next, (hs.map Part.owned).foldl (Cascade.letGo dismantle) c = ⟨next, c.pending⟩ ∧
      c.engine.Loses next hs := by
  induction hs generalizing c with
  | nil => exact ⟨c.engine, rfl, .nil _⟩
  | cons k ks ih =>
    obtain ⟨hnot, hks⟩ := List.nodup_cons.1 hn
    obtain ⟨b, hb, hblank⟩ := hleaf k List.mem_cons_self
    obtain ⟨rest, hr⟩ := Heap.exists_remove hb
    have hstep : c.letGo dismantle (.owned k) = ⟨c.engine.setHeap rest, c.pending⟩ := by
      simp only [Cascade.letGo, hr, dismantle_leaf hblank]
    obtain ⟨next, hfold, hl⟩ := ih hks ⟨c.engine.setHeap rest, c.pending⟩ fun j hj => by
      obtain ⟨d, hd, hd'⟩ := hleaf j (List.mem_cons_of_mem _ hj)
      refine ⟨d, (Heap.get?_remove hr j).trans ?_, hd'⟩
      rwa [if_neg (by rintro rfl; exact hnot hj)]
    exact ⟨next, by rw [List.map_cons, List.foldl_cons, hstep, hfold], .cons hr hl⟩

/-- With its last reference a table goes, and its blocks go with it. -/
theorem loses_release {t : IdentTable} (hb : e.heap.get? h = some b)
    (hcat : b.category = .identTable) (hp : b.payload = .identTable t) (hlast : ¬ 1 < b.refs)
    (hn : t.blocks.Nodup)
    (hblocks : ∀ k ∈ t.blocks, k ≠ h ∧ ∃ d, e.heap.get? k = some d ∧ d.payload.isLeaf) :
    e.Loses (e.release h) (h :: t.blocks) := by
  obtain ⟨rest, hr⟩ := Heap.exists_remove hb
  have hdrop : e.drop h = (some b, e.setHeap rest) := by
    simp [drop, Heap.decRef, hb, hcat, hlast, hr]
  have hunaccount : (e.setHeap rest).unaccount b = e.setHeap rest := by
    unfold unaccount
    rw [hp]
    rfl
  obtain ⟨next, hfold, hl⟩ := exists_loses_foldl_letGo hn ⟨e.setHeap rest, []⟩ fun k hk => by
    obtain ⟨hne, d, hd, hleaf⟩ := hblocks k hk
    exact ⟨d, (Heap.get?_remove hr k).trans (by rwa [if_neg hne]), hleaf⟩
  have hapart : dismantle b ⟨e.setHeap rest, []⟩ = ⟨next, []⟩ := by
    rw [dismantle_eq, hunaccount, hp]
    exact hfold
  have hrelease : e.release h = next := by
    rw [release_eq, hdrop]
    simp only [hapart]
    rfl
  rw [hrelease]
  exact .cons hr hl

/-- A table that is held more than once only has a reference less. -/
theorem release_of_shared (hb : e.heap.get? h = some b) (hcat : b.category = .identTable)
    (hmore : 1 < b.refs) :
    e.release h = e.setHeap (e.heap.update h fun b => { b with refs := b.refs - 1 }) := by
  have hdrop : e.drop h =
      (none, e.setHeap (e.heap.update h fun b => { b with refs := b.refs - 1 })) := by
    simp [drop, Heap.decRef, hb, hcat, hmore]
  rw [release_eq, hdrop]

end Engine

end HeapAudit
