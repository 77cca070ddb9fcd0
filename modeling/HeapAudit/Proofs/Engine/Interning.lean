import HeapAudit.Audit.Checks
import HeapAudit.Proofs.Engine.Totals
import Mathlib.Logic.Relation

/-!
The table of shared strings on a heap of its own, whatever else is done to that heap.

Handles are arbitrary here: they may be stale, or name no string. Nothing is asked of who holds
what.

Main definitions
* `StringTable.Tracks`: the table and its totals say what the live strings are.
* `StringTable.Action`, `StringTable.Reachable`: what can be done, in any order.

Main statements
* `StringTable.Tracks.recount`, `StringTable.Tracks.new`, `StringTable.Tracks.forget`: the three
  ways the table moves with the heap.
* `StringTable.Exact.run`: one action.
* `StringTable.exact_of_reachable`: any number of them.
-/

namespace HeapAudit

/-! ## Totals -/

namespace StringTotals

variable {t : StringTotals} {b : Block} {cost : Nat}

theorem countBlock_of_none (hc : b.payload.stringCost? = none) : t.countBlock b = t := by
  unfold countBlock
  rw [hc]

theorem countBlock_of_some (hc : b.payload.stringCost? = some cost) :
    t.countBlock b = ⟨t.distinct + 1, t.references + b.refs, t.distinctBytes + cost,
      t.allocatedBytes + b.refs * cost⟩ := by
  unfold countBlock
  rw [hc]

theorem countBlock_first (hc : b.payload.stringCost? = some cost) (hr : b.refs = 1) :
    t.countBlock b = t.addBlock cost := by
  rw [countBlock_of_some hc, hr, Nat.one_mul]
  rfl

theorem countBlock_more (hc : b.payload.stringCost? = some cost) :
    t.countBlock { b with refs := b.refs + 1 } = (t.countBlock b).addReference cost := by
  rw [countBlock_of_some hc, countBlock_of_some (b := { b with refs := b.refs + 1 }) hc]
  simp only [addReference, StringTotals.mk.injEq, true_and, Nat.succ_mul]
  omega

theorem dropReference_countBlock (hc : b.payload.stringCost? = some cost) (hr : 1 < b.refs) :
    (t.countBlock b).dropReference cost = t.countBlock { b with refs := b.refs - 1 } := by
  obtain ⟨n, hn⟩ : ∃ n, b.refs = n + 1 := ⟨b.refs - 1, by omega⟩
  rw [countBlock_of_some hc, countBlock_of_some (b := { b with refs := b.refs - 1 }) hc]
  simp only [dropReference, StringTotals.mk.injEq, true_and, hn, Nat.succ_mul,
    Nat.add_sub_cancel]
  omega

theorem dropBlock_countBlock (hc : b.payload.stringCost? = some cost) (hr : b.refs = 1) :
    ((t.countBlock b).dropReference cost).dropBlock cost = t := by
  rw [countBlock_first hc hr]
  simp [addBlock, dropReference, dropBlock]

end StringTotals

/-! ## String blocks -/

/-- A string is counted, and shared texts are in blocks of their own category. -/
def Block.SoundString (b : Block) : Prop :=
  ∀ cost, b.payload.stringCost? = some cost →
    0 < b.refs ∧ ∀ text, b.payload = .sharedText text → b.category = .sharedString

def Heap.SoundStrings (heap : Heap) : Prop := ∀ h b, heap.get? h = some b → b.SoundString

namespace Heap.SoundStrings

variable {heap rest : Heap} {h : Handle} {b : Block}

theorem update (hs : heap.SoundStrings) (hb : heap.get? h = some b) {f : Block → Block}
    (hf : (f b).SoundString) : (heap.update h f).SoundStrings := by
  intro k c hk
  rcases of_get?_update hb hk with ⟨-, rfl⟩ | ⟨-, hk⟩
  · exact hf
  · exact hs k c hk

theorem allocate (hs : heap.SoundStrings) (category : Category) {payload : Payload} (size : Nat)
    (description : String)
    (hnew : ∀ cost, payload.stringCost? = some cost →
      ∀ text, payload = .sharedText text → category = .sharedString) :
    (heap.allocateSized category payload size description).1.SoundStrings := by
  intro k c hk
  rcases of_get?_allocateSized hk with ⟨-, rfl⟩ | ⟨-, hk⟩
  · exact fun cost hcost => ⟨Nat.one_pos, hnew cost hcost⟩
  · exact hs k c hk

theorem remove (hs : heap.SoundStrings) (hr : heap.remove h = some (b, rest)) :
    rest.SoundStrings :=
  fun k c hk => hs k c (of_get?_remove hr hk).2

end Heap.SoundStrings

/-- The shared strings of a heap, by looking at every block. -/
def Heap.sharedTexts (heap : Heap) : List (String × Handle) :=
  heap.entries.filterMap fun p =>
    match p.2.payload with
    | .sharedText text => some (text, p.1)
    | _ => none

namespace Heap

theorem mem_sharedTexts {heap : Heap} {text : String} {h : Handle} :
    (text, h) ∈ heap.sharedTexts ↔ ∃ b, heap.get? h = some b ∧ b.payload = .sharedText text := by
  simp only [sharedTexts, List.mem_filterMap, Prod.exists, mem_entries_iff]
  constructor
  · rintro ⟨k, b, hb, hp⟩
    split at hp
    · rename_i content hcontent
      cases hp
      exact ⟨b, hb, hcontent⟩
    · cases hp
  · rintro ⟨b, hb, hp⟩
    exact ⟨h, b, hb, by rw [hp]⟩

theorem nodup_sharedTexts (heap : Heap) : heap.sharedTexts.Nodup := by
  have hsorted : heap.sharedTexts.Pairwise fun p q => p.2.index < q.2.index := by
    refine List.Pairwise.filterMap _ ?_ heap.pairwise_entries
    rintro ⟨h, b⟩ ⟨k, c⟩ hlt p hp q hq
    split at hp <;> cases hp
    split at hq <;> cases hq
    exact hlt
  exact hsorted.imp fun hlt heq => absurd (heq ▸ hlt) (Nat.lt_irrefl _)

end Heap

/-! ## The table -/

namespace StringTable

theorem totals_forget (t : StringTable) (p : Payload) : (t.forget p).totals = t.totals := by
  cases p <;> rfl

/-- What is forgotten depends on the entries only. -/
theorem entries_forget {t other : StringTable} (h : t.entries = other.entries) (p : Payload) :
    (t.forget p).entries = (other.forget p).entries := by
  cases p <;> simp [forget, erase, h]

theorem find?_forget (t : StringTable) (p : Payload) (text : String) :
    (t.forget p).find? text = if p = .sharedText text then none else t.find? text := by
  cases p with
  | sharedText other =>
    show (t.erase other).find? text = _
    rw [find?_erase]
    simp only [Payload.sharedText.injEq, eq_comm]
  | _ => simp [forget]

theorem isSome_find?_of_mem {t : StringTable} {p : String × Handle} (hp : p ∈ t.entries) :
    (t.find? p.1).isSome := by
  unfold find?
  rw [Option.isSome_iff_ne_none, Ne, List.lookup_eq_none_iff]
  intro hall
  simpa using hall p hp

theorem mem_of_find? {t : StringTable} {text : String} {h : Handle}
    (hf : t.find? text = some h) : (text, h) ∈ t.entries := by
  obtain ⟨before, after, hentries, -⟩ := List.lookup_eq_some_iff.1 hf
  simp [hentries]

theorem mem_entries_iff {t : StringTable} (hk : (t.entries.map (·.1)).Nodup) (text : String)
    (h : Handle) : (text, h) ∈ t.entries ↔ t.find? text = some h := by
  refine ⟨fun hm => ?_, mem_of_find?⟩
  obtain ⟨k, hf⟩ := Option.isSome_iff_exists.1 (isSome_find?_of_mem hm)
  have hsame := List.inj_on_of_nodup_map hk hm (mem_of_find? hf) rfl
  rw [hf, (Prod.mk.inj hsame).2]

theorem keys_erase {t : StringTable} (hk : (t.entries.map (·.1)).Nodup) (text : String) :
    ((t.erase text).entries.map (·.1)).Nodup :=
  hk.sublist (List.filter_sublist.map _)

theorem keys_put {t : StringTable} (hk : (t.entries.map (·.1)).Nodup) (text : String)
    (h : Handle) : ((t.put text h).entries.map (·.1)).Nodup := by
  refine List.nodup_cons.2 ⟨fun hm => ?_, keys_erase hk text⟩
  obtain ⟨entry, hentry, hkey⟩ := List.mem_map.1 hm
  have hne := (List.mem_filter.1 hentry).2
  simp [hkey] at hne

theorem keys_forget {t : StringTable} (hk : (t.entries.map (·.1)).Nodup) (p : Payload) :
    ((t.forget p).entries.map (·.1)).Nodup := by
  cases p with
  | sharedText text => exact keys_erase hk text
  | _ => exact hk

/-- A text that is not there yet is found under its own block; the others as before. -/
theorem find?_put_iff {t : StringTable} {text : String} (hf : t.find? text = none) (h : Handle)
    (other : String) (k : Handle) :
    (t.put text h).find? other = some k ↔
      t.find? other = some k ∨ k = h ∧ Payload.sharedText text = .sharedText other := by
  rw [find?_put, Payload.sharedText.injEq]
  by_cases ho : other = text
  · rw [if_pos ho, ho, hf]
    simp [eq_comm]
  · rw [if_neg ho]
    simp [Ne.symm ho]

theorem costAt?_eq_some_iff {heap : Heap} {h : Handle} {cost : Nat} :
    costAt? heap h = some cost ↔
      ∃ b, heap.get? h = some b ∧ b.payload.stringCost? = some cost := by
  unfold costAt? Heap.payload?
  cases heap.get? h <;> simp

theorem costAt?_eq_none_iff {heap : Heap} {h : Handle} :
    costAt? heap h = none ↔ ∀ b, heap.get? h = some b → b.payload.stringCost? = none := by
  unfold costAt? Heap.payload?
  cases heap.get? h <;> simp

/-- The totals are sums over the live strings, and the shared ones are found by their texts. -/
structure Tracks (t : StringTable) (heap : Heap) : Prop where
  totals : t.totals = .ofStock heap.stock
  interned : ∀ text h, t.find? text = some h ↔
    ∃ b, heap.get? h = some b ∧ b.payload = .sharedText text

namespace Tracks

variable {t next : StringTable} {heap rest : Heap} {h : Handle} {b : Block} {cost : Nat}

theorem ne_sharedText {p : Payload} (hp : p.stringCost? = none) (text : String) :
    p ≠ .sharedText text := by
  rintro rfl
  cases hp

/-! ### Blocks that are no strings -/

theorem update (ht : t.Tracks heap) (hb : heap.get? h = some b) {f : Block → Block}
    (hold : b.payload.stringCost? = none) (hnew : (f b).payload.stringCost? = none) :
    t.Tracks (heap.update h f) := by
  refine ⟨?_, fun text k => ?_⟩
  · rw [ht.totals, Heap.stock_eq_cons_others hb, Heap.stock_update hb f,
      StringTotals.ofStock_cons, StringTotals.ofStock_cons,
      StringTotals.countBlock_of_none hold, StringTotals.countBlock_of_none hnew]
  · rw [ht.interned, Heap.get?_update]
    by_cases hk : k = h
    · subst hk
      rw [if_pos rfl, hb]
      simp [ne_sharedText hold, ne_sharedText hnew]
    · rw [if_neg hk]

theorem allocate (ht : t.Tracks heap) (category : Category) {payload : Payload} (size : Nat)
    (description : String) (hp : payload.stringCost? = none) :
    t.Tracks (heap.allocateSized category payload size description).1 := by
  refine ⟨?_, fun text k => ?_⟩
  · rw [ht.totals, Heap.stock_allocateSized, StringTotals.ofStock_cons,
      StringTotals.countBlock_of_none hp]
  · rw [ht.interned, Heap.get?_allocateSized]
    by_cases hk : k = heap.nextHandle
    · subst hk
      rw [if_pos rfl, Heap.get?_nextHandle]
      simp [ne_sharedText hp]
    · rw [if_neg hk]

theorem remove (ht : t.Tracks heap) (hr : heap.remove h = some (b, rest))
    (hp : b.payload.stringCost? = none) : t.Tracks rest := by
  refine ⟨?_, fun text k => ?_⟩
  · rw [ht.totals, Heap.stock_remove hr, StringTotals.ofStock_cons,
      StringTotals.countBlock_of_none hp]
  · rw [ht.interned, Heap.get?_remove hr]
    by_cases hk : k = h
    · subst hk
      rw [if_pos rfl, Heap.get?_of_remove hr]
      simp [ne_sharedText hp]
    · rw [if_neg hk]

/-! ### Strings -/

/-- The stored count of a string changes, and the totals with it. -/
theorem recount (ht : t.Tracks heap) (hb : heap.get? h = some b) (count : Nat → Nat)
    {totals : StringTotals}
    (htotals : ∀ u : StringTotals, t.totals = u.countBlock b →
      totals = u.countBlock { b with refs := count b.refs }) :
    Tracks { t with totals } (heap.update h fun b => { b with refs := count b.refs }) := by
  refine ⟨?_, fun text k => ?_⟩
  · rw [Heap.stock_update hb, StringTotals.ofStock_cons]
    refine htotals _ ?_
    rw [ht.totals, Heap.stock_eq_cons_others hb, StringTotals.ofStock_cons]
  · show t.find? text = some k ↔ _
    rw [ht.interned, Heap.get?_update]
    by_cases hk : k = h
    · rw [if_pos hk, hk, hb]
      simp
    · rw [if_neg hk]

/-- A new string block; `next` finds it if it is shared. -/
theorem new (ht : t.Tracks heap) (category : Category) {payload : Payload} (size : Nat)
    (description : String) (hcost : payload.stringCost? = some cost)
    (htotals : next.totals = t.totals.addBlock cost)
    (hfind : ∀ text k, next.find? text = some k ↔
      t.find? text = some k ∨ k = heap.nextHandle ∧ payload = .sharedText text) :
    next.Tracks (heap.allocateSized category payload size description).1 := by
  refine ⟨?_, fun text k => ?_⟩
  · rw [Heap.stock_allocateSized, StringTotals.ofStock_cons, htotals, ht.totals]
    exact (StringTotals.countBlock_first hcost rfl).symm
  · rw [hfind, ht.interned, Heap.get?_allocateSized]
    by_cases hk : k = heap.nextHandle
    · rw [if_pos hk, hk, Heap.get?_nextHandle]
      simp
    · rw [if_neg hk]
      simp [hk]

/-- The table finds what it found before, but not the block that is forgotten. -/
theorem find?_forget (ht : t.Tracks heap) (hb : heap.get? h = some b) (totals : StringTotals)
    (text : String) (k : Handle) :
    ({ t with totals }.forget b.payload).find? text = some k ↔
      k ≠ h ∧ t.find? text = some k := by
  rw [StringTable.find?_forget]
  show (if _ then none else t.find? text) = some k ↔ _
  by_cases hp : b.payload = .sharedText text
  · rw [if_pos hp, (ht.interned text h).2 ⟨b, hb, hp⟩]
    simp [eq_comm]
  · rw [if_neg hp]
    refine ⟨fun hk => ⟨?_, hk⟩, fun hk => hk.2⟩
    rintro rfl
    obtain ⟨d, hd, hpd⟩ := (ht.interned text k).1 hk
    rw [hb] at hd
    cases hd
    exact hp hpd

/-- A string goes with its last reference. -/
theorem forget (ht : t.Tracks heap) (hr : heap.remove h = some (b, rest))
    (hcost : b.payload.stringCost? = some cost) (hone : b.refs = 1) :
    Tracks ({ t with
      totals := (t.totals.dropReference cost).dropBlock cost }.forget b.payload) rest := by
  refine ⟨?_, fun text k => ?_⟩
  · rw [totals_forget, ht.totals, Heap.stock_remove hr, StringTotals.ofStock_cons]
    exact StringTotals.dropBlock_countBlock hcost hone
  · rw [ht.find?_forget (Heap.get?_of_remove hr), ht.interned, Heap.get?_remove hr]
    by_cases hk : k = h
    · simp [hk]
    · simp [hk]

theorem totals_eq_ofBlocks (ht : t.Tracks heap) : t.totals = .ofBlocks heap.blocks := by
  rw [ht.totals, StringTotals.ofBlocks_eq]

theorem stringFindings_eq_nil {e : Engine} (ht : e.strings.Tracks e.heap) :
    stringFindings e = [] := by
  simp [stringFindings, stringReadings, ht.totals_eq_ofBlocks]

end Tracks

/-! ## Actions -/

/-- Operations of the table, and operations of the heap alone. -/
inductive Action where
  | intern (text : String)
  | newPrivate (text : String)
  | retain (h : Handle)
  | release (h : Handle)
  | allocate (category : Category) (payload : Payload) (size : Nat) (description : String)
  | incRef (h : Handle)
  | decRef (h : Handle)
  | remove (h : Handle)

namespace Action

def run (t : StringTable) (heap : Heap) : Action → StringTable × Heap
  | intern text => ((t.intern heap text).1, (t.intern heap text).2.1)
  | newPrivate text => ((t.newPrivate heap text).1, (t.newPrivate heap text).2.1)
  | retain h => ((t.retain heap h).1, (t.retain heap h).2.1)
  | release h => t.release heap h
  | allocate category payload size description =>
    (t, (heap.allocateSized category payload size description).1)
  | incRef h => (t, heap.incRef h)
  | decRef h => (t, (heap.decRef h).2)
  | remove h => (t, (heap.remove h).elim heap (·.2))

/-- Operations of the heap alone are for blocks that are no strings, and for stale handles. -/
def Spares (heap : Heap) : Action → Prop
  | allocate _ payload _ _ => payload.stringCost? = none
  | incRef h | decRef h | remove h => costAt? heap h = none
  | _ => True

end Action

/-- Any number of actions, from nothing. -/
inductive Reachable : StringTable → Heap → Prop
  | empty : Reachable {} .empty
  | action {t : StringTable} {heap : Heap} (hr : Reachable t heap) (a : Action)
      (ha : a.Spares heap) : Reachable (a.run t heap).1 (a.run t heap).2

/-! ## What is kept -/

/-- The heap only knows strings that are counted, shared ones in blocks of their own category; the
table tracks them under one entry a text. -/
structure Exact (t : StringTable) (heap : Heap) : Prop extends t.Tracks heap where
  keys : (t.entries.map (·.1)).Nodup
  strings : heap.SoundStrings

namespace Exact

variable {t : StringTable} {heap rest : Heap} {h : Handle} {b : Block} {cost : Nat}

theorem empty : Exact {} .empty := by
  refine ⟨⟨rfl, fun text h => ?_⟩, List.nodup_nil, fun h b hb => ?_⟩
  · simp [find?]
  · simp at hb

theorem more (hx : t.Exact heap) (hb : heap.get? h = some b)
    (hcost : b.payload.stringCost? = some cost) :
    Exact { t with totals := t.totals.addReference cost } (heap.incRef h) := by
  refine ⟨hx.recount hb (· + 1) fun u hu => ?_, hx.keys, hx.strings.update hb fun c hc => ?_⟩
  · rw [hu, StringTotals.countBlock_more hcost]
  · exact ⟨Nat.succ_pos _, (hx.strings h b hb c hc).2⟩

theorem new (hx : t.Exact heap) {next : StringTable} (category : Category) {payload : Payload}
    (size : Nat) (description : String) (hcost : payload.stringCost? = some cost)
    (hshared : ∀ text, payload = .sharedText text → category = .sharedString)
    (htotals : next.totals = t.totals.addBlock cost) (hkeys : (next.entries.map (·.1)).Nodup)
    (hfind : ∀ text k, next.find? text = some k ↔
      t.find? text = some k ∨ k = heap.nextHandle ∧ payload = .sharedText text) :
    next.Exact (heap.allocateSized category payload size description).1 :=
  ⟨hx.toTracks.new category size description hcost htotals hfind, hkeys,
    hx.strings.allocate category size description fun _ _ => hshared⟩

theorem intern (hx : t.Exact heap) (text : String) :
    Exact (t.intern heap text).1 (t.intern heap text).2.1 := by
  unfold StringTable.intern
  cases hf : t.find? text with
  | none =>
    refine hx.new .sharedString _ _ rfl (fun _ _ => rfl) rfl ?_ fun other k => ?_
    · exact keys_put hx.keys text _
    · exact find?_put_iff hf _ other k
  | some h =>
    obtain ⟨b, hb, hp⟩ := (hx.interned text h).1 hf
    simp only [Heap.isLive_iff.2 ⟨b, hb⟩, if_true]
    exact hx.more hb (by rw [hp]; rfl)

theorem newPrivate (hx : t.Exact heap) (text : String) :
    Exact (t.newPrivate heap text).1 (t.newPrivate heap text).2.1 := by
  refine hx.new .mallocString _ _ rfl ?_ rfl hx.keys fun other k => ?_
  · rintro _ ⟨⟩
  · simp only [reduceCtorEq, and_false, or_false]
    rfl

theorem retain (hx : t.Exact heap) (h : Handle) :
    Exact (t.retain heap h).1 (t.retain heap h).2.1 := by
  unfold StringTable.retain
  cases hcost : costAt? heap h with
  | none => exact hx
  | some cost =>
    obtain ⟨b, hb, hcost⟩ := costAt?_eq_some_iff.1 hcost
    exact hx.more hb hcost

theorem release (hx : t.Exact heap) (h : Handle) :
    Exact (t.release heap h).1 (t.release heap h).2 := by
  unfold StringTable.release
  cases hcost : costAt? heap h with
  | none => exact hx
  | some cost =>
    obtain ⟨b, hb, hcost⟩ := costAt?_eq_some_iff.1 hcost
    have hsound := hx.strings h b hb
    by_cases hmore : 1 < b.refs
    · simp only [Heap.decRef, hb, if_pos hmore]
      refine ⟨hx.recount hb (· - 1) fun u hu => ?_, hx.keys, hx.strings.update hb fun c hc => ?_⟩
      · rw [hu, StringTotals.dropReference_countBlock hcost hmore]
      · exact ⟨Nat.sub_pos_of_lt hmore, (hsound c hc).2⟩
    · obtain ⟨rest, hr⟩ := Heap.exists_remove hb
      have hone : b.refs = 1 := by
        have hpos := (hsound cost hcost).1
        omega
      simp only [Heap.decRef, hb, if_neg hmore, hr]
      refine ⟨hx.toTracks.forget hr hcost hone, ?_, hx.strings.remove hr⟩
      apply keys_forget
      exact hx.keys

/-- A change of the heap alone, to a block that is no string. -/
theorem update (hx : t.Exact heap) (hb : heap.get? h = some b) {f : Block → Block}
    (hold : b.payload.stringCost? = none) (hnew : (f b).payload.stringCost? = none) :
    t.Exact (heap.update h f) :=
  ⟨hx.toTracks.update hb hold hnew, hx.keys,
    hx.strings.update hb fun cost hcost => by rw [hnew] at hcost; cases hcost⟩

theorem remove (hx : t.Exact heap) (hr : heap.remove h = some (b, rest))
    (hp : b.payload.stringCost? = none) : t.Exact rest :=
  ⟨hx.toTracks.remove hr hp, hx.keys, hx.strings.remove hr⟩

/-- One action keeps all of it. -/
theorem run (hx : t.Exact heap) {a : Action} (ha : a.Spares heap) :
    Exact (a.run t heap).1 (a.run t heap).2 := by
  cases a with
  | intern text => exact hx.intern text
  | newPrivate text => exact hx.newPrivate text
  | retain h => exact hx.retain h
  | release h => exact hx.release h
  | allocate category payload size description =>
    exact ⟨hx.toTracks.allocate category size description ha, hx.keys,
      hx.strings.allocate category size description fun _ _ text htext =>
        absurd htext (Tracks.ne_sharedText ha text)⟩
  | incRef h =>
    show t.Exact (heap.incRef h)
    cases hb : heap.get? h with
    | none => rwa [Heap.incRef, Heap.update_of_stale hb]
    | some b => exact hx.update hb (costAt?_eq_none_iff.1 ha b hb) (costAt?_eq_none_iff.1 ha b hb)
  | decRef h =>
    show t.Exact (heap.decRef h).2
    unfold Heap.decRef
    cases hb : heap.get? h with
    | none => exact hx
    | some b =>
      have hp := costAt?_eq_none_iff.1 ha b hb
      by_cases hmore : 1 < b.refs
      · simp only [if_pos hmore]
        exact hx.update hb hp hp
      · obtain ⟨rest, hr⟩ := Heap.exists_remove hb
        simp only [if_neg hmore, hr]
        exact hx.remove hr hp
  | remove h =>
    show t.Exact ((heap.remove h).elim heap (·.2))
    cases hr : heap.remove h with
    | none => exact hx
    | some r => exact hx.remove hr (costAt?_eq_none_iff.1 ha _ (Heap.get?_of_remove hr))

end Exact

theorem Reachable.exact {t : StringTable} {heap : Heap} (hr : Reachable t heap) :
    t.Exact heap := by
  induction hr with
  | empty => exact .empty
  | action _ a ha ih => exact ih.run ha

/-! ## What can be seen -/

namespace Exact

variable {t : StringTable} {heap : Heap} {h : Handle} {b : Block}

/-- The table is a list of the shared strings there are. -/
theorem perm_sharedTexts (hx : t.Exact heap) : t.entries.Perm heap.sharedTexts := by
  refine (List.perm_ext_iff_of_nodup hx.keys.of_map heap.nodup_sharedTexts).2 ?_
  rintro ⟨text, h⟩
  rw [mem_entries_iff hx.keys, hx.interned, Heap.mem_sharedTexts]

/-- A live string is in all four totals. -/
theorem le_totals (hx : t.Exact heap) {cost : Nat} (hcost : costAt? heap h = some cost) :
    1 ≤ t.totals.distinct ∧ 1 ≤ t.totals.references ∧ cost ≤ t.totals.distinctBytes ∧
      cost ≤ t.totals.allocatedBytes := by
  obtain ⟨b, hb, hcost⟩ := costAt?_eq_some_iff.1 hcost
  have hpos := (hx.strings h b hb cost hcost).1
  have hbytes : cost ≤ b.refs * cost := Nat.le_mul_of_pos_left cost hpos
  rw [hx.totals, Heap.stock_eq_cons_others hb, StringTotals.ofStock_cons,
    StringTotals.countBlock_of_some hcost]
  refine ⟨?_, ?_, ?_, ?_⟩ <;> simp only <;> omega

end Exact

/-- Whatever is done with the table and next to it: it finds the shared strings there are and no
others, each text once, its totals are those of a rescan, and no subtraction goes below zero. -/
theorem exact_of_reachable {t : StringTable} {heap : Heap} (hr : Reachable t heap) :
    (∀ text h, t.find? text = some h ↔
      ∃ b, heap.get? h = some b ∧ b.category = .sharedString ∧ b.payload = .sharedText text) ∧
    (∀ text h k b d, heap.get? h = some b → heap.get? k = some d →
      b.payload = .sharedText text → d.payload = .sharedText text → h = k) ∧
    t.entries.Perm heap.sharedTexts ∧ t.size = heap.sharedTexts.length ∧
    t.totals = .ofBlocks heap.blocks ∧
    (∀ e : Engine, e.strings = t → e.heap = heap → stringFindings e = []) ∧
    ∀ h cost, costAt? heap h = some cost →
      1 ≤ t.totals.distinct ∧ 1 ≤ t.totals.references ∧ cost ≤ t.totals.distinctBytes ∧
        cost ≤ t.totals.allocatedBytes := by
  have hx := hr.exact
  have hperm := hx.perm_sharedTexts
  refine ⟨fun text h => ?_, ?_, hperm, hperm.length_eq, hx.totals_eq_ofBlocks, ?_,
    fun h cost => hx.le_totals⟩
  · rw [hx.interned]
    constructor
    · rintro ⟨b, hb, hp⟩
      exact ⟨b, hb, (hx.strings h b hb _ (by rw [hp]; rfl)).2 text hp, hp⟩
    · rintro ⟨b, hb, -, hp⟩
      exact ⟨b, hb, hp⟩
  · intro text h k b d hb hd hp hq
    have hh := (hx.interned text h).2 ⟨b, hb, hp⟩
    have hk := (hx.interned text k).2 ⟨d, hd, hq⟩
    rw [hh] at hk
    exact Option.some.inj hk
  · rintro e rfl rfl
    exact hx.stringFindings_eq_nil

/-- Two strings with one text, one of them let go twice, and its slot used again. -/
def doorAfterKey : StringTable × Heap :=
  [.intern "key", .newPrivate "key", .allocate .buffer (.bytes [7]) 1 "buffer", .remove ⟨2, 0⟩,
    .release ⟨0, 0⟩, .intern "door", .release ⟨0, 0⟩].foldl
      (fun s (a : Action) => a.run s.1 s.2) ({}, .empty)

theorem exact_of_reachable_doorAfterKey :
    Reachable doorAfterKey.1 doorAfterKey.2 ∧
    (∃ b, doorAfterKey.2.get? ⟨0, 1⟩ = some b ∧ b.category = .sharedString ∧
      b.payload = .sharedText "door") ∧
    doorAfterKey.1.size = 1 ∧ doorAfterKey.1.totals = ⟨2, 2, 9, 9⟩ ∧
    doorAfterKey.1.totals = .ofBlocks doorAfterKey.2.blocks := by
  have hbuffer : costAt? ([.intern "key", .newPrivate "key",
      .allocate .buffer (.bytes [7]) 1 "buffer"].foldl
        (fun s (a : Action) => a.run s.1 s.2) ({}, .empty)).2 ⟨2, 0⟩ = none := by decide +kernel
  have hr : Reachable doorAfterKey.1 doorAfterKey.2 :=
    ((((((Reachable.empty.action (.intern "key") trivial).action (.newPrivate "key") trivial).action
      (.allocate .buffer (.bytes [7]) 1 "buffer") rfl).action (.remove ⟨2, 0⟩) hbuffer).action
      (.release ⟨0, 0⟩) trivial).action (.intern "door") trivial).action (.release ⟨0, 0⟩) trivial
  obtain ⟨hfind, -, -, -, htotals, -, -⟩ := exact_of_reachable hr
  exact ⟨hr, (hfind "door" ⟨0, 1⟩).1 (by decide +kernel), by decide +kernel, by decide +kernel,
    htotals⟩

end StringTable

end HeapAudit
