import HeapAudit.Engine.Release
import HeapAudit.Heap.Census
import HeapAudit.Proofs.Audit.Listed
import HeapAudit.Proofs.Word

/-!
The engine's running totals as sums over the live blocks.

Main definitions
* `total`: a sum over all live blocks.
* `Heap.bytesOf`: the bytes of a category, however many there are.
* `Counters.ofStock`, `StringTotals.ofStock`: what the totals should be.

Main statements
* `Counters.ofStock_cons`, `Counters.without_adding`: one block more, one block less.
* `Heap.WellFormed.ofStock_eq`: a census finds the same sums.
-/

namespace HeapAudit

/-- The sum of a number each block contributes. -/
def total (f : Block → Nat) (stock : Multiset (Handle × Block)) : Nat :=
  (stock.map fun p => f p.2).sum

@[simp] theorem total_cons (f : Block → Nat) (p : Handle × Block)
    (stock : Multiset (Handle × Block)) : total f (p ::ₘ stock) = f p.2 + total f stock := by
  simp [total]

/-! ## Counters -/

namespace Counters

/-- The counters with a block of this category, size and payload more. -/
def adding (c : Counters) (category : Category) (size : Nat) : Payload → Counters
  | .slots _ =>
    if category = .classInstance then
      { c with classes := c.classes + 1, classBytes := c.classBytes + size }
    else { c with arrays := c.arrays + 1, arrayBytes := c.arrayBytes + size }
  | .mapping _ => { c with mappings := c.mappings + 1 }
  | .object _ => { c with objects := c.objects + 1 }
  | .program _ => { c with programs := c.programs + 1 }
  | .sentence _ => { c with sentences := c.sentences + 1 }
  | .callOut _ => { c with callOutBytes := c.callOutBytes + size }
  | _ => c

/-- What one block counts for. -/
def ofBlock (b : Block) : Counters := adding {} b.category b.size b.payload

def ofStock (stock : Multiset (Handle × Block)) : Counters where
  sentences := total (fun b => (ofBlock b).sentences) stock
  objects := total (fun b => (ofBlock b).objects) stock
  programs := total (fun b => (ofBlock b).programs) stock
  arrays := total (fun b => (ofBlock b).arrays) stock
  arrayBytes := total (fun b => (ofBlock b).arrayBytes) stock
  classes := total (fun b => (ofBlock b).classes) stock
  classBytes := total (fun b => (ofBlock b).classBytes) stock
  mappings := total (fun b => (ofBlock b).mappings) stock
  callOutBytes := total (fun b => (ofBlock b).callOutBytes) stock

theorem ofStock_cons (p : Handle × Block) (stock : Multiset (Handle × Block)) :
    ofStock (p ::ₘ stock) = (ofStock stock).adding p.2.category p.2.size p.2.payload := by
  obtain ⟨h, b⟩ := p
  simp only [ofStock, total_cons, ofBlock, Nat.add_comm _ (total _ stock)]
  cases b.payload with
  | slots items =>
    by_cases hc : b.category = .classInstance <;>
      simp only [adding, hc, if_true, if_false, Nat.zero_add, Nat.add_zero]
  | _ => simp only [adding, Nat.zero_add, Nat.add_zero]

theorem without_adding (c : Counters) (category : Category) (size : Nat) (payload : Payload) :
    (c.adding category size payload).without category size payload = c := by
  cases payload with
  | slots items =>
    by_cases hc : category = .classInstance <;> simp [adding, without, hc]
  | callOut t => simp [adding, without]
  | _ => rfl

end Counters

/-! ## Strings -/

namespace StringTotals

def ofStock (stock : Multiset (Handle × Block)) : StringTotals where
  distinct := total (fun b => b.payload.stringCost?.elim 0 fun _ => 1) stock
  references := total (fun b => b.payload.stringCost?.elim 0 fun _ => b.refs) stock
  distinctBytes := total (fun b => b.payload.stringCost?.elim 0 id) stock
  allocatedBytes := total (fun b => b.payload.stringCost?.elim 0 fun cost => b.refs * cost) stock

theorem ofStock_cons (p : Handle × Block) (stock : Multiset (Handle × Block)) :
    ofStock (p ::ₘ stock) = (ofStock stock).countBlock p.2 := by
  unfold countBlock ofStock
  cases hc : p.2.payload.stringCost? with
  | none => simp [hc]
  | some cost => simp [hc, Nat.add_comm]

theorem ofBlocks_eq (heap : Heap) : ofBlocks heap.blocks = ofStock heap.stock := by
  have hfold : ∀ (entries : List (Handle × Block)) (t : StringTotals),
      (entries.map (·.2)).foldl countBlock t =
        ⟨t.distinct + (ofStock entries).distinct, t.references + (ofStock entries).references,
         t.distinctBytes + (ofStock entries).distinctBytes,
         t.allocatedBytes + (ofStock entries).allocatedBytes⟩ := by
    intro entries
    induction entries with
    | nil => intro t; rfl
    | cons p ps ih =>
      intro t
      rw [List.map_cons, List.foldl_cons, ih, ← Multiset.cons_coe, ofStock_cons]
      unfold countBlock
      cases p.2.payload.stringCost? with
      | none => rfl
      | some cost => simp only [StringTotals.mk.injEq]; omega
  rw [ofBlocks, Heap.blocks, hfold heap.entries {}]
  simp only [Nat.zero_add]
  rfl

end StringTotals

/-! ## The census -/

/-- A block counts as one in its category. -/
def Block.oneOf (c : Category) (b : Block) : Nat := if b.category = c then 1 else 0

def Block.bytesOf (c : Category) (b : Block) : Nat := if b.category = c then b.size else 0

namespace Heap

theorem total_oneOf (heap : Heap) (c : Category) :
    total (Block.oneOf c) heap.stock = (heap.tally c).blocks := by
  rw [tally, Tally.ofBlocks, blocks, total, stock, Multiset.map_coe, Multiset.sum_coe]
  simp only
  induction heap.entries with
  | nil => rfl
  | cons p ps ih =>
    rw [List.map_cons, List.sum_cons, ih, List.map_cons, Block.oneOf]
    by_cases hc : p.2.category = c
    · rw [if_pos hc, List.filter_cons_of_pos (by simpa using hc), List.length_cons, Nat.add_comm]
    · rw [if_neg hc, List.filter_cons_of_neg (by simpa using hc), Nat.zero_add]

/-- The sizes that the blocks of a category record, added up exactly. -/
def bytesOf (heap : Heap) (c : Category) : Nat := total (Block.bytesOf c) heap.stock

theorem bytesOf_eq (heap : Heap) (c : Category) :
    heap.bytesOf c = ((heap.blocks.filter fun b => b.category = c).map (·.size)).sum := by
  rw [bytesOf, blocks, total, stock, Multiset.map_coe, Multiset.sum_coe]
  induction heap.entries with
  | nil => rfl
  | cons p ps ih =>
    rw [List.map_cons, List.sum_cons, ih, List.map_cons, Block.bytesOf]
    by_cases hc : p.2.category = c
    · rw [if_pos hc, List.filter_cons_of_pos (by simpa using hc), List.map_cons, List.sum_cons]
    · rw [if_neg hc, List.filter_cons_of_neg (by simpa using hc), Nat.zero_add]

theorem wrap_bytesOf (heap : Heap) (c : Category) :
    Word.wrap (heap.bytesOf c) = (heap.tally c).bytes := by
  rw [bytesOf_eq, ← Word.sum_eq_wrap]
  rfl

/-- What a block counts for goes to its own category. -/
theorem ofBlock_eq {b : Block} (hcar : b.category.carries b.payload) :
    Counters.ofBlock b =
      ⟨b.oneOf .sentence, b.oneOf .object, b.oneOf .program, b.oneOf .array, b.bytesOf .array,
        b.oneOf .classInstance, b.bytesOf .classInstance, b.oneOf .mapping,
        b.bytesOf .callOut⟩ := by
  obtain ⟨category, size, refs, description, serial, tick, exempt, scratch, payload⟩ := b
  unfold Counters.ofBlock Block.oneOf Block.bytesOf
  simp only at hcar ⊢
  cases payload with
  | slots items => cases category <;> first | (cases hcar; done) | simp [Counters.adding]
  | mapping table => simp [Counters.adding, Category.carries_mapping_iff.1 hcar]
  | object ob => simp [Counters.adding, Category.carries_object_iff.1 hcar]
  | program p => simp [Counters.adding, Category.carries_program_iff.1 hcar]
  | sentence s => simp [Counters.adding, Category.carries_sentence_iff.1 hcar]
  | callOut t => simp [Counters.adding, Category.carries_callOut_iff.1 hcar]
  | _ => cases category <;> first | (cases hcar; done) | rfl

/-- In a well-formed heap the counters are those of a census, with bytes that are exact. -/
theorem WellFormed.ofStock_eq {heap : Heap} (hw : heap.WellFormed) :
    Counters.ofStock heap.stock =
      ⟨(heap.tally .sentence).blocks, (heap.tally .object).blocks, (heap.tally .program).blocks,
        (heap.tally .array).blocks, heap.bytesOf .array,
        (heap.tally .classInstance).blocks, heap.bytesOf .classInstance,
        (heap.tally .mapping).blocks, heap.bytesOf .callOut⟩ := by
  have htotal : ∀ (f : Counters → Nat) (g : Block → Nat),
      (∀ b : Block, b.category.carries b.payload → f (.ofBlock b) = g b) →
        total (fun b => f (.ofBlock b)) heap.stock = total g heap.stock := by
    intro f g hfg
    refine congrArg Multiset.sum (Multiset.map_congr rfl ?_)
    rintro ⟨h, b⟩ hp
    exact hfg b (hw h b (mem_stock.1 hp))
  unfold Counters.ofStock
  simp only [← total_oneOf, bytesOf]
  congr 1 <;> exact htotal _ _ fun b hb => by rw [ofBlock_eq hb]

end Heap

end HeapAudit
