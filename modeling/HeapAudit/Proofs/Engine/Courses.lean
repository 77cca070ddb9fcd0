import HeapAudit.Proofs.Engine.Settling
import HeapAudit.Proofs.Engine.Totals

/-!
The course a command takes: changes that let no block go, and releases.

The counters and the pins stop at zero when something is taken off, so a number that is too low
would go unnoticed. A course says of every release that it does not come to that, whatever order
it takes, and that the counters are right after every change.

Main definitions
* `Engine.Affords`: a block can be taken out of account without stopping at zero.
* `Engine.Solvent`: so can every block that goes when some parts are settled.
* `Engine.Changes`, `Engine.Course`: one change, and any number of them.

Main statements
* `Heap.grows_allocateSized`, `Heap.grows_update`: what lets no block go.
-/

namespace HeapAudit

/-- How many closures a program counts that keep it loaded. -/
def Payload.pinCount : Payload → Nat
  | .program p => p.pins
  | _ => 0

/-- Every block stays, counts for what it counted for and is pinned no less. -/
def Heap.Grows (heap later : Heap) : Prop :=
  ∀ h b, heap.get? h = some b → ∃ d, later.get? h = some d ∧
    Counters.ofBlock d = Counters.ofBlock b ∧ b.payload.pinCount ≤ d.payload.pinCount

namespace Heap

theorem Grows.refl (heap : Heap) : heap.Grows heap :=
  fun _ b hb => ⟨b, hb, rfl, Nat.le_refl _⟩

theorem grows_allocateSized (heap : Heap) (category : Category) (payload : Payload) (size : Nat)
    (description : String) :
    heap.Grows (heap.allocateSized category payload size description).1 := by
  intro h b hb
  exact ⟨b, get?_allocateSized_of_some hb category payload size description, rfl, Nat.le_refl _⟩

theorem grows_update {heap : Heap} {h : Handle} {b : Block} (hb : heap.get? h = some b)
    {f : Block → Block} (hcounts : Counters.ofBlock (f b) = Counters.ofBlock b)
    (hpins : b.payload.pinCount ≤ (f b).payload.pinCount) : heap.Grows (heap.update h f) := by
  intro k c hc
  rw [get?_update]
  by_cases hk : k = h
  · subst hk
    rw [hb] at hc
    cases hc
    exact ⟨f b, by rw [if_pos rfl, hb]; rfl, hcounts, hpins⟩
  · exact ⟨c, by rw [if_neg hk]; exact hc, rfl, Nat.le_refl _⟩

end Heap

namespace Engine

/-- A block that is out of the heap can be taken out of account: no counter stops at zero, nor
does the count of pins of the program it pinned. -/
structure Affords (e : Engine) (b : Block) : Prop where
  counters : (e.counters.without b.category b.size b.payload).adding b.category b.size b.payload =
    e.counters
  pins : ∀ c program p, b.payload = .closure c → e.pinnedBy c = some program →
    e.program program = .ok p → 0 < p.pins

/-- However far the parts that are due have been settled, and in whatever order: the counters are
right, and the next block that goes can be taken out of account. -/
def Solvent (e : Engine) (due : Multiset Part) : Prop :=
  ∀ mid left, Settlement (e, due) (mid, left) →
    mid.counters = .ofStock mid.heap.stock ∧
      ∀ p ∈ left, ∀ b rest, mid.take p = (some b, rest) → rest.Affords b

/-- One change. Blocks go when parts are settled, and not otherwise. -/
inductive Changes (e : Engine) : Engine → Prop
  | grows {next : Engine} (hg : e.heap.Grows next.heap) : Changes e next
  | releases {next : Engine} {due : Multiset Part} (hs : Settlement (e, due) (next, 0))
      (ha : e.Solvent due) : Changes e next

/-- Any number of changes, after each of which the counters are right. -/
abbrev Course : Engine → Engine → Prop :=
  Relation.ReflTransGen fun e next => e.Changes next ∧ next.counters = .ofStock next.heap.stock

variable {e next : Engine}

theorem course_of_grows (hg : e.heap.Grows next.heap)
    (hc : next.counters = .ofStock next.heap.stock) : e.Course next :=
  .single ⟨.grows hg, hc⟩

theorem course_of_solvent {due : Multiset Part} (hs : Settlement (e, due) (next, 0))
    (ha : e.Solvent due) : e.Course next :=
  .single ⟨.releases hs ha, (ha next 0 hs).1⟩

end Engine

end HeapAudit
