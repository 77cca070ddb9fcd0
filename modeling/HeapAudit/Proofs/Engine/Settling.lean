import HeapAudit.Engine.Unwinding
import Mathlib.Data.Multiset.Bind
import Mathlib.Logic.Relation

/-!
Giving back one part at a time. At any moment some parts are due: references to be given back and
blocks to be taken out. A step settles one of them, no matter which, and what its block lets go of
is due then. A release is a run of such steps, so what every step preserves a release preserves.

Main definitions
* `Engine.settle`: what becomes of the engine, and what is due then.
* `Engine.Settles`: one step, of an engine with the parts that are due.

Main statements
* `Engine.settles_release`, `Engine.settles_releaseAll`, `Engine.settles_discard`: releases settle
  what they are asked to settle, and everything that comes of it.
* `Engine.roots_of_settlement`: no settlement touches the roots.
-/

namespace HeapAudit.Engine

/-- The block that goes with a part, if one does, and the engine without it. -/
def take (e : Engine) : Part → Option Block × Engine
  | .counted h => e.drop h
  | .owned h =>
    match e.heap.remove h with
    | none => (none, e)
    | some (b, heap) => (some b, e.setHeap heap)

/-- Settles one part; the block that goes with it is out of account and lets go of its parts. -/
def settle (e : Engine) (p : Part) : Engine × List Part :=
  match e.take p with
  | (none, next) => (next, [])
  | (some b, next) => (next.unaccount b, b.payload.parts (next.unaccount b).heap)

/-- One of the parts that are due is settled. -/
inductive Settles : Engine × Multiset Part → Engine × Multiset Part → Prop
  | part (e : Engine) (p : Part) (due : Multiset Part) :
    Settles (e, p ::ₘ due) ((e.settle p).1, ↑(e.settle p).2 + due)

/-- Any number of steps. -/
abbrev Settlement : Engine × Multiset Part → Engine × Multiset Part → Prop :=
  Relation.ReflTransGen Settles

variable {e next : Engine} {p : Part} {b : Block}

theorem settle_of_take_none (ht : e.take p = (none, next)) : e.settle p = (next, []) := by
  unfold settle
  rw [ht]

theorem settle_of_take_some (ht : e.take p = (some b, next)) :
    e.settle p = (next.unaccount b, b.payload.parts (next.unaccount b).heap) := by
  unfold settle
  rw [ht]

/-! ## Taking apart -/

/-- The references that a cascade still has to give back. -/
def Cascade.due (c : Cascade) : Multiset Part := (c.pending : Multiset Handle).map .counted

/-- Counted parts become pending, owned ones are taken apart at once. -/
theorem settles_letGo {n : Nat}
    (hd : ∀ {b : Block} {c : Cascade} {due : Multiset Part}, c.live < n →
      Settlement
        (c.engine.unaccount b, ↑(b.payload.parts (c.engine.unaccount b).heap) + (c.due + due))
        ((dismantle b c).engine, (dismantle b c).due + due))
    {c : Cascade} (hn : c.live ≤ n) (p : Part) (due : Multiset Part) :
    Settlement (c.engine, p ::ₘ (c.due + due))
      ((c.letGo dismantle p).engine, (c.letGo dismantle p).due + due) := by
  cases p with
  | counted h =>
    have hdue : (c.letGo dismantle (.counted h)).due = .counted h ::ₘ c.due := by
      unfold Cascade.letGo Cascade.due
      rw [← Multiset.cons_coe, Multiset.map_cons]
    rw [hdue, Multiset.cons_add]
    exact .refl
  | owned h =>
    cases hr : c.engine.heap.remove h with
    | none =>
      have htake : c.engine.take (.owned h) = (none, c.engine) := by simp only [take, hr]
      have hstep := Settles.part c.engine (.owned h) (c.due + due)
      rw [settle_of_take_none htake, Multiset.coe_nil, zero_add] at hstep
      simp only [Cascade.letGo, hr]
      exact .single hstep
    | some r =>
      obtain ⟨b, rest⟩ := r
      have htake : c.engine.take (.owned h) = (some b, c.engine.setHeap rest) := by
        simp only [take, hr]
      have hstep := Settles.part c.engine (.owned h) (c.due + due)
      rw [settle_of_take_some htake] at hstep
      have hlive : rest.live + 1 = c.live := Heap.live_remove hr
      simp only [Cascade.letGo, hr]
      refine .head hstep (hd (c := { c with engine := c.engine.setHeap rest }) ?_)
      show rest.live < n
      omega

theorem settles_foldl_letGo {n : Nat}
    (hd : ∀ {b : Block} {c : Cascade} {due : Multiset Part}, c.live < n →
      Settlement
        (c.engine.unaccount b, ↑(b.payload.parts (c.engine.unaccount b).heap) + (c.due + due))
        ((dismantle b c).engine, (dismantle b c).due + due))
    (parts : List Part) {c : Cascade} (hn : c.live ≤ n) (due : Multiset Part) :
    Settlement (c.engine, ↑parts + (c.due + due))
      ((parts.foldl (Cascade.letGo dismantle) c).engine,
        (parts.foldl (Cascade.letGo dismantle) c).due + due) := by
  induction parts generalizing c with
  | nil =>
    rw [Multiset.coe_nil, zero_add]
    exact .refl
  | cons p ps ih =>
    have hle : (c.letGo dismantle p).live ≤ c.live :=
      live_letGo_le (fun b c _ => live_dismantle_le b c) hn p
    have hfirst := settles_letGo hd hn p (↑ps + due)
    rw [add_left_comm, add_left_comm _ (ps : Multiset Part)] at hfirst
    rw [← Multiset.cons_coe, Multiset.cons_add]
    exact hfirst.trans (ih (Nat.le_trans hle hn))

/-- By the number of live blocks: every owned block that is taken apart is one less. -/
theorem settles_dismantle (b : Block) (c : Cascade) (due : Multiset Part) :
    Settlement
      (c.engine.unaccount b, ↑(b.payload.parts (c.engine.unaccount b).heap) + (c.due + due))
      ((dismantle b c).engine, (dismantle b c).due + due) := by
  induction hn : c.live using Nat.strong_induction_on generalizing b c due with
  | _ n ih =>
    have hlive : Cascade.live { c with engine := c.engine.unaccount b } = c.live :=
      live_unaccount _ _
    rw [dismantle_eq]
    exact settles_foldl_letGo (n := n) (fun hlt => ih _ hlt _ _ _ rfl) _
      (c := { c with engine := c.engine.unaccount b }) (by omega) due

/-! ## Releasing -/

private theorem settles_releaseAll_of {n : Nat}
    (hr : ∀ {e : Engine} {h : Handle} {due : Multiset Part}, e.heap.live < n →
      Settlement (e, .counted h ::ₘ due) (e.release h, due))
    (hs : List Handle) {e : Engine} (hn : e.heap.live < n) (due : Multiset Part) :
    Settlement (e, (hs : Multiset Handle).map .counted + due) (e.releaseAll hs, due) := by
  induction hs generalizing e with
  | nil =>
    rw [Multiset.coe_nil, Multiset.map_zero, zero_add]
    exact .refl
  | cons h hs ih =>
    rw [← Multiset.cons_coe, Multiset.map_cons, Multiset.cons_add]
    exact (hr hn).trans (ih (Nat.lt_of_le_of_lt (live_release_le e h) hn))

/-- A release settles one reference and whatever comes of that. -/
theorem settles_release (e : Engine) (h : Handle) (due : Multiset Part) :
    Settlement (e, .counted h ::ₘ due) (e.release h, due) := by
  induction hn : e.heap.live using Nat.strong_induction_on generalizing e h due with
  | _ n ih =>
    have hd := live_drop e h
    have hstep := Settles.part e (.counted h) due
    obtain ⟨gone, next, ht⟩ : ∃ gone next, e.take (.counted h) = (gone, next) := ⟨_, _, rfl⟩
    have hdrop : e.drop h = (gone, next) := ht
    rw [hdrop] at hd
    rw [release_eq, hdrop]
    cases gone with
    | none =>
      rw [settle_of_take_none ht, Multiset.coe_nil, zero_add] at hstep
      exact .single hstep
    | some b =>
      simp only [Option.isSome_some, if_true] at hd
      rw [settle_of_take_some ht] at hstep
      have hapart := settles_dismantle b ⟨next, []⟩ due
      have hzero : Cascade.due ⟨next, []⟩ = 0 := rfl
      rw [hzero, zero_add] at hapart
      have hle : (dismantle b ⟨next, []⟩).engine.heap.live ≤ next.heap.live :=
        live_dismantle_le b ⟨next, []⟩
      exact .head hstep (hapart.trans
        (settles_releaseAll_of (n := n) (fun hlt => ih _ hlt _ _ _ rfl) _ (by omega) due))

theorem settles_releaseAll (e : Engine) (hs : List Handle) (due : Multiset Part) :
    Settlement (e, (hs : Multiset Handle).map .counted + due) (e.releaseAll hs, due) :=
  settles_releaseAll_of (n := e.heap.live + 1) (fun _ => settles_release _ _ _) hs
    (Nat.lt_succ_self _) due

/-- Owned blocks go in order and references afterwards; it is still one run. -/
theorem settles_discard (e : Engine) (parts : List Part) (due : Multiset Part) :
    Settlement (e, ↑parts + due) (e.discard parts, due) := by
  have hparts := settles_foldl_letGo (n := e.heap.live) (fun _ => settles_dismantle _ _ _) parts
    (c := ⟨e, []⟩) (Nat.le_refl _) due
  have hzero : Cascade.due ⟨e, []⟩ = 0 := rfl
  rw [hzero, zero_add] at hparts
  have hall := settles_releaseAll (e.takeApart parts).engine (e.takeApart parts).pending.reverse due
  rw [Multiset.coe_reverse] at hall
  exact hparts.trans hall

/-! ## What settling leaves alone -/

theorem roots_unaccount (e : Engine) (b : Block) : (e.unaccount b).roots = e.roots := by
  unfold unaccount
  cases b.payload with
  | closure c =>
    simp only
    cases pinnedBy _ c with
    | none => rfl
    | some program =>
      show (unpin _ program).roots = e.roots
      unfold unpin
      split <;> rfl
  | _ => rfl

theorem roots_take (e : Engine) (p : Part) : (e.take p).2.roots = e.roots := by
  cases p with
  | counted h =>
    show (e.drop h).2.roots = e.roots
    unfold drop
    cases e.heap.get? h with
    | none => rfl
    | some b =>
      simp only
      split <;> rfl
  | owned h =>
    cases hr : e.heap.remove h with
    | none => simp only [take, hr]
    | some r => simp only [take, hr, setHeap]

theorem roots_settle (e : Engine) (p : Part) : (e.settle p).1.roots = e.roots := by
  have htake := e.roots_take p
  obtain ⟨gone, next, ht⟩ : ∃ gone next, e.take p = (gone, next) := ⟨_, _, rfl⟩
  rw [ht] at htake
  cases gone with
  | none =>
    rw [settle_of_take_none ht]
    exact htake
  | some b =>
    rw [settle_of_take_some ht]
    exact (roots_unaccount next b).trans htake

theorem roots_of_settlement {due left : Multiset Part} (hs : Settlement (e, due) (next, left)) :
    next.roots = e.roots := by
  obtain ⟨finish, hfinish⟩ : ∃ finish, (next, left) = finish := ⟨_, rfl⟩
  rw [hfinish] at hs
  induction hs generalizing next left with
  | refl =>
    cases hfinish
    rfl
  | @tail mid _ _ hstep ih =>
    obtain ⟨between, due⟩ := mid
    obtain ⟨_, p, due⟩ := hstep
    cases hfinish
    exact (roots_settle between p).trans (ih rfl)

end HeapAudit.Engine
