import HeapAudit.Engine.Release
import HeapAudit.Heap.Live

/-!
How a release unwinds. Every level of taking apart has one live block less to work on, so the
depth is never used up, and the equations of a release hold without it.

Main statements
* `dismantle_eq`: a block is taken apart by letting go of its parts.
* `release_eq`: a release drops one reference, takes apart what that freed, and releases what the
  parts held.
* `live_release_le`: a release adds no block.
-/

namespace HeapAudit.Engine

/-- The number of blocks still live in the middle of a release. -/
def Cascade.live (c : Cascade) : Nat := c.engine.heap.live

/-! ## Fewer blocks -/

theorem live_unpin (e : Engine) (program : Handle) :
    (e.unpin program).heap.live = e.heap.live := by
  unfold unpin
  split
  · exact Heap.live_update _ _ _
  · rfl

theorem live_unaccount (e : Engine) (b : Block) : (e.unaccount b).heap.live = e.heap.live := by
  unfold unaccount
  split
  · rename_i c hc
    cases hp : pinnedBy { e with counters := e.counters.without b.category b.size b.payload } c with
    | none => simp [hp]
    | some program => simpa [hp] using live_unpin _ program
  · rfl

/-- Taking apart is only asked for with one block less. -/
theorem live_letGo_le {apart : Block → Cascade → Cascade} {n : Nat}
    (ha : ∀ b c, c.live < n → (apart b c).live ≤ c.live) {c : Cascade} (hc : c.live ≤ n)
    (p : Part) : (c.letGo apart p).live ≤ c.live := by
  cases p with
  | counted h => exact Nat.le_refl _
  | owned h =>
    unfold Cascade.letGo
    cases hr : c.engine.heap.remove h with
    | none => simp [hr]
    | some r =>
      obtain ⟨b, heap⟩ := r
      have hl : heap.live + 1 = c.live := Heap.live_remove hr
      have := ha b { c with engine := c.engine.setHeap heap } (by
        show heap.live < n
        omega)
      have hs : Cascade.live { c with engine := c.engine.setHeap heap } = heap.live := rfl
      simp only [hr]
      omega

theorem letGo_congr {f g : Block → Cascade → Cascade} {n : Nat}
    (h : ∀ b c, c.live < n → f b c = g b c) {c : Cascade} (hc : c.live ≤ n) (p : Part) :
    c.letGo f p = c.letGo g p := by
  cases p with
  | counted h => rfl
  | owned k =>
    unfold Cascade.letGo
    cases hr : c.engine.heap.remove k with
    | none => simp [hr]
    | some r =>
      obtain ⟨b, heap⟩ := r
      have hl : heap.live + 1 = c.live := Heap.live_remove hr
      simp only [hr]
      exact h _ _ (by
        show heap.live < n
        omega)

private theorem live_foldl_letGo_le {apart : Block → Cascade → Cascade} {n : Nat}
    (ha : ∀ b c, c.live < n → (apart b c).live ≤ c.live) (parts : List Part) {c : Cascade}
    (hc : c.live ≤ n) : (parts.foldl (Cascade.letGo apart) c).live ≤ c.live := by
  induction parts generalizing c with
  | nil => exact Nat.le_refl _
  | cons p ps ih =>
    have hp := live_letGo_le ha hc p
    exact Nat.le_trans (ih (Nat.le_trans hp hc)) hp

private theorem foldl_letGo_congr {f g : Block → Cascade → Cascade} {n : Nat}
    (hf : ∀ b c, c.live < n → (f b c).live ≤ c.live) (h : ∀ b c, c.live < n → f b c = g b c)
    (parts : List Part) {c : Cascade} (hc : c.live ≤ n) :
    parts.foldl (Cascade.letGo f) c = parts.foldl (Cascade.letGo g) c := by
  induction parts generalizing c with
  | nil => rfl
  | cons p ps ih =>
    rw [List.foldl_cons, List.foldl_cons, ← letGo_congr h hc p]
    exact ih (Nat.le_trans (live_letGo_le hf hc p) hc)

/-! ## Taking apart -/

theorem live_dismantleWithin_le (depth : Nat) (b : Block) (c : Cascade) :
    (dismantleWithin depth b c).live ≤ c.live := by
  induction depth generalizing b c with
  | zero => exact Nat.le_refl _
  | succ depth ih =>
    have hu : Cascade.live { c with engine := c.engine.unaccount b } = c.live :=
      live_unaccount _ _
    exact hu ▸ live_foldl_letGo_le (fun b c _ => ih b c) _ (Nat.le_refl _)

/-- Any depth above the number of live blocks is deep enough. -/
theorem dismantleWithin_eq_of_live_lt {m n : Nat} {b : Block} {c : Cascade} (hm : c.live < m)
    (hn : c.live < n) : dismantleWithin m b c = dismantleWithin n b c := by
  induction m generalizing n b c with
  | zero => omega
  | succ m ih =>
    cases n with
    | zero => omega
    | succ n =>
      have hu : Cascade.live { c with engine := c.engine.unaccount b } = c.live :=
        live_unaccount _ _
      refine foldl_letGo_congr (n := c.live) (fun b c _ => live_dismantleWithin_le m b c) ?_ _
        (Nat.le_of_eq hu)
      intro b' c' hc
      exact ih (by omega) (by omega)

theorem dismantle_eq_within {n : Nat} {b : Block} {c : Cascade} (hn : c.live < n) :
    dismantle b c = dismantleWithin n b c :=
  dismantleWithin_eq_of_live_lt (Nat.lt_succ_self _) hn

theorem live_dismantle_le (b : Block) (c : Cascade) : (dismantle b c).live ≤ c.live :=
  live_dismantleWithin_le _ b c

theorem dismantle_eq (b : Block) (c : Cascade) :
    dismantle b c =
      (b.payload.parts (c.engine.unaccount b).heap).foldl (Cascade.letGo dismantle)
        { c with engine := c.engine.unaccount b } := by
  have hu : Cascade.live { c with engine := c.engine.unaccount b } = c.live :=
    live_unaccount _ _
  refine foldl_letGo_congr (n := c.live) (fun b c _ => live_dismantleWithin_le _ b c) ?_ _
    (Nat.le_of_eq hu)
  intro b' c' hc
  exact (dismantle_eq_within hc).symm

/-! ## Releasing -/

theorem live_drop (e : Engine) (h : Handle) :
    (e.drop h).2.heap.live + (if (e.drop h).1.isSome then 1 else 0) ≤ e.heap.live := by
  unfold drop
  split
  · simp
  · split
    · simp only [Option.isSome_none, Bool.false_eq_true, if_false, Nat.add_zero]
      unfold StringTable.release
      split
      · exact Nat.le_refl _
      · have hd := Heap.live_decRef e.heap h
        split <;> rename_i hr <;> rw [hr] at hd <;> simp at hd ⊢ <;> omega
    · exact Nat.le_of_eq (Heap.live_decRef e.heap h)

private theorem live_foldl_release_le {f : Engine → Handle → Engine}
    (hf : ∀ e h, (f e h).heap.live ≤ e.heap.live) (hs : List Handle) (e : Engine) :
    (hs.foldl f e).heap.live ≤ e.heap.live := by
  induction hs generalizing e with
  | nil => exact Nat.le_refl _
  | cons h hs ih => exact Nat.le_trans (ih _) (hf e h)

theorem live_releaseWithin_le (depth : Nat) (e : Engine) (h : Handle) :
    (releaseWithin depth e h).heap.live ≤ e.heap.live := by
  induction depth generalizing e h with
  | zero => exact Nat.le_refl _
  | succ depth ih =>
    have hd := live_drop e h
    unfold releaseWithin
    split
    · rename_i e' he
      rw [he] at hd
      simpa using hd
    · rename_i b e' he
      rw [he] at hd
      simp only [Option.isSome_some, if_true] at hd
      have hc : (dismantle b ⟨e', []⟩).engine.heap.live ≤ e'.heap.live :=
        live_dismantle_le b ⟨e', []⟩
      have := live_foldl_release_le ih (dismantle b ⟨e', []⟩).pending (dismantle b ⟨e', []⟩).engine
      simp only
      omega

private theorem foldl_release_congr {f g : Engine → Handle → Engine} {n : Nat}
    (hf : ∀ e h, (f e h).heap.live ≤ e.heap.live) (h : ∀ e h, e.heap.live < n → f e h = g e h)
    (hs : List Handle) {e : Engine} (he : e.heap.live < n) : hs.foldl f e = hs.foldl g e := by
  induction hs generalizing e with
  | nil => rfl
  | cons k ks ih =>
    rw [List.foldl_cons, List.foldl_cons, ← h e k he]
    exact ih (Nat.lt_of_le_of_lt (hf e k) he)

/-- Any depth above the number of live blocks is deep enough. -/
theorem releaseWithin_eq_of_live_lt {m n : Nat} {e : Engine} {h : Handle}
    (hm : e.heap.live < m) (hn : e.heap.live < n) :
    releaseWithin m e h = releaseWithin n e h := by
  induction m generalizing n e h with
  | zero => omega
  | succ m ih =>
    cases n with
    | zero => omega
    | succ n =>
      have hd := live_drop e h
      unfold releaseWithin
      split
      · rfl
      · rename_i b e' he
        rw [he] at hd
        simp only [Option.isSome_some, if_true] at hd
        have hc : (dismantle b ⟨e', []⟩).engine.heap.live ≤ e'.heap.live :=
          live_dismantle_le b ⟨e', []⟩
        exact foldl_release_congr (n := e.heap.live) (live_releaseWithin_le m)
          (fun e₁ h₁ h₂ => ih (by omega) (by omega)) _ (by omega)

theorem release_eq_within {n : Nat} {e : Engine} {h : Handle} (hn : e.heap.live < n) :
    e.release h = releaseWithin n e h :=
  releaseWithin_eq_of_live_lt (Nat.lt_succ_self _) hn

theorem live_release_le (e : Engine) (h : Handle) : (e.release h).heap.live ≤ e.heap.live :=
  live_releaseWithin_le _ e h

theorem release_eq (e : Engine) (h : Handle) :
    e.release h =
      match e.drop h with
      | (none, e) => e
      | (some b, e) => (dismantle b ⟨e, []⟩).engine.releaseAll (dismantle b ⟨e, []⟩).pending := by
  have hd := live_drop e h
  unfold release releaseWithin
  obtain ⟨gone, e', he⟩ : ∃ gone e', e.drop h = (gone, e') := ⟨_, _, rfl⟩
  rw [he] at hd
  simp only [he]
  cases gone with
  | none => rfl
  | some b =>
    simp only [Option.isSome_some, if_true] at hd
    have hc : (dismantle b ⟨e', []⟩).engine.heap.live ≤ e'.heap.live :=
      live_dismantle_le b ⟨e', []⟩
    exact foldl_release_congr (n := e.heap.live) (live_releaseWithin_le _)
      (fun e₁ h₁ h₂ => (release_eq_within h₂).symm) _ (by omega)

end HeapAudit.Engine
