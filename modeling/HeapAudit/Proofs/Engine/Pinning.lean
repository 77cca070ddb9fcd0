import HeapAudit.Proofs.Engine.Client

/-!
Programs that closures keep loaded.

A closure over its owner's code keeps the program of an object, which the object holds a reference
to. Anonymous code only notes itself on the program it was compiled into: the note keeps nobody from
giving the last reference back.

Main definitions
* `Closure.Pins`: whether a closure depends on the code of a program.
* `Engine.StillRuns`: a program that is the same as before and counts its closures right.

Main statements
* `Client.stillRuns_iff`: when a closure still has its program.
* `Client.not_stillRuns_codeAlone`: a program that goes while anonymous code depends on it.
-/

namespace HeapAudit

open Reference

/-- Anonymous code, and code of an owner that cannot be rebound. -/
def Closure.Pins (c : Closure) : Prop :=
  match c.kind with
  | .functional _ => True
  | .ownCode _ false => c.owner.isSome
  | _ => False

instance (c : Closure) : Decidable c.Pins := by
  unfold Closure.Pins
  split <;> infer_instance

/-- The program behind `h` was there before, is the same still, and has noted as many closures as
there are. -/
def Engine.StillRuns (before after : Engine) (h : Handle) : Prop :=
  ∃ a b p, before.heap.get? h = some a ∧ after.heap.get? h = some b ∧ b.serial = a.serial ∧
    b.payload = .program p ∧ p.pins = after.heap.pinCount h

namespace Client

variable {allowed : Command → Bool} {c d : Client} {stray : Multiset Reference} {k h : Handle}
  {b : Block} {cl : Closure}

/-! ## Counts -/

theorem InOrder.count_counted (hi : c.InOrder stray) (h : Handle) (category : Category) :
    (c.engine.refs (c.ledger + stray)).count (.counted h category) =
      (c.engine.held + c.ledger : Multiset Reference).count (.counted h category) := by
  have hstray : stray.count (.counted h category) = 0 :=
    Multiset.count_eq_zero.2 fun hm => absurd (hi.owned _ hm) (by simp [Reference.counted])
  rw [Engine.refs_eq, ← add_assoc, Multiset.count_add, hstray, Nat.add_zero]

theorem InOrder.count_pinned (hi : c.InOrder stray) (h : Handle) :
    (c.engine.refs (c.ledger + stray)).count (.pinned h) = c.engine.heap.pinCount h := by
  have hclient : (c.ledger + stray).count (.pinned h) = 0 := by
    refine Multiset.count_eq_zero.2 fun hm => ?_
    rcases Multiset.mem_add.1 hm with hm | hm
    · exact absurd (hi.counted _ hm) (by simp [pinned])
    · exact absurd (hi.owned _ hm) (by simp [pinned])
  rw [Engine.refs_eq, Multiset.count_add, hclient, Nat.add_zero, Engine.count_pinned_held]

/-- A program that is older than a closure still runs if it is there. -/
theorem InOrder.stillRuns (hi : d.InOrder stray) (hl : c.engine.heap.Later d.engine.heap)
    {p : Program} (hb : d.engine.heap.get? h = some b) (hold : b.serial ≤ c.engine.heap.issued)
    (hp : b.payload = .program p) : c.engine.StillRuns d.engine h := by
  obtain ⟨a, ha, hab⟩ := hl.old h b hb hold
  refine ⟨a, b, p, ha, hb, hab.serial, hp, ?_⟩
  rw [hi.consistent.balanced.pinned h b p hb hp, hi.count_pinned]

/-! ## Closures over their owner's code -/

/-- The owner of a closure is the object it was, so the closure keeps the program it had. -/
theorem InOrder.stillRuns_of_ownCode (hi : d.InOrder stray)
    (hl : c.engine.heap.Later d.engine.heap) (hb : d.engine.heap.get? k = some b)
    (hold : b.serial ≤ c.engine.heap.issued) (hcl : b.payload = .closure cl) {index : Nat}
    (hkind : cl.kind = .ownCode index false) (howner : cl.owner.isSome) :
    ∃ h, cl.pinned? c.engine.heap = some h ∧ cl.pinned? d.engine.heap = some h ∧
      c.engine.StillRuns d.engine h := by
  obtain ⟨ob, hob⟩ := Option.isSome_iff_exists.1 howner
  have ha := hi.consistent.orderly.anchored k b cl hb hcl
  obtain ⟨h, hh⟩ := Option.isSome_iff_exists.1 (ha.loaded ob (by simp [Closure.views, hkind, hob]))
  have hpinned : ∀ heap : Heap, cl.pinned? heap = heap.programOf? ob := fun heap => by
    rw [Closure.pinned?, hkind, hob]
    rfl
  have hpin : cl.pinned? d.engine.heap = some h := (hpinned _).trans hh
  rcases Closure.pinned?_eq_some hpin with hfun | ⟨ob', o', o, hob', ho', hpay, hrun⟩
  · rw [hkind] at hfun
    cases hfun
  rw [hob] at hob'
  cases hob'
  -- the owner is as old as the closure, and had this program if it has one now
  have holder := ha.owner ob hob o' ho'
  obtain ⟨a, hao, hbecomes⟩ := hl.old ob o' ho' (by omega)
  obtain ⟨was, hwas, hprogram⟩ := hbecomes.object o hpay
  have hsame : was.program = some h := by
    rcases hprogram with hprogram | hprogram
    · rw [← hprogram, hrun]
    · rw [hrun] at hprogram
      cases hprogram
  refine ⟨h, (hpinned _).trans ?_, hpin, ?_⟩
  · simp [Heap.programOf?, Heap.payload?, hao, hwas, Payload.object?, hsame]
  · obtain ⟨q, hq, -⟩ := Engine.live_of_run hi.consistent ho' hpay hrun
    have hlt := ha.older h hpin (by simp [hkind]) q hq
    obtain ⟨p, hp⟩ := ha.compiled h hpin q hq hlt
    exact hi.stillRuns hl hq (by omega) hp

/-! ## Anonymous code -/

/-- The program anonymous code was compiled into is there for as long as somebody holds it. -/
theorem InOrder.stillRuns_iff_of_functional (hi : d.InOrder stray)
    (hl : c.engine.heap.Later d.engine.heap) (hu : d.engine.heap.Unaliased)
    (hb : d.engine.heap.get? k = some b) (hold : b.serial ≤ c.engine.heap.issued)
    (hcl : b.payload = .closure cl) (hkind : cl.kind = .functional h) :
    c.engine.StillRuns d.engine h ↔
      0 < (d.engine.held + d.ledger : Multiset Reference).count (.counted h .program) := by
  have hbal := hi.consistent.balanced
  constructor
  · rintro ⟨a, q, p, -, hq, -, hp, -⟩
    have hs := hi.consistent.orderly.sound h q hq
    have hcat := hs.category_program hp
    have hrefs := hbal.counted h q hq (by rw [hcat]; rfl)
    have hstored := hs.stored (by rw [hcat]; rfl)
    rw [hcat, hi.count_counted, Payload.surplus_eq_zero (by simp [hp])] at hrefs
    omega
  · intro hheld
    rw [← hi.count_counted] at hheld
    obtain ⟨q, hq, -⟩ := hbal.resolves _ (Multiset.count_pos.1 hheld) (by simp [Reference.counted])
    have hlt := hu k b cl h q hb hcl hkind hq
    obtain ⟨p, hp⟩ := (hi.consistent.orderly.anchored k b cl hb hcl).compiled h
      (by rw [Closure.pinned?, hkind]; rfl) q hq hlt
    exact hi.stillRuns hl hq (by omega) hp

/-! ## Every run -/

/-- A closure that depends on a program still has it, the same as before and counting its closures
right, exactly if it runs its owner's code or somebody holds a reference to the program. -/
theorem stillRuns_iff (hr : Reachable allowed c) (hs : Steps allowed c d) {a : Block}
    (ha : c.engine.heap.get? k = some a) (hb : d.engine.heap.get? k = some b)
    (hsame : b.serial = a.serial) (hcl : b.payload = .closure cl) (hpins : cl.Pins) :
    ∃ h, cl.pinned? c.engine.heap = some h ∧ cl.pinned? d.engine.heap = some h ∧
      (c.engine.StillRuns d.engine h ↔ cl.kind ≠ .functional h ∨
        0 < (d.engine.held + d.ledger : Multiset Reference).count (.counted h .program)) := by
  obtain ⟨before, hc⟩ := hr.inOrder
  obtain ⟨after, hd, hl⟩ := hc.steps hs
  have hold : b.serial ≤ c.engine.heap.issued := by
    rw [hsame]
    exact (hc.consistent.orderly.sound k a ha).serial
  cases hkind : cl.kind with
  | functional h =>
    have hpinned : ∀ heap : Heap, cl.pinned? heap = some h := fun heap => by
      rw [Closure.pinned?, hkind]
      rfl
    refine ⟨h, hpinned _, hpinned _, ?_⟩
    rw [hd.stillRuns_iff_of_functional hl (hr.steps hs).unaliased hb hold hcl hkind]
    simp
  | ownCode index bindable =>
    simp only [Closure.Pins, hkind] at hpins
    cases bindable with
    | true => cases hpins
    | false =>
      obtain ⟨h, hbefore, hafter, hstill⟩ := hd.stillRuns_of_ownCode hl hb hold hcl hkind hpins
      exact ⟨h, hbefore, hafter, fun _ => .inl (by simp), fun _ => hstill⟩
  | named | builtin =>
    simp only [Closure.Pins, hkind] at hpins

/-- A client that made a program, an object that runs it and anonymous code compiled into it. -/
def objectAndCode : Client :=
  (fresh {}).play
    [.newProgram { filename := "a.c" }, .newObject "a" ⟨1, 0⟩,
      .newClosure (.functional ⟨1, 0⟩) none []]

/-- The object keeps the program when the client gives its reference back. -/
theorem stillRuns_iff_objectAndCode :
    Reachable (fun _ => true) objectAndCode ∧
    Steps (fun _ => true) objectAndCode (objectAndCode.play [.release ⟨1, 0⟩]) ∧
    objectAndCode.engine.StillRuns (objectAndCode.play [.release ⟨1, 0⟩]).engine ⟨1, 0⟩ := by
  have hr : Reachable (fun _ => true) objectAndCode := ⟨{}, steps_play (by decide +kernel)⟩
  have hs : Steps (fun _ => true) objectAndCode (objectAndCode.play [.release ⟨1, 0⟩]) :=
    steps_play (by decide +kernel)
  obtain ⟨b, hb, hcl⟩ : ∃ b,
      (objectAndCode.play [.release ⟨1, 0⟩]).engine.heap.get? ⟨4, 0⟩ = some b ∧
      b.payload = .closure ⟨.functional ⟨1, 0⟩, none, none⟩ := ⟨_, rfl, rfl⟩
  obtain ⟨a, ha, hsame⟩ : ∃ a, objectAndCode.engine.heap.get? ⟨4, 0⟩ = some a ∧
      a.serial = b.serial := by
    cases hb
    exact ⟨_, rfl, rfl⟩
  obtain ⟨h, hpin, -, hiff⟩ := stillRuns_iff hr hs ha hb hsame.symm hcl trivial
  cases hpin
  exact ⟨hr, hs, hiff.2 (.inr (by decide +kernel))⟩

/-- A client that made a program and anonymous code compiled into it. -/
def codeAlone : Client :=
  (fresh {}).play [.newProgram { filename := "a.c" }, .newClosure (.functional ⟨1, 0⟩) none []]

/-- When the client gives its reference to the program back, the code is there and the program it
pins is not. -/
theorem not_stillRuns_codeAlone :
    Reachable (fun _ => true) codeAlone ∧
    Steps (fun _ => true) codeAlone (codeAlone.play [.release ⟨1, 0⟩]) ∧
    (∃ p, codeAlone.engine.program ⟨1, 0⟩ = .ok p ∧ p.pins = 1) ∧
    (∃ b, (codeAlone.play [.release ⟨1, 0⟩]).engine.heap.get? ⟨2, 0⟩ = some b ∧
      b.payload = .closure ⟨.functional ⟨1, 0⟩, none, none⟩) ∧
    ¬ codeAlone.engine.StillRuns (codeAlone.play [.release ⟨1, 0⟩]).engine ⟨1, 0⟩ := by
  refine ⟨⟨{}, steps_play (by decide +kernel)⟩, steps_play (by decide +kernel), ⟨_, rfl, rfl⟩,
    ⟨_, rfl, rfl⟩, ?_⟩
  rintro ⟨-, b, -, -, hb, -⟩
  have hnone : (codeAlone.play [.release ⟨1, 0⟩]).engine.heap.get? ⟨1, 0⟩ = none := by
    decide +kernel
  rw [hnone] at hb
  cases hb

end Client

end HeapAudit
