import HeapAudit.Proofs.Engine.DriverRoots

/-!
Clients that follow the references they hold.

A client keeps a ledger of its references. What a command takes over has to be in the ledger, each
reference once for every use, and what the command hands out goes into it. Everything else a
command is given is only a handle: it may be stale or name a block of any category.

Main definitions
* `Command`, `Command.run`, `Command.spent`, `Command.gained`: what a client can do, and what it
  gives and gets.
* `Client.Step`, `Client.Reachable`: runs, of any length, from a fresh engine.

Main statements
* `Command.leads`: every command keeps the engine in order.
* `Client.InOrder.steps`: so does every run, and blocks stay the same for as long as they live.
* `Client.Reachable.step_of_few`: until generations wrap, what can be paid for can be done.
* `Client.Reachable.plain`: clients of the helpers alone leave nothing behind.
-/

namespace HeapAudit

open Reference

/-! ## Commands -/

inductive Command where
  | newShared (text : String)
  | newPrivate (text : String)
  | newArray (items : List Value)
  | newClass (members : List Value)
  | newBuffer (content : List UInt8)
  | newMapping (pairs : List (Value × Value))
  | newClosure (kind : ClosureKind) (owner : Option Handle) (args : List Value)
  | cloneValue (v : Value)
  | retain (h : Handle)
  | releaseValue (v : Value)
  | release (h : Handle)
  | newProgram (source : ProgramSource)
  | newObject (name : String) (program : Handle)
  | objectValue (ob : Handle)
  | setVariable (ob : Handle) (index : Nat) (v : Value)
  | setLabel (ob : Handle) (label : Engine.ObjectLabel) (text : Option String)
  | swapOut (ob : Handle)
  | destruct (ob : Handle)
  | flushDestructed
  | addAction (ob : Handle) (function verb : String)
  | addActionClosure (ob : Handle) (v : Value) (verb : String)
  | connect (ob : Handle)
  | disconnect (session : Handle)
  | setInput (session : Handle) (function : String) (carried : List Value)
  | clearInput (session : Handle)
  | setFailMessage (session : Handle) (text : String)
  | setFailClosure (session closure : Handle)
  | callOut (ob : Handle) (function : String) (args : List Value) (delay : Nat)
  | removeCallOut (call : Handle)
  | push (v : Value)
  | pop
  | setApplyReturn (v : Value)
  | setMaster (ob : Handle)
  | setSimulOwner (ob : Handle)
  | pushCommandGiver (ob : Handle)
  | popCommandGiver
  | addConfigString (text : String)
  | setDefaultFail (text : Option String)
  | addSimulName (name : String)
  | addPredefine (name : String)
  | cacheAddressName (name : String)
  | newIdentTable (buckets : Nat) (entries : List (String × IdentKind))
  | configure (settings : Settings)
  | register (p : Provider)
  | unregister (name : String)
  | allocateBlock (category : Category) (size : Nat) (description : String)

namespace Command

def run (e : Engine) : Command → Engine
  | newShared text => (e.newShared text).1
  | newPrivate text => (e.newPrivate text).1
  | newArray items => (e.newArray items).1
  | newClass members => (e.newClass members).1
  | newBuffer content => (e.newBuffer content).1
  | newMapping pairs => (e.newMapping pairs).1
  | newClosure kind owner args => (e.newClosure kind owner args).1
  | cloneValue v => (e.cloneValue v).1
  | retain h => (e.retain h).1
  | releaseValue v => e.releaseValue v
  | release h => e.release h
  | newProgram source => (e.newProgram source).1
  | newObject name program => (e.newObject name program).1
  | objectValue ob => (e.objectValue ob).1
  | setVariable ob index v => (e.setVariable ob index v).1
  | setLabel ob label text => (e.setLabel ob label text).1
  | swapOut ob => (e.swapOut ob).1
  | destruct ob => (e.destruct ob).1
  | flushDestructed => e.flushDestructed
  | addAction ob function verb => (e.addAction ob function verb).1
  | addActionClosure ob v verb => (e.addActionClosure ob v verb).1
  | connect ob => (e.connect ob).1
  | disconnect session => (e.disconnect session).1
  | setInput session function carried => (e.setInput session function carried).1
  | clearInput session => (e.clearInput session).1
  | setFailMessage session text => (e.setFailMessage session text).1
  | setFailClosure session closure => (e.setFailClosure session closure).1
  | callOut ob function args delay => (e.callOut ob function args delay).1
  | removeCallOut call => (e.removeCallOut call).1
  | push v => e.push v
  | pop => e.pop.1
  | setApplyReturn v => e.setApplyReturn v
  | setMaster ob => (e.setMaster ob).1
  | setSimulOwner ob => (e.setSimulOwner ob).1
  | pushCommandGiver ob => (e.pushCommandGiver ob).1
  | popCommandGiver => e.popCommandGiver
  | addConfigString text => (e.addConfigString text).1
  | setDefaultFail text => e.setDefaultFail text
  | addSimulName name => (e.addSimulName name).1
  | addPredefine name => (e.addPredefine name).1
  | cacheAddressName name => (e.cacheAddressName name).1
  | newIdentTable buckets entries => (e.newIdentTable buckets entries).1
  | configure settings => { e with settings }
  | register p => e.register p
  | unregister name => e.unregister name
  | allocateBlock category size description => (e.allocateBlock category size description).1

/-- The references a command takes over. A release of what is gone takes nothing. -/
def spent (e : Engine) : Command → Multiset Reference
  | newArray items => ↑(ofValues items)
  | newClass members => ↑(ofValues members)
  | newMapping pairs => ↑(ofValues (Engine.pairValues pairs))
  | newClosure _ _ args => ↑(ofValues args)
  | releaseValue v | setVariable _ _ v | addActionClosure _ v _ | push v | setApplyReturn v =>
    ↑(ofValues [v])
  | release h => (e.heap.get? h).elim 0 fun b => {.counted h b.category}
  | setInput _ _ carried => ↑(ofValues carried)
  | setFailClosure session closure =>
    Engine.spentClosure closure (e.setFailClosure session closure).2
  | callOut _ _ args _ => ↑(ofValues args)
  | _ => 0

/-- The references a command hands out. A second reference to a block is of its category. -/
def gained (e : Engine) : Command → Multiset Reference
  | newShared text => ↑(ofValues [(e.newShared text).2])
  | newPrivate text => ↑(ofValues [(e.newPrivate text).2])
  | newArray items => ↑(ofValues [(e.newArray items).2])
  | newClass members => ↑(ofValues [(e.newClass members).2])
  | newBuffer content => ↑(ofValues [(e.newBuffer content).2])
  | newMapping pairs => ↑(ofValues [(e.newMapping pairs).2])
  | newClosure kind owner args => Engine.gainedValue (e.newClosure kind owner args).2
  | cloneValue v => v.target?.elim 0 e.retained
  | retain h => e.retained h
  | newProgram source => Engine.gainedProgram (e.newProgram source).2
  | objectValue ob => Engine.gainedValue (e.objectValue ob).2
  | pop => ↑(ofValues e.pop.2.toList)
  | _ => 0

/-- Commands that leave no block without a payload. -/
def isHelper : Command → Bool
  | allocateBlock .. => false
  | _ => true

end Command

namespace Engine

variable {e : Engine} {client : Multiset Reference}

theorem Leads.free {next : Engine} (hl : e.Leads next client) : e.Leads next (0 + client) :=
  hl.of_eq (zero_add client).symm

theorem leads_releaseHeld {h : Handle}
    (hc : e.Consistent ((e.heap.get? h).elim 0 (fun b => {.counted h b.category}) + client)) :
    e.Leads (e.release h) client := by
  cases hb : e.heap.get? h with
  | none =>
    rw [hb] at hc
    have hsame : e.release h = e := by
      simp only [release_eq, drop, hb]
    rw [hsame]
    exact (hc.of_eq (zero_add client)).leads
  | some b =>
    rw [hb] at hc
    exact leads_release hc

/-- A fresh engine holds nothing, and nothing is held of it. -/
theorem consistent_fresh (settings : Settings) : Consistent { settings } 0 := by
  have hnone : ∀ h b, Heap.empty.get? h ≠ some b := fun h b => by simp [Heap.get?, Heap.empty]
  have hslots : Heap.empty.heldRefs = 0 := by
    refine Multiset.eq_zero_of_forall_notMem fun ref hr => ?_
    obtain ⟨h, b, hb, -⟩ := Heap.mem_heldRefs.1 hr
    exact hnone h b hb
  have hroots : rootRefs { settings } = 0 := by
    rw [rootRefs_eq]
    rfl
  have hbalanced : Heap.empty.Balanced 0 := by
    refine ⟨by simp, by simp, ?_, ?_, ?_⟩
    · exact fun h b hb => absurd hb (hnone h b)
    · exact fun h b hb => absurd hb (hnone h b)
    · exact fun h b p hb => absurd hb (hnone h b)
  have hbound : Heap.empty.Bounded := fun i g hg => by simp [Heap.generation?, Heap.empty] at hg
  refine ⟨⟨fun h b hb => absurd hb (hnone h b), fun h b c hb => absurd hb (hnone h b), hbound, ?_⟩,
    ⟨rfl, rfl, ?_⟩, by simp, rfl⟩
  · rw [hslots, hroots, zero_add, zero_add]
    exact hbalanced
  · intro text h
    simp [StringTable.find?]

/-- Settings and providers are no part of what an engine holds. -/
theorem leads_withSettings (hc : e.Consistent client) (settings : Settings)
    (providers : List Provider) : e.Leads { e with settings, providers } client :=
  Yields.leads ⟨hc.withSettings settings providers, .refl _, id⟩ (.refl _)

end Engine

namespace Command

open Engine

variable {e : Engine} {client : Multiset Reference}

/-- What a command does to the engine. The two that end a session or a timer may be given one that
hangs on nothing. -/
theorem leads_or (cmd : Command) (hh : cmd.isHelper)
    (hclient : ∀ ref ∈ client, ref.hold ≠ .pinned) (hc : e.Consistent (cmd.spent e + client))
    (hu : (cmd.run e).heap.issued ≤ 2 ^ 32 ∨ (cmd.run e).heap.Unaliased) :
    e.Leads (cmd.run e) (cmd.gained e + client) ∨
      ∃ h c, e.Leads (cmd.run e) (cmd.gained e + client.erase (.owned h c)) := by
  have hfree : cmd.spent e = 0 → e.Consistent client := fun hs =>
    hc.of_eq (by rw [hs, zero_add])
  cases cmd with
  | newShared text =>
    exact .inl ((leads_intern (hfree rfl) text).of_eq (Multiset.singleton_add _ _).symm)
  | newPrivate text =>
    exact .inl ((leads_newPrivate (hfree rfl) text).of_eq (Multiset.singleton_add _ _).symm)
  | newArray items => exact .inl (leads_newArray hc)
  | newClass members => exact .inl (leads_newClass hc)
  | newBuffer content => exact .inl (leads_newBuffer (hfree rfl) content)
  | newMapping pairs => exact .inl (leads_newMapping hc)
  | newClosure kind owner args => exact .inl (leads_newClosure hc)
  | cloneValue v => exact .inl (leads_cloneValue (hfree rfl) v)
  | retain h => exact .inl (leads_retain (hfree rfl) h)
  | releaseValue v => exact .inl (leads_releaseValue hc).free
  | release h => exact .inl (leads_releaseHeld hc).free
  | newProgram source => exact .inl (leads_newProgram (hfree rfl) hclient source hu)
  | newObject name program => exact .inl (leads_newObject (hfree rfl) name program).free
  | objectValue ob => exact .inl (leads_objectValue (hfree rfl) ob)
  | setVariable ob index v => exact .inl (leads_setVariable hc).free
  | setLabel ob label text => exact .inl (leads_setLabel (hfree rfl) label text).free
  | swapOut ob => exact .inl (leads_swapOut (hfree rfl)).free
  | destruct ob => exact .inl (leads_destruct (hfree rfl) ob).free
  | flushDestructed => exact .inl (leads_flushDestructed (hfree rfl)).free
  | addAction ob function verb =>
    exact .inl (leads_addAction (hfree rfl) ob function verb).free
  | addActionClosure ob v verb => exact .inl (leads_addActionClosure hc ob verb).free
  | connect ob => exact .inl (leads_connect (hfree rfl) ob).free
  | disconnect session =>
    refine (leads_disconnect (hfree rfl) session).imp Leads.free fun hl => ?_
    exact ⟨session, .interactive, hl.free⟩
  | setInput session function carried => exact .inl (leads_setInput hc).free
  | clearInput session => exact .inl (leads_clearInput (hfree rfl) session).free
  | setFailMessage session text =>
    exact .inl (leads_setFailMessage (hfree rfl) session text).free
  | setFailClosure session closure => exact .inl (leads_setFailClosure session closure hc).free
  | callOut ob function args delay => exact .inl (leads_callOut hc ob function delay).free
  | removeCallOut call =>
    refine (leads_removeCallOut (hfree rfl) call).imp Leads.free fun hl => ?_
    exact ⟨call, .callOut, hl.free⟩
  | push v => exact .inl (leads_push hc).free
  | pop => exact .inl (leads_pop (hfree rfl))
  | setApplyReturn v => exact .inl (leads_setApplyReturn hc).free
  | setMaster ob => exact .inl (leads_setMaster (hfree rfl) ob).free
  | setSimulOwner ob => exact .inl (leads_setSimulOwner (hfree rfl) ob).free
  | pushCommandGiver ob => exact .inl (leads_pushCommandGiver (hfree rfl) ob).free
  | popCommandGiver => exact .inl (leads_popCommandGiver (hfree rfl)).free
  | addConfigString text => exact .inl (leads_addConfigString (hfree rfl) text).free
  | setDefaultFail text => exact .inl (leads_setDefaultFail (hfree rfl) text).free
  | addSimulName name => exact .inl (leads_addSimulName (hfree rfl) name).free
  | addPredefine name => exact .inl (leads_addPredefine (hfree rfl) name).free
  | cacheAddressName name => exact .inl (leads_cacheAddressName (hfree rfl) name).free
  | newIdentTable buckets entries =>
    exact .inl (leads_newIdentTable (hfree rfl) buckets entries).free
  | configure settings => exact .inl (leads_withSettings (hfree rfl) settings e.providers).free
  | register p =>
    refine .inl (Leads.free ?_)
    show e.Leads (e.register p) client
    unfold Engine.register
    split
    · exact leads_withSettings (hfree rfl) e.settings _
    · exact leads_withSettings (hfree rfl) e.settings _
  | unregister name => exact .inl (leads_withSettings (hfree rfl) e.settings _).free
  | allocateBlock category size description => cases hh

theorem hold_of_mem_retained {h : Handle} {ref : Reference} (hr : ref ∈ e.retained h) :
    ref.hold = .counted := by
  unfold retained at hr
  split at hr
  · cases hr
  · split at hr
    · rw [Multiset.mem_singleton.1 hr]
      rfl
    · cases hr

theorem hold_of_mem_gained {cmd : Command} {ref : Reference} (hr : ref ∈ cmd.gained e) :
    ref.hold = .counted := by
  have hvalue : ∀ r : Except EngineError Value, ref ∈ gainedValue r → ref.hold = .counted := by
    rintro (err | v) hv
    · cases hv
    · exact hold_of_mem_ofValues hv
  cases cmd with
  | newClosure kind owner args => exact hvalue _ hr
  | objectValue ob => exact hvalue _ hr
  | retain h => exact hold_of_mem_retained hr
  | cloneValue v =>
    cases hv : v.target? with
    | none => simp [gained, hv] at hr
    | some h => exact hold_of_mem_retained (h := h) (by simpa [gained, hv] using hr)
  | newProgram source =>
    simp only [gained] at hr
    cases hp : (e.newProgram source).2 with
    | error err => simp [hp, gainedProgram] at hr
    | ok h =>
      rw [hp] at hr
      rw [Multiset.mem_singleton.1 hr]
      rfl
  | newShared | newPrivate | newArray | newClass | newBuffer | newMapping | pop =>
    exact hold_of_mem_ofValues (Multiset.mem_coe.1 hr)
  | _ => cases hr

/-- Commands keep the engine in order. Next to what the client holds there may be owners that hang
on nothing; none is added. -/
theorem leads (cmd : Command) (hh : cmd.isHelper) {left stray : Multiset Reference}
    (hleft : ∀ ref ∈ left, ref.hold = .counted) (hstray : ∀ ref ∈ stray, ref.hold = .owned)
    (hc : e.Consistent (cmd.spent e + (left + stray)))
    (hu : (cmd.run e).heap.issued ≤ 2 ^ 32 ∨ (cmd.run e).heap.Unaliased) :
    ∃ rest ≤ stray, e.Leads (cmd.run e) (cmd.gained e + (left + rest)) := by
  have hclient : ∀ ref ∈ left + stray, ref.hold ≠ .pinned := by
    intro ref hr
    rcases Multiset.mem_add.1 hr with hr | hr
    · simp [hleft ref hr]
    · simp [hstray ref hr]
  rcases cmd.leads_or hh hclient hc hu with hl | ⟨h, c, hl⟩
  · exact ⟨stray, le_rfl, hl⟩
  · have hnot : .owned h c ∉ left := fun hm => by simpa [owned] using hleft _ hm
    rw [Multiset.erase_add_right_neg _ hnot] at hl
    exact ⟨stray.erase (.owned h c), Multiset.erase_le _ _, hl⟩

end Command

/-! ## Clients -/

/-- An engine, and the references its client holds. -/
structure Client where
  engine : Engine
  ledger : Multiset Reference

namespace Client

/-- Nothing has been made and nothing is held. -/
def fresh (settings : Settings) : Client := ⟨{ settings }, 0⟩

def after (c : Client) (cmd : Command) : Client :=
  ⟨cmd.run c.engine, c.ledger - cmd.spent c.engine + cmd.gained c.engine⟩

/-- One command of those allowed, paid for out of the ledger. Generations are 32-bit words: once a
slot has been used that often, a closure's handle could come to name another program than the one
it was compiled into, and there the run ends. -/
inductive Step (allowed : Command → Bool) (c : Client) : Client → Prop
  | command (cmd : Command) (ha : allowed cmd) (hpaid : cmd.spent c.engine ≤ c.ledger)
      (hu : (cmd.run c.engine).heap.Unaliased) : Step allowed c (c.after cmd)

/-- Any number of steps. -/
abbrev Steps (allowed : Command → Bool) : Client → Client → Prop :=
  Relation.ReflTransGen (Step allowed)

def Reachable (allowed : Command → Bool) (c : Client) : Prop :=
  ∃ settings, Steps allowed (fresh settings) c

/-! ## Given runs -/

def play : Client → List Command → Client
  | c, [] => c
  | c, cmd :: rest => (c.after cmd).play rest

/-- Whether all of a list of commands can be done one after the other. -/
def Permits (allowed : Command → Bool) : Client → List Command → Prop
  | _, [] => True
  | c, cmd :: rest =>
    allowed cmd ∧ cmd.spent c.engine ≤ c.ledger ∧ (cmd.run c.engine).heap.Unaliased ∧
      (c.after cmd).Permits allowed rest

instance decidablePermits (allowed : Command → Bool) :
    (c : Client) → (cmds : List Command) → Decidable (c.Permits allowed cmds)
  | _, [] => inferInstanceAs (Decidable True)
  | c, cmd :: rest =>
    have := decidablePermits allowed (c.after cmd) rest
    inferInstanceAs (Decidable (allowed cmd ∧ cmd.spent c.engine ≤ c.ledger ∧
      (cmd.run c.engine).heap.Unaliased ∧ (c.after cmd).Permits allowed rest))

theorem steps_play {allowed : Command → Bool} {c : Client} {cmds : List Command}
    (hp : c.Permits allowed cmds) : Steps allowed c (c.play cmds) := by
  induction cmds generalizing c with
  | nil => exact .refl
  | cons cmd rest ih =>
    obtain ⟨ha, hpaid, hu, hrest⟩ := hp
    exact .head ⟨cmd, ha, hpaid, hu⟩ (ih hrest)

/-! ## Every run -/

/-- The ledger holds counted references, and with it and owners that hang on nothing the engine is
in order. -/
structure InOrder (c : Client) (stray : Multiset Reference) : Prop where
  counted : ∀ ref ∈ c.ledger, ref.hold = .counted
  owned : ∀ ref ∈ stray, ref.hold = .owned
  consistent : c.engine.Consistent (c.ledger + stray)

variable {allowed : Command → Bool} {c d : Client} {stray : Multiset Reference}

theorem inOrder_fresh (settings : Settings) : (fresh settings).InOrder 0 :=
  ⟨by simp [fresh], by simp, Engine.consistent_fresh settings⟩

theorem counted_after (hi : c.InOrder stray) (cmd : Command) :
    ∀ ref ∈ (c.after cmd).ledger, ref.hold = .counted := by
  intro ref hr
  rcases Multiset.mem_add.1 hr with hr | hr
  · exact hi.counted ref (Multiset.mem_of_le (Multiset.sub_le_self _ _) hr)
  · exact Command.hold_of_mem_gained hr

/-- One step of a client that leaves no block without a payload. -/
theorem InOrder.leads (hi : c.InOrder stray) {cmd : Command} (hh : cmd.isHelper)
    (hpaid : cmd.spent c.engine ≤ c.ledger)
    (hu : (cmd.run c.engine).heap.issued ≤ 2 ^ 32 ∨ (cmd.run c.engine).heap.Unaliased) :
    ∃ rest ≤ stray, c.engine.Leads (c.after cmd).engine ((c.after cmd).ledger + rest) := by
  have hc : c.engine.Consistent (cmd.spent c.engine + (c.ledger - cmd.spent c.engine + stray)) :=
    hi.consistent.of_eq (by rw [← add_assoc, add_tsub_cancel_of_le hpaid])
  obtain ⟨rest, hle, hl⟩ := cmd.leads hh
    (fun ref hr => hi.counted ref (Multiset.mem_of_le (Multiset.sub_le_self _ _) hr)) hi.owned hc hu
  refine ⟨rest, hle, hl.of_eq ?_⟩
  rw [add_left_comm, ← add_assoc]
  rfl

theorem InOrder.after (hi : c.InOrder stray) {cmd : Command} (hh : cmd.isHelper)
    (hpaid : cmd.spent c.engine ≤ c.ledger)
    (hu : (cmd.run c.engine).heap.issued ≤ 2 ^ 32 ∨ (cmd.run c.engine).heap.Unaliased) :
    ∃ rest ≤ stray, (c.after cmd).InOrder rest ∧ c.engine.heap.Later (c.after cmd).engine.heap ∧
      (c.engine.heap.Plain → (c.after cmd).engine.heap.Plain) := by
  obtain ⟨rest, hle, hl⟩ := hi.leads hh hpaid hu
  exact ⟨rest, hle, ⟨counted_after hi cmd,
    fun ref hr => hi.owned ref (Multiset.mem_of_le hle hr), hl.consistent⟩, hl.later, hl.plain⟩

/-- A block without a payload may be owned; then it hangs on nothing. -/
theorem InOrder.after_allocateBlock (hi : c.InOrder stray) (category : Category) (size : Nat)
    (description : String) :
    (c.after (.allocateBlock category size description)).InOrder
        (category.firstReference .blank c.engine.heap.nextHandle + stray) ∧
      c.engine.heap.Later (c.after (.allocateBlock category size description)).engine.heap := by
  obtain ⟨hc, hl⟩ := Engine.consistent_allocateBlock hi.consistent category size description
  refine ⟨⟨counted_after hi _, ?_, hc.of_eq ?_⟩, hl⟩
  · intro ref hr
    rcases Multiset.mem_add.1 hr with hr | hr
    · exact Category.owned_of_mem_firstReference_blank hr
    · exact hi.owned ref hr
  · simp only [Client.after, Command.spent, Command.gained]
    rw [tsub_zero, add_zero, add_left_comm]

theorem InOrder.after_any (hi : c.InOrder stray) {cmd : Command}
    (hpaid : cmd.spent c.engine ≤ c.ledger)
    (hu : (cmd.run c.engine).heap.issued ≤ 2 ^ 32 ∨ (cmd.run c.engine).heap.Unaliased) :
    ∃ rest, (c.after cmd).InOrder rest ∧ c.engine.heap.Later (c.after cmd).engine.heap := by
  by_cases hh : cmd.isHelper
  · obtain ⟨rest, -, hd, hl, -⟩ := hi.after hh hpaid hu
    exact ⟨rest, hd, hl⟩
  · cases cmd with
    | allocateBlock category size description =>
      exact ⟨_, hi.after_allocateBlock category size description⟩
    | _ => cases hh rfl

theorem InOrder.steps (hi : c.InOrder stray) (hs : Steps allowed c d) :
    ∃ rest, d.InOrder rest ∧ c.engine.heap.Later d.engine.heap := by
  induction hs with
  | refl => exact ⟨stray, hi, .refl _⟩
  | tail _ hstep ih =>
    obtain ⟨mid, hmid, hlater⟩ := ih
    obtain ⟨cmd, -, hpaid, hu⟩ := hstep
    obtain ⟨rest, hd, hl⟩ := hmid.after_any hpaid (.inr hu)
    exact ⟨rest, hd, hlater.trans hl⟩

theorem Reachable.inOrder (hr : Reachable allowed c) : ∃ stray, c.InOrder stray := by
  obtain ⟨settings, hs⟩ := hr
  obtain ⟨stray, hi, -⟩ := (inOrder_fresh settings).steps hs
  exact ⟨stray, hi⟩

theorem Reachable.steps (hr : Reachable allowed c) (hs : Steps allowed c d) :
    Reachable allowed d := by
  obtain ⟨settings, hc⟩ := hr
  exact ⟨settings, hc.trans hs⟩

theorem Reachable.unaliased (hr : Reachable allowed c) : c.engine.heap.Unaliased := by
  obtain ⟨settings, hs⟩ := hr
  cases hs with
  | refl =>
    intro k b d p q hb
    simp [fresh] at hb
  | tail _ hstep =>
    obtain ⟨cmd, -, -, hu⟩ := hstep
    exact hu

/-- While no more blocks were made than a generation counts, every command that can be paid for is
a step. -/
theorem Reachable.step_of_few (hr : Reachable allowed c) {cmd : Command} (ha : allowed cmd)
    (hpaid : cmd.spent c.engine ≤ c.ledger) (hfew : (cmd.run c.engine).heap.issued ≤ 2 ^ 32) :
    Step allowed c (c.after cmd) := by
  obtain ⟨stray, hi⟩ := hr.inOrder
  obtain ⟨rest, hd, -⟩ := hi.after_any hpaid (.inl hfew)
  exact ⟨cmd, ha, hpaid, hd.consistent.unaliased hfew⟩

/-- A client of helpers alone leaves nothing behind that hangs on nothing, and no block without
its payload. -/
theorem Reachable.plain (hr : Reachable Command.isHelper c) :
    c.InOrder 0 ∧ c.engine.heap.Plain := by
  obtain ⟨settings, hs⟩ := hr
  induction hs with
  | refl =>
    refine ⟨inOrder_fresh settings, fun h b hb => ?_⟩
    simp [fresh, Heap.get?, Heap.empty] at hb
  | tail _ hstep ih =>
    obtain ⟨hi, hp⟩ := ih
    obtain ⟨cmd, hh, hpaid, hu⟩ := hstep
    obtain ⟨rest, hle, hd, -, hplain⟩ := hi.after hh hpaid (.inr hu)
    rw [Multiset.le_zero.1 hle] at hd
    exact ⟨hd, hplain hp⟩

end Client

end HeapAudit
