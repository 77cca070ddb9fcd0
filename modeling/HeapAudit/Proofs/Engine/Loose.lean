import HeapAudit.Proofs.Engine.Inheritance
import HeapAudit.Proofs.Heap.Sweep

/-!
Loose engines: every closure calls built-in code, and no program is pinned. What a release does
has nothing to do with the code that closures call, so a loose engine does the same.

Main definitions
* `Payload.loose`, `Heap.loose`, `Engine.loose`: without what closures pin.

Main statements
* `Engine.program_loose` and its like: what look-ups find in a loose engine.
* `Engine.release_loose`, `Engine.discard_loose`: releases, in step with the engine.
-/

namespace HeapAudit

/-! ## Loose blocks -/

/-- The closure calls built-in code, which pins nothing. -/
def Closure.loose (c : Closure) : Closure := { c with kind := .builtin 0 }

/-- Reducible, so that simp sees which payloads are loose as they are. -/
@[reducible] def Payload.loose : Payload → Payload
  | .closure c => .closure c.loose
  | .program p => .program p.withoutPins
  | p => p

def Block.loose (b : Block) : Block := { b with payload := b.payload.loose }

@[simp] theorem Payload.footprint_loose (p : Payload) : p.loose.footprint = p.footprint := by
  cases p <;> rfl

@[simp] theorem Payload.stringCost?_loose (p : Payload) : p.loose.stringCost? = p.stringCost? := by
  cases p <;> rfl

namespace Heap

def loose (heap : Heap) : Heap := heap.mapBlocks Block.loose

@[simp] theorem get?_loose (heap : Heap) (h : Handle) :
    heap.loose.get? h = (heap.get? h).map Block.loose :=
  heap.get?_mapBlocks _ h

@[simp] theorem payload?_loose (heap : Heap) (h : Handle) :
    heap.loose.payload? h = (heap.payload? h).map Payload.loose := by
  simp only [payload?, get?_loose, Option.map_map]
  rfl

@[simp] theorem isLive_loose (heap : Heap) (h : Handle) : heap.loose.isLive h = heap.isLive h := by
  simp only [isLive, get?_loose, Option.isSome_map]

@[simp] theorem tick_loose (heap : Heap) : heap.loose.tick = heap.tick := rfl

@[simp] theorem live_loose (heap : Heap) : heap.loose.live = heap.live :=
  heap.live_mapBlocks _

@[simp] theorem incRef_loose (heap : Heap) (h : Handle) :
    heap.loose.incRef h = (heap.incRef h).loose :=
  update_mapBlocks (fun _ => by rfl) h

@[simp] theorem decRef_loose (heap : Heap) (h : Handle) :
    heap.loose.decRef h = ((heap.decRef h).1.map Block.loose, (heap.decRef h).2.loose) :=
  decRef_mapBlocks (fun _ => by rfl) (fun _ _ => by rfl) h

@[simp] theorem remove_loose (heap : Heap) (h : Handle) :
    heap.loose.remove h = (heap.remove h).map fun r => (r.1.loose, r.2.loose) :=
  heap.remove_mapBlocks _ h

theorem setPayload_loose (heap : Heap) (h : Handle) (payload : Payload) :
    heap.loose.setPayload h payload.loose = (heap.setPayload h payload).loose :=
  update_mapBlocks (fun _ => by rfl) h

theorem allocateSized_loose (heap : Heap) (category : Category) (payload : Payload) (size : Nat)
    (description : String) :
    heap.loose.allocateSized category payload.loose size description =
      ((heap.allocateSized category payload size description).1.loose,
        (heap.allocateSized category payload size description).2) :=
  allocateSized_mapBlocks (fun b hb => by rw [← hb]; rfl) category size description

theorem allocate_loose (heap : Heap) (category : Category) (payload : Payload)
    (description : String) :
    heap.loose.allocate category payload.loose description =
      ((heap.allocate category payload description).1.loose,
        (heap.allocate category payload description).2) := by
  rw [allocate, Payload.footprint_loose]
  exact heap.allocateSized_loose category payload _ description

@[simp] theorem allocateSized_loose_of_eq (heap : Heap) (category : Category) {payload : Payload}
    (hp : payload.loose = payload) (size : Nat) (description : String) :
    heap.loose.allocateSized category payload size description =
      ((heap.allocateSized category payload size description).1.loose,
        (heap.allocateSized category payload size description).2) := by
  have h := heap.allocateSized_loose category payload size description
  rwa [hp] at h

@[simp] theorem allocate_loose_of_eq (heap : Heap) (category : Category) {payload : Payload}
    (hp : payload.loose = payload) (description : String) :
    heap.loose.allocate category payload description =
      ((heap.allocate category payload description).1.loose,
        (heap.allocate category payload description).2) :=
  heap.allocateSized_loose_of_eq category hp _ description

end Heap

namespace Engine

/-- The engine as it is but for what closures pin. -/
def loose (e : Engine) : Engine := { e with heap := e.heap.loose }

/-- What an operation leaves, with loose closures, and its answer. -/
def looseResult {α : Type} (r : Engine × α) : Engine × α := (r.1.loose, r.2)

variable {α : Type} {e next : Engine} {h : Handle}

@[simp] theorem looseResult_mk (e : Engine) (a : α) : looseResult (e, a) = (e.loose, a) := rfl

@[simp] theorem looseResult_fst (r : Engine × α) : (looseResult r).1 = r.1.loose := rfl

@[simp] theorem looseResult_snd (r : Engine × α) : (looseResult r).2 = r.2 := rfl

@[simp] theorem loose_heap (e : Engine) : e.loose.heap = e.heap.loose := rfl

@[simp] theorem loose_strings (e : Engine) : e.loose.strings = e.strings := rfl

@[simp] theorem loose_roots (e : Engine) : e.loose.roots = e.roots := rfl

@[simp] theorem loose_counters (e : Engine) : e.loose.counters = e.counters := rfl

@[simp] theorem loose_settings (e : Engine) : e.loose.settings = e.settings := rfl

@[simp] theorem loose_providers (e : Engine) : e.loose.providers = e.providers := rfl

@[simp] theorem mk_loose (heap : Heap) (strings : StringTable) (roots : Roots)
    (counters : Counters) (settings : Settings) (providers : List Provider) :
    Engine.mk heap.loose strings roots counters settings providers =
      (Engine.mk heap strings roots counters settings providers).loose := rfl

@[simp] theorem setHeap_loose (e : Engine) (heap : Heap) :
    e.loose.setHeap heap.loose = (e.setHeap heap).loose := rfl

/-! ## Look-ups -/

theorem block_loose (e : Engine) (h : Handle) (c : Category) :
    e.loose.block h c = (e.block h c).map Block.loose := by
  unfold block
  rw [loose_heap, Heap.get?_loose]
  cases e.heap.get? h with
  | none => rfl
  | some b =>
    simp only [Option.map_some]
    show (if b.category = c then _ else _) = _
    split <;> rfl

theorem payloadAs_loose {view : Payload → Option α} {f : α → α}
    (hv : ∀ p, view p.loose = (view p).map f) (e : Engine) (h : Handle) (c : Category) :
    e.loose.payloadAs h c view = (e.payloadAs h c view).map f := by
  unfold payloadAs
  rw [block_loose]
  cases e.block h c with
  | error err => rfl
  | ok b =>
    simp only [Except.map]
    rw [show b.loose.payload = b.payload.loose from rfl, hv]
    cases view b.payload <;> rfl

@[simp] theorem program_loose (e : Engine) (h : Handle) :
    e.loose.program h = (e.program h).map Program.withoutPins :=
  payloadAs_loose (fun p => by cases p <;> rfl) e h _

@[simp] theorem object_loose (e : Engine) (h : Handle) : e.loose.object h = e.object h := by
  refine (payloadAs_loose (f := id) (fun p => by cases p <;> rfl) e h _).trans ?_
  rw [Except.map_id]
  rfl

@[simp] theorem session_loose (e : Engine) (h : Handle) : e.loose.session h = e.session h := by
  refine (payloadAs_loose (f := id) (fun p => by cases p <;> rfl) e h _).trans ?_
  rw [Except.map_id]
  rfl

@[simp] theorem sizeOf_loose (e : Engine) (h : Handle) : e.loose.sizeOf h = e.sizeOf h := by
  simp only [sizeOf, loose_heap, Heap.get?_loose, Option.map_map]
  rfl

/-! ## Changes -/

@[simp] theorem setObject_loose (e : Engine) (h : Handle) (ob : Object) :
    e.loose.setObject h ob = (e.setObject h ob).loose :=
  congrArg e.loose.setHeap (e.heap.setPayload_loose h (.object ob))

@[simp] theorem setSession_loose (e : Engine) (h : Handle) (s : Session) :
    e.loose.setSession h s = (e.setSession h s).loose :=
  congrArg e.loose.setHeap (e.heap.setPayload_loose h (.session s))

@[simp] theorem incRef_loose (e : Engine) (h : Handle) : e.loose.incRef h = (e.incRef h).loose :=
  congrArg e.loose.setHeap (e.heap.incRef_loose h)

/-- Pins do not show in a loose engine. -/
theorem setPins_loose {p : Program} (hp : e.program h = .ok p) (pins : Nat) :
    (e.setProgram h { p with pins }).loose = e.loose := by
  refine congrArg e.loose.setHeap (Heap.mapBlocks_update fun b hb => ?_)
  obtain ⟨c, hc, -, hpay⟩ := program_eq_ok_iff.1 hp
  rw [hb] at hc
  cases hc
  simp only [Block.loose, hpay]
  rfl

@[simp] theorem unpin_loose (e : Engine) (program : Handle) :
    (e.unpin program).loose = e.loose := by
  unfold unpin
  cases hp : e.program program with
  | error err => rfl
  | ok p => exact setPins_loose hp _

theorem pin_loose {program : Option Handle} (hp : e.pin program = .ok next) :
    next.loose = e.loose := by
  cases program with
  | none =>
    cases hp
    rfl
  | some h =>
    cases hprog : e.program h with
    | error err =>
      simp only [pin, hprog, Except.map] at hp
      cases hp
    | ok p =>
      simp only [pin, hprog, Except.map] at hp
      cases hp
      exact setPins_loose hprog _

theorem allocate_loose (e : Engine) (category : Category) (payload : Payload)
    (description : String) :
    e.loose.allocate category payload.loose description =
      looseResult (e.allocate category payload description) := by
  simp only [allocate, loose_heap, Heap.allocate_loose]
  rfl

@[simp] theorem allocate_loose_of_eq (e : Engine) (category : Category) {payload : Payload}
    (hp : payload.loose = payload) (description : String) :
    e.loose.allocate category payload description =
      looseResult (e.allocate category payload description) := by
  have h := e.allocate_loose category payload description
  rwa [hp] at h

@[simp] theorem allocate_program_loose (e : Engine) (category : Category) {p : Program}
    (hp : p.pins = 0) (description : String) :
    e.loose.allocate category (.program p) description =
      looseResult (e.allocate category (.program p) description) := by
  refine e.allocate_loose_of_eq category ?_ description
  show Payload.program p.withoutPins = .program p
  rw [Program.withoutPins, ← hp]

/-! ## Strings -/

@[simp] theorem internNew_loose (t : StringTable) (heap : Heap) (text : String) :
    t.internNew heap.loose text =
      ((t.internNew heap text).1, (t.internNew heap text).2.1.loose,
        (t.internNew heap text).2.2) := by
  have h := heap.allocate_loose .sharedString (.sharedText text) "make_shared_string"
  rw [show (Payload.sharedText text).loose = .sharedText text from rfl] at h
  simp only [StringTable.internNew, h]

@[simp] theorem intern_loose (e : Engine) (text : String) :
    e.loose.intern text = looseResult (e.intern text) := by
  unfold intern StringTable.intern
  simp only [loose_strings, loose_heap, Heap.isLive_loose, internNew_loose, Heap.incRef_loose]
  cases e.strings.find? text with
  | none => rfl
  | some h =>
    simp only
    split <;> rfl

@[simp] theorem internAll_loose (e : Engine) (texts : List String) :
    e.loose.internAll texts = looseResult (e.internAll texts) := by
  induction texts generalizing e with
  | nil => rfl
  | cons text rest ih => simp [internAll_cons, ih]

/-! ## Giving back -/

@[simp] theorem without_loose (c : Counters) (category : Category) (size : Nat) (p : Payload) :
    c.without category size p.loose = c.without category size p := by
  cases p <;> rfl

theorem unaccount_loose (e : Engine) (b : Block) :
    e.loose.unaccount b.loose = (e.unaccount b).loose := by
  have hc : e.loose.counters.without b.loose.category b.loose.size b.loose.payload =
      e.counters.without b.category b.size b.payload :=
    without_loose _ _ _ _
  unfold unaccount
  rw [hc]
  simp only [Block.loose]
  cases hp : b.payload with
  | closure c =>
    simp only
    -- The loose closure pins nothing, so on the left there is nothing to take off.
    show Engine.loose _ = Engine.loose _
    cases pinnedBy { e with counters := e.counters.without b.category b.size (.closure c) } c with
    | none => rfl
    | some program => exact (unpin_loose _ program).symm
  | _ => rfl

theorem redirectParts_loose (heap : Heap) (r : Redirect) : r.parts heap.loose = r.parts heap := by
  unfold Redirect.parts
  rw [Heap.payload?_loose]
  cases heap.payload? r.sentence with
  | none => rfl
  | some p => cases p <;> rfl

theorem parts_loose (heap : Heap) (p : Payload) : p.loose.parts heap.loose = p.parts heap := by
  cases p with
  | session s =>
    show s.parts heap.loose = s.parts heap
    unfold Session.parts
    cases s.redirect with
    | none => rfl
    | some r => simp only [Option.elim_some, redirectParts_loose]
  | _ => rfl

def Cascade.loose (c : Cascade) : Cascade := { c with engine := c.engine.loose }

theorem letGo_loose {apart : Block → Cascade → Cascade}
    (ha : ∀ b c, apart b.loose c.loose = (apart b c).loose) (c : Cascade) (p : Part) :
    c.loose.letGo apart p = (c.letGo apart p).loose := by
  cases p with
  | counted h => rfl
  | owned h =>
    have hr : c.loose.engine.heap.remove h = _ := c.engine.heap.remove_loose h
    simp only [Cascade.letGo]
    rw [hr]
    cases c.engine.heap.remove h with
    | none => rfl
    | some r => exact ha r.1 { c with engine := c.engine.setHeap r.2 }

theorem foldl_letGo_loose {apart : Block → Cascade → Cascade}
    (ha : ∀ b c, apart b.loose c.loose = (apart b c).loose) (parts : List Part) (c : Cascade) :
    parts.foldl (Cascade.letGo apart) c.loose = (parts.foldl (Cascade.letGo apart) c).loose := by
  induction parts generalizing c with
  | nil => rfl
  | cons p ps ih => rw [List.foldl_cons, List.foldl_cons, letGo_loose ha, ih]

theorem dismantleWithin_loose (depth : Nat) (b : Block) (c : Cascade) :
    dismantleWithin depth b.loose c.loose = (dismantleWithin depth b c).loose := by
  induction depth generalizing b c with
  | zero => rfl
  | succ depth ih =>
    have hu : c.loose.engine.unaccount b.loose = (c.engine.unaccount b).loose :=
      c.engine.unaccount_loose b
    have hparts : b.loose.payload.parts (c.engine.unaccount b).loose.heap =
        b.payload.parts (c.engine.unaccount b).heap := parts_loose _ _
    simp only [dismantleWithin]
    rw [hu, hparts]
    exact foldl_letGo_loose ih _ { c with engine := c.engine.unaccount b }

theorem dismantle_loose (b : Block) (c : Cascade) :
    dismantle b.loose c.loose = (dismantle b c).loose := by
  have hl : c.loose.engine.heap.live = c.engine.heap.live := c.engine.heap.live_loose
  unfold dismantle
  rw [hl, dismantleWithin_loose]

theorem forget_loose (t : StringTable) (p : Payload) : t.forget p.loose = t.forget p := by
  cases p <;> rfl

theorem costAt?_loose (heap : Heap) (h : Handle) :
    StringTable.costAt? heap.loose h = StringTable.costAt? heap h := by
  simp only [StringTable.costAt?, Heap.payload?_loose]
  cases heap.payload? h with
  | none => rfl
  | some p => exact p.stringCost?_loose

theorem stringRelease_loose (t : StringTable) (heap : Heap) (h : Handle) :
    t.release heap.loose h = ((t.release heap h).1, (t.release heap h).2.loose) := by
  unfold StringTable.release
  rw [costAt?_loose]
  cases StringTable.costAt? heap h with
  | none => rfl
  | some cost =>
    obtain ⟨gone, rest, hd⟩ : ∃ gone rest, heap.decRef h = (gone, rest) := ⟨_, _, rfl⟩
    simp only [Heap.decRef_loose, hd]
    cases gone with
    | none => rfl
    | some b => exact Prod.ext (forget_loose _ b.payload) rfl

theorem drop_loose (e : Engine) (h : Handle) :
    e.loose.drop h = ((e.drop h).1.map Block.loose, (e.drop h).2.loose) := by
  unfold drop
  rw [loose_heap, Heap.get?_loose]
  cases e.heap.get? h with
  | none => rfl
  | some b =>
    simp only [Option.map_some, loose_strings, stringRelease_loose, Heap.decRef_loose]
    show (if b.category = .sharedString ∨ b.category = .mallocString then _ else _) = _
    split <;> rfl

theorem foldl_loose {f : Engine → Handle → Engine}
    (hf : ∀ e h, f e.loose h = (f e h).loose) (hs : List Handle) (e : Engine) :
    hs.foldl f e.loose = (hs.foldl f e).loose := by
  induction hs generalizing e with
  | nil => rfl
  | cons h hs ih => rw [List.foldl_cons, List.foldl_cons, hf, ih]

theorem releaseWithin_loose (depth : Nat) (e : Engine) (h : Handle) :
    e.loose.releaseWithin depth h = (e.releaseWithin depth h).loose := by
  induction depth generalizing e h with
  | zero => rfl
  | succ depth ih =>
    obtain ⟨gone, left, hd⟩ : ∃ gone left, e.drop h = (gone, left) := ⟨_, _, rfl⟩
    have hl := e.drop_loose h
    rw [hd] at hl
    simp only [releaseWithin, hl, hd]
    cases gone with
    | none => rfl
    | some b =>
      have hc : dismantle b.loose ⟨left.loose, []⟩ = (dismantle b ⟨left, []⟩).loose :=
        dismantle_loose b ⟨left, []⟩
      simp only [Option.map_some]
      rw [hc]
      exact foldl_loose ih _ _

@[simp] theorem release_loose (e : Engine) (h : Handle) :
    e.loose.release h = (e.release h).loose := by
  rw [release, release, loose_heap, Heap.live_loose, releaseWithin_loose]

@[simp] theorem releaseAll_loose (e : Engine) (hs : List Handle) :
    e.loose.releaseAll hs = (e.releaseAll hs).loose :=
  foldl_loose release_loose hs e

@[simp] theorem releaseValue_loose (e : Engine) (v : Value) :
    e.loose.releaseValue v = (e.releaseValue v).loose :=
  e.releaseAll_loose _

@[simp] theorem releaseValues_loose (e : Engine) (values : List Value) :
    e.loose.releaseValues values = (e.releaseValues values).loose :=
  e.releaseAll_loose _

@[simp] theorem discard_loose (e : Engine) (parts : List Part) :
    e.loose.discard parts = (e.discard parts).loose := by
  have hc : e.loose.takeApart parts = (e.takeApart parts).loose :=
    foldl_letGo_loose dismantle_loose parts ⟨e, []⟩
  simp only [discard]
  rw [hc]
  exact releaseAll_loose _ _

end Engine

end HeapAudit
