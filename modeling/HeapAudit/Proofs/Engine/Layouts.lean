import HeapAudit.Proofs.Engine.Footprint
import HeapAudit.Proofs.Engine.Lockstep

/-!
Layouts over whole runs. Apart from new programs, new objects and bare blocks, no operation makes
a program or an object that runs one, on any heap; those three make what fits, and take no block
out. What a layout depends on is held by counted references, so for a client that follows its
references it is there. That these resolve is seen on the loose engine, where generations may wrap.

Main statements
* `Engine.conserves_release` and its like: no operation makes up a program or a loaded object.
* `Engine.Compiled.newProgram`, `Engine.Compiled.newObject`: what is made fits.
* `Client.Attainable.compiled`: programs and objects are laid out after every run.
* `Client.programs_laid_out_iff`: what this says of the programs and objects there are.
-/

namespace HeapAudit

theorem Category.shapeOf?_unpinned (category : Category) (p : Payload) :
    category.shapeOf? p.unpinned = category.shapeOf? p := by
  cases p <;> rfl

theorem Category.shapeOf?_loose (category : Category) (p : Payload) :
    category.shapeOf? p.loose = category.shapeOf? p := by
  cases p <;> rfl

namespace Engine

variable {e mid next : Engine} {h ob : Handle} {b : Block}

/-! ## One change of the heap -/

theorem conserves_of_heap (hn : next.heap = e.heap) : e.Conserves next := by
  refine ⟨by rw [hn], fun h d s hd hs => ⟨d, ?_, rfl, hs⟩⟩
  rw [← hn]
  exact hd

theorem conserves_of_update {f : Block → Block} (hn : next.heap = e.heap.update h f)
    (hf : ∀ b, e.heap.get? h = some b → (f b).serial = b.serial ∧
      ∀ s, (f b).shape? = some s → b.shape? = some s) : e.Conserves next := by
  refine ⟨by rw [hn, Heap.issued_update], fun k d s hd hs => ?_⟩
  rw [hn, Heap.get?_update] at hd
  by_cases hk : k = h
  · subst hk
    rw [if_pos rfl] at hd
    obtain ⟨b, hb, rfl⟩ := Option.map_eq_some_iff.1 hd
    obtain ⟨hserial, hshape⟩ := hf b hb
    exact ⟨b, hb, hserial.symm, hshape s hs⟩
  · rw [if_neg hk] at hd
    exact ⟨d, hd, rfl, hs⟩

theorem conserves_of_incRef (hn : next.heap = e.heap.incRef h) : e.Conserves next :=
  conserves_of_update hn fun _ _ => ⟨rfl, fun _ hs => hs⟩

/-- A new block without a layout. -/
theorem conserves_of_allocateSized (category : Category) (payload : Payload) (size : Nat)
    (description : String)
    (hn : next.heap = (e.heap.allocateSized category payload size description).1)
    (hs : category.shapeOf? payload = none) : e.Conserves next := by
  refine ⟨by rw [hn]; exact Nat.le_succ _, fun k d s hd hd' => ?_⟩
  rw [hn] at hd
  rcases Heap.of_get?_allocateSized hd with ⟨-, rfl⟩ | ⟨-, hold⟩
  · cases hs.symm.trans hd'
  · exact ⟨d, hold, rfl, hd'⟩

/-- Blocks that stay keep their shapes when others go. -/
theorem Receded.conserves {S : Set Handle} (hr : e.Receded S next) : e.Conserves next := by
  refine ⟨Nat.le_of_eq hr.issued.symm, fun h d s hd hs => ?_⟩
  obtain ⟨b, hb, hlow⟩ := hr.block h d hd
  refine ⟨b, hb, ?_, ?_⟩
  · show b.core.serial = d.core.serial
    rw [hlow.core]
  · rw [← hs, Block.shape?, Block.shape?, ← Category.shapeOf?_unpinned _ b.payload,
      ← Category.shapeOf?_unpinned _ d.payload, Block.unpinned_of_core hlow.core,
      Block.category_of_core hlow.core]

/-! ## Releases -/

theorem conserves_of_settlement {due : Multiset Part} (hrun : Settlement (e, due) (next, 0)) :
    e.Conserves next :=
  (receded_of_settlement (S := Set.univ) (fun _ _ _ _ => trivial) (fun _ _ => trivial)
    hrun).1.conserves

theorem conserves_release (e : Engine) (h : Handle) : e.Conserves (e.release h) :=
  conserves_of_settlement (e.settles_release h 0)

theorem conserves_releaseAll (e : Engine) (hs : List Handle) : e.Conserves (e.releaseAll hs) :=
  conserves_of_settlement (e.settles_releaseAll hs 0)

theorem conserves_discard (e : Engine) (parts : List Part) : e.Conserves (e.discard parts) :=
  conserves_of_settlement (e.settles_discard parts 0)

/-! ## Parts of operations -/

theorem conserves_incRef (e : Engine) (h : Handle) : e.Conserves (e.incRef h) :=
  conserves_of_incRef (h := h) rfl

theorem conserves_allocate (category : Category) (payload : Payload) (description : String)
    (hs : category.shapeOf? payload = none) : e.Conserves (e.allocate category payload description).1 :=
  conserves_of_allocateSized category payload payload.footprint description rfl hs

theorem conserves_intern (e : Engine) (text : String) : e.Conserves (e.intern text).1 := by
  have hnew : e.Conserves { e with
      strings := (e.strings.internNew e.heap text).1
      heap := (e.strings.internNew e.heap text).2.1 } :=
    conserves_of_allocateSized .sharedString (.sharedText text)
      (Payload.sharedText text).footprint "make_shared_string" rfl rfl
  unfold intern StringTable.intern
  cases e.strings.find? text with
  | none => exact hnew
  | some h =>
    by_cases hlive : e.heap.isLive h
    · simp only [hlive, if_true]
      exact conserves_of_incRef (h := h) rfl
    · simp only [hlive, Bool.false_eq_true, if_false]
      exact hnew

theorem conserves_internOption (e : Engine) (text : Option String) :
    e.Conserves (e.internOption text).1 := by
  cases text with
  | none => exact .refl e
  | some text => exact e.conserves_intern text

/-- An object with other slots, that runs what it ran or nothing. -/
theorem conserves_setObject {o new : Object} (ho : e.object ob = .ok o)
    (hs : ∀ s, new.shape? = some s → o.shape? = some s) : e.Conserves (e.setObject ob new) := by
  refine conserves_of_update (h := ob) (f := fun b => { b with payload := .object new }) rfl ?_
  intro b hb
  obtain ⟨c, hc, -, hpay⟩ := object_eq_ok_iff.1 ho
  rw [hb] at hc
  cases hc
  refine ⟨rfl, fun s hnew => ?_⟩
  rw [Block.shape?, hpay]
  exact hs s hnew

theorem conserves_setSession (e : Engine) (session : Handle) (s : Session) :
    e.Conserves (e.setSession session s) :=
  conserves_of_update (h := session) (f := fun b => { b with payload := .session s }) rfl
    fun _ _ => ⟨rfl, fun _ hs => nomatch hs⟩

theorem conserves_setPins {p : Program} (hp : e.program h = .ok p) (pins : Nat) :
    e.Conserves (e.setProgram h { p with pins }) := by
  refine conserves_of_update (h := h) (f := fun b => { b with payload := .program { p with pins } })
    rfl ?_
  intro b hb
  obtain ⟨c, hc, -, hpay⟩ := program_eq_ok_iff.1 hp
  rw [hb] at hc
  cases hc
  refine ⟨rfl, fun s hnew => ?_⟩
  rw [Block.shape?, hpay]
  exact hnew

/-- Counters and roots are beside the heap. -/
theorem Conserves.aside (hk : e.Conserves mid) (hn : next.heap = mid.heap) : e.Conserves next :=
  hk.trans (conserves_of_heap hn)

theorem Conserves.releaseAll (hk : e.Conserves mid) (hn : next.heap = mid.heap)
    (hs : List Handle) : e.Conserves (next.releaseAll hs) :=
  (hk.aside hn).trans (next.conserves_releaseAll hs)

theorem Conserves.discard (hk : e.Conserves mid) (hn : next.heap = mid.heap)
    (parts : List Part) : e.Conserves (next.discard parts) :=
  (hk.aside hn).trans (next.conserves_discard parts)

/-! ## Values -/

theorem conserves_retain (e : Engine) (h : Handle) : e.Conserves (e.retain h).1 := by
  unfold retain
  cases e.heap.get? h with
  | none => exact .refl e
  | some b =>
    simp only
    split
    · unfold StringTable.retain
      cases StringTable.costAt? e.heap h with
      | none => exact .refl e
      | some cost => exact conserves_of_incRef (h := h) rfl
    · exact e.conserves_incRef h

theorem conserves_cloneValue (e : Engine) (v : Value) : e.Conserves (e.cloneValue v).1 := by
  unfold cloneValue
  cases v.target? with
  | none => exact .refl e
  | some h => exact e.conserves_retain h

theorem conserves_objectValue (e : Engine) (ob : Handle) : e.Conserves (e.objectValue ob).1 := by
  unfold objectValue
  cases e.object ob with
  | error err => exact .refl e
  | ok o => exact e.conserves_incRef ob

theorem conserves_allocateArray (e : Engine) (items : List Value) :
    e.Conserves (e.allocateArray items).1 :=
  (conserves_allocate .array (.slots items) "allocate_array" rfl).aside rfl

theorem conserves_newClass (e : Engine) (members : List Value) :
    e.Conserves (e.newClass members).1 :=
  (conserves_allocate .classInstance (.slots members) "allocate_class" rfl).aside rfl

theorem conserves_newNodes (e : Engine) (pairs : List (Value × Value)) :
    e.Conserves (e.newNodes pairs).1 := by
  induction pairs generalizing e with
  | nil => exact .refl e
  | cons pair rest ih =>
    rw [newNodes_cons]
    exact (conserves_allocate .mapNode _ "new_map_node" rfl).trans (ih _)

theorem conserves_newMapping (e : Engine) (pairs : List (Value × Value)) :
    e.Conserves (e.newMapping pairs).1 := by
  have htable := (e.conserves_newNodes pairs).trans
    (conserves_allocate .mapTable (.mapTable (e.newNodes pairs).2) "new_map_table" rfl)
  exact (htable.aside (by rfl)).trans (conserves_allocate .mapping _ "allocate_mapping" rfl)

theorem conserves_bindArgs (e : Engine) (args : List Value) :
    e.Conserves (e.bindArgs args).1 := by
  cases args with
  | nil => exact .refl e
  | cons v rest => exact e.conserves_allocateArray (v :: rest)

theorem conserves_pin {program : Option Handle} (hp : e.pin program = .ok next) :
    e.Conserves next := by
  cases program with
  | none =>
    cases hp
    exact .refl e
  | some h =>
    cases hprog : e.program h with
    | error err =>
      simp only [pin, hprog, Except.map] at hp
      cases hp
    | ok p =>
      simp only [pin, hprog, Except.map] at hp
      cases hp
      exact conserves_setPins hprog _

theorem conserves_newClosure (e : Engine) (kind : ClosureKind) (owner : Option Handle)
    (args : List Value) : e.Conserves (e.newClosure kind owner args).1 := by
  unfold newClosure
  cases hprep : e.prepareClosure kind owner with
  | error err => exact e.conserves_releaseAll _
  | ok pinned =>
    obtain ⟨program, -, -, hpin⟩ := prepareClosure_eq_ok hprep
    have howner : pinned.Conserves (owner.elim pinned pinned.incRef) := by
      cases owner with
      | none => exact .refl pinned
      | some owner => exact pinned.conserves_incRef owner
    exact (((conserves_pin hpin).trans howner).trans (conserves_bindArgs _ args)).trans
      (conserves_allocate .function _ "make_funp" rfl)

/-! ## Objects -/

theorem conserves_setVariable (e : Engine) (ob : Handle) (index : Nat) (v : Value) :
    e.Conserves (e.setVariable ob index v).1 := by
  unfold setVariable
  cases ho : e.object ob with
  | error err => exact e.conserves_releaseAll _
  | ok o =>
    simp only
    cases o.vars[index]? with
    | none => exact e.conserves_releaseAll _
    | some old =>
      refine (conserves_setObject ho fun s hs => ?_).trans (conserves_releaseAll _ _)
      simpa [Object.shape?] using hs

theorem conserves_setLabel (e : Engine) (ob : Handle) (label : ObjectLabel)
    (text : Option String) : e.Conserves (e.setLabel ob label text).1 := by
  cases ho : e.object ob with
  | error err =>
    unfold setLabel
    rw [ho]
    exact .refl e
  | ok o =>
    rw [setLabel_eq ho]
    refine ((e.conserves_internOption text).trans
      (conserves_setObject ((e.keeps_internOption text).object ho) fun s hs => ?_)).trans
      (conserves_releaseAll _ _)
    cases label <;> exact hs

theorem conserves_swapOut (e : Engine) (ob : Handle) : e.Conserves (e.swapOut ob).1 := by
  unfold swapOut
  cases ho : e.object ob with
  | error err => exact .refl e
  | ok o =>
    simp only
    cases o.program with
    | none => exact .refl e
    | some program =>
      simp only
      cases e.program program with
      | error err => exact .refl e
      | ok p =>
        simp only
        split
        · exact .refl e
        · exact (conserves_setObject ho fun s hs => by simp [Object.shape?] at hs).trans
            (conserves_release _ _)

theorem conserves_destruct (e : Engine) (ob : Handle) : e.Conserves (e.destruct ob).1 := by
  unfold destruct
  cases ho : e.object ob with
  | error err => exact .refl e
  | ok o =>
    have hset : e.Conserves (e.setObject ob { o with sentences := [] }) :=
      conserves_setObject ho fun _ hs => hs
    have hgone := hset.discard (by rfl) (o.sentences.map .owned)
    simp only
    split
    · exact hgone.aside rfl
    · exact hgone

theorem conserves_flushDestructed (e : Engine) : e.Conserves e.flushDestructed :=
  (Conserves.refl e).releaseAll (by rfl) _

/-! ## Commands, sessions and timers -/

theorem conserves_allocateSentence (e : Engine) (s : Sentence) (description : String) :
    e.Conserves (e.allocateSentence s description).1 :=
  (conserves_allocate .sentence (.sentence s) description rfl).aside rfl

theorem conserves_attachSentence {o : Object} (ho : e.object ob = .ok o) (callee : Callee)
    (verb : String) : e.Conserves (e.attachSentence ob callee verb).1 := by
  have hkeep := (e.keeps_intern verb).trans
    ((e.intern verb).1.keeps_allocateSentence ⟨ob, callee, some (e.intern verb).2⟩ "add_action")
  rw [attachSentence_eq ho]
  exact ((e.conserves_intern verb).trans (conserves_allocateSentence _ _ _)).trans
    (conserves_setObject (hkeep.object ho) fun _ hs => hs)

theorem conserves_addAction (e : Engine) (ob : Handle) (function verb : String) :
    e.Conserves (e.addAction ob function verb).1 := by
  unfold addAction
  cases ho : e.object ob with
  | error err => exact .refl e
  | ok o =>
    exact (e.conserves_intern function).trans
      (conserves_attachSentence ((e.keeps_intern function).object ho) _ _)

theorem conserves_addActionClosure (e : Engine) (ob : Handle) (v : Value) (verb : String) :
    e.Conserves (e.addActionClosure ob v verb).1 := by
  unfold addActionClosure
  split
  · cases ho : e.object ob with
    | error err => exact e.conserves_release _
    | ok o => exact conserves_attachSentence ho _ _
  · exact e.conserves_releaseAll _

theorem conserves_connect (e : Engine) (ob : Handle) : e.Conserves (e.connect ob).1 := by
  unfold connect
  cases e.object ob with
  | error err => exact .refl e
  | ok o =>
    exact ((e.conserves_incRef ob).trans (conserves_allocate .interactive
      (.session ⟨ob, none, none⟩) "new_user" rfl)).aside rfl

theorem conserves_disconnect (e : Engine) (session : Handle) :
    e.Conserves (e.disconnect session).1 := by
  unfold disconnect
  cases e.session session with
  | error err => exact .refl e
  | ok s => exact (Conserves.refl e).discard (by rfl) _

theorem conserves_dropRedirect (e : Engine) (r : Option Redirect) :
    e.Conserves (e.dropRedirect r) := by
  cases r with
  | none => exact .refl e
  | some r => exact e.conserves_discard _

theorem conserves_setInput (e : Engine) (session : Handle) (function : String)
    (carried : List Value) : e.Conserves (e.setInput session function carried).1 := by
  cases hs : e.session session with
  | error err =>
    unfold setInput
    rw [hs]
    exact e.conserves_releaseAll _
  | ok s =>
    rw [setInput_eq hs]
    exact ((((e.conserves_incRef s.object).trans (conserves_intern _ function)).trans
      (conserves_allocateSentence _ _ _)).trans (conserves_setSession _ _ _)).trans
      (conserves_dropRedirect _ _)

theorem conserves_clearInput (e : Engine) (session : Handle) :
    e.Conserves (e.clearInput session).1 := by
  unfold clearInput
  cases e.session session with
  | error err => exact .refl e
  | ok s => exact (conserves_setSession _ _ _).trans (conserves_dropRedirect _ _)

theorem conserves_putFailMessage (e : Engine) (session : Handle) (message : Callee) :
    e.Conserves (e.putFailMessage session message).1 := by
  unfold putFailMessage
  cases e.session session with
  | error err => exact .refl e
  | ok s => exact (conserves_setSession _ _ _).trans (conserves_releaseAll _ _)

theorem conserves_setFailMessage (e : Engine) (session : Handle) (text : String) :
    e.Conserves (e.setFailMessage session text).1 := by
  unfold setFailMessage
  cases e.session session with
  | error err => exact .refl e
  | ok s => exact (e.conserves_intern text).trans (conserves_putFailMessage _ _ _)

theorem conserves_setFailClosure (e : Engine) (session closure : Handle) :
    e.Conserves (e.setFailClosure session closure).1 := by
  unfold setFailClosure
  cases e.session session with
  | error err => exact .refl e
  | ok s =>
    simp only
    cases e.block closure .function with
    | error err => exact .refl e
    | ok b => exact e.conserves_putFailMessage _ _

theorem conserves_callOut (e : Engine) (ob : Handle) (function : String) (args : List Value)
    (delay : Nat) : e.Conserves (e.callOut ob function args delay).1 := by
  unfold callOut
  cases e.object ob with
  | error err => exact e.conserves_releaseAll _
  | ok o =>
    exact (((e.conserves_incRef ob).trans (conserves_intern _ function)).trans
      (conserves_allocate .callOut (.callOut _) "new_call_out" rfl)).aside rfl

theorem conserves_removeCallOut (e : Engine) (call : Handle) :
    e.Conserves (e.removeCallOut call).1 := by
  unfold removeCallOut
  cases e.block call .callOut with
  | error err => exact .refl e
  | ok b => exact (Conserves.refl e).discard (by rfl) _

/-! ## What the engine holds itself -/

theorem conserves_setMaster (e : Engine) (ob : Handle) : e.Conserves (e.setMaster ob).1 := by
  unfold setMaster
  cases e.object ob with
  | error err => exact .refl e
  | ok o => exact (e.conserves_incRef ob).releaseAll (by rfl) _

theorem conserves_setSimulOwner (e : Engine) (ob : Handle) :
    e.Conserves (e.setSimulOwner ob).1 := by
  unfold setSimulOwner
  cases e.object ob with
  | error err => exact .refl e
  | ok o => exact (e.conserves_incRef ob).releaseAll (by rfl) _

theorem conserves_pushCommandGiver (e : Engine) (ob : Handle) :
    e.Conserves (e.pushCommandGiver ob).1 := by
  unfold pushCommandGiver
  cases e.object ob with
  | error err => exact .refl e
  | ok o => exact (e.conserves_incRef ob).aside rfl

theorem conserves_setDefaultFail (e : Engine) (text : Option String) :
    e.Conserves (e.setDefaultFail text) := by
  have hdrop : e.Conserves ({ e with
      roots := { e.roots with defaultFailMessage := none } }.releaseAll
        e.defaultFailString?.toList) :=
    (Conserves.refl e).releaseAll (by rfl) _
  unfold setDefaultFail
  cases text with
  | none => exact hdrop
  | some text => exact (hdrop.trans (conserves_intern _ _)).aside rfl

theorem conserves_newIdent (e : Engine) (name : String) (kind : IdentKind) :
    e.Conserves (e.newIdent name kind).1 := by
  unfold newIdent
  split
  · exact conserves_allocate .permIdent _ "add_permanent_ident" rfl
  · exact .refl e

theorem conserves_insertIdents (e : Engine) (table : IdentTable)
    (entries : List (String × IdentKind)) : e.Conserves (e.insertIdents table entries).1 := by
  induction entries generalizing e table with
  | nil => exact .refl e
  | cons entry rest ih => exact (e.conserves_newIdent _ _).trans (ih _ _)

theorem conserves_newIdentTable (e : Engine) (buckets : Nat)
    (entries : List (String × IdentKind)) : e.Conserves (e.newIdentTable buckets entries).1 :=
  (e.conserves_insertIdents _ entries).trans
    (conserves_allocate .identTable _ "init_identifiers" rfl)

theorem conserves_register (e : Engine) (p : Provider) : e.Conserves (e.register p) := by
  unfold register
  split <;> exact conserves_of_heap rfl

/-! ## What makes a shape -/

theorem adds_incRef (e : Engine) (h : Handle) : e.Adds (e.incRef h) :=
  ⟨e.conserves_incRef h, e.keeps_incRef h⟩

theorem adds_incRefs (e : Engine) (hs : List Handle) : e.Adds (hs.foldl incRef e) := by
  induction hs generalizing e with
  | nil => exact .refl e
  | cons h hs ih => exact (e.adds_incRef h).trans (ih _)

theorem adds_intern (e : Engine) (text : String) : e.Adds (e.intern text).1 :=
  ⟨e.conserves_intern text, e.keeps_intern text⟩

theorem adds_internAll (e : Engine) (texts : List String) : e.Adds (e.internAll texts).1 := by
  induction texts generalizing e with
  | nil => exact .refl e
  | cons text rest ih =>
    rw [internAll_cons]
    exact (e.adds_intern text).trans (ih _)

theorem adds_allocateSized (category : Category) (payload : Payload) (size : Nat)
    (description : String)
    (hn : next.heap = (e.heap.allocateSized category payload size description).1)
    (hs : category.shapeOf? payload = none) : e.Adds next :=
  ⟨conserves_of_allocateSized category payload size description hn hs,
    keeps_of_allocateSized category payload size description hn⟩

theorem adds_lineInfo (e : Engine) (lineNumbers : Bool) (functions : Nat) :
    e.Adds (e.lineInfo lineNumbers functions).1 := by
  cases lineNumbers with
  | false => exact .refl e
  | true =>
    exact adds_allocateSized .lineNumbers .blank (16 + 4 * (functions + 1)) "line numbers" rfl rfl

/-- A new program is laid out on its parents, which are still there when it is made. -/
theorem Compiled.newProgram (hc : e.Compiled) (source : ProgramSource) :
    (e.newProgram source).1.Compiled := by
  unfold Engine.newProgram
  cases hlay : e.layOut 0 0 source.inherits with
  | error err => exact hc
  | ok r =>
    obtain ⟨inherits, functionOffset, variableOffset⟩ := r
    have ha := e.adds_incRefs source.inherits
    obtain ⟨⟨e₁, filename⟩, h₁⟩ :
        ∃ r, (source.inherits.foldl incRef e).intern source.filename = r := ⟨_, rfl⟩
    have ha₁ := ha.trans (adds_intern _ source.filename)
    rw [h₁] at ha₁
    obtain ⟨⟨e₂, functions⟩, h₂⟩ : ∃ r, e₁.internAll source.functions = r := ⟨_, rfl⟩
    have ha₂ := ha₁.trans (e₁.adds_internAll source.functions)
    rw [h₂] at ha₂
    obtain ⟨⟨e₃, variableNames⟩, h₃⟩ : ∃ r, e₂.internAll source.variableNames = r := ⟨_, rfl⟩
    have ha₃ := ha₂.trans (e₂.adds_internAll source.variableNames)
    rw [h₃] at ha₃
    obtain ⟨⟨e₄, strings⟩, h₄⟩ : ∃ r, e₃.internAll source.strings = r := ⟨_, rfl⟩
    have ha₄ := ha₃.trans (e₃.adds_internAll source.strings)
    rw [h₄] at ha₄
    obtain ⟨⟨e₅, lineInfo⟩, h₅⟩ : ∃ r, e₄.lineInfo source.lineNumbers functions.length = r :=
      ⟨_, rfl⟩
    have ha₅ := ha₄.trans (e₄.adds_lineInfo source.lineNumbers functions.length)
    rw [h₅] at ha₅
    simp only [h₁, h₂, h₃, h₄, h₅]
    refine (hc.adds ha₅).grow rfl fun s hs => ?_
    cases hs
    refine ⟨(functionOffset, variableOffset), ?_, ?_, rfl⟩
    · show e₅.layOut 0 0 (inherits.map (·.program)) = .ok (inherits, _)
      rw [(layOut_eq_ok hlay).1]
      exact layOut_congr (fun h _ p hp => ⟨p, ha₅.keeps.program hp, rfl, rfl⟩) hlay
    · show Word.add functionOffset functions.length =
        Word.add functionOffset (functions.map some).length
      rw [List.length_map]

/-- A new object has a slot for each variable of its program. -/
theorem Compiled.newObject (hc : e.Compiled) (name : String) (program : Handle) :
    (e.newObject name program).1.Compiled := by
  unfold Engine.newObject
  cases hp : e.program program with
  | error err => exact hc
  | ok p =>
    have ha : e.Adds ((e.incRef program).allocate .objectName (.text name) "load_object").1 :=
      (e.adds_incRef program).trans (adds_allocateSized .objectName (.text name)
        (Payload.text name).footprint "load_object" rfl rfl)
    refine (hc.adds ha).grow rfl fun s hs => ?_
    cases hs
    exact ⟨p, ha.keeps.program hp, List.length_replicate⟩

/-- A block without a payload fits anything. -/
theorem Compiled.allocateBlock (hc : e.Compiled) (category : Category) (size : Nat)
    (description : String) : (e.allocateBlock category size description).1.Compiled := by
  refine hc.grow rfl fun s hs => ?_
  simp only [Category.shapeOf?] at hs
  split at hs
  · cases hs
    trivial
  · cases hs

/-- Programs are held by counted references, and where one is held no other block can be. -/
theorem Consistent.resolved {client : Multiset Reference} (hc : e.Consistent client) :
    e.Resolved := by
  intro h b s hb hs k hm
  have hslot : .counted k .program ∈ b.payload.held e.heap := by
    cases s with
    | code p =>
      obtain ⟨q, hpay, rfl⟩ := Category.shapeOf?_eq_code_iff.1 hs
      obtain ⟨i, hi, rfl⟩ := List.mem_map.1 hm
      rw [hpay]
      have hi : i ∈ q.inherits := hi
      simp only [Payload.held, Program.held, List.mem_append, List.mem_cons, List.mem_map]
      exact .inl (.inl (.inr ⟨i, hi, rfl⟩))
    | loaded program vars =>
      obtain ⟨ob, hpay, hprogram, -⟩ := Category.shapeOf?_eq_loaded_iff.1 hs
      obtain rfl := List.mem_singleton.1 hm
      simp [hpay, Payload.held, Object.held, hprogram]
    | bare => cases hm
  obtain ⟨d, hd, hcat⟩ := hc.balanced.resolves _ (mem_refs_of_slot hb hslot)
    (by simp [Reference.counted])
  have hcat : d.category = .program := hcat
  by_cases hblank : d.payload = .blank
  · exact ⟨d, .bare, hd, hcat, by simp [Block.shape?, Category.shapeOf?, hcat, hblank]⟩
  · have hcar := (hc.orderly.sound k d hd).carries hblank
    rw [hcat] at hcar
    obtain ⟨q, hpay⟩ : ∃ q, d.payload = .program q := by
      revert hcar
      cases d.payload <;> simp [Category.carries]
    exact ⟨d, _, hd, hcat, Category.shapeOf?_eq_code_iff.2 ⟨q, hpay, rfl⟩⟩

theorem resolved_of_loose (hr : e.loose.Resolved) : e.Resolved := by
  have hshape : ∀ b : Block, b.loose.shape? = b.shape? := fun b =>
    Category.shapeOf?_loose b.category b.payload
  intro h b s hb hs k hm
  have hb' : e.loose.heap.get? h = some b.loose := by simp [hb]
  obtain ⟨d, t, hd, hcat, ht⟩ := hr h b.loose s hb' ((hshape b).trans hs) k hm
  rw [loose_heap, Heap.get?_loose] at hd
  obtain ⟨c, hc, rfl⟩ := Option.map_eq_some_iff.1 hd
  exact ⟨c, t, hc, hcat, (hshape c).symm.trans ht⟩

end Engine

/-! ## Commands -/

/-- Commands that make a program, an object, or what could be taken for one. -/
def Command.makesShape : Command → Bool
  | newProgram _ | newObject .. | allocateBlock .. => true
  | _ => false

namespace Command

open Engine

/-- Whatever the engine is like, a command makes up no program and no loaded object, unless it is
there to make one. -/
theorem conserves (e : Engine) (cmd : Command) (hm : cmd.makesShape = false) :
    e.Conserves (cmd.run e) := by
  cases cmd with
  | newProgram source => cases hm
  | newObject name program => cases hm
  | allocateBlock category size description => cases hm
  | newShared text => exact e.conserves_intern text
  | newPrivate text =>
    exact conserves_of_allocateSized .mallocString (.privateText text text.utf8ByteSize)
      (Payload.privateText text text.utf8ByteSize).footprint "new_string" rfl rfl
  | newArray items => exact e.conserves_allocateArray items
  | newClass members => exact e.conserves_newClass members
  | newBuffer content => exact conserves_allocate .buffer _ "allocate_buffer" rfl
  | newMapping pairs => exact e.conserves_newMapping pairs
  | newClosure kind owner args => exact e.conserves_newClosure kind owner args
  | cloneValue v => exact e.conserves_cloneValue v
  | retain h => exact e.conserves_retain h
  | releaseValue v => exact e.conserves_releaseAll _
  | release h => exact e.conserves_release h
  | objectValue ob => exact e.conserves_objectValue ob
  | setVariable ob index v => exact e.conserves_setVariable ob index v
  | setLabel ob label text => exact e.conserves_setLabel ob label text
  | swapOut ob => exact e.conserves_swapOut ob
  | destruct ob => exact e.conserves_destruct ob
  | flushDestructed => exact e.conserves_flushDestructed
  | addAction ob function verb => exact e.conserves_addAction ob function verb
  | addActionClosure ob v verb => exact e.conserves_addActionClosure ob v verb
  | connect ob => exact e.conserves_connect ob
  | disconnect session => exact e.conserves_disconnect session
  | setInput session function carried => exact e.conserves_setInput session function carried
  | clearInput session => exact e.conserves_clearInput session
  | setFailMessage session text => exact e.conserves_setFailMessage session text
  | setFailClosure session closure => exact e.conserves_setFailClosure session closure
  | callOut ob function args delay => exact e.conserves_callOut ob function args delay
  | removeCallOut call => exact e.conserves_removeCallOut call
  | push v | pop | configure settings | unregister name => exact conserves_of_heap rfl
  | setApplyReturn v => exact (Conserves.refl e).releaseAll (by rfl) _
  | setMaster ob => exact e.conserves_setMaster ob
  | setSimulOwner ob => exact e.conserves_setSimulOwner ob
  | pushCommandGiver ob => exact e.conserves_pushCommandGiver ob
  | popCommandGiver => exact (Conserves.refl e).releaseAll (by rfl) _
  | addConfigString text =>
    exact (conserves_allocate .plainString (.text text) "config file" rfl).aside rfl
  | setDefaultFail text => exact e.conserves_setDefaultFail text
  | addSimulName name => exact (e.conserves_intern name).aside rfl
  | addPredefine name =>
    exact (conserves_allocate .predefine (.text name) "predefines" rfl).aside rfl
  | cacheAddressName name => exact (e.conserves_intern name).aside rfl
  | newIdentTable buckets entries => exact e.conserves_newIdentTable buckets entries
  | register p => exact e.conserves_register p

/-- One command keeps everything laid out, given that its references resolve afterwards. -/
theorem compiled (cmd : Command) {e : Engine} (hc : e.Compiled) (hr : (cmd.run e).Resolved) :
    (cmd.run e).Compiled := by
  cases hm : cmd.makesShape with
  | false => exact hc.conserves (cmd.conserves e hm) hr
  | true =>
    cases cmd with
    | newProgram source => exact hc.newProgram source
    | newObject name program => exact hc.newObject name program
    | allocateBlock category size description => exact hc.allocateBlock category size description
    | _ => cases hm

end Command

/-! ## Clients -/

namespace Client

open Engine

variable {allowed : Command → Bool} {c : Client}

theorem compiled_fresh (settings : Settings) : (fresh settings).engine.Compiled := by
  have hnone : ∀ h b, (fresh settings).engine.heap.get? h ≠ some b := fun h b => by simp [fresh]
  exact ⟨fun h b s hb => absurd hb (hnone h b), fun h b s hb => absurd hb (hnone h b),
    fun h b s hb => absurd hb (hnone h b)⟩

theorem Attainable.resolved (ha : Attainable allowed c) : c.engine.Resolved := by
  obtain ⟨stray, hi⟩ := ha.loose.inOrder
  exact resolved_of_loose hi.consistent.resolved

/-- By the run: the references of every state on the way resolve. -/
theorem Attainable.compiled (ha : Attainable allowed c) : c.engine.Compiled := by
  obtain ⟨settings, hm⟩ := ha
  induction hm with
  | refl => exact compiled_fresh settings
  | tail hrun hmove ih =>
    have hr := Attainable.resolved ⟨settings, hrun.tail hmove⟩
    obtain ⟨cmd, -, -⟩ := hmove
    exact cmd.compiled ih hr

end Client

end HeapAudit
