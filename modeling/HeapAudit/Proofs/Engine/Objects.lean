import HeapAudit.Engine.Objects
import HeapAudit.Proofs.Engine.RootSlots

/-!
Programs and objects: what compiling, loading, changing, swapping out and destructing does to the
references.

Main definitions
* `Heap.Unaliased`: no closure names a program newer than itself.

Main statements
* `Engine.leads_newProgram`, `Engine.leads_newObject`: new blocks and what they hold.
* `Engine.leads_setVariable`, `Engine.leads_setLabel`: changed slots.
* `Engine.leads_swapOut`: a program goes only if no closure depends on the object running it.
* `Engine.leads_destruct`, `Engine.leads_flushDestructed`: the end of an object.
-/

namespace HeapAudit

open Reference

/-- No anonymous code names a block newer than itself: a handle that outlived its program never
gets to another block. -/
def Heap.Unaliased (heap : Heap) : Prop :=
  ∀ k b c p q, heap.get? k = some b → b.payload = .closure c → c.kind = .functional p →
    heap.get? p = some q → q.serial < b.serial

/-- The program anonymous code was compiled into. -/
def Payload.compiledInto? : Payload → Option Handle
  | .closure ⟨.functional p, _, _⟩ => some p
  | _ => none

theorem Payload.compiledInto?_eq_some_iff {payload : Payload} {p : Handle} :
    payload.compiledInto? = some p ↔ ∃ c, payload = .closure c ∧ c.kind = .functional p := by
  cases payload with
  | closure c =>
    obtain ⟨kind, owner, args⟩ := c
    cases kind <;> simp [compiledInto?]
  | _ => simp [compiledInto?]

instance (heap : Heap) : Decidable heap.Unaliased :=
  decidable_of_iff
    (∀ x ∈ heap.entries, ∀ p ∈ x.2.payload.compiledInto?, ∀ q ∈ heap.get? p,
      q.serial < x.2.serial) <| by
    simp only [Prod.forall, Heap.mem_entries_iff, Option.mem_def,
      Payload.compiledInto?_eq_some_iff]
    exact ⟨fun h k b c p q hb hc hk hq => h k b hb p ⟨c, hc, hk⟩ q hq,
      fun h k b hb p ⟨c, hc, hk⟩ q hq => h k b c p q hb hc hk hq⟩

namespace Engine

variable {e next : Engine} {client left : Multiset Reference} {ob h : Handle} {b : Block}

/-! ## Changed objects -/

/-- An object changes its slots and keeps its program. -/
theorem leads_setObject {o new : Object} (left : Multiset Reference) (hc : e.Consistent client)
    (ho : e.object ob = .ok o) (hprogram : new.program = o.program)
    (hmove : ↑o.held + client = ↑new.held + left) :
    e.Leads (e.setObject ob new) left := by
  obtain ⟨b, hb, hcat, hpay⟩ := object_eq_ok_iff.1 ho
  refine leads_setPayload (.object new) hc hb ?_ (by rw [hcat]; rfl)
    ⟨by simp, by simp⟩ (fun c => by rw [hpay]; rfl) (by simp [hpay]) (by simp) (by simp) (by simp)
    (by rw [hpay]; rfl) rfl ?_ (by rw [hpay]; exact hmove)
  · refine ⟨rfl, rfl, fun c => by simp [hpay], by simp [hpay], ?_⟩
    rintro new' h
    cases h
    exact ⟨o, hpay, .inl hprogram⟩
  · intro _ _ _ v _
    refine Heap.views_update hb ?_ ?_ v
    · rw [hpay]
      exact hprogram
    · rw [hpay]
      rfl

/-- One summand is exchanged for another. -/
theorem exchange {before behind old new taken given : Multiset Reference}
    (h : new + given = old + taken) :
    before + old + behind + taken = before + new + behind + given := by
  calc before + old + behind + taken = before + behind + (old + taken) := by abel
    _ = before + behind + (new + given) := by rw [h]
    _ = before + new + behind + given := by abel

/-- A variable gets one value for another. -/
theorem coe_ofValues_set {values : List Value} {index : Nat} {old : Value}
    (hi : values[index]? = some old) (v : Value) :
    (ofValues (values.set index v) : Multiset Reference) + ↑(ofValues [old]) =
      ↑(ofValues values) + ↑(ofValues [v]) := by
  induction values generalizing index with
  | nil => cases hi
  | cons w ws ih =>
    have hcons : ∀ (w : Value) (ws : List Value), (ofValues (w :: ws) : Multiset Reference) =
        ↑(ofValues [w]) + ↑(ofValues ws) := by
      intro w ws
      rw [Multiset.coe_add, ← ofValues_append]
      rfl
    cases index with
    | zero =>
      cases hi
      rw [List.set_cons_zero, hcons v ws, hcons old ws]
      abel
    | succ index =>
      rw [List.set_cons_succ, hcons w (ws.set index v), hcons w ws, add_assoc, ih hi, add_assoc]

theorem held_set {o : Object} {index : Nat} {old : Value} (hi : o.vars[index]? = some old)
    (v : Value) :
    (o.held : Multiset Reference) + ↑(ofValues [v]) =
      ↑({ o with vars := o.vars.set index v } : Object).held + ↑(ofValues [old]) := by
  simp only [Object.held, Object.labels, ← Multiset.coe_add]
  exact exchange (coe_ofValues_set hi v)

theorem leads_setVariable {index : Nat} {v : Value}
    (hc : e.Consistent (↑(ofValues [v]) + client)) :
    e.Leads (e.setVariable ob index v).1 client := by
  unfold setVariable
  cases ho : e.object ob with
  | error err => exact leads_releaseValue hc
  | ok o =>
    cases hi : o.vars[index]? with
    | none =>
      simp only [hi]
      exact leads_releaseValue hc
    | some old =>
      simp only [hi]
      have hl : e.Leads (e.setObject ob { o with vars := o.vars.set index v })
          (↑(ofValues [old]) + client) := by
        refine leads_setObject _ hc ho rfl ?_
        rw [← add_assoc, held_set hi v, add_assoc]
      exact hl.trans (leads_releaseValue hl.consistent)

/-! ## Labels -/

theorem keeps_internOption (e : Engine) (text : Option String) :
    e.Keeps (e.internOption text).1 := by
  cases text with
  | none => exact .refl e
  | some text => exact e.keeps_intern text

theorem leads_internOption (hc : e.Consistent client) (text : Option String) :
    e.Leads (e.internOption text).1 (↑(sharedStrings (e.internOption text).2.toList) + client) := by
  cases text with
  | none =>
    show e.Leads e (0 + client)
    rw [zero_add]
    exact hc.leads
  | some text => exact leads_intern hc text

theorem ObjectLabel.held_put (label : ObjectLabel) (new : Option Handle) (o : Object) :
    (o.held : Multiset Reference) + ↑(sharedStrings new.toList) =
      ↑(label.put new o).held + ↑(sharedStrings (label.get o).toList) := by
  cases label <;>
    simp only [Object.held, Object.labels, ObjectLabel.put, ObjectLabel.get,
      coe_sharedStrings_append, ← Multiset.coe_add] <;>
    abel

/-- Interning a text takes nothing from the object, so that the second look-up finds it again. -/
theorem setLabel_eq {o : Object} (ho : e.object ob = .ok o) (label : ObjectLabel)
    (text : Option String) :
    e.setLabel ob label text =
      (((e.internOption text).1.setObject ob
        (label.put (e.internOption text).2 o)).releaseAll (label.get o).toList, .ok ()) := by
  unfold setLabel
  rw [ho]
  simp only [(e.keeps_internOption text).object ho]

theorem leads_setLabel (hc : e.Consistent client) (label : ObjectLabel) (text : Option String) :
    e.Leads (e.setLabel ob label text).1 client := by
  cases ho : e.object ob with
  | error err =>
    unfold setLabel
    rw [ho]
    exact hc.leads
  | ok o =>
    rw [setLabel_eq ho]
    have hl := leads_internOption hc text
    have hput : (label.put (e.internOption text).2 o).program = o.program := by cases label <;> rfl
    have hset := hl.trans (leads_setObject (↑(sharedStrings (label.get o).toList) + client)
      hl.consistent ((e.keeps_internOption text).object ho) hput (by
        rw [← add_assoc, label.held_put, add_assoc]))
    exact hset.trans (leads_releaseHandles _ hset.consistent)

/-! ## Swapping out -/

/-- Without pins on its program no closure depends on what an object runs. -/
theorem not_mem_views_of_count {o : Object} (ho : e.object ob = .ok o)
    {program : Handle} (hp : o.program = some program)
    (hz : (e.refs client).count (.pinned program) = 0) {k : Handle} {d : Block}
    (hd : e.heap.get? k = some d) {c : Closure} (hpay : d.payload = .closure c) : ob ∉ c.views := by
  intro hv
  refine Multiset.count_eq_zero.1 hz (mem_refs_of_slot hd ?_)
  rw [hpay]
  refine Closure.pinned_mem_held ?_
  obtain ⟨kind, owner, args⟩ := c
  unfold Closure.views at hv
  split at hv
  · rename_i index hkind
    have hkind : kind = .ownCode index false := hkind
    have howner : owner = some ob := by simpa using hv
    simp [Closure.pinned?, ClosureKind.pinned?, hkind, howner, programOf?_of_object ho, hp]
  · cases hv

/-- The sentence of a redirect is no object. -/
theorem not_mem_redirected_of_object (hc : e.Consistent client) {o : Object}
    (ho : e.object ob = .ok o) {k : Handle} {d : Block} (hd : e.heap.get? k = some d)
    {s : Session} (hpay : d.payload = .session s) : ob ∉ s.redirected := by
  intro hm
  obtain ⟨r, hr, rfl⟩ := List.mem_map.1 hm
  have hredirect : s.redirect = some r := by simpa using hr
  obtain ⟨b, hb, hcat, -⟩ := object_eq_ok_iff.1 ho
  have hslot : .owned r.sentence .sentence ∈ d.payload.held e.heap := by
    simp [hpay, Payload.held, Session.held, Redirect.held, underRoot, hredirect]
  have hm : .owned r.sentence .sentence ∈ e.refs client := mem_refs_of_slot hd hslot
  obtain ⟨c, hcb, hsentence⟩ := hc.balanced.resolves _ hm (by simp [Reference.owned])
  have hcb : e.heap.get? r.sentence = some c := hcb
  rw [hb] at hcb
  cases hcb
  rw [hcat] at hsentence
  cases hsentence

/-- Without pins on its program no block at all depends on what an object runs. -/
theorem not_mem_views_of_unpinned (hc : e.Consistent client) {o : Object}
    (ho : e.object ob = .ok o) {program : Handle} (hp : o.program = some program)
    (hz : (e.refs client).count (.pinned program) = 0) {k : Handle} {d : Block}
    (hd : e.heap.get? k = some d) : ob ∉ d.payload.views := by
  intro hv
  cases hpay : d.payload with
  | closure c =>
    rw [hpay] at hv
    exact not_mem_views_of_count ho hp hz hd hpay hv
  | session s =>
    rw [hpay] at hv
    exact not_mem_redirected_of_object hc ho hd hpay hv
  | _ =>
    rw [hpay] at hv
    cases hv

/-- An object lets its program go; the reference to it is the client's. -/
theorem leads_unload (hc : e.Consistent client) {o : Object} (ho : e.object ob = .ok o)
    {program : Handle} (hp : o.program = some program)
    (hz : (e.refs client).count (.pinned program) = 0) :
    e.Leads (e.setObject ob { o with program := none })
      (.counted program .program ::ₘ client) := by
  obtain ⟨b, hb, hcat, hpay⟩ := object_eq_ok_iff.1 ho
  refine leads_setPayload (.object { o with program := none }) hc hb ?_
    (by rw [hcat]; rfl) ⟨by simp, by simp⟩ (fun c => by rw [hpay]; rfl) (by simp [hpay])
    (by simp) (by simp) (by simp) (by rw [hpay]; rfl) rfl ?_ ?_
  · refine ⟨rfl, rfl, fun c => by simp [hpay], by simp [hpay], ?_⟩
    rintro new h
    cases h
    exact ⟨o, hpay, .inr rfl⟩
  · intro k d hd v hv
    have hvo : v ≠ ob := by
      rintro rfl
      rcases Heap.of_get?_update hb hd with ⟨-, rfl⟩ | ⟨-, hd⟩
      · cases hv
      · exact not_mem_views_of_unpinned hc ho hp hz hd hv
    refine views_congr ?_
    unfold Heap.payload?
    rw [Heap.setPayload, Heap.get?_update, if_neg hvo]
  · rw [hpay]
    simp only [Payload.held, Object.held, hp, Option.toList_some, List.map_cons, List.map_nil,
      Option.toList_none, List.append_nil, Object.labels, ← Multiset.coe_add,
      Multiset.coe_singleton, ← Multiset.singleton_add]
    abel

theorem leads_swapOut (hc : e.Consistent client) : e.Leads (e.swapOut ob).1 client := by
  unfold swapOut
  cases ho : e.object ob with
  | error err => exact hc.leads
  | ok o =>
    cases hprogram : o.program with
    | none =>
      simp only [hprogram]
      exact hc.leads
    | some program =>
      cases hp : e.program program with
      | error err =>
        simp only [hprogram, hp]
        exact hc.leads
      | ok p =>
        by_cases hpins : 0 < p.pins
        · simp only [hprogram, hp, if_pos hpins]
          exact hc.leads
        · simp only [hprogram, hp, if_neg hpins]
          obtain ⟨q, hq, -, hqpay⟩ := program_eq_ok_iff.1 hp
          have hz : (e.refs client).count (.pinned program) = 0 := by
            have hcount := hc.balanced.pinned program q p hq hqpay
            omega
          have hl := leads_unload hc ho hprogram hz
          exact hl.trans (leads_release hl.consistent)

/-! ## New objects -/

theorem ofValues_replicate_zero (n : Nat) : ofValues (List.replicate n .zero) = [] := by
  refine List.filterMap_eq_nil_iff.2 fun v hv => ?_
  rw [List.eq_of_mem_replicate hv]
  rfl

theorem leads_newObject (hc : e.Consistent client) (name : String) (program : Handle) :
    e.Leads (e.newObject name program).1 client := by
  unfold newObject
  cases hp : e.program program with
  | error err => exact hc.leads
  | ok p =>
    have hinc := leads_incRef_program hc hp
    have hname := hinc.trans (leads_allocate .objectName (.text name)
      (hinc.consistent.of_eq (zero_add _).symm) "load_object" (fresh_of_isSimple _ rfl rfl rfl) rfl)
    obtain ⟨o, ho⟩ : ∃ o : Object, o =
        { name := (e.incRef program).heap.nextHandle, program := some program
          vars := List.replicate p.totalVariables .zero
          sentences := [], livingName := none, replacedProgram := none, privileges := none } :=
      ⟨_, rfl⟩
    have hheld : o.held = [.owned (e.incRef program).heap.nextHandle .objectName,
        .counted program .program] := by
      rw [ho]
      simp [Object.held, Object.labels, ofValues_replicate_zero, sharedStrings]
    have hobject := hname.trans (leads_grow .object (.object o) (Payload.object o).footprint
      (hname.consistent.of_eq (by
        show _ = (o.held : Multiset Reference) + client
        rw [hheld, ← Multiset.cons_coe, ← Multiset.cons_coe, Multiset.coe_nil, Multiset.cons_add,
          Multiset.cons_add, zero_add, ← Multiset.singleton_add]
        rfl)) "load_object" (fresh_of_isSimple _ rfl rfl rfl))
    subst ho
    exact hobject.trans (leads_fillRoots hobject.consistent rfl rfl (Roots.movable_addObject _ _))

/-! ## The end of objects -/

/-- From one list of the roots to the other. -/
theorem objects_erase {hs : List Handle} (hm : ob ∈ hs) :
    (Reference.objects hs : Multiset Reference) =
      ↑(Reference.objects (hs.erase ob)) + ↑(Reference.objects [ob]) := by
  rw [Multiset.coe_add]
  refine Multiset.coe_eq_coe.2 ?_
  rw [Reference.objects, Reference.objects, Reference.objects, ← List.map_append]
  exact ((List.perm_cons_erase hm).trans (List.perm_append_singleton _ _).symm).map _

theorem leads_destruct (hc : e.Consistent client) (ob : Handle) :
    e.Leads (e.destruct ob).1 client := by
  unfold destruct
  cases ho : e.object ob with
  | error err => exact hc.leads
  | ok o =>
    have hset : e.Leads (e.setObject ob { o with sentences := [] })
        (↑(o.sentences.map (owned · .sentence)) + client) := by
      refine leads_setObject _ hc ho rfl ?_
      simp only [Object.held, Object.labels, List.map_nil, List.cons_append, List.nil_append,
        ← Multiset.cons_coe, ← Multiset.coe_add]
      simp only [← Multiset.singleton_add]
      abel
    have hparts : o.sentences.map Part.owned =
        (o.sentences.map (owned · .sentence)).map Reference.part := by
      simp [Function.comp_def]
    have hgone := hset.trans (leads_discard (o.sentences.map (owned · .sentence)) (by
      intro ref hr
      obtain ⟨_, -, rfl⟩ := List.mem_map.1 hr
      simp [Reference.owned]) hset.consistent)
    simp only
    rw [hparts]
    split
    · rename_i hm
      refine hgone.trans (leads_moveRoots hgone.consistent rfl rfl ?_)
      simp only [Roots.movable, coe_objects_append, objects_erase hm]
      abel
    · exact hgone

theorem leads_flushDestructed (hc : e.Consistent client) :
    e.Leads e.flushDestructed client := by
  have hmove : e.Leads { e with roots := { e.roots with destructed := [] } }
      (↑(Reference.objects e.roots.destructed) + client) := by
    refine leads_moveRoots hc rfl rfl ?_
    simp only [Roots.movable]
    show _ = _ + ((0 : Multiset Reference)) + _
    abel
  have htargets : e.roots.destructed =
      (Reference.objects e.roots.destructed).map (·.target) := by
    simp [Reference.objects, Function.comp_def, counted]
  unfold flushDestructed
  rw [htargets]
  refine hmove.trans (leads_releaseAll ?_ hmove.consistent)
  intro ref hr
  obtain ⟨_, -, rfl⟩ := List.mem_map.1 hr
  rfl

/-! ## New programs -/

theorem layOut_eq_ok {hs : List Handle} {functionOffset variableOffset : Nat}
    {inherits : List Inherit} {ends : Nat × Nat}
    (hl : e.layOut functionOffset variableOffset hs = .ok (inherits, ends)) :
    inherits.map (·.program) = hs ∧ ∀ h ∈ hs, ∃ p, e.program h = .ok p := by
  induction hs generalizing functionOffset variableOffset inherits ends with
  | nil =>
    cases hl
    exact ⟨rfl, by simp⟩
  | cons parent rest ih =>
    obtain ⟨p, others, hp, hrest, rfl⟩ := layOut_cons_eq_ok_iff.1 hl
    obtain ⟨hmap, hall⟩ := ih hrest
    exact ⟨by rw [List.map_cons, hmap], List.forall_mem_cons.2 ⟨⟨p, hp⟩, hall⟩⟩

theorem leads_incRef_inherits {hs : List Handle} (hc : e.Consistent client)
    (hp : ∀ h ∈ hs, ∃ p, e.program h = .ok p) :
    e.Leads (hs.foldl incRef e) (↑(hs.map (counted · .program)) + client) := by
  induction hs generalizing e client with
  | nil => exact hc.leads.of_eq (zero_add client).symm
  | cons h hs ih =>
    obtain ⟨p, hh⟩ := hp h List.mem_cons_self
    have hinc := leads_incRef_program hc hh
    refine (hinc.trans (ih hinc.consistent fun k hk => ?_)).of_eq ?_
    · obtain ⟨q, hq⟩ := hp k (List.mem_cons_of_mem _ hk)
      exact ⟨q, (e.keeps_incRef h).program hq⟩
    · rw [List.map_cons, ← Multiset.cons_coe, Multiset.add_cons, Multiset.cons_add]

theorem leads_internAll (texts : List String) (hc : e.Consistent client) :
    e.Leads (e.internAll texts).1 (↑(sharedStrings (e.internAll texts).2) + client) := by
  induction texts generalizing e client with
  | nil => exact hc.leads.of_eq (zero_add client).symm
  | cons text rest ih =>
    have hone := leads_intern hc text
    rw [internAll_cons]
    refine (hone.trans (ih hone.consistent)).of_eq ?_
    rw [sharedStrings, sharedStrings, List.map_cons, ← Multiset.cons_coe, Multiset.add_cons,
      Multiset.cons_add]

theorem leads_lineInfo (hc : e.Consistent client) (lineNumbers : Bool) (functions : Nat) :
    e.Leads (e.lineInfo lineNumbers functions).1
      (↑((e.lineInfo lineNumbers functions).2.toList.map (owned · .lineNumbers)) + client) := by
  cases lineNumbers with
  | false => exact hc.leads.of_eq (zero_add client).symm
  | true =>
    exact leads_grow .lineNumbers .blank _ (hc.of_eq (zero_add _).symm)
      "line numbers" ⟨rfl, rfl, ⟨by simp, by simp⟩, by simp, by simp, by simp, rfl⟩

/-- Only closures pin. -/
theorem exists_closure_of_pinned (hclient : ∀ ref ∈ client, ref.hold ≠ .pinned) {ref : Reference}
    (hm : ref ∈ e.refs client) (hpin : ref.hold = .pinned) :
    ∃ k b c p, e.heap.get? k = some b ∧ b.payload = .closure c ∧ c.pinned? e.heap = some p ∧
      ref = .pinned p := by
  rcases Multiset.mem_add.1 hm with hm | hm
  · obtain ⟨k, b, hb, hslot⟩ := Heap.mem_heldRefs.1 hm
    have hin : ref ∈ (b.payload.held e.heap).filter isPin :=
      List.mem_filter.2 ⟨hslot, by simp [isPin, hpin]⟩
    rw [b.payload.filter_isPin_held, List.mem_map] at hin
    obtain ⟨p, hp, rfl⟩ := hin
    cases hpay : b.payload with
    | closure c =>
      rw [hpay] at hp
      exact ⟨k, b, c, p, hb, hpay, by simpa [Payload.pins] using hp, rfl⟩
    | _ =>
      rw [hpay] at hp
      cases hp
  · rcases Multiset.mem_add.1 hm with hm | hm
    · exact absurd hpin (hold_of_mem_rootRefs hm)
    · exact absurd hpin (hclient _ hm)

/-- What an object runs is there. -/
theorem live_of_run (hc : e.Consistent client) {o : Object} {p : Handle}
    (hb : e.heap.get? ob = some b) (hpay : b.payload = .object o) (hp : o.program = some p) :
    ∃ q, e.heap.get? p = some q ∧ q.category = .program := by
  have hslot : .counted p .program ∈ b.payload.held e.heap := by
    simp [hpay, Payload.held, Object.held, hp]
  have hm : .counted p .program ∈ e.refs client := mem_refs_of_slot hb hslot
  exact hc.balanced.resolves _ hm (by simp [counted])

/-- Until the words of the generations wrap, anonymous code names nothing newer. -/
theorem Consistent.unaliased (hc : e.Consistent client) (hfew : e.heap.issued ≤ 2 ^ 32) :
    e.heap.Unaliased :=
  fun k b c p q hb hpay hkind hq => ((hc.orderly.anchored k b c hb hpay).known hfew p hkind).2 q hq

/-- Nothing pins the next handle, or there would be code older than what it names. -/
theorem count_pinned_nextHandle (hc : e.Consistent client)
    (hclient : ∀ ref ∈ client, ref.hold ≠ .pinned) {category : Category} {payload : Payload}
    {size : Nat} {description : String}
    (hu : (e.grow category payload size description).heap.issued ≤ 2 ^ 32 ∨
      (e.grow category payload size description).heap.Unaliased) :
    (e.refs client).count (.pinned e.heap.nextHandle) = 0 := by
  refine Multiset.count_eq_zero.2 fun hm => ?_
  obtain ⟨k, b, c, pin, hb, hpay, hpin, heq⟩ := exists_closure_of_pinned hclient hm rfl
  cases heq
  rcases Closure.pinned?_eq_some hpin with hkind | ⟨ob, d, o, -, hob, hd, hrun⟩
  · rcases hu with hfew | hu
    · have hfew : e.heap.issued < 2 ^ 32 := Nat.lt_of_succ_le hfew
      have hknown := (hc.orderly.anchored k b c hb hpay).known (Nat.le_of_lt hfew) _ hkind
      exact hc.orderly.bounded.not_knows_nextHandle hfew hknown.1
    · have hstays := Heap.get?_allocateSized_of_some hb category payload size description
      have hserial := hu k b c _ _ hstays hpay hkind (by
        rw [grow, Heap.get?_allocateSized, if_pos rfl])
      have hold := (hc.orderly.sound k b hb).serial
      simp only at hserial
      omega
  · obtain ⟨q, hq, -⟩ := live_of_run hc hob hd hrun
    rw [Heap.get?_nextHandle] at hq
    cases hq

/-- The reference that comes with a new program. -/
def gainedProgram : Except EngineError Handle → Multiset Reference
  | .ok h => {.counted h .program}
  | .error _ => 0

theorem leads_allocateProgram {p : Program} (hc : e.Consistent (↑p.held + client))
    (hclient : ∀ ref ∈ client, ref.hold ≠ .pinned) (hpins : p.pins = 0)
    (hu : (e.grow .program (.program p) (Payload.program p).footprint
        "compile_file").heap.issued ≤ 2 ^ 32 ∨
      (e.grow .program (.program p) (Payload.program p).footprint
        "compile_file").heap.Unaliased) :
    e.Leads (e.grow .program (.program p) (Payload.program p).footprint "compile_file")
      (.counted e.heap.nextHandle .program ::ₘ client) := by
  refine leads_grow .program (.program p) _ hc "compile_file"
    ⟨rfl, rfl, ⟨by simp, by simp⟩, by simp, ?_, by simp, rfl⟩
  rintro q hq
  cases hq
  refine ⟨hpins, count_pinned_nextHandle hc ?_ hu⟩
  intro ref hr hp
  rcases Multiset.mem_add.1 hr with hr | hr
  · have hm : ref ∈ ((Payload.program p).held e.heap).filter isPin :=
      List.mem_filter.2 ⟨Multiset.mem_coe.1 hr, by simp [isPin, hp]⟩
    rw [Payload.filter_isPin_held] at hm
    cases hm
  · exact hclient ref hr hp

theorem leads_newProgram (hc : e.Consistent client)
    (hclient : ∀ ref ∈ client, ref.hold ≠ .pinned) (source : ProgramSource)
    (hu : (e.newProgram source).1.heap.issued ≤ 2 ^ 32 ∨
      (e.newProgram source).1.heap.Unaliased) :
    e.Leads (e.newProgram source).1 (gainedProgram (e.newProgram source).2 + client) := by
  unfold newProgram at hu ⊢
  cases hlay : e.layOut 0 0 source.inherits with
  | error err => exact hc.leads.of_eq (zero_add client).symm
  | ok r =>
    obtain ⟨inherits, functionOffset, variableOffset⟩ := r
    obtain ⟨hmap, hall⟩ := layOut_eq_ok hlay
    have hl := leads_incRef_inherits hc hall
    obtain ⟨⟨e₁, filename⟩, h₁⟩ :
        ∃ r, (source.inherits.foldl incRef e).intern source.filename = r := ⟨_, rfl⟩
    have hl₁ := hl.trans (leads_intern hl.consistent source.filename)
    rw [h₁] at hl₁
    obtain ⟨⟨e₂, functions⟩, h₂⟩ : ∃ r, e₁.internAll source.functions = r := ⟨_, rfl⟩
    have hl₂ := hl₁.trans (leads_internAll source.functions hl₁.consistent)
    rw [h₂] at hl₂
    obtain ⟨⟨e₃, variableNames⟩, h₃⟩ : ∃ r, e₂.internAll source.variableNames = r := ⟨_, rfl⟩
    have hl₃ := hl₂.trans (leads_internAll source.variableNames hl₂.consistent)
    rw [h₃] at hl₃
    obtain ⟨⟨e₄, strings⟩, h₄⟩ : ∃ r, e₃.internAll source.strings = r := ⟨_, rfl⟩
    have hl₄ := hl₃.trans (leads_internAll source.strings hl₃.consistent)
    rw [h₄] at hl₄
    obtain ⟨⟨e₅, lineInfo⟩, h₅⟩ : ∃ r, e₄.lineInfo source.lineNumbers functions.length = r :=
      ⟨_, rfl⟩
    have hl₅ := hl₄.trans (leads_lineInfo hl₄.consistent source.lineNumbers functions.length)
    rw [h₅] at hl₅
    simp only [hlay, h₁, h₂, h₃, h₄, h₅] at hu ⊢
    obtain ⟨p, hp⟩ : ∃ p : Program, p =
        { filename, inherits, functionNames := functions.map some, variableNames, strings, lineInfo
          pins := 0
          totalFunctions := Word.add functionOffset functions.length
          totalVariables := Word.add variableOffset variableNames.length } := ⟨_, rfl⟩
    have hpins : p.pins = 0 := by rw [hp]
    rw [← hp] at hu ⊢
    refine hl₅.trans (leads_allocateProgram (hl₅.consistent.of_eq ?_) hclient hpins hu)
    rw [hp, ← hmap]
    simp only [Program.held, List.filterMap_map, Function.id_comp, List.filterMap_some,
      coe_sharedStrings_append, List.cons_append, ← Multiset.cons_coe, ← Multiset.coe_add,
      List.map_map]
    simp only [← Multiset.singleton_add, Function.comp_def]
    abel

end Engine

end HeapAudit
