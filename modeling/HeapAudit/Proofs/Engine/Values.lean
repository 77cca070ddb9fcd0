import HeapAudit.Proofs.Engine.Releasing

/-!
Making values. The references of the values that go in are in the new blocks afterwards; the client
holds the reference of the value that comes out.

Main definitions
* `Engine.gainedValue`: the reference that comes with a result.
* `Engine.retained`: the reference that one more retain is good for.

Main statements
* `Engine.leads_newArray`, `Engine.leads_newClass`, `Engine.leads_newMapping`: new aggregates.
* `Engine.leads_newClosure`: a closure pins its program as long as it lives.
* `Engine.leads_retain`, `Engine.leads_objectValue`: more references.
-/

namespace HeapAudit

open Reference

theorem ofValues_append (values more : List Value) :
    ofValues (values ++ more) = ofValues values ++ ofValues more :=
  List.filterMap_append

namespace Engine

/-- The reference of a value that is handed out, if there is no error. -/
def gainedValue : Except EngineError Value → Multiset Reference
  | .ok v => ↑(ofValues [v])
  | .error _ => 0

variable {e : Engine} {client : Multiset Reference} {h : Handle} {b : Block}

/-! ## New blocks -/

/-- Payloads about which there is nothing to know but their category. -/
def isSimple : Payload → Bool
  | .text _ | .bytes _ | .mapping _ | .mapTable _ | .mapNode _ _ | .object _ | .sentence _
  | .session _ | .callOut _ => true
  | _ => false

theorem fresh_of_isSimple {category : Category} {payload : Payload} (size : Nat)
    (hcar : category.carries payload) (hset : category.isSettled) (hp : isSimple payload) :
    e.Fresh client category payload size := by
  refine ⟨hcar, hset, ⟨?_, ?_⟩, ?_, ?_, ?_, ?_⟩
  · rintro _ _ rfl
    cases hp
  · rintro _ rfl
    cases hp
  · rintro _ rfl
    cases hp
  · rintro _ rfl
    cases hp
  · rintro _ rfl
    cases hp
  · cases payload <;> first | rfl | cases hp

theorem fresh_slots {category : Category} {items : List Value}
    (hcar : category.carries (.slots items))
    (hset : category.isSettled) :
    e.Fresh client category (.slots items) (Payload.slots items).footprint := by
  refine ⟨hcar, hset, ⟨by simp, by simp⟩, ?_, by simp, by simp, rfl⟩
  rintro _ h
  cases h
  rfl

/-- A block of a kind the counters do not look at. -/
theorem leads_allocate (category : Category) (payload : Payload)
    (hc : e.Consistent (↑(payload.held e.heap) + client)) (description : String)
    (hf : e.Fresh (↑(payload.held e.heap) + client) category payload payload.footprint)
    (hadd : e.counters.adding category payload.footprint payload = e.counters) :
    e.Leads (e.allocate category payload description).1
      (category.firstReference payload e.heap.nextHandle + client) := by
  have hl := leads_grow category payload _ hc description hf
  unfold grow at hl
  rw [hadd] at hl
  exact hl

theorem sizeOf_allocate (e : Engine) (category : Category) (payload : Payload)
    (description : String) :
    (e.allocate category payload description).1.sizeOf e.heap.nextHandle = payload.footprint := by
  simp [sizeOf, allocate, Heap.allocate, Heap.get?_allocateSized]

/-! ## Aggregates -/

theorem allocateArray_eq (e : Engine) (items : List Value) :
    e.allocateArray items =
      (e.grow .array (.slots items) (Payload.slots items).footprint "allocate_array",
        e.heap.nextHandle) := by
  have hsize := e.sizeOf_allocate .array (.slots items) "allocate_array"
  unfold allocateArray
  show ({ (e.allocate .array (.slots items) "allocate_array").1 with
    counters := { e.counters with
      arrays := e.counters.arrays + 1
      arrayBytes := e.counters.arrayBytes
        + (e.allocate .array (.slots items) "allocate_array").1.sizeOf e.heap.nextHandle } },
    e.heap.nextHandle) = _
  rw [hsize]
  rfl

theorem leads_allocateArray {items : List Value} (hc : e.Consistent (↑(ofValues items) + client)) :
    e.Leads (e.allocateArray items).1 (.counted e.heap.nextHandle .array ::ₘ client) := by
  rw [allocateArray_eq]
  exact leads_grow .array (.slots items) _ hc _ (fresh_slots rfl rfl)

theorem leads_newArray {items : List Value} (hc : e.Consistent (↑(ofValues items) + client)) :
    e.Leads (e.newArray items).1 (↑(ofValues [(e.newArray items).2]) + client) := by
  have hl := leads_allocateArray hc
  unfold newArray
  rw [allocateArray_eq] at hl ⊢
  exact hl

theorem leads_newClass {members : List Value} (hc : e.Consistent (↑(ofValues members) + client)) :
    e.Leads (e.newClass members).1 (↑(ofValues [(e.newClass members).2]) + client) := by
  have hl := leads_grow .classInstance (.slots members) _ hc
    "allocate_class" (fresh_slots rfl rfl)
  have hsize := e.sizeOf_allocate .classInstance (.slots members) "allocate_class"
  unfold newClass
  show e.Leads { (e.allocate .classInstance (.slots members) "allocate_class").1 with
    counters := { e.counters with
      classes := e.counters.classes + 1
      classBytes := e.counters.classBytes
        + (e.allocate .classInstance (.slots members) "allocate_class").1.sizeOf
          e.heap.nextHandle } } _
  rw [hsize]
  exact hl

theorem leads_newBuffer (hc : e.Consistent client) (content : List UInt8) :
    e.Leads (e.newBuffer content).1 (↑(ofValues [(e.newBuffer content).2]) + client) := by
  rw [← zero_add client] at hc
  exact leads_allocate .buffer (.bytes content) hc "allocate_buffer"
    (fresh_of_isSimple _ rfl rfl rfl) rfl

/-- The values of the pairs, in order. -/
def pairValues (pairs : List (Value × Value)) : List Value := pairs.flatMap fun p => [p.1, p.2]

theorem leads_newNodes {pairs : List (Value × Value)}
    (hc : e.Consistent (↑(ofValues (pairValues pairs)) + client)) :
    e.Leads (e.newNodes pairs).1 (↑((e.newNodes pairs).2.map (owned · .mapNode)) + client) := by
  induction pairs generalizing e client with
  | nil => exact hc.leads
  | cons p rest ih =>
    obtain ⟨key, value⟩ := p
    have hsplit : (↑(ofValues (pairValues ((key, value) :: rest))) : Multiset Reference) =
        ↑(ofValues [key, value]) + ↑(ofValues (pairValues rest)) := by
      rw [Multiset.coe_add, ← ofValues_append]
      rfl
    rw [hsplit, add_assoc] at hc
    have hnode := leads_allocate .mapNode (.mapNode key value) hc
      "new_map_node" (fresh_of_isSimple _ rfl rfl rfl) rfl
    have hc' := hnode.consistent
    rw [add_left_comm] at hc'
    have hl := hnode.trans (ih hc')
    rw [add_left_comm] at hl
    rw [newNodes_cons, List.map_cons, ← Multiset.cons_coe, Multiset.cons_add]
    exact hl

theorem leads_newMapping {pairs : List (Value × Value)}
    (hc : e.Consistent (↑(ofValues (pairValues pairs)) + client)) :
    e.Leads (e.newMapping pairs).1 (↑(ofValues [(e.newMapping pairs).2]) + client) := by
  have hnodes := leads_newNodes hc
  have htable := hnodes.trans (leads_allocate
    .mapTable (.mapTable (e.newNodes pairs).2) hnodes.consistent
    "new_map_table" (fresh_of_isSimple _ rfl rfl rfl) rfl)
  exact htable.trans (leads_grow .mapping (.mapping (e.newNodes pairs).1.heap.nextHandle) _
    htable.consistent "allocate_mapping"
    (fresh_of_isSimple _ rfl rfl rfl))

/-! ## More references -/

/-- One reference more to a block that is no string. -/
theorem leads_incRef (hc : e.Consistent client) (hb : e.heap.get? h = some b)
    (hcounted : b.category.isCounted)
    (hst : ¬ (b.category = .sharedString ∨ b.category = .mallocString)) :
    e.Leads (e.incRef h) (.counted h b.category ::ₘ client) := by
  have hcost := (hc.orderly.sound h b hb).stringCost?_eq_none hst
  refine Yields.leads
    ⟨⟨?_, hc.tallied.update hb (fun _ => rfl) hcost hcost, hc.failing, hc.unspent⟩,
      Heap.later_update hb (.of_payload rfl rfl rfl),
      fun hp => hp.update hb (hp h b hb).1 (hp h b hb).2⟩
    (Heap.grows_update hb rfl (Nat.le_refl _))
  show (e.heap.incRef h).Orderly (e.rootRefs + (.counted h b.category ::ₘ client))
  rw [Multiset.add_cons]
  exact hc.orderly.incRef hb hcounted fun h => absurd h hst

theorem leads_recount_of_uncounted (hc : e.Consistent client) (hb : e.heap.get? h = some b)
    (hcounted : ¬ b.category.isCounted) (count : Nat → Nat) :
    e.Leads (e.setHeap (e.heap.update h fun b => { b with refs := count b.refs })) client := by
  have hcost := (hc.orderly.sound h b hb).stringCost?_eq_none
    fun hst => hcounted (Category.isCounted_of_string hst)
  exact Yields.leads
    ⟨⟨hc.orderly.recount_of_uncounted hb hcounted count,
        hc.tallied.update hb (fun _ => rfl) hcost hcost, hc.failing, hc.unspent⟩,
      Heap.later_update hb (.of_payload rfl rfl rfl),
      fun hp => hp.update hb (hp h b hb).1 (hp h b hb).2⟩
    (Heap.grows_update hb rfl (Nat.le_refl _))

theorem leads_incRef_object (hc : e.Consistent client) {o : Object} (ho : e.object h = .ok o) :
    e.Leads (e.incRef h) (.counted h .object ::ₘ client) := by
  obtain ⟨b, hb, hcat, -⟩ := object_eq_ok_iff.1 ho
  rw [← hcat]
  exact leads_incRef hc hb (by rw [hcat]; rfl) (by simp [hcat])

theorem leads_incRef_program (hc : e.Consistent client) {p : Program}
    (hp : e.program h = .ok p) : e.Leads (e.incRef h) (.counted h .program ::ₘ client) := by
  obtain ⟨b, hb, hcat, -⟩ := program_eq_ok_iff.1 hp
  rw [← hcat]
  exact leads_incRef hc hb (by rw [hcat]; rfl) (by simp [hcat])

/-- The reference that retaining a block is good for. -/
def retained (e : Engine) (h : Handle) : Multiset Reference :=
  match e.heap.get? h with
  | none => 0
  | some b => if b.category.isCounted ∧ (e.retain h).2 then {.counted h b.category} else 0

theorem leads_retain (hc : e.Consistent client) (h : Handle) :
    e.Leads (e.retain h).1 (e.retained h + client) := by
  unfold retained
  cases hb : e.heap.get? h with
  | none =>
    rw [zero_add, retain, hb]
    exact hc.leads
  | some b =>
    by_cases hst : b.category = .sharedString ∨ b.category = .mallocString
    · have hcounted := Category.isCounted_of_string hst
      cases hcost : b.payload.stringCost? with
      | none =>
        have hat : StringTable.costAt? e.heap h = none := by
          simp [StringTable.costAt?, Heap.payload?, hb, hcost]
        have hsame : e.retain h = (e, false) := by
          simp only [retain, hb, if_pos hst, StringTable.retain, hat]
        rw [hsame]
        simp only [Bool.false_eq_true, and_false, if_false, zero_add]
        exact hc.leads
      | some cost =>
        have hat : StringTable.costAt? e.heap h = some cost := by
          simp [StringTable.costAt?, Heap.payload?, hb, hcost]
        have hmore : e.retain h =
            ({ e with
                strings := { e.strings with totals := e.strings.totals.addReference cost }
                heap := e.heap.incRef h }, true) := by
          simp only [retain, hb, if_pos hst, StringTable.retain, hat]
        rw [hmore]
        simp only [hcounted, and_self, if_true, Multiset.singleton_add]
        exact leads_moreString hc hb hst hcost
    · have hmore : e.retain h = (e.incRef h, true) := by simp only [retain, hb, if_neg hst]
      rw [hmore]
      by_cases hcounted : b.category.isCounted
      · simp only [hcounted, and_self, if_true, Multiset.singleton_add]
        exact leads_incRef hc hb hcounted hst
      · simp only [hcounted, Bool.false_eq_true, false_and, if_false, zero_add]
        exact leads_recount_of_uncounted hc hb hcounted (· + 1)

theorem leads_cloneValue (hc : e.Consistent client) (v : Value) :
    e.Leads (e.cloneValue v).1 (v.target?.elim 0 e.retained + client) := by
  unfold cloneValue
  cases v.target? with
  | none =>
    show e.Leads e (0 + client)
    rw [zero_add]
    exact hc.leads
  | some h => exact leads_retain hc h

theorem leads_objectValue (hc : e.Consistent client) (ob : Handle) :
    e.Leads (e.objectValue ob).1 (gainedValue (e.objectValue ob).2 + client) := by
  unfold objectValue
  cases ho : e.object ob with
  | error err =>
    simp only [gainedValue, zero_add]
    exact hc.leads
  | ok o => exact leads_incRef_object hc ho

/-! ## What stays -/

/-- All blocks there were keep their categories and payloads. -/
def Keeps (e next : Engine) : Prop :=
  ∀ k b, e.heap.get? k = some b →
    ∃ c, next.heap.get? k = some c ∧ c.category = b.category ∧ c.payload = b.payload

variable {mid next : Engine}

theorem Keeps.refl (e : Engine) : e.Keeps e :=
  fun _ b hb => ⟨b, hb, rfl, rfl⟩

theorem Keeps.trans (hm : e.Keeps mid) (hn : mid.Keeps next) : e.Keeps next := by
  intro k b hb
  obtain ⟨c, hc, hcat, hpay⟩ := hm k b hb
  obtain ⟨d, hd, hcat', hpay'⟩ := hn k c hc
  exact ⟨d, hd, hcat'.trans hcat, hpay'.trans hpay⟩

theorem Keeps.object (hk : e.Keeps next) {o : Object} (ho : e.object h = .ok o) :
    next.object h = .ok o := by
  obtain ⟨b, hb, hcat, hpay⟩ := object_eq_ok_iff.1 ho
  obtain ⟨c, hc, hcat', hpay'⟩ := hk h b hb
  exact object_eq_ok_iff.2 ⟨c, hc, hcat'.trans hcat, hpay'.trans hpay⟩

theorem Keeps.program (hk : e.Keeps next) {p : Program} (hp : e.program h = .ok p) :
    next.program h = .ok p := by
  obtain ⟨b, hb, hcat, hpay⟩ := program_eq_ok_iff.1 hp
  obtain ⟨c, hc, hcat', hpay'⟩ := hk h b hb
  exact program_eq_ok_iff.2 ⟨c, hc, hcat'.trans hcat, hpay'.trans hpay⟩

theorem Keeps.session (hk : e.Keeps next) {s : Session} (hs : e.session h = .ok s) :
    next.session h = .ok s := by
  obtain ⟨b, hb, hcat, hpay⟩ := session_eq_ok_iff.1 hs
  obtain ⟨c, hc, hcat', hpay'⟩ := hk h b hb
  exact session_eq_ok_iff.2 ⟨c, hc, hcat'.trans hcat, hpay'.trans hpay⟩

theorem keeps_of_incRef (hn : next.heap = e.heap.incRef h) : e.Keeps next := by
  intro k b hb
  rw [hn, Heap.incRef, Heap.get?_update]
  by_cases hk : k = h
  · rw [if_pos hk, ← hk, hb]
    exact ⟨_, rfl, rfl, rfl⟩
  · rw [if_neg hk]
    exact ⟨b, hb, rfl, rfl⟩

theorem keeps_of_allocateSized (category : Category) (payload : Payload) (size : Nat)
    (description : String)
    (hn : next.heap = (e.heap.allocateSized category payload size description).1) :
    e.Keeps next := by
  intro k b hb
  rw [hn]
  exact ⟨b, Heap.get?_allocateSized_of_some hb category payload size description, rfl, rfl⟩

theorem keeps_incRef (e : Engine) (h : Handle) : e.Keeps (e.incRef h) :=
  keeps_of_incRef (h := h) rfl

theorem keeps_intern (e : Engine) (text : String) : e.Keeps (e.intern text).1 := by
  have hnew : e.Keeps { e with
      strings := (e.strings.internNew e.heap text).1
      heap := (e.strings.internNew e.heap text).2.1 } :=
    keeps_of_allocateSized .sharedString (.sharedText text) (Payload.sharedText text).footprint
      "make_shared_string" rfl
  unfold intern StringTable.intern
  cases e.strings.find? text with
  | none => exact hnew
  | some h =>
    by_cases hlive : e.heap.isLive h
    · simp only [hlive, if_true]
      exact keeps_of_incRef (h := h) rfl
    · simp only [hlive, Bool.false_eq_true, if_false]
      exact hnew

theorem object_setProgram {k : Handle} {o : Object} {p q : Program} (ho : e.object k = .ok o)
    (hp : e.program h = .ok p) : (e.setProgram h q).object k = .ok o := by
  obtain ⟨b, hb, hcat, hpay⟩ := object_eq_ok_iff.1 ho
  obtain ⟨d, hd, hcat', -⟩ := program_eq_ok_iff.1 hp
  have hne : k ≠ h := by
    rintro rfl
    rw [hb] at hd
    cases hd
    rw [hcat] at hcat'
    cases hcat'
  refine object_eq_ok_iff.2 ⟨b, ?_, hcat, hpay⟩
  show (e.heap.update h _).get? k = some b
  rw [Heap.get?_update, if_neg hne]
  exact hb

theorem program_setProgram {p q : Program} (hp : e.program h = .ok p) :
    (e.setProgram h q).program h = .ok q := by
  obtain ⟨b, hb, hcat, -⟩ := program_eq_ok_iff.1 hp
  refine program_eq_ok_iff.2 ⟨{ b with payload := .program q }, ?_, hcat, rfl⟩
  show (e.heap.update h _).get? h = _
  rw [Heap.get?_update, if_pos rfl, hb]
  rfl

/-! ## Closures -/

theorem programOf?_of_object {ob : Handle} {o : Object} (ho : e.object ob = .ok o) :
    e.heap.programOf? ob = o.program := by
  obtain ⟨b, hb, -, hp⟩ := object_eq_ok_iff.1 ho
  simp [Heap.programOf?, Heap.payload?, hb, hp, Payload.object?]

/-- The owner of a closure, if there is one, runs `program`. -/
def Owns (e : Engine) (owner program : Option Handle) : Prop :=
  match owner with
  | none => program = none
  | some ob => ∃ o, e.object ob = .ok o ∧ o.program = program

theorem owns_of_ownerProgram {owner program : Option Handle}
    (ho : e.ownerProgram owner = .ok program) : e.Owns owner program := by
  cases owner with
  | none =>
    cases ho
    exact rfl
  | some ob =>
    cases hob : e.object ob with
    | error err =>
      simp only [ownerProgram, hob, Except.map] at ho
      cases ho
    | ok o =>
      simp only [ownerProgram, hob, Except.map] at ho
      cases ho
      exact ⟨o, hob, rfl⟩

theorem Owns.mono {owner program : Option Handle} (ho : e.Owns owner program)
    (hk : ∀ k o, e.object k = .ok o → next.object k = .ok o) : next.Owns owner program := by
  cases owner with
  | none => exact ho
  | some ob =>
    obtain ⟨o, hob, hp⟩ := ho
    exact ⟨o, hk ob o hob, hp⟩

/-- A program notes the closure. -/
theorem leads_pin (hc : e.Consistent client) {program : Option Handle}
    (hp : e.pin program = .ok next) :
    e.Leads next (↑(program.toList.map pinned) + client) ∧
      (∀ k o, e.object k = .ok o → next.object k = .ok o) ∧
      ∀ h ∈ program, ∃ p, next.program h = .ok p := by
  cases program with
  | none =>
    cases hp
    exact ⟨by simpa using hc.leads, fun _ _ ho => ho, by simp⟩
  | some h =>
    cases hprog : e.program h with
    | error err =>
      simp only [pin, hprog, Except.map] at hp
      cases hp
    | ok p =>
      simp only [pin, hprog, Except.map] at hp
      cases hp
      obtain ⟨b, hb, -, hpay⟩ := program_eq_ok_iff.1 hprog
      have hmore : e.heap.Grows (e.setProgram h { p with pins := p.pins + 1 }).heap :=
        Heap.grows_update hb (by rw [Counters.ofBlock, Counters.ofBlock, hpay]; rfl)
          (by rw [hpay]; exact Nat.le_succ _)
      refine ⟨(yields_setPins hc hb hpay ?_).leads hmore, fun k o ho => object_setProgram ho hprog, ?_⟩
      swap
      · rintro _ ⟨⟩
        exact ⟨_, program_setProgram hprog⟩
      show (e.heap.setPayload h _).Orderly (e.rootRefs + (.pinned h ::ₘ 0 + client))
      rw [Multiset.cons_add, zero_add, Multiset.add_cons]
      exact hc.orderly.pin hb hpay

theorem prepareClosure_eq_ok {kind : ClosureKind} {owner : Option Handle}
    (hp : e.prepareClosure kind owner = .ok next) :
    ∃ program, e.Owns owner program ∧ needsLoaded kind owner program = none ∧
      e.pin (kind.pinned? program) = .ok next := by
  unfold prepareClosure at hp
  cases ho : e.ownerProgram owner with
  | error err =>
    rw [ho] at hp
    cases hp
  | ok program =>
    rw [ho] at hp
    simp only [bind, Except.bind] at hp
    split at hp
    · cases hp
    · rename_i hn
      exact ⟨program, owns_of_ownerProgram ho, hn, hp⟩

theorem leads_bindArgs {args : List Value} (hc : e.Consistent (↑(ofValues args) + client)) :
    e.Leads (e.bindArgs args).1 (↑((e.bindArgs args).2.toList.map (counted · .array)) + client) ∧
      e.Keeps (e.bindArgs args).1 := by
  cases args with
  | nil => exact ⟨hc.leads, .refl e⟩
  | cons v vs =>
    have hl := leads_allocateArray hc
    have hbind : e.bindArgs (v :: vs) =
        ((e.allocateArray (v :: vs)).1, some (e.allocateArray (v :: vs)).2) := rfl
    rw [hbind, allocateArray_eq] at *
    exact ⟨hl, keeps_of_allocateSized .array (.slots (v :: vs)) (Payload.slots (v :: vs)).footprint
      "allocate_array" rfl⟩

/-- All there is now is older than what comes next. -/
theorem anchored_next (hc : e.Consistent client) {c : Closure}
    (hl : ∀ k ∈ c.views, (e.heap.programOf? k).isSome)
    (hp : ∀ h ∈ c.pinned? e.heap, ∃ p, e.program h = .ok p) :
    c.Anchored e.heap (e.heap.issued + 1) := by
  have hnow : ∀ k b, e.heap.get? k = some b → b.serial < e.heap.issued + 1 :=
    fun k b hb => Nat.lt_succ_of_le (hc.orderly.sound k b hb).serial
  refine ⟨hl, fun ob _ b hb => hnow ob b hb, fun h _ _ b hb => hnow h b hb, ?_, ?_⟩
  · intro h hpin b hb _
    obtain ⟨p, hprog⟩ := hp h hpin
    obtain ⟨d, hd, -, hpay⟩ := program_eq_ok_iff.1 hprog
    rw [hb] at hd
    cases hd
    exact ⟨p, hpay⟩
  · intro _ h hkind
    obtain ⟨p, hprog⟩ := hp h (by rw [Closure.pinned?, hkind]; rfl)
    obtain ⟨d, hd, -, -⟩ := program_eq_ok_iff.1 hprog
    exact ⟨Heap.knows_of_get? hd, fun b hb => hnow h b hb⟩

/-- What a closure pins through an owner that runs a program. -/
theorem Owns.pinned?_eq {kind : ClosureKind} {owner program : Option Handle}
    (ho : e.Owns owner program) (hn : needsLoaded kind owner program = none)
    (args : Option Handle) :
    (⟨kind, owner, args⟩ : Closure).pinned? e.heap = kind.pinned? program ∧
      ∀ k ∈ (⟨kind, owner, args⟩ : Closure).views, (e.heap.programOf? k).isSome := by
  cases owner with
  | none =>
    cases ho
    refine ⟨rfl, ?_⟩
    cases kind with
    | ownCode index bindable => cases bindable <;> simp [Closure.views]
    | _ => simp [Closure.views]
  | some ob =>
    obtain ⟨o, hob, rfl⟩ := ho
    have hp := programOf?_of_object hob
    refine ⟨congrArg (fun p => kind.pinned? p) hp, ?_⟩
    cases kind with
    | ownCode index bindable =>
      cases bindable with
      | true => simp [Closure.views]
      | false =>
        cases hprog : o.program with
        | none => simp [needsLoaded, hprog] at hn
        | some p => simp [Closure.views, hp, hprog]
    | _ => simp [Closure.views]

/-- The block of a closure, once its owner, its arguments and its pin are there. -/
theorem leads_allocateClosure {c : Closure} (hc : e.Consistent (↑(c.held e.heap) + client))
    (hl : ∀ k ∈ c.views, (e.heap.programOf? k).isSome)
    (hp : ∀ h ∈ c.pinned? e.heap, ∃ p, e.program h = .ok p) :
    e.Leads (e.allocate .function (.closure c) "make_funp").1
      (.counted e.heap.nextHandle .function ::ₘ client) := by
  refine leads_allocate .function (.closure c) hc "make_funp"
    ⟨rfl, rfl, ⟨by simp, by simp⟩, by simp, by simp, ?_, rfl⟩ rfl
  rintro d hd
  cases hd
  exact anchored_next hc hl hp

theorem leads_incRef_owner {owner program : Option Handle} (hc : e.Consistent client)
    (ho : e.Owns owner program) :
    e.Leads (owner.elim e e.incRef) (↑(objects owner.toList) + client) ∧
      e.Keeps (owner.elim e e.incRef) := by
  cases owner with
  | none =>
    refine ⟨?_, .refl e⟩
    show e.Leads e (0 + client)
    rw [zero_add]
    exact hc.leads
  | some ob =>
    obtain ⟨o, hob, -⟩ := ho
    exact ⟨leads_incRef_object hc hob, e.keeps_incRef ob⟩

theorem leads_newClosure {kind : ClosureKind} {owner : Option Handle} {args : List Value}
    (hc : e.Consistent (↑(ofValues args) + client)) :
    e.Leads (e.newClosure kind owner args).1
      (gainedValue (e.newClosure kind owner args).2 + client) := by
  unfold newClosure
  cases hprep : e.prepareClosure kind owner with
  | error err =>
    simp only [gainedValue, zero_add]
    exact leads_releaseValues hc
  | ok noted =>
    obtain ⟨program, hown, hneeds, hpin⟩ := prepareClosure_eq_ok hprep
    obtain ⟨hnoted, hkeep, hloaded⟩ := leads_pin hc hpin
    have hown := hown.mono hkeep
    obtain ⟨hheld, hkeep⟩ := leads_incRef_owner hnoted.consistent hown
    have hown := hown.mono fun _ _ ho => hkeep.object ho
    have hheld := hnoted.trans hheld
    have hstill := hkeep
    have hargs : e.Leads (owner.elim noted noted.incRef) (↑(ofValues args) +
        (↑(objects owner.toList) + ↑((kind.pinned? program).toList.map pinned) + client)) :=
      hheld.of_eq (by abel)
    obtain ⟨hbound, hkeep⟩ := leads_bindArgs hargs.consistent
    have hown := hown.mono fun _ _ ho => hkeep.object ho
    obtain ⟨hpinned, hviews⟩ := hown.pinned?_eq hneeds
      ((owner.elim noted noted.incRef).bindArgs args).2
    refine (hargs.trans hbound).trans
      (leads_allocateClosure (hbound.consistent.of_eq ?_) hviews ?_)
    · rw [Closure.held, hpinned, ← Multiset.coe_add, ← Multiset.coe_add]
      abel
    · rw [hpinned]
      intro h hp
      obtain ⟨p, hprog⟩ := hloaded h hp
      exact ⟨p, hkeep.program (hstill.program hprog)⟩

end Engine

end HeapAudit
