import HeapAudit.Engine.Sessions
import HeapAudit.Proofs.Engine.Objects

/-!
Commands, sessions and timers: sentences go to the objects and sessions they are made for, sessions
and timers to the roots.

Main statements
* `Engine.leads_addAction`, `Engine.leads_addActionClosure`: a new command.
* `Engine.leads_connect`, `Engine.leads_disconnect`: the life of a session.
* `Engine.leads_setInput`, `Engine.leads_setFailMessage`: what hangs on a session.
* `Engine.leads_callOut`, `Engine.leads_removeCallOut`: the life of a timer.
-/

namespace HeapAudit

open Reference

namespace Engine

variable {e next : Engine} {client left : Multiset Reference} {ob h : Handle} {b : Block}

/-! ## Commands -/

theorem leads_allocateSentence {s : Sentence} (hc : e.Consistent (↑s.held + client))
    (description : String) :
    e.Leads (e.allocateSentence s description).1
      (↑[owned (e.allocateSentence s description).2 .sentence] + client) :=
  leads_grow .sentence (.sentence s) (Payload.sentence s).footprint hc description
    (fresh_of_isSimple _ rfl rfl rfl)

theorem keeps_allocateSentence (e : Engine) (s : Sentence) (description : String) :
    e.Keeps (e.allocateSentence s description).1 :=
  keeps_of_allocateSized .sentence (.sentence s) (Payload.sentence s).footprint description rfl

/-- The object is still there once its sentence is, so that the second look-up finds it. -/
theorem attachSentence_eq {o : Object} (ho : e.object ob = .ok o) (callee : Callee)
    (verb : String) :
    e.attachSentence ob callee verb =
      let (named, word) := e.intern verb
      let (next, h) := named.allocateSentence ⟨ob, callee, some word⟩ "add_action"
      (next.setObject ob { o with sentences := o.sentences ++ [h] }, .ok h) := by
  have hkeep := (e.keeps_intern verb).trans
    ((e.intern verb).1.keeps_allocateSentence ⟨ob, callee, some (e.intern verb).2⟩ "add_action")
  unfold attachSentence
  simp only [hkeep.object ho]

/-- The sentence holds what it calls and its verb, the object holds the sentence. -/
theorem leads_attachSentence {o : Object} {callee : Callee} {verb : String}
    (hc : e.Consistent (ofCallee callee ::ₘ client)) (ho : e.object ob = .ok o) :
    e.Leads (e.attachSentence ob callee verb).1 client := by
  obtain ⟨⟨e₁, word⟩, h₁⟩ : ∃ r, e.intern verb = r := ⟨_, rfl⟩
  have hword := leads_intern hc verb
  have hkeep := e.keeps_intern verb
  rw [h₁] at hword hkeep
  have hsentence := hword.trans (leads_allocateSentence (s := ⟨ob, callee, some word⟩)
    (hword.consistent.of_eq (by
      show _ = (↑(sharedStrings [word] ++ [ofCallee callee]) : Multiset Reference) + client
      rw [← Multiset.coe_add, add_assoc, Multiset.coe_singleton, Multiset.singleton_add]
      rfl)) "add_action")
  have hobject := (hkeep.trans (e₁.keeps_allocateSentence ⟨ob, callee, some word⟩
    "add_action")).object ho
  rw [attachSentence_eq ho]
  simp only [h₁]
  refine hsentence.trans (leads_setObject _ hsentence.consistent hobject rfl ?_)
  simp only [Object.held, Object.labels, List.map_append, List.map_cons, List.map_nil,
    List.cons_append, ← Multiset.cons_coe, ← Multiset.coe_add, Multiset.coe_nil]
  simp only [← Multiset.singleton_add]
  abel

theorem leads_addAction (hc : e.Consistent client) (ob : Handle) (function verb : String) :
    e.Leads (e.addAction ob function verb).1 client := by
  unfold addAction
  cases ho : e.object ob with
  | error err => exact hc.leads
  | ok o =>
    have hname := leads_intern hc function
    exact hname.trans (leads_attachSentence hname.consistent ((e.keeps_intern function).object ho))

theorem leads_addActionClosure {v : Value} (hc : e.Consistent (↑(ofValues [v]) + client))
    (ob : Handle) (verb : String) : e.Leads (e.addActionClosure ob v verb).1 client := by
  unfold addActionClosure
  split
  · rename_i fp
    cases ho : e.object ob with
    | error err => exact leads_releaseValue hc
    | ok o => exact leads_attachSentence hc ho
  · exact leads_releaseValue hc

/-! ## Changed sessions -/

/-- The slots of a session. -/
theorem Session.coe_held (heap : Heap) (s : Session) :
    ((s.held heap).map (·.2) : Multiset Reference) =
      ↑[counted s.object .object] + ↑(s.redirect.elim [] (Redirect.held heap))
        + ↑(s.failMessage.toList.map ofCallee) := by
  simp only [Session.held, List.map_append, List.map_cons, map_snd_underRoot, ← Multiset.coe_add,
    List.cons_append, ← Multiset.cons_coe, Multiset.coe_nil]
  simp only [← Multiset.singleton_add]
  abel

theorem leads_setSession {session : Handle} {s : Session} (new : Session)
    (left : Multiset Reference) (hc : e.Consistent client) (hs : e.session session = .ok s)
    (hmove : ↑((s.held e.heap).map (·.2)) + client = ↑((new.held e.heap).map (·.2)) + left) :
    e.Leads (e.setSession session new) left ∧
      ∀ k, (e.setSession session new).heap.sentenceOf? k = e.heap.sentenceOf? k := by
  obtain ⟨b, hb, hcat, hpay⟩ := session_eq_ok_iff.1 hs
  have hviews : ∀ k, e.heap.programOf? k = (e.setSession session new).heap.programOf? k ∧
      e.heap.sentenceOf? k = (e.setSession session new).heap.sentenceOf? k := by
    intro k
    refine Heap.views_update hb ?_ ?_ k
    · rw [hpay]
      rfl
    · rw [hpay]
      rfl
  refine ⟨leads_setPayload (.session new) hc hb ?_ (by rw [hcat]; rfl)
    ⟨by simp, by simp⟩ (fun c => by rw [hpay]; rfl) (by simp [hpay]) (by simp) (by simp) (by simp)
    (by rw [hpay]; rfl) rfl (fun _ _ _ v _ => hviews v) (by rw [hpay]; exact hmove),
    fun k => (hviews k).2.symm⟩
  exact ⟨rfl, rfl, fun c => by simp [hpay], by simp [hpay], fun _ h => (by cases h)⟩

/-- The references of a redirect go with it. -/
theorem leads_dropRedirect {r : Option Redirect}
    (hc : e.Consistent (↑(r.elim [] (Redirect.held e.heap)) + client)) :
    e.Leads (e.dropRedirect r) client := by
  cases r with
  | none => exact hc.leads.of_eq (zero_add client)
  | some r =>
    show e.Leads (e.discard (r.parts e.heap)) client
    rw [← r.map_part_released]
    refine leads_discard _ ?_ (hc.of_eq (by rw [Option.elim_some, r.held_eq_released]))
    intro ref hr
    have hreleased : ref ∈ (Payload.session ⟨⟨0, 0⟩, some r, none⟩).released e.heap := by
      simp [Payload.released, Session.released, hr]
    exact Payload.hold_of_mem_released ⟨by simp, by simp⟩ hreleased

theorem held_congr_redirect {heap other : Heap}
    (hs : ∀ k, other.sentenceOf? k = heap.sentenceOf? k) (r : Option Redirect) :
    r.elim [] (Redirect.held other) = r.elim [] (Redirect.held heap) := by
  cases r with
  | none => rfl
  | some r => simp only [Option.elim_some, Redirect.held, hs]

/-- A reference to a live block that is no string is there to be counted. -/
theorem leads_incRef_of_mem {c : Category} (hc : e.Consistent client)
    (hm : .counted h c ∈ e.refs client) (hst : ¬ (c = .sharedString ∨ c = .mallocString)) :
    e.Leads (e.incRef h) (.counted h c ::ₘ client) := by
  obtain ⟨b, hb, rfl⟩ := hc.balanced.resolves _ hm (by simp [counted])
  exact leads_incRef hc hb (hc.balanced.fits _ hm) hst

/-- The session holds what it held once its sentence is there, so that the second look-up finds
it again. -/
theorem setInput_eq {session : Handle} {s : Session} (hs : e.session session = .ok s)
    (function : String) (carried : List Value) :
    e.setInput session function carried =
      let (named, name) := (e.incRef s.object).intern function
      let (next, sentence) := named.allocateSentence ⟨s.object, .name name, none⟩ "input_to"
      ((next.setSession session { s with redirect := some ⟨sentence, carried⟩ }).dropRedirect
        s.redirect, .ok ()) := by
  have hkeep := ((e.keeps_incRef s.object).trans
    ((e.incRef s.object).keeps_intern function)).trans
      (keeps_allocateSentence ((e.incRef s.object).intern function).1
        ⟨s.object, .name ((e.incRef s.object).intern function).2, none⟩ "input_to")
  unfold setInput
  rw [hs]
  simp only [hkeep.session hs]

theorem leads_setInput {session : Handle} {function : String} {carried : List Value}
    (hc : e.Consistent (↑(ofValues carried) + client)) :
    e.Leads (e.setInput session function carried).1 client := by
  cases hs : e.session session with
  | error err =>
    unfold setInput
    rw [hs]
    exact leads_releaseValues hc
  | ok s =>
    rw [setInput_eq hs]
    obtain ⟨b, hb, hcat, hpay⟩ := session_eq_ok_iff.1 hs
    have hslot : .counted s.object .object ∈ b.payload.held e.heap := by
      simp [hpay, Payload.held, Session.held]
    have howner := leads_incRef_of_mem hc (mem_refs_of_slot hb hslot) (by simp)
    have hkeep := e.keeps_incRef s.object
    obtain ⟨⟨e₁, name⟩, h₁⟩ : ∃ r, (e.incRef s.object).intern function = r := ⟨_, rfl⟩
    have hname := howner.trans (leads_intern howner.consistent function)
    have hkeep₁ := hkeep.trans ((e.incRef s.object).keeps_intern function)
    rw [h₁] at hname hkeep₁
    obtain ⟨⟨e₂, sentence⟩, h₂⟩ :
        ∃ r, e₁.allocateSentence ⟨s.object, .name name, none⟩ "input_to" = r := ⟨_, rfl⟩
    have hsentence := hname.trans (leads_allocateSentence (s := ⟨s.object, .name name, none⟩)
      hname.consistent "input_to")
    have hkeep₂ := hkeep₁.trans (e₁.keeps_allocateSentence ⟨s.object, .name name, none⟩ "input_to")
    have hsen : e₂.heap.sentenceOf? sentence = some ⟨s.object, .name name, none⟩ := by
      have hget := Heap.get?_allocateSized e₁.heap .sentence
        (.sentence ⟨s.object, .name name, none⟩)
        (Payload.sentence ⟨s.object, .name name, none⟩).footprint "input_to" e₁.heap.nextHandle
      rw [if_pos rfl] at hget
      cases h₂
      show (Heap.payload? (Heap.allocateSized _ _ _ _ _).1 e₁.heap.nextHandle).bind _ = _
      rw [Heap.payload?, hget]
      rfl
    rw [h₂] at hsentence hkeep₂
    have hset := leads_setSession { s with redirect := some ⟨sentence, carried⟩ }
      (↑(s.redirect.elim [] (Redirect.held e₂.heap)) + client) hsentence.consistent
      (hkeep₂.session hs) (by
        rw [Session.coe_held, Session.coe_held]
        simp only [Option.elim_some, Redirect.held, hsen, Option.toList_some, List.map_cons,
          List.map_nil, List.cons_append, List.nil_append, ← Multiset.cons_coe, Multiset.coe_nil]
        simp only [← Multiset.singleton_add]
        abel)
    simp only [h₁, h₂]
    refine (hsentence.trans hset.1).trans (leads_dropRedirect (hset.1.consistent.of_eq ?_))
    rw [held_congr_redirect hset.2]

theorem leads_clearInput (hc : e.Consistent client) (session : Handle) :
    e.Leads (e.clearInput session).1 client := by
  unfold clearInput
  cases hs : e.session session with
  | error err => exact hc.leads
  | ok s =>
    have hset := leads_setSession { s with redirect := none }
      (↑(s.redirect.elim [] (Redirect.held e.heap)) + client) hc hs (by
        rw [Session.coe_held, Session.coe_held]
        simp only [Option.elim_none, Multiset.coe_nil]
        abel)
    refine hset.1.trans (leads_dropRedirect (hset.1.consistent.of_eq ?_))
    rw [held_congr_redirect hset.2]

/-! ## Failure messages -/

theorem leads_putFailMessage {session : Handle} {s : Session} (message : Callee)
    (hc : e.Consistent (ofCallee message ::ₘ client)) (hs : e.session session = .ok s) :
    e.Leads (e.putFailMessage session message).1 client := by
  have hset := leads_setSession { s with failMessage := some message }
    (↑(s.failMessage.toList.map ofCallee) + client) hc hs (by
      rw [Session.coe_held, Session.coe_held]
      simp only [Option.toList_some, List.map_cons, List.map_nil, Multiset.coe_singleton]
      simp only [← Multiset.singleton_add]
      abel)
  have htargets : (s.failMessage.map Callee.target).toList =
      (s.failMessage.toList.map ofCallee).map (·.target) := by
    cases s.failMessage <;> rfl
  unfold putFailMessage
  simp only [hs, htargets]
  refine hset.1.trans (leads_releaseAll ?_ hset.1.consistent)
  intro ref hr
  obtain ⟨_, -, rfl⟩ := List.mem_map.1 hr
  rfl

theorem leads_setFailMessage (hc : e.Consistent client) (session : Handle) (text : String) :
    e.Leads (e.setFailMessage session text).1 client := by
  unfold setFailMessage
  cases hs : e.session session with
  | error err => exact hc.leads
  | ok s =>
    have hname := leads_intern hc text
    exact hname.trans (leads_putFailMessage (.name (e.intern text).2) hname.consistent
      ((e.keeps_intern text).session hs))

/-- The reference of a closure that becomes a failure message; on an error it stays where it is. -/
def spentClosure (closure : Handle) : Except EngineError Unit → Multiset Reference
  | .ok _ => {.counted closure .function}
  | .error _ => 0

theorem leads_setFailClosure (session closure : Handle)
    (hc : e.Consistent (spentClosure closure (e.setFailClosure session closure).2 + client)) :
    e.Leads (e.setFailClosure session closure).1 client := by
  unfold setFailClosure at hc ⊢
  cases hs : e.session session with
  | error err =>
    simp only [hs] at hc ⊢
    exact hc.leads.of_eq (zero_add client)
  | ok s =>
    cases hb : e.block closure .function with
    | error err =>
      simp only [hs, hb] at hc ⊢
      exact hc.leads.of_eq (zero_add client)
    | ok b =>
      have hput : (e.putFailMessage session (.closure closure)).2 = .ok () := by
        simp only [putFailMessage, hs]
      simp only [hs, hb, hput] at hc ⊢
      exact leads_putFailMessage (.closure closure) hc hs

/-! ## Sessions and timers -/

theorem leads_connect (hc : e.Consistent client) (ob : Handle) :
    e.Leads (e.connect ob).1 client := by
  unfold connect
  cases ho : e.object ob with
  | error err => exact hc.leads
  | ok o =>
    have howner := leads_incRef_object hc ho
    have hsession := howner.trans (leads_allocate .interactive (.session ⟨ob, none, none⟩)
      howner.consistent "new_user"
      (fresh_of_isSimple _ rfl rfl rfl) rfl)
    exact hsession.trans
      (leads_fillRoots hsession.consistent rfl rfl (Roots.movable_addSession _ _))

theorem leads_callOut {args : List Value} (hc : e.Consistent (↑(ofValues args) + client))
    (ob : Handle) (function : String) (delay : Nat) :
    e.Leads (e.callOut ob function args delay).1 client := by
  unfold callOut
  cases ho : e.object ob with
  | error err => exact leads_releaseValues hc
  | ok o =>
    have howner := leads_incRef_object hc ho
    obtain ⟨⟨e₁, name⟩, h₁⟩ : ∃ r, (e.incRef ob).intern function = r := ⟨_, rfl⟩
    have hname := howner.trans (leads_intern howner.consistent function)
    rw [h₁] at hname
    obtain ⟨c, hcall⟩ : ∃ c : CallOut, c = ⟨.name name, some ob, args, e₁.heap.tick + delay⟩ :=
      ⟨_, rfl⟩
    have hheld : c.held = ofCallee (.name name) :: counted ob .object :: ofValues args := by
      rw [hcall]
      rfl
    have hsize := e₁.sizeOf_allocate .callOut (.callOut c) "new_call_out"
    have hblock := hname.trans (leads_grow .callOut (.callOut c)
      (Payload.callOut c).footprint (hname.consistent.of_eq (by
        show _ = (c.held : Multiset Reference) + client
        rw [hheld, ← Multiset.cons_coe, ← Multiset.cons_coe, Multiset.cons_add, Multiset.cons_add]
        rfl)) "new_call_out" (fresh_of_isSimple _ rfl rfl rfl))
    simp only [h₁]
    rw [← hcall]
    show e.Leads { (e₁.allocate .callOut (.callOut c) "new_call_out").1 with
      counters := { e₁.counters with
        callOutBytes := e₁.counters.callOutBytes
          + (e₁.allocate .callOut (.callOut c) "new_call_out").1.sizeOf e₁.heap.nextHandle }
      roots := { e₁.roots with callOuts := e₁.roots.callOuts ++ [e₁.heap.nextHandle] } } client
    rw [hsize]
    exact hblock.trans (leads_fillRoots hblock.consistent rfl rfl (Roots.movable_addCallOut _ _))

/-! ## Blocks the roots own -/

theorem count_ownedIn (c : Category) (refs : Multiset Reference) (h : Handle) :
    (ownedIn c refs).count h = refs.count (.owned h c) := by
  induction refs using Multiset.induction_on with
  | empty => rfl
  | cons ref refs ih =>
    obtain ⟨hold, target, expected⟩ := ref
    unfold ownedIn at ih ⊢
    by_cases hm : hold = .owned ∧ expected = c
    · obtain ⟨rfl, rfl⟩ := hm
      rw [Multiset.filter_cons_of_pos _ (by simp), Multiset.map_cons, Multiset.count_cons,
        Multiset.count_cons, ih]
      simp [owned]
    · rw [Multiset.filter_cons_of_neg _ (by simpa using hm), ih,
        Multiset.count_cons_of_ne]
      rintro heq
      cases heq
      exact hm ⟨rfl, rfl⟩

theorem coe_held_eq (e : Engine) :
    (e.held : Multiset Reference) = e.heap.heldRefs + e.rootRefs := by
  rw [coe_held, add_comm]
  rfl

theorem refs_eq (e : Engine) (client : Multiset Reference) :
    e.refs client = ↑e.held + client := by
  rw [coe_held_eq, refs, add_assoc]

/-- A block that is listed once is gone from what is left of the list. -/
theorem coe_eq_cons_filter (hs : List Handle) (hone : hs.count h = 1) :
    (hs : Multiset Handle) = h ::ₘ ↑(hs.filter (· ≠ h)) := by
  have hsplit := Multiset.filter_add_not (fun k => k = h) (hs : Multiset Handle)
  rw [Multiset.filter_eq', Multiset.coe_count, hone, Multiset.replicate_one,
    Multiset.singleton_add, Multiset.filter_coe] at hsplit
  rw [← hsplit]

/-- A session or a timer goes for good. It was in the roots, or it never was more than a block that
the client made. -/
theorem leads_retire {c : Category} {listed : List Handle} {roots : Roots}
    (hc : e.Consistent client) (hentered : c.isEntered) (hb : e.heap.get? h = some b)
    (hcat : b.category = c) (hlisted : ownedIn c e.held = ↑listed)
    (hfail : roots.defaultFailMessage = e.roots.defaultFailMessage)
    (hfree : roots.freeSentences = e.roots.freeSentences)
    (hmove : e.roots.movable + ↑((listed.filter (· ≠ h)).map (owned · c)) =
      roots.movable + ↑(listed.map (owned · c))) :
    e.Leads (({ e with roots } : Engine).discard [.owned h]) (client.erase (.owned h c)) := by
  have hone : listed.count h + client.count (.owned h c) = 1 := by
    have howned := hc.balanced.owned h b hb
      (by rw [hcat]; exact Category.isOwned_of_isEntered hentered)
    rw [hcat, refs, ← add_assoc, ← coe_held_eq, Multiset.count_add, ← count_ownedIn, hlisted,
      Multiset.coe_count] at howned
    exact howned
  have htaken : e.Leads { e with roots } (.owned h c ::ₘ client.erase (.owned h c)) := by
    by_cases hm : .owned h c ∈ client
    · have hpos := Multiset.count_pos.2 hm
      have hnone : listed.filter (· ≠ h) = listed := by
        refine List.filter_eq_self.2 fun k hk => ?_
        have hz : h ∉ listed := List.count_eq_zero.1 (by omega)
        have hne : k ≠ h := fun heq => hz (heq ▸ hk)
        simpa using hne
      rw [Multiset.cons_erase hm]
      refine leads_moveRoots hc hfail hfree ?_
      rw [hnone, add_left_inj] at hmove
      rw [hmove]
    · have hz := Multiset.count_eq_zero.2 hm
      have hcons := congrArg (Multiset.map (owned · c)) (coe_eq_cons_filter (h := h) listed
        (by omega))
      rw [Multiset.map_coe, Multiset.map_cons, Multiset.map_coe] at hcons
      rw [hcons, Multiset.add_cons, ← Multiset.singleton_add, ← add_assoc, add_left_inj] at hmove
      rw [Multiset.erase_of_notMem hm, ← Multiset.singleton_add]
      exact leads_emptyRoots hc hfail hfree hmove
  exact htaken.trans (leads_discard [.owned h c] (by simp [owned]) htaken.consistent)

theorem leads_disconnect (hc : e.Consistent client) (session : Handle) :
    e.Leads (e.disconnect session).1 client ∨
      e.Leads (e.disconnect session).1 (client.erase (.owned session .interactive)) := by
  unfold disconnect
  cases hs : e.session session with
  | error err => exact .inl hc.leads
  | ok s =>
    obtain ⟨b, hb, hcat, -⟩ := session_eq_ok_iff.1 hs
    refine .inr (leads_retire hc rfl hb hcat (ownedIn_held e rfl) rfl rfl ?_)
    simp only [Roots.movable]
    abel

theorem leads_removeCallOut (hc : e.Consistent client) (call : Handle) :
    e.Leads (e.removeCallOut call).1 client ∨
      e.Leads (e.removeCallOut call).1 (client.erase (.owned call .callOut)) := by
  unfold removeCallOut
  cases hcall : e.block call .callOut with
  | error err => exact .inl hc.leads
  | ok b =>
    obtain ⟨hb, hcat⟩ := block_eq_ok_iff.1 hcall
    refine .inr (leads_retire hc rfl hb hcat (ownedIn_held e rfl) rfl rfl ?_)
    simp only [Roots.movable]
    abel

end Engine

end HeapAudit
