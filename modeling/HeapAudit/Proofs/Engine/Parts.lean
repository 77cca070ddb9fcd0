import HeapAudit.Proofs.Engine.Orderly

/-!
What a block lets go of, as references: everything in its slots but the pin of a closure.

Main definitions
* `Reference.part`: the part that a reference is.
* `Payload.released`: the references of a block, in the order in which they go.

Main statements
* `Payload.map_part_released`, `Payload.held_eq_released`: these are the parts, and they are the
  slots.
-/

namespace HeapAudit

open Reference

/-- Where there is no count there is an owner. -/
def Reference.part (ref : Reference) : Part :=
  match ref.hold with
  | .counted => .counted ref.target
  | _ => .owned ref.target

/-! ## By payload -/

def Redirect.released (heap : Heap) (r : Redirect) : List Reference :=
  (heap.sentenceOf? r.sentence).toList.map (fun s => counted s.owner .object)
    ++ owned r.sentence .sentence :: ofValues r.carried

def Sentence.released (s : Sentence) : List Reference :=
  ofCallee s.callee :: sharedStrings s.verb.toList

def Object.released (ob : Object) : List Reference :=
  owned ob.name .objectName :: ob.sentences.map (owned · .sentence)
    ++ ob.program.toList.map (counted · .program) ++ ofValues ob.vars
    ++ sharedStrings ob.livingName.toList ++ sharedStrings ob.replacedProgram.toList
    ++ sharedStrings ob.privileges.toList

def Session.released (heap : Heap) (s : Session) : List Reference :=
  counted s.object .object :: s.redirect.elim [] (Redirect.released heap)
    ++ s.failMessage.toList.map ofCallee

namespace Payload

/-- The references a payload lets go of. -/
def released (heap : Heap) : Payload → List Reference
  | .slots items => ofValues items
  | .mapping table => [owned table .mapTable]
  | .mapTable nodes => nodes.map (owned · .mapNode)
  | .mapNode key value => ofValues [key, value]
  | .closure c => objects c.owner.toList ++ c.args.toList.map (counted · .array)
  | .object ob => ob.released
  | .program p => p.held
  | .sentence s => s.released
  | .session s => s.released heap
  | .callOut c => c.held
  | .identTable t => (t.entries.filterMap (·.block)).map (owned · .permIdent)
  | .blank | .text _ | .privateText _ _ | .sharedText _ | .bytes _ => []

end Payload

/-! ## They are the parts -/

section Parts

@[simp] theorem part_counted (h : Handle) (c : Category) : (counted h c).part = .counted h := rfl

@[simp] theorem part_owned (h : Handle) (c : Category) : (owned h c).part = .owned h := rfl

@[simp] theorem part_ofCallee (c : Callee) : (ofCallee c).part = .counted c.target := rfl

theorem map_part_ofValues (values : List Value) :
    (ofValues values).map part = Part.held values := by
  rw [ofValues, Part.held, heldBy, List.map_filterMap, List.map_filterMap]
  refine List.filterMap_congr fun v _ => ?_
  cases v <;> rfl

theorem map_part_sharedStrings (hs : List Handle) :
    (sharedStrings hs).map part = hs.map .counted := by
  simp [sharedStrings, Function.comp_def]

theorem map_part_objects (hs : List Handle) : (objects hs).map part = hs.map .counted := by
  simp [objects, Function.comp_def]

theorem Redirect.map_part_released (heap : Heap) (r : Redirect) :
    (r.released heap).map part = r.parts heap := by
  unfold released parts
  rw [← Heap.sentenceOf?]
  cases heap.sentenceOf? r.sentence <;> simp [map_part_ofValues]

theorem Payload.map_part_released (heap : Heap) (p : Payload) :
    (p.released heap).map part = p.parts heap := by
  cases p with
  | session s =>
    obtain ⟨object, redirect, failMessage⟩ := s
    cases redirect <;> cases failMessage <;>
      simp [released, Session.released, parts, Session.parts, Redirect.map_part_released]
  | program p =>
    simp [released, Program.held, parts, Program.parts, map_part_sharedStrings, Function.comp_def]
  | _ =>
    simp [released, Object.released, Sentence.released, CallOut.held, parts, Object.parts,
      Sentence.parts, CallOut.parts, Part.optional, map_part_ofValues, map_part_sharedStrings,
      map_part_objects, Function.comp_def]

end Parts

/-! ## They are the slots -/

section Slots

theorem coe_sharedStrings_append (hs ks : List Handle) :
    (sharedStrings (hs ++ ks) : Multiset Reference) =
      ↑(sharedStrings hs) + ↑(sharedStrings ks) := by
  rw [sharedStrings, List.map_append, ← Multiset.coe_add]
  rfl

theorem Object.held_eq_released (ob : Object) :
    (ob.held : Multiset Reference) = ↑ob.released := by
  unfold held released labels
  simp only [coe_sharedStrings_append, ← Multiset.coe_add]
  abel

theorem Redirect.held_eq_released (heap : Heap) (r : Redirect) :
    (r.held heap : Multiset Reference) = ↑(r.released heap) := by
  unfold held released
  simp only [List.cons_append, ← Multiset.cons_coe, ← Multiset.coe_add, Multiset.add_cons]

theorem IdentTable.held_eq_released {t : IdentTable}
    (ht : ∀ entry ∈ t.entries, entry.block.isSome → entry.kind.isPermanent) :
    t.held = (t.entries.filterMap (·.block)).map (owned · .permIdent) := by
  unfold held
  generalize t.entries = entries at ht
  induction entries with
  | nil => rfl
  | cons entry rest ih =>
    have ih := ih fun entry he => ht entry (List.mem_cons_of_mem _ he)
    have hentry := ht entry List.mem_cons_self
    cases hb : entry.block with
    | none =>
      rw [List.filterMap_cons_none hb, ← ih]
      by_cases hk : entry.kind.isPermanent
      · rw [List.filter_cons_of_pos (by simpa using hk), List.flatMap_cons, hb]
        rfl
      · rw [List.filter_cons_of_neg (by simpa using hk)]
    | some h =>
      rw [List.filterMap_cons_some hb, List.map_cons, ← ih,
        List.filter_cons_of_pos (by simpa using hentry (by rw [hb]; rfl)), List.flatMap_cons, hb]
      rfl

/-- What is in the slots and is no pin is let go of. -/
theorem Payload.held_eq_released (heap : Heap) {p : Payload} (hp : p.Proper) :
    (p.held heap : Multiset Reference) =
      ↑(p.released heap) + ↑((p.pins heap).map pinned) := by
  cases p with
  | closure c => simp [held, Closure.held, released, pins]
  | object ob => simp [held, released, pins, ob.held_eq_released]
  | sentence s =>
    simp only [held, Sentence.held, released, Sentence.released, pins, List.map_nil,
      Multiset.coe_nil, add_zero]
    rw [← Multiset.coe_add, Multiset.coe_singleton, ← Multiset.cons_coe, add_comm,
      Multiset.singleton_add]
  | session s =>
    cases hr : s.redirect with
    | none => simp [held, Session.held, released, Session.released, pins, hr, map_snd_underRoot]
    | some r =>
      simp only [held, Session.held, released, Session.released, pins, hr, map_snd_underRoot,
        List.map_append, List.map_cons, List.map_nil, Multiset.coe_nil, add_zero,
        Option.elim_some, List.cons_append, ← Multiset.cons_coe, ← Multiset.coe_add,
        r.held_eq_released]
  | identTable t =>
    simp only [held, released, pins, IdentTable.held_eq_released (hp.idents t rfl), List.map_nil,
      Multiset.coe_nil, add_zero]
  | _ => simp [held, released, pins]

/-- No pin is let go of: it comes off the program by itself. -/
theorem Payload.hold_of_mem_released {heap : Heap} {p : Payload} (hp : p.Proper) {ref : Reference}
    (hr : ref ∈ p.released heap) : ref.hold ≠ .pinned := by
  intro hpin
  have hfilter := congrArg (Multiset.filter fun ref => isPin ref) (p.held_eq_released heap hp)
  rw [Multiset.filter_add, Multiset.filter_coe, Multiset.filter_coe, Multiset.filter_coe] at hfilter
  have hleft := p.filter_isPin_held heap
  have hright := filter_isPin_map_pinned (p.pins heap)
  simp only [Bool.decide_eq_true] at hfilter
  rw [hleft, hright] at hfilter
  have hnone := Multiset.coe_eq_zero _ |>.1 (right_eq_add.1 hfilter)
  have hmem : ref ∈ (p.released heap).filter isPin :=
    List.mem_filter.2 ⟨hr, by simp [isPin, hpin]⟩
  rw [hnone] at hmem
  cases hmem

end Slots

end HeapAudit
