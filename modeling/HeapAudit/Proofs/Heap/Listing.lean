import HeapAudit.Heap.Listing
import HeapAudit.Proofs.Engine.Layouts

/-!
What the listing of a program covers. It has a section for the program and one for each program it
inherits directly, with every variable and every literal. A program that is inherited further up
has a section only if it is also inherited directly.

Main definitions
* `Heap.Inherits`: one program inherits another directly.
* `Heap.Ancestry`: everything a program inherits is there, and nothing of it inherits itself.
* `Heap.IsSection`: a text that shows a program in full.

Main statements
* `Heap.Ancestry.programListing_covers_iff`: what a listing is made of, and when it covers
  everything inherited.
* `Engine.Compiled.ancestry`: what a client compiled can be listed.
-/

namespace HeapAudit

namespace Heap

def parentHandles (heap : Heap) (h : Handle) : List Handle :=
  (heap.program? h).elim [] fun p => p.inherits.map (·.program)

def Inherits (heap : Heap) (heir parent : Handle) : Prop := parent ∈ heap.parentHandles heir

/-- A program and everything it inherits are there, and inheritance does not go in circles. -/
structure Ancestry (heap : Heap) (h : Handle) : Prop where
  live : ∀ a, Relation.ReflTransGen heap.Inherits h a → ∃ p, heap.program? a = some p
  acyclic : ∀ a, Relation.ReflTransGen heap.Inherits h a →
    ¬ Relation.TransGen heap.Inherits a a

/-! ## Sections -/

/-- Every text has a line of its own, after its index. -/
def Numbers (texts lines : List String) : Prop :=
  ∀ i, lines[i]? = texts[i]?.map fun text => Text.line (Text.column 4 i ++ ": " ++ text)

def IsSection (heap : Heap) (h : Handle) (text : String) : Prop :=
  ∃ p vars literals, heap.program? h = some p ∧
    text = Text.line (";;;  *** Detailed info for " ++ heap.nameAt p.filename ++ " ***")
      ++ Text.line "VARIABLES:" ++ String.join vars
      ++ Text.line "STRINGS:" ++ String.join literals ∧
    Numbers (p.variableNames.map heap.nameAt) vars ∧
    Numbers (p.strings.map fun s => literalText (heap.nameAt s)) literals

theorem exists_numbers (texts : List String) :
    ∃ lines, Program.numbered texts = String.join lines ∧ Numbers texts lines := by
  refine ⟨_, rfl, fun i => ?_⟩
  rw [List.getElem?_map, List.getElem?_zipIdx, Option.map_map, Nat.zero_add]
  rfl

theorem Numbers.unique {texts lines others : List String} (hl : Numbers texts lines)
    (ho : Numbers texts others) : lines = others :=
  List.ext_getElem? fun i => (hl i).trans (ho i).symm

/-- A program has one section. -/
theorem isSection_iff {heap : Heap} {h : Handle} {p : Program} {text : String}
    (hp : heap.program? h = some p) : heap.IsSection h text ↔ text = p.details heap := by
  obtain ⟨vars, hvars, hv⟩ := exists_numbers (p.variableNames.map heap.nameAt)
  obtain ⟨literals, hliterals, hl⟩ :=
    exists_numbers (p.strings.map fun s => literalText (heap.nameAt s))
  rw [Program.details, hvars, hliterals]
  constructor
  · rintro ⟨q, qvars, qliterals, hq, htext, hqv, hql⟩
    rw [hp] at hq
    cases hq
    rw [htext, hqv.unique hv, hql.unique hl]
  · rintro rfl
    exact ⟨p, vars, literals, hp, rfl, hv, hl⟩

end Heap

/-! ## Listings -/

namespace Program

/-- A listing up to the first section. -/
def opening (heap : Heap) (p : Program) : String :=
  Text.line ("NAME: /" ++ heap.nameAt p.filename)
    ++ Text.line "INHERITS:"
    ++ Text.line "\tname                    fio    vio"
    ++ Text.line "\t----------------        ---    ---"
    ++ String.join (p.inherits.map (inheritLine heap))
    ++ Text.line "FUNCTIONS:" ++ numbered (p.functionNames.map (functionText heap))

theorem intercalate_cons (sep first : String) (rest : List String) :
    sep.intercalate (first :: rest) = first ++ String.join (rest.map (sep ++ ·)) := by
  induction rest generalizing first with
  | nil => simp
  | cons second rest ih =>
    rw [String.intercalate_cons_cons, ih, List.map_cons, String.join_cons, String.append_assoc,
      String.append_assoc]

theorem listing_eq (heap : Heap) (p : Program) :
    p.listing heap =
      p.opening heap ++ "\n".intercalate ((p :: p.parents heap).map (·.details heap)) := by
  rw [List.map_cons, intercalate_cons, List.map_map, ← String.append_assoc]
  rfl

/-- Where everything inherited directly is there, there is a parent for each of it. -/
theorem forall₂_parents {heap : Heap} {inherits : List Inherit}
    (hlive : ∀ a ∈ inherits.map (·.program), ∃ q, heap.program? a = some q) :
    List.Forall₂ (fun a q => heap.program? a = some q) (inherits.map (·.program))
      (inherits.filterMap fun i => heap.program? i.program) := by
  induction inherits with
  | nil => exact .nil
  | cons i rest ih =>
    rw [List.map_cons] at hlive ⊢
    obtain ⟨q, hq⟩ := hlive i.program List.mem_cons_self
    rw [List.filterMap_cons, hq]
    exact .cons hq (ih fun a ha => hlive a (List.mem_cons_of_mem _ ha))

end Program

namespace Heap

theorem programListing_of_program? {heap : Heap} {h : Handle} {p : Program}
    (hp : heap.program? h = some p) : heap.programListing h = .ok (p.listing heap) := by
  obtain ⟨payload, hpay, hprogram⟩ := Option.bind_eq_some_iff.1 hp
  obtain ⟨b, hb, rfl⟩ := Option.map_eq_some_iff.1 hpay
  unfold programListing
  rw [hb]
  simp only [hprogram]

namespace Ancestry

variable {heap : Heap} {h : Handle}

/-- Everything inherited is inherited directly as soon as this is so two levels up. -/
theorem covers_iff (hh : heap.Ancestry h) :
    (∀ a, Relation.ReflTransGen heap.Inherits h a → a ∈ h :: heap.parentHandles h) ↔
      ∀ parent grandparent, heap.Inherits h parent → heap.Inherits parent grandparent →
        heap.Inherits h grandparent := by
  constructor
  · intro hall parent grandparent hparent hgrand
    have hup : Relation.TransGen heap.Inherits h grandparent := .tail (.single hparent) hgrand
    rcases List.mem_cons.1 (hall grandparent hup.to_reflTransGen) with rfl | hdirect
    · exact absurd hup (hh.acyclic _ .refl)
    · exact hdirect
  · intro hclosed a ha
    rcases Relation.reflTransGen_iff_eq_or_transGen.1 ha with rfl | hup
    · exact List.mem_cons_self
    · refine List.mem_cons_of_mem _ ?_
      induction hup with
      | single hdirect => exact hdirect
      | tail hup hnext ih => exact hclosed _ _ (ih hup.to_reflTransGen) hnext

/-- The listing has a section for the program and for each program inherited directly, in order.
These are all the programs inherited, over any number of levels, exactly if what a parent inherits
is always inherited directly as well. -/
theorem programListing_covers_iff (hh : heap.Ancestry h) :
    ∃ p sections, heap.program? h = some p ∧
      heap.programListing h = .ok (p.opening heap ++ "\n".intercalate sections) ∧
      List.Forall₂ heap.IsSection (h :: heap.parentHandles h) sections ∧
      ((∀ a, Relation.ReflTransGen heap.Inherits h a → a ∈ h :: heap.parentHandles h) ↔
        ∀ parent grandparent, heap.Inherits h parent → heap.Inherits parent grandparent →
          heap.Inherits h grandparent) := by
  obtain ⟨p, hp⟩ := hh.live h .refl
  have hparents : heap.parentHandles h = p.inherits.map (·.program) := by
    rw [parentHandles, hp, Option.elim_some]
  have hlive : ∀ a ∈ p.inherits.map (·.program), ∃ q, heap.program? a = some q := by
    rw [← hparents]
    exact fun a ha => hh.live a (.single ha)
  refine ⟨p, (p :: p.parents heap).map (·.details heap), hp, ?_, ?_, hh.covers_iff⟩
  · rw [programListing_of_program? hp, Program.listing_eq]
  · rw [hparents]
    have hfound : List.Forall₂ (fun a q => heap.program? a = some q)
        (h :: p.inherits.map (·.program)) (p :: p.parents heap) :=
      .cons hp (Program.forall₂_parents hlive)
    exact List.forall₂_map_right_iff.2 (hfound.imp fun _ _ hq => (isSection_iff hq).2 rfl)

end Ancestry

end Heap

/-! ## Compiled programs -/

namespace Engine

variable {e : Engine} {h : Handle} {p : Program}

theorem program?_of_program (hp : e.program h = .ok p) : e.heap.program? h = some p := by
  obtain ⟨b, hb, -, hpay⟩ := program_eq_ok_iff.1 hp
  rw [Heap.program?, Heap.payload?, hb, Option.map_some, Option.bind_some, hpay]
  rfl

theorem Compiled.inherits (hc : e.Compiled) (hp : e.program h = .ok p) {parent : Handle}
    (hi : e.heap.Inherits h parent) :
    e.Inherits h parent ∧ ∃ q, e.program parent = .ok q := by
  rw [Heap.Inherits, Heap.parentHandles, program?_of_program hp, Option.elim_some] at hi
  obtain ⟨i, hm, rfl⟩ := List.mem_map.1 hi
  obtain ⟨b, hb, hs⟩ := shape?_of_program hp
  have hmem : i.program ∈ (Shape.code p.withoutPins).programs := List.mem_map.2 ⟨i, hm, rfl⟩
  exact ⟨⟨p, hp, i, hm, rfl⟩, (hc.fits h b _ hb hs).program hmem⟩

theorem Compiled.transGen (hc : e.Compiled) (hp : e.program h = .ok p) {a : Handle}
    (ha : Relation.TransGen e.heap.Inherits h a) :
    Relation.TransGen e.Inherits h a ∧ ∃ q, e.program a = .ok q := by
  induction ha with
  | single hi =>
    obtain ⟨hi, hq⟩ := hc.inherits hp hi
    exact ⟨.single hi, hq⟩
  | tail _ hi ih =>
    obtain ⟨hup, q, hq⟩ := ih
    obtain ⟨hi, hr⟩ := hc.inherits hq hi
    exact ⟨hup.tail hi, hr⟩

/-- Whatever a client compiled has all it inherits, without circles. -/
theorem Compiled.ancestry (hc : e.Compiled) (hp : e.program h = .ok p) : e.heap.Ancestry h := by
  have hall : ∀ a, Relation.ReflTransGen e.heap.Inherits h a → ∃ q, e.program a = .ok q := by
    intro a ha
    rcases Relation.reflTransGen_iff_eq_or_transGen.1 ha with rfl | hup
    · exact ⟨p, hp⟩
    · exact (hc.transGen hp hup).2
  refine ⟨fun a ha => ?_, fun a ha hcycle => ?_⟩
  · obtain ⟨q, hq⟩ := hall a ha
    exact ⟨q, program?_of_program hq⟩
  · obtain ⟨q, hq⟩ := hall a ha
    exact hc.acyclic a (hc.transGen hq hcycle).1

end Engine

namespace Client

/-- One program inherits another and that one a third; a fourth inherits the last two. -/
def house : Client :=
  (fresh {}).play
    [.newProgram { filename := "base.c", variableNames := ["id"], strings := ["root"] },
      .newProgram { filename := "room.c", inherits := [⟨3, 0⟩], variableNames := ["exits"] },
      .newProgram { filename := "hall.c", inherits := [⟨6, 0⟩] },
      .newProgram { filename := "porch.c", inherits := [⟨6, 0⟩, ⟨3, 0⟩] }]

theorem compiled_house : house.engine.Compiled := by
  have hr : Reachable (fun _ => true) house := ⟨{}, steps_play (by decide +kernel)⟩
  exact hr.attainable.compiled

end Client

namespace Heap.Ancestry

open Client

/-- What the last program of the house inherits, it inherits directly: its listing has it all. -/
theorem programListing_covers_iff_porch :
    house.engine.heap.Ancestry ⟨10, 0⟩ ∧ ∃ (p : Program) (sections : List String),
      house.engine.heap.programListing ⟨10, 0⟩ =
        .ok (p.opening house.engine.heap ++ "\n".intercalate sections) ∧
      List.Forall₂ house.engine.heap.IsSection [⟨10, 0⟩, ⟨6, 0⟩, ⟨3, 0⟩] sections ∧
      ∀ a, Relation.ReflTransGen house.engine.heap.Inherits ⟨10, 0⟩ a →
        a ∈ ([⟨10, 0⟩, ⟨6, 0⟩, ⟨3, 0⟩] : List Handle) := by
  obtain ⟨q, hq⟩ : ∃ q, house.engine.program ⟨10, 0⟩ = .ok q := ⟨_, rfl⟩
  have hh := compiled_house.ancestry hq
  obtain ⟨p, sections, -, hlisting, hsections, hall⟩ := programListing_covers_iff hh
  have hparents : house.engine.heap.parentHandles ⟨10, 0⟩ = [⟨6, 0⟩, ⟨3, 0⟩] := by
    decide +kernel
  have hdirect : ∀ parent ∈ house.engine.heap.parentHandles ⟨10, 0⟩,
      ∀ grandparent ∈ house.engine.heap.parentHandles parent,
        grandparent ∈ house.engine.heap.parentHandles ⟨10, 0⟩ := by
    decide +kernel
  rw [hparents] at hsections hall
  refine ⟨hh, p, sections, hlisting, hsections, hall.2 fun parent grandparent hp hg => ?_⟩
  exact hdirect parent hp grandparent hg

/-- The third program inherits the first through the second, and its listing does not have the
section of the first. -/
theorem programListing_hall_lacks_base :
    house.engine.heap.Ancestry ⟨8, 0⟩ ∧
    Relation.TransGen house.engine.heap.Inherits ⟨8, 0⟩ ⟨3, 0⟩ ∧
    ∃ text, house.engine.heap.programListing ⟨8, 0⟩ = .ok text ∧
      ∀ part, house.engine.heap.IsSection ⟨3, 0⟩ part → ¬ part.toList <:+: text.toList := by
  obtain ⟨q, hq⟩ : ∃ q, house.engine.program ⟨8, 0⟩ = .ok q := ⟨_, rfl⟩
  obtain ⟨base, hbase, text, htext, hlacks⟩ : ∃ base,
      house.engine.heap.program? ⟨3, 0⟩ = some base ∧
      ∃ text, house.engine.heap.programListing ⟨8, 0⟩ = .ok text ∧
        ¬ (base.details house.engine.heap).toList <:+: text.toList :=
    ⟨_, rfl, _, rfl, by decide +kernel⟩
  have hroom : house.engine.heap.Inherits ⟨8, 0⟩ ⟨6, 0⟩ := by
    show _ ∈ house.engine.heap.parentHandles _
    decide +kernel
  have hup : house.engine.heap.Inherits ⟨6, 0⟩ ⟨3, 0⟩ := by
    show _ ∈ house.engine.heap.parentHandles _
    decide +kernel
  refine ⟨compiled_house.ancestry hq, .tail (.single hroom) hup, text, htext, fun part hpart => ?_⟩
  rw [(isSection_iff hbase).1 hpart]
  exact hlacks

end Heap.Ancestry

end HeapAudit
