import HeapAudit.Heap.Census
import HeapAudit.Proofs.Audit.Held
import HeapAudit.Proofs.Heap.Stock
import Mathlib.Data.List.Perm.Basic
import Mathlib.Tactic.Abel

/-!
Blocks that are entered through what owns them. Where every table, node, sentence, session and
timer is listed once by its owner, what a pass enumerates is what the slots hold.

Main definitions
* `Category.carries`: the payload that belongs to a category.
* `Engine.tables`, `Engine.nodes`, `Engine.sentences`: what the owners list.
* `Engine.Listed`: every such block is listed exactly once.

Main statements
* `Engine.enumerated_eq_held`: the enumeration of a pass is made of the slots.
-/

namespace HeapAudit

/-! ## Payloads and categories -/

/-- The payload that belongs to a category. -/
def Category.carries : Category → Payload → Bool
  | .array, .slots _ | .classInstance, .slots _ => true
  | .mapping, .mapping _ => true
  | .mapTable, .mapTable _ => true
  | .mapNode, .mapNode _ _ => true
  | .function, .closure _ => true
  | .object, .object _ => true
  | .program, .program _ => true
  | .sentence, .sentence _ => true
  | .interactive, .session _ => true
  | .callOut, .callOut _ => true
  | .identTable, .identTable _ => true
  | .sharedString, .sharedText _ => true
  | .mallocString, .privateText _ _ => true
  | .buffer, .bytes _ => true
  | .objectName, .text _ | .plainString, .text _ | .predefine, .text _ | .permIdent, .text _ =>
    true
  | .temporary, .blank | .permanent, .blank | .compilerScratch, .blank | .misc, .blank
  | .ed, .blank | .includeList, .blank | .reserved, .blank | .mudlibStats, .blank
  | .objectTable, .blank | .configTable, .blank | .simulTable, .blank | .stringTable, .blank
  | .uid, .blank | .lineNumbers, .blank | .compilerLocals, .blank | .inputTo, .blank => true
  | _, _ => false

section Carries

variable {c : Category}

theorem Category.carries_mapTable_iff {nodes : List Handle} :
    c.carries (.mapTable nodes) ↔ c = .mapTable := by
  cases c <;> simp [carries]

theorem Category.carries_mapNode_iff {key value : Value} :
    c.carries (.mapNode key value) ↔ c = .mapNode := by
  cases c <;> simp [carries]

theorem Category.carries_sentence_iff {s : Sentence} : c.carries (.sentence s) ↔ c = .sentence := by
  cases c <;> simp [carries]

theorem Category.carries_session_iff {s : Session} :
    c.carries (.session s) ↔ c = .interactive := by
  cases c <;> simp [carries]

theorem Category.carries_callOut_iff {t : CallOut} : c.carries (.callOut t) ↔ c = .callOut := by
  cases c <;> simp [carries]

theorem Category.carries_mapping_iff {table : Handle} :
    c.carries (.mapping table) ↔ c = .mapping := by
  cases c <;> simp [carries]

theorem Category.carries_program_iff {p : Program} : c.carries (.program p) ↔ c = .program := by
  cases c <;> simp [carries]

theorem Category.carries_object_iff {ob : Object} : c.carries (.object ob) ↔ c = .object := by
  cases c <;> simp [carries]

end Carries

/-- Every live block has the payload of its category. -/
def Heap.WellFormed (heap : Heap) : Prop :=
  ∀ h b, heap.get? h = some b → b.category.carries b.payload

theorem Heap.wellFormed_iff {heap : Heap} :
    heap.WellFormed ↔ ∀ p ∈ heap.entries, p.2.category.carries p.2.payload := by
  constructor
  · intro hw p hp
    exact hw p.1 p.2 (mem_entries_iff.1 hp)
  · intro hw h b hb
    exact hw (h, b) (mem_entries_iff.2 hb)

/-! ## Slots by shape -/

/-- The sentence of a session's redirect. -/
def Session.redirected (s : Session) : List Handle := s.redirect.toList.map (·.sentence)

namespace Payload

/-- The slots of payloads that are scanned wherever they are. -/
def direct (heap : Heap) : Payload → List Reference
  | .slots items => Reference.ofValues items
  | .mapping table => [.owned table .mapTable]
  | .closure c => c.held heap
  | .object ob => ob.held
  | .program p => p.held
  | .identTable t => t.held
  | _ => []

def ofTable : Payload → List Reference
  | .mapTable nodes => nodes.map (.owned · .mapNode)
  | _ => []

def ofNode : Payload → List Reference
  | .mapNode key value => Reference.ofValues [key, value]
  | _ => []

def ofSentence : Payload → List Reference
  | .sentence s => s.held
  | _ => []

def ofSession (heap : Heap) : Payload → List Reference
  | .session s => (s.held heap).map (·.2)
  | _ => []

def ofCallOut : Payload → List Reference
  | .callOut c => c.held
  | _ => []

/-- A payload has one shape. -/
theorem held_eq (heap : Heap) (p : Payload) :
    p.held heap = p.direct heap ++ p.ofTable ++ p.ofNode ++ p.ofSentence ++ p.ofSession heap
      ++ p.ofCallOut := by
  cases p <;> simp [held, direct, ofTable, ofNode, ofSentence, ofSession, ofCallOut]

section Shapes

variable {c : Category} {p : Payload}

theorem ofTable_of_ne (hp : c.carries p) (hc : c ≠ .mapTable) : p.ofTable = [] := by
  cases p <;> first | rfl | exact absurd (Category.carries_mapTable_iff.1 hp) hc

theorem ofNode_of_ne (hp : c.carries p) (hc : c ≠ .mapNode) : p.ofNode = [] := by
  cases p <;> first | rfl | exact absurd (Category.carries_mapNode_iff.1 hp) hc

theorem ofSentence_of_ne (hp : c.carries p) (hc : c ≠ .sentence) : p.ofSentence = [] := by
  cases p <;> first | rfl | exact absurd (Category.carries_sentence_iff.1 hp) hc

theorem ofSession_of_ne {heap : Heap} (hp : c.carries p) (hc : c ≠ .interactive) :
    p.ofSession heap = [] := by
  cases p <;> first | rfl | exact absurd (Category.carries_session_iff.1 hp) hc

theorem ofCallOut_of_ne (hp : c.carries p) (hc : c ≠ .callOut) : p.ofCallOut = [] := by
  cases p <;> first | rfl | exact absurd (Category.carries_callOut_iff.1 hp) hc

end Shapes

/-- The table a payload lists. -/
def tables : Payload → List Handle
  | .mapping table => [table]
  | _ => []

/-- The nodes a payload lists. -/
def nodes : Payload → List Handle
  | .mapTable nodes => nodes
  | _ => []

/-- The commands a payload lists. -/
def commands : Payload → List Handle
  | .object ob => ob.sentences
  | _ => []

/-- The sentence of a payload's redirect. -/
def redirected : Payload → List Handle
  | .session s => s.redirected
  | _ => []

end Payload

namespace Heap

/-- What the payload behind a handle shows. -/
def shown (heap : Heap) (f : Payload → List α) (h : Handle) : Multiset α :=
  ↑((heap.payload? h).elim [] f)

/-- What the payloads of all live blocks show. -/
def gathered (heap : Heap) (f : Payload → List α) : Multiset α :=
  heap.stock.bind fun p => ↑(f p.2.payload)

theorem gathered_append (heap : Heap) (f g : Payload → List α) :
    (heap.gathered fun p => f p ++ g p) = heap.gathered f + heap.gathered g := by
  simp only [gathered, ← Multiset.coe_add, Multiset.bind_add]

/-- The handles of all live blocks of a category. -/
def handlesOf (heap : Heap) (c : Category) : Multiset Handle :=
  (heap.stock.filter fun p => p.2.category = c).map (·.1)

theorem mem_handlesOf {heap : Heap} {c : Category} {h : Handle} :
    h ∈ heap.handlesOf c ↔ ∃ b, heap.get? h = some b ∧ b.category = c := by
  simp only [handlesOf, Multiset.mem_map, Multiset.mem_filter, Prod.exists, mem_stock]
  constructor
  · rintro ⟨k, b, ⟨hb, hc⟩, rfl⟩
    exact ⟨b, hb, hc⟩
  · rintro ⟨b, hb, hc⟩
    exact ⟨h, b, ⟨hb, hc⟩, rfl⟩

theorem nodup_handlesOf (heap : Heap) (c : Category) : (heap.handlesOf c).Nodup := by
  refine Multiset.Nodup.map_on ?_ (heap.nodup_stock.filter _)
  rintro ⟨h, b⟩ hb ⟨k, d⟩ hd hhk
  have hhk : h = k := hhk
  rw [Multiset.mem_filter, mem_stock] at hb hd
  rw [hhk, hd.1] at hb
  rw [hhk, Option.some.inj hb.1]

theorem card_handlesOf (heap : Heap) (c : Category) :
    Multiset.card (heap.handlesOf c) = (heap.tally c).blocks := by
  rw [handlesOf, Multiset.card_map, stock, Multiset.filter_coe, Multiset.coe_card, tally,
    Tally.ofBlocks, blocks, List.filter_map, List.length_map]
  rfl

/-- Where only blocks of one category show anything, the blocks of that category show it all. -/
theorem bind_handlesOf {heap : Heap} (hw : heap.WellFormed) {c : Category}
    {f : Payload → List α} (hf : ∀ d p, Category.carries d p → d ≠ c → f p = []) :
    (heap.handlesOf c).bind (heap.shown f) = heap.gathered f := by
  have hs : heap.gathered f =
      (heap.stock.filter fun p => p.2.category = c).bind fun p => ↑(f p.2.payload) := by
    have hz : (heap.stock.filter fun p => ¬ p.2.category = c).bind
        (fun p => (f p.2.payload : Multiset α)) = 0 := by
      rw [← Multiset.bind_zero]
      refine Multiset.bind_congr fun p hp => ?_
      rw [Multiset.mem_filter] at hp
      rw [hf p.2.category p.2.payload (hw p.1 p.2 (mem_stock.1 hp.1)) hp.2]
      rfl
    conv_lhs => rw [gathered, ← Multiset.filter_add_not (fun p => p.2.category = c) heap.stock]
    rw [Multiset.add_bind, hz, add_zero]
  rw [hs, handlesOf, Multiset.bind_map]
  refine Multiset.bind_congr fun p hp => ?_
  have hb := mem_stock.1 (Multiset.mem_filter.1 hp).1
  rw [shown, payload?, hb]
  rfl

end Heap

/-! ## What the owners list -/

namespace Engine

/-- The tables of the live mappings. -/
def tables (e : Engine) : Multiset Handle := e.heap.gathered Payload.tables

/-- The nodes in these tables. -/
def nodes (e : Engine) : Multiset Handle := e.tables.bind (e.heap.shown Payload.nodes)

/-- The commands of the live objects, and the sentences of redirects of connected sessions. -/
def sentences (e : Engine) : Multiset Handle :=
  e.heap.gathered Payload.commands
    + (e.roots.sessions : Multiset Handle).bind (e.heap.shown Payload.redirected)

/-- Every block that is entered through an owner is listed exactly once. -/
structure Listed (e : Engine) : Prop where
  tables : e.tables = e.heap.handlesOf .mapTable
  nodes : e.nodes = e.heap.handlesOf .mapNode
  sentences : e.sentences = e.heap.handlesOf .sentence
  sessions : ↑e.roots.sessions = e.heap.handlesOf .interactive
  callOuts : ↑e.roots.callOuts = e.heap.handlesOf .callOut

/-- What the providers report. -/
def provided (e : Engine) : List Reference :=
  e.providers.flatMap fun p => p.holdings.map Holding.reference

end Engine

/-! ## The enumeration by shape -/

namespace Heap

theorem coe_nodesOf (heap : Heap) (table : Handle) :
    (heap.nodesOf table : Multiset Handle) = heap.shown Payload.nodes table := by
  unfold nodesOf shown
  cases heap.payload? table with
  | none => rfl
  | some p => cases p <;> rfl

theorem coe_map_nodesOf (heap : Heap) (table : Handle) :
    ((heap.nodesOf table).map (Reference.owned · .mapNode) : Multiset Reference) =
      heap.shown Payload.ofTable table := by
  unfold nodesOf shown
  cases heap.payload? table with
  | none => rfl
  | some p => cases p <;> rfl

theorem coe_ofValues_pairOf (heap : Heap) (node : Handle) :
    (Reference.ofValues (heap.pairOf node) : Multiset Reference) =
      heap.shown Payload.ofNode node := by
  unfold pairOf shown
  cases heap.payload? node with
  | none => rfl
  | some p => cases p <;> rfl

theorem coe_held_sentenceOf? (heap : Heap) (h : Handle) :
    (((heap.sentenceOf? h).elim [] Sentence.held : List Reference) : Multiset Reference) =
      heap.shown Payload.ofSentence h := by
  unfold sentenceOf? shown
  cases heap.payload? h with
  | none => rfl
  | some p => cases p <;> rfl

theorem coe_held_callOutOf? (heap : Heap) (h : Handle) :
    (((heap.callOutOf? h).elim [] CallOut.held : List Reference) : Multiset Reference) =
      heap.shown Payload.ofCallOut h := by
  unfold callOutOf? shown
  cases heap.payload? h with
  | none => rfl
  | some p => cases p <;> rfl

/-- A session shows its slots and what the sentence of its redirect refers to. -/
theorem coe_enumerated_sessionOf? (heap : Heap) (h : Handle) :
    (((heap.sessionOf? h).elim [] (Session.enumerated heap)).map (·.2) : Multiset Reference) =
      heap.shown (Payload.ofSession heap) h
        + (heap.shown Payload.redirected h).bind (heap.shown Payload.ofSentence) := by
  unfold sessionOf?
  cases hp : heap.payload? h with
  | none => simp [shown, hp]
  | some p =>
    cases p with
    | session s =>
      have hr : (underRoot .inputTo ((s.redirect.bind fun r =>
          heap.sentenceOf? r.sentence).elim [] Sentence.held)).map (·.2) =
          (s.redirect.bind fun r => heap.sentenceOf? r.sentence).elim [] Sentence.held := by
        simp [underRoot, Function.comp_def]
      have hs : (heap.shown Payload.redirected h).bind (heap.shown Payload.ofSentence) =
          ↑((s.redirect.bind fun r => heap.sentenceOf? r.sentence).elim [] Sentence.held) := by
        rw [shown, hp]
        cases hd : s.redirect with
        | none => simp [Payload.redirected, Session.redirected, hd]
        | some r =>
          simp only [Option.elim_some, Payload.redirected, Session.redirected, hd,
            Option.toList_some, List.map_cons,
            List.map_nil, Multiset.coe_singleton, Multiset.singleton_bind, Option.bind_some]
          exact (heap.coe_held_sentenceOf? r.sentence).symm
      rw [hs, shown, hp, ← hr, Multiset.coe_add]
      simp [Payload.ofSession, Session.enumerated, Payload.session?]
    | _ => simp [shown, hp, Payload.session?, Payload.ofSession, Payload.redirected]

end Heap

/-- Of the blocks that are scanned, mappings and objects show more than their slots. -/
theorem Payload.coe_enumerated (heap : Heap) (p : Payload) :
    (p.enumerated heap : Multiset Reference) =
      (p.direct heap : Multiset Reference)
        + (p.tables : Multiset Handle).bind (fun table =>
          heap.shown Payload.ofTable table
            + (heap.shown Payload.nodes table).bind (heap.shown Payload.ofNode))
        + (p.commands : Multiset Handle).bind (heap.shown Payload.ofSentence) := by
  cases p with
  | mapping table =>
    have hn : (((heap.nodesOf table).flatMap fun node =>
        Reference.owned node .mapNode :: Reference.ofValues (heap.pairOf node) :
          List Reference) : Multiset Reference) =
        heap.shown Payload.ofTable table
          + (heap.shown Payload.nodes table).bind (heap.shown Payload.ofNode) := by
      rw [← Heap.coe_map_nodesOf, ← Heap.coe_nodesOf]
      simp only [← Heap.coe_ofValues_pairOf, Multiset.coe_bind, Multiset.coe_add]
      exact Multiset.coe_eq_coe.2 (List.map_append_flatMap_perm _ _ _).symm
    simp only [enumerated, direct, tables, commands]
    rw [← Multiset.cons_coe, hn]
    simp
  | object ob =>
    simp only [enumerated, direct, tables, commands]
    rw [← Multiset.coe_add, ← Multiset.coe_bind]
    simp [Heap.coe_held_sentenceOf?]
  | _ => simp [enumerated, direct, tables, commands]

namespace Engine

/-- What a pass follows, sorted by where it is found. -/
theorem coe_enumerated (e : Engine) :
    (e.enumerated.map (·.2) : Multiset Reference) =
      (e.rootHeld.map (·.2) : Multiset Reference) + (e.provided : Multiset Reference)
        + e.heap.gathered (Payload.direct e.heap)
        + e.tables.bind (e.heap.shown Payload.ofTable)
        + e.nodes.bind (e.heap.shown Payload.ofNode)
        + e.sentences.bind (e.heap.shown Payload.ofSentence)
        + (e.roots.sessions : Multiset Handle).bind (e.heap.shown (Payload.ofSession e.heap))
        + (e.roots.callOuts : Multiset Handle).bind (e.heap.shown Payload.ofCallOut) := by
  have hs : ((e.roots.sessions.flatMap fun h =>
      (e.heap.sessionOf? h).elim [] (Session.enumerated e.heap)).map (·.2) : Multiset Reference) =
        (e.roots.sessions : Multiset Handle).bind fun h =>
          e.heap.shown (Payload.ofSession e.heap) h
            + (e.heap.shown Payload.redirected h).bind (e.heap.shown Payload.ofSentence) := by
    rw [List.map_flatMap, ← Multiset.coe_bind]
    simp only [Heap.coe_enumerated_sessionOf?]
  have hc : ((e.roots.callOuts.flatMap fun h =>
      (e.heap.callOutOf? h).elim [] CallOut.held : List Reference) : Multiset Reference) =
        (e.roots.callOuts : Multiset Handle).bind (e.heap.shown Payload.ofCallOut) := by
    rw [← Multiset.coe_bind]
    simp only [Heap.coe_held_callOutOf?]
  have hb : ((e.heap.entries.flatMap fun p =>
      (p.2.payload.enumerated e.heap).map (Origin.block p.1 p.2.category, ·)).map (·.2) :
        Multiset Reference) =
      e.heap.gathered (Payload.enumerated e.heap) := by
    rw [List.map_flatMap, Heap.gathered, Heap.stock, Multiset.coe_bind]
    simp [Function.comp_def]
  have hroot : (e.rootsEnumerated.map fun entry => (Origin.root entry.1, entry.2)).map (·.2) =
      e.rootsEnumerated.map (·.2) := by simp
  have hu : ∀ kind refs, (underRoot kind refs).map (·.2) = refs := by
    intro kind refs
    simp [underRoot, Function.comp_def]
  rw [enumerated, List.map_append, hroot, ← Multiset.coe_add, hb, rootsEnumerated]
  simp only [List.map_append, hu, ← Multiset.coe_add, hs, hc, Heap.gathered,
    Payload.coe_enumerated, Multiset.bind_add, tables, nodes, sentences, Multiset.bind_assoc,
    Multiset.add_bind]
  rw [← provided]
  abel

/-! ## The slots by shape -/

theorem coe_held (e : Engine) :
    (e.held : Multiset Reference) =
      (e.rootHeld.map (·.2) : Multiset Reference) + e.heap.gathered (Payload.held e.heap) := by
  rw [held, ← Multiset.coe_add, add_comm, ← Multiset.coe_bind]
  rfl

/-- Where every owned block is listed once, a pass follows the slots, and what the providers
report, and nothing else. -/
theorem coe_enumerated_of_listed {e : Engine} (hw : e.heap.WellFormed) (hl : e.Listed) :
    (e.enumerated.map (·.2) : Multiset Reference) =
      (e.held : Multiset Reference) + (e.provided : Multiset Reference) := by
  have htables : e.tables.bind (e.heap.shown Payload.ofTable) =
      e.heap.gathered Payload.ofTable := by
    rw [hl.tables]
    exact Heap.bind_handlesOf hw fun _ _ => Payload.ofTable_of_ne
  have hnodes : e.nodes.bind (e.heap.shown Payload.ofNode) = e.heap.gathered Payload.ofNode := by
    rw [hl.nodes]
    exact Heap.bind_handlesOf hw fun _ _ => Payload.ofNode_of_ne
  have hsentences : e.sentences.bind (e.heap.shown Payload.ofSentence) =
      e.heap.gathered Payload.ofSentence := by
    rw [hl.sentences]
    exact Heap.bind_handlesOf hw fun _ _ => Payload.ofSentence_of_ne
  have hsessions : (e.roots.sessions : Multiset Handle).bind
      (e.heap.shown (Payload.ofSession e.heap)) = e.heap.gathered (Payload.ofSession e.heap) := by
    rw [hl.sessions]
    exact Heap.bind_handlesOf hw fun _ _ => Payload.ofSession_of_ne
  have hcallOuts : (e.roots.callOuts : Multiset Handle).bind (e.heap.shown Payload.ofCallOut) =
      e.heap.gathered Payload.ofCallOut := by
    rw [hl.callOuts]
    exact Heap.bind_handlesOf hw fun _ _ => Payload.ofCallOut_of_ne
  have hshape : Payload.held e.heap = fun p =>
      p.direct e.heap ++ p.ofTable ++ p.ofNode ++ p.ofSentence ++ p.ofSession e.heap
        ++ p.ofCallOut :=
    funext fun p => p.held_eq e.heap
  rw [coe_enumerated, htables, hnodes, hsentences, hsessions, hcallOuts, coe_held, hshape]
  simp only [Heap.gathered_append]
  abel

end Engine

end HeapAudit
