import HeapAudit.Proofs.Audit.Announced
import HeapAudit.Proofs.Audit.Watching

/-!
What is printed while a pass is followed line by line, and how well a limit on the root lines is
kept. The limit is looked at after a root line was printed, so that a limit of zero lets one root
line through; apart from this the limit is exact.

Main definitions
* `Printed`: a line that is printed, for an event or as the notice that the limit is reached.
* `printout`: the lines for a list of events.
* `Tracer.printing`: the tracer that prints.

Main statements
* `Tracer.foldl_hear_printing`: what the tracer prints is the text of these lines.
* `printing_lines`: which lines they are, and when the roots among them are those within the limit.
* `Engine.watch_printing`: what is printed in a pass.
-/

namespace HeapAudit

/-! ## Lines -/

inductive Printed where
  | told (event : Event)
  | notice (limit : Nat)
deriving DecidableEq, Repr

namespace Printed

def text : Printed → String
  | told (.root kind target) => rootLine kind target
  | told event => progressLine event
  | notice limit => limitLine limit

def event? : Printed → Option Event
  | told event => some event
  | notice _ => none

def isNotice : Printed → Bool
  | notice _ => true
  | told _ => false

def root? (line : Printed) : Option (RootKind × Handle) := line.event?.bind Event.root?

end Printed

/-- A phase, a finding, an exemption or the end of the pass. -/
def Event.isProgress : Event → Bool
  | .root _ _ | .consult _ => false
  | _ => true

/-- The notice comes right after the root line that reaches the limit. -/
def RootPrinting.lines (limit : Option Nat) (state : RootPrinting) : Event → List Printed
  | .root kind target =>
    if state.stopped then []
    else .told (.root kind target) :: ((limit.filter (· ≤ state.printed + 1)).map .notice).toList
  | .consult _ => []
  | other => [.told other]

def printout (limit : Option Nat) : RootPrinting → List Event → List Printed
  | _, [] => []
  | state, event :: rest =>
    state.lines limit event ++ printout limit (printEvent limit state event).1 rest

theorem printEvent_snd (limit : Option Nat) (state : RootPrinting) (event : Event) :
    (printEvent limit state event).2 =
      String.join ((state.lines limit event).map Printed.text) := by
  cases event with
  | root kind target =>
    unfold printEvent RootPrinting.lines
    cases state.stopped with
    | true => rfl
    | false =>
      cases limit with
      | none => simp [Printed.text]
      | some n => by_cases hn : n ≤ state.printed + 1 <;> simp [hn, Option.filter, Printed.text]
  | consult => rfl
  | phase | finding | exempt | finished =>
    simp [printEvent, RootPrinting.lines, Printed.text]

theorem printEvents_eq_join (limit : Option Nat) (state : RootPrinting) (events : List Event) :
    printEvents limit state events = String.join ((printout limit state events).map Printed.text) := by
  induction events generalizing state with
  | nil => rfl
  | cons event events ih =>
    rw [printEvents_cons, ih, printout, List.map_append, String.join_append, ← printEvent_snd]

/-! ## The tracer -/

/-- The text grows by what is printed for one event. -/
def printNext (limit : Option Nat) (s : RootPrinting × String) (event : Event) :
    RootPrinting × String :=
  ((printEvent limit s.1 event).1, s.2 ++ (printEvent limit s.1 event).2)

namespace Tracer

/-- Prints what it hears, root lines up to a limit. -/
def printing (limit : Option Nat) : Tracer (RootPrinting × String) where
  onPhase := fun s p => printNext limit s (.phase p)
  onRoot := fun s kind target => printNext limit s (.root kind target)
  onFinding := fun s f => printNext limit s (.finding f)
  onExempt := fun s h category => printNext limit s (.exempt h category)
  onFinish := fun s blocks findings => printNext limit s (.finished blocks findings)

theorem hear_printing (limit : Option Nat) (s : RootPrinting × String) (event : Event) :
    (printing limit).hear s event = printNext limit s event := by
  cases event with
  | consult name =>
    show s = (s.1, s.2 ++ "")
    rw [String.append_empty]
  | _ => rfl

theorem foldl_hear_printing (limit : Option Nat) (s : RootPrinting × String) (events : List Event) :
    (events.foldl (printing limit).hear s).2 = s.2 ++ printEvents limit s.1 events := by
  induction events generalizing s with
  | nil => exact String.append_empty.symm
  | cons event events ih =>
    rw [List.foldl_cons, hear_printing, ih, printNext, String.append_assoc, printEvents_cons]

end Tracer

/-! ## The limit -/

def rootsAmong (events : List Event) : List (RootKind × Handle) := events.filterMap Event.root?

theorem rootsAmong_append (events others : List Event) :
    rootsAmong (events ++ others) = rootsAmong events ++ rootsAmong others :=
  List.filterMap_append

/-- So many more root lines go out before the notice. -/
structure RootPrinting.Room (limit : Nat) (state : RootPrinting) (room : Nat) : Prop where
  sum : state.printed + room = max limit 1
  stopped : state.stopped = decide (room = 0)

namespace RootPrinting

theorem room_start (limit : Nat) : Room limit {} (max limit 1) where
  sum := Nat.zero_add _
  stopped := by
    have hpos : max limit 1 ≠ 0 := by omega
    exact (decide_eq_false hpos).symm

theorem printEvent_root (limit : Nat) (state : RootPrinting) (kind : RootKind) (target : Handle) :
    (printEvent (some limit) state (.root kind target)).1 =
      if state.stopped then state
      else ⟨state.printed + 1, decide (limit ≤ state.printed + 1)⟩ := by
  unfold printEvent
  cases state.stopped with
  | true => rfl
  | false => by_cases hn : limit ≤ state.printed + 1 <;> simp [hn]

namespace Room

variable {limit room : Nat} {state : RootPrinting}

/-- Every root reference takes one of the lines that are left, if there are any. -/
theorem next (hr : Room limit state room) (event : Event) :
    Room limit (printEvent (some limit) state event).1 (room - (rootsAmong [event]).length) := by
  cases event with
  | root kind target =>
    have hsum : state.printed + room = max limit 1 := hr.sum
    show Room limit (printEvent (some limit) state (.root kind target)).1 (room - 1)
    rw [printEvent_root, hr.stopped]
    by_cases hroom : room = 0
    · subst hroom
      exact hr
    · have hreached : limit ≤ state.printed + 1 ↔ room - 1 = 0 := by omega
      rw [if_neg (by simpa using hroom)]
      exact ⟨by simp only; omega, decide_eq_decide.2 hreached⟩
  | _ => exact hr

theorem lines_root (hr : Room limit state room) (kind : RootKind) (target : Handle) :
    state.lines (some limit) (.root kind target) =
      if room = 0 then []
      else .told (.root kind target) :: if room = 1 then [.notice limit] else [] := by
  have hsum : state.printed + room = max limit 1 := hr.sum
  have hreached : room ≠ 0 → (limit ≤ state.printed + 1 ↔ room = 1) := by omega
  simp only [lines, hr.stopped, decide_eq_true_eq]
  by_cases hroom : room = 0
  · rw [if_pos hroom, if_pos hroom]
  · rw [if_neg hroom, if_neg hroom, Option.filter]
    by_cases hlast : room = 1
    · rw [if_pos (decide_eq_true ((hreached hroom).2 hlast)), if_pos hlast]
      rfl
    · rw [if_neg (by simpa using (hreached hroom).not.2 hlast), if_neg hlast]
      rfl

end Room

end RootPrinting

/-! ## What is printed -/

section Lines

variable (limit : Option Nat) (state : RootPrinting) (events : List Event)

/-- The events whose lines are printed. -/
def told (lines : List Printed) : List Event := lines.filterMap Printed.event?

theorem told_append (lines others : List Printed) :
    told (lines ++ others) = told lines ++ told others :=
  List.filterMap_append

theorem told_notices : told (limit.map Printed.notice).toList = [] := by
  cases limit <;> rfl

theorem told_lines_sublist (event : Event) : (told (state.lines limit event)).Sublist [event] := by
  cases event with
  | root kind target =>
    unfold RootPrinting.lines
    cases state.stopped with
    | true => exact List.nil_sublist _
    | false =>
      show (.root kind target :: told (Option.map _ _).toList).Sublist _
      rw [told_notices]
  | consult => exact List.nil_sublist _
  | _ => exact .refl _

theorem told_printout_sublist : (told (printout limit state events)).Sublist events := by
  induction events generalizing state with
  | nil => exact List.nil_sublist _
  | cons event events ih =>
    rw [printout, told_append]
    exact (told_lines_sublist limit state event).append (ih _)

/-- Nothing but root references is ever left out. -/
theorem filter_isProgress_told_lines (event : Event) :
    (told (state.lines limit event)).filter Event.isProgress = [event].filter Event.isProgress := by
  cases event with
  | root kind target =>
    unfold RootPrinting.lines
    cases state.stopped with
    | true => rfl
    | false =>
      show (.root kind target :: told (Option.map _ _).toList).filter _ = _
      rw [told_notices]
  | _ => rfl

theorem filter_isProgress_told_printout :
    (told (printout limit state events)).filter Event.isProgress = events.filter Event.isProgress := by
  induction events generalizing state with
  | nil => rfl
  | cons event events ih =>
    rw [printout, told_append, List.filter_append, filter_isProgress_told_lines, ih,
      ← List.filter_append]
    rfl

end Lines

/-! ## Without a limit -/

/-- Without a limit every event with a line is printed, and nothing else. -/
theorem printout_unlimited (count : Nat) (events : List Event) :
    printout none ⟨count, false⟩ events =
      (events.filter fun event => event.isProgress || event.root?.isSome).map .told := by
  induction events generalizing count with
  | nil => rfl
  | cons event events ih =>
    cases event with
    | root kind target => exact congrArg (List.cons _) (ih (count + 1))
    | consult => exact ih count
    | phase | finding | exempt | finished => exact congrArg (List.cons _) (ih count)

theorem rootsAmong_told_unlimited (events : List Event) :
    rootsAmong (told (printout none {} events)) = rootsAmong events := by
  rw [printout_unlimited, told, List.filterMap_map, rootsAmong, rootsAmong, List.filterMap_filterMap,
    List.filterMap_filter]
  refine List.filterMap_congr fun event _ => ?_
  cases event <;> rfl

theorem notices_unlimited (events : List Event) :
    (printout none {} events).filter Printed.isNotice = [] := by
  rw [printout_unlimited, List.filter_map, List.map_eq_nil_iff, List.filter_eq_nil_iff]
  intro event _ hn
  cases hn

/-! ## With a limit -/

namespace RootPrinting.Room

variable {limit room : Nat} {state : RootPrinting}

theorem rootsAmong_told_lines (hr : Room limit state room) (event : Event) :
    rootsAmong (told (state.lines (some limit) event)) = (rootsAmong [event]).take room := by
  cases event with
  | root kind target =>
    rw [hr.lines_root]
    obtain _ | _ | room := room <;> rfl
  | _ => exact (List.take_nil).symm

/-- The root lines are those of the first roots. -/
theorem rootsAmong_told_printout (hr : Room limit state room) (events : List Event) :
    rootsAmong (told (printout (some limit) state events)) = (rootsAmong events).take room := by
  induction events generalizing state room with
  | nil => exact (List.take_nil).symm
  | cons event events ih =>
    rw [printout, told_append, rootsAmong_append, hr.rootsAmong_told_lines, ih (hr.next event),
      ← List.take_append, ← rootsAmong_append, List.singleton_append]

theorem notices_lines (hr : Room limit state room) (event : Event) :
    (state.lines (some limit) event).filter Printed.isNotice =
      if 0 < room ∧ room ≤ (rootsAmong [event]).length then [.notice limit] else [] := by
  cases event with
  | root kind target =>
    rw [hr.lines_root]
    obtain _ | _ | room := room <;> simp [rootsAmong, Event.root?, Printed.isNotice]
  | _ =>
    have hnone : ¬ (0 < room ∧ room ≤ 0) := by omega
    exact (if_neg hnone).symm

/-- The notice goes out once the last root line did. -/
theorem notices_printout (hr : Room limit state room) (events : List Event) :
    (printout (some limit) state events).filter Printed.isNotice =
      if 0 < room ∧ room ≤ (rootsAmong events).length then [.notice limit] else [] := by
  induction events generalizing state room with
  | nil =>
    have hnone : ¬ (0 < room ∧ room ≤ 0) := by omega
    exact (if_neg hnone).symm
  | cons event events ih =>
    have hlen : (rootsAmong (event :: events)).length =
        (rootsAmong [event]).length + (rootsAmong events).length := by
      rw [← List.length_append, ← rootsAmong_append, List.singleton_append]
    rw [printout, List.filter_append, hr.notices_lines, ih (hr.next event), hlen]
    by_cases hnow : 0 < room ∧ room ≤ (rootsAmong [event]).length
    · rw [if_pos hnow, if_neg (by omega), if_pos (by omega)]
      rfl
    · rw [if_neg hnow, List.nil_append]
      exact if_congr (by omega) rfl rfl

/-- After the notice there are no root lines. -/
theorem pairwise_printout (hr : Room limit state room) (events : List Event) :
    (printout (some limit) state events).Pairwise fun line later =>
      line.isNotice → later.root? = none := by
  induction events generalizing state room with
  | nil => exact .nil
  | cons event events ih =>
    refine List.pairwise_append.2 ⟨?_, ih (hr.next event), fun line hl later hlater hn => ?_⟩
    · cases event with
      | root kind target =>
        rw [hr.lines_root]
        obtain _ | _ | room := room <;> simp [Printed.isNotice]
      | consult => exact .nil
      | _ => exact List.pairwise_singleton _ _
    · -- A notice among these lines is the last thing with a root line, so no room is left.
      have hmem : line ∈ (state.lines (some limit) event).filter Printed.isNotice :=
        List.mem_filter.2 ⟨hl, hn⟩
      rw [hr.notices_lines] at hmem
      have hfull : room - (rootsAmong [event]).length = 0 := by
        by_contra hne
        rw [if_neg (by omega)] at hmem
        cases hmem
      have hnone := (hr.next event).rootsAmong_told_printout events
      rw [hfull, List.take_zero, rootsAmong, told, List.filterMap_filterMap,
        List.filterMap_eq_nil_iff] at hnone
      exact hnone later hlater

end RootPrinting.Room

/-! ## A whole printout -/

theorem take_max_one_eq_take_iff {α : Type} (n : Nat) (xs : List α) :
    xs.take (max n 1) = xs.take n ↔ 0 < n ∨ xs = [] := by
  rw [List.take_eq_take_iff]
  have hnil : xs = [] ↔ xs.length = 0 := List.length_eq_zero_iff.symm
  rw [hnil]
  omega

/-- What a tracer prints is the lines of the events in order, without some root lines and with a
notice at most. Without a limit there are all root lines and no notice. With a limit there are as
many as it says, or one for a limit of zero; then the notice, and no root line after it. -/
theorem Tracer.printing_within_limit (limit : Option Nat) (events : List Event) :
    (events.foldl (Tracer.printing limit).hear ({}, "")).2 =
        String.join ((printout limit {} events).map Printed.text) ∧
      (told (printout limit {} events)).Sublist events ∧
      (told (printout limit {} events)).filter Event.isProgress = events.filter Event.isProgress ∧
      match limit with
      | none =>
        rootsAmong (told (printout none {} events)) = rootsAmong events ∧
          (printout none {} events).filter Printed.isNotice = []
      | some n =>
        rootsAmong (told (printout (some n) {} events)) = (rootsAmong events).take (max n 1) ∧
          (rootsAmong (told (printout (some n) {} events)) = (rootsAmong events).take n ↔
            0 < n ∨ rootsAmong events = []) ∧
          (printout (some n) {} events).filter Printed.isNotice =
            (if max n 1 ≤ (rootsAmong events).length then [.notice n] else []) ∧
          (printout (some n) {} events).Pairwise fun line later =>
            line.isNotice → later.root? = none := by
  have htext : (events.foldl (Tracer.printing limit).hear ({}, "")).2 =
      String.join ((printout limit {} events).map Printed.text) := by
    rw [foldl_hear_printing, printEvents_eq_join]
    exact String.empty_append
  refine ⟨htext, told_printout_sublist limit {} events,
    filter_isProgress_told_printout limit {} events, ?_⟩
  cases limit with
  | none => exact ⟨rootsAmong_told_unlimited events, notices_unlimited events⟩
  | some n =>
    have hroom := RootPrinting.room_start n
    have hroots := hroom.rootsAmong_told_printout events
    refine ⟨hroots, ?_, ?_, hroom.pairwise_printout events⟩
    · rw [hroots]
      exact take_max_one_eq_take_iff n (rootsAmong events)
    · rw [hroom.notices_printout]
      exact if_congr (by omega) rfl rfl

/-- With a limit of zero one root line is printed all the same. -/
theorem Tracer.printing_zero_limit :
    rootsAmong (told (printout (some 0) {} [.root .stack ⟨4, 0⟩])) ≠
        (rootsAmong [.root .stack ⟨4, 0⟩]).take 0 ∧
      ([Event.root .stack ⟨4, 0⟩].foldl (Tracer.printing (some 0)).hear ({}, "")).2 =
        "  root stack -> #4.0\n--- root trace limit reached (0 references) ---\n" := by
  decide +kernel

/-- What is printed in a pass are the lines of its events. -/
theorem Engine.watch_printing (e : Engine) (flags : Flags) (limit : Option Nat) :
    (e.watch (Tracer.printing limit) flags ({}, "")).2.2.2 =
      progressText limit (e.audit flags).2.events := by
  rw [watch_eq, Tracer.foldl_hear_printing]
  exact String.empty_append

end HeapAudit
