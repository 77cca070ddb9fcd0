import HeapAudit.Heap.Rendering

/-!
How much of a heap the text of a value depends on. Arrays are opened inside one another up to a
bound, so the text is finite on every heap, and what lies past the bound has no part in it.

Main definitions
* `Heap.Writes`, `Heap.WritesEach`: a writer that counts the arrays that are open.
* `Heap.Within`: a value that stands inside so many arrays of another.
* `Heap.AgreeWithin`: two heaps have in common what may be seen up to the bound.
* `Heap.CutOff`: the bound leaves an array unopened.

Main statements
* `writes_iff`: the writer comes to an end with one text, the text of the value.
* `rendering_bounded`: what a text depends on, and when a larger bound changes nothing.
-/

namespace HeapAudit.Heap

variable {heap other : Heap} {depth deeper limit level : Nat} {v w : Value} {h : Handle}
  {items : List Value} {text : String} {texts : List String}

/-! ## Arrays and other values -/

/-- A value shows no slots, or it is an array that is gone, or one that is there. -/
theorem array_cases (heap : Heap) (v : Value) :
    (∀ h, v ≠ .ref .array h) ∨ (∃ h, v = .ref .array h ∧ heap.slots? h = none) ∨
      ∃ h items, v = .ref .array h ∧ heap.slots? h = some items := by
  by_cases hv : ∃ h, v = .ref .array h
  · obtain ⟨h, rfl⟩ := hv
    cases hs : heap.slots? h with
    | none => exact .inr (.inl ⟨h, rfl, hs⟩)
    | some items => exact .inr (.inr ⟨h, items, rfl, hs⟩)
  · exact .inl fun h heq => hv ⟨h, heq⟩

theorem renderWith_plain (hv : ∀ h, v ≠ .ref .array h) (f g : List Value → String) :
    heap.renderWith f v = heap.renderWith g v := by
  cases v with
  | number n => rfl
  | real bits => rfl
  | ref kind h =>
    cases kind with
    | array => exact absurd rfl (hv h)
    | _ => rfl

theorem renderValue_plain (hv : ∀ h, v ≠ .ref .array h) (depth : Nat)
    (f : List Value → String) : heap.renderValue depth v = heap.renderWith f v := by
  cases depth <;> exact renderWith_plain hv _ _

theorem renderValue_freed (hs : heap.slots? h = none) (depth : Nat) :
    heap.renderValue depth (.ref .array h) = "<freed array>" := by
  cases depth <;> simp [renderValue, renderWith, hs]

theorem renderValue_elided (hs : heap.slots? h = some items) :
    heap.renderValue 0 (.ref .array h) = "(\x7b ... \x7d)" := by
  simp only [renderValue, renderWith, hs, Option.elim_some]
  rfl

/-! ## The writer -/

mutual

/-- What is written for a value with `level` arrays open around it, if `limit` may be open. -/
inductive Writes (heap : Heap) (limit : Nat) : Nat → Value → String → Prop
  | plain {level : Nat} {v : Value} (slotsText : List Value → String)
      (hv : ∀ h, v ≠ .ref .array h) : Writes heap limit level v (heap.renderWith slotsText v)
  | freed {level : Nat} {h : Handle} (hs : heap.slots? h = none) :
      Writes heap limit level (.ref .array h) "<freed array>"
  | elided {level : Nat} {h : Handle} {items : List Value} (hs : heap.slots? h = some items)
      (hl : limit ≤ level) : Writes heap limit level (.ref .array h) "(\x7b ... \x7d)"
  | opened {level : Nat} {h : Handle} {items : List Value} {texts : List String}
      (hs : heap.slots? h = some items) (hl : level < limit)
      (hw : WritesEach heap limit (level + 1) items texts) :
      Writes heap limit level (.ref .array h) (bracketed texts)

/-- What is written for values that stand side by side. -/
inductive WritesEach (heap : Heap) (limit : Nat) : Nat → List Value → List String → Prop
  | nil {level : Nat} : WritesEach heap limit level [] []
  | cons {level : Nat} {v : Value} {items : List Value} {text : String} {texts : List String}
      (hv : Writes heap limit level v text) (hw : WritesEach heap limit level items texts) :
      WritesEach heap limit level (v :: items) (text :: texts)

end

theorem writesEach_iff_map {f : Value → String}
    (hf : ∀ v text, heap.Writes limit level v text ↔ text = f v) :
    heap.WritesEach limit level items texts ↔ texts = items.map f := by
  induction items generalizing texts with
  | nil =>
    constructor
    · rintro ⟨⟩
      rfl
    · rintro rfl
      exact .nil
  | cons v items ih =>
    constructor
    · rintro (_ | ⟨hv, hw⟩)
      rw [(hf _ _).1 hv, ih.1 hw, List.map_cons]
    · rintro rfl
      exact .cons ((hf _ _).2 rfl) (ih.2 rfl)

theorem writes_plain_iff (hv : ∀ h, v ≠ .ref .array h) :
    heap.Writes limit level v text ↔ text = heap.renderValue depth v := by
  constructor
  · intro hw
    cases hw with
    | plain slotsText => rw [renderValue_plain hv depth slotsText]
    | _ => exact absurd rfl (hv _)
  · rintro rfl
    rw [renderValue_plain hv depth fun _ => ""]
    exact .plain _ hv

theorem writes_freed_iff (hs : heap.slots? h = none) :
    heap.Writes limit level (.ref .array h) text ↔ text = "<freed array>" := by
  constructor
  · intro hw
    cases hw with
    | plain _ hv => exact absurd rfl (hv h)
    | freed => rfl
    | elided ho | opened ho => simp [hs] at ho
  · rintro rfl
    exact .freed hs

theorem writes_elided_iff (hs : heap.slots? h = some items) (hl : limit ≤ level) :
    heap.Writes limit level (.ref .array h) text ↔ text = "(\x7b ... \x7d)" := by
  constructor
  · intro hw
    cases hw with
    | plain _ hv => exact absurd rfl (hv h)
    | freed ho => simp [hs] at ho
    | elided => rfl
    | opened _ hlt => omega
  · rintro rfl
    exact .elided hs hl

theorem writes_opened_iff (hs : heap.slots? h = some items) (hl : level < limit) :
    heap.Writes limit level (.ref .array h) text ↔
      ∃ texts, heap.WritesEach limit (level + 1) items texts ∧ text = bracketed texts := by
  constructor
  · intro hw
    cases hw with
    | plain _ hv => exact absurd rfl (hv h)
    | freed ho => simp [hs] at ho
    | elided _ hle => omega
    | opened ho _ hw =>
      rw [hs, Option.some.injEq] at ho
      exact ⟨_, ho ▸ hw, rfl⟩
  · rintro ⟨texts, hw, rfl⟩
    exact .opened hs hl hw

/-- The writer counts upwards; what carries the induction is how many arrays it may still open. -/
theorem writes_iff :
    heap.Writes limit level v text ↔ text = heap.renderValue (limit - level) v := by
  induction hroom : limit - level generalizing level v text with
  | zero =>
    obtain hv | ⟨h, rfl, hs⟩ | ⟨h, items, rfl, hs⟩ := heap.array_cases v
    · exact writes_plain_iff hv
    · rw [writes_freed_iff hs, renderValue_freed hs]
    · rw [writes_elided_iff hs (by omega), renderValue_elided hs]
  | succ room ih =>
    obtain hv | ⟨h, rfl, hs⟩ | ⟨h, items, rfl, hs⟩ := heap.array_cases v
    · exact writes_plain_iff hv
    · rw [writes_freed_iff hs, renderValue_freed hs]
    · have hinner : ∀ v text, heap.Writes limit (level + 1) v text ↔
          text = heap.renderValue room v := fun v text => ih (by omega)
      rw [writes_opened_iff hs (by omega), renderValue_array hs, renderItems]
      simp only [writesEach_iff_map hinner, exists_eq_left]

theorem writesEach_iff :
    heap.WritesEach limit 0 items texts ↔ texts = items.map (heap.renderValue limit) :=
  writesEach_iff_map fun _ _ => writes_iff

/-! ## What a text depends on -/

/-- `w` stands inside `n` arrays, one inside the other, of which `v` is the outermost. -/
inductive Within (heap : Heap) : Nat → Value → Value → Prop
  | self (v : Value) : Within heap 0 v v
  | slot {n : Nat} {h : Handle} {items : List Value} {v w : Value}
      (hs : heap.slots? h = some items) (hv : v ∈ items) (hw : Within heap n v w) :
      Within heap (n + 1) (.ref .array h) w

/-- What two heaps need to have in common at a value inside of which `room` arrays may be opened:
the payload of a string, the name of an object, the slots of an array; but of an array that is not
opened only whether it is there. -/
def Agree (heap other : Heap) (room : Nat) : Value → Prop
  | .ref .string h | .ref .shared h => heap.payload? h = other.payload? h
  | .ref .array h =>
    if room = 0 then (heap.slots? h).isSome = (other.slots? h).isSome
    else heap.slots? h = other.slots? h
  | .ref .object h => heap.objectName? h = other.objectName? h
  | _ => True

/-- The heaps agree on all that is come to by opening no more than `depth` arrays. -/
def AgreeWithin (heap other : Heap) (depth : Nat) (v : Value) : Prop :=
  ∀ n w, n ≤ depth → heap.Within n v w → heap.Agree other (depth - n) w

/-- Some array is there, but as many are open around it as may be. -/
def CutOff (heap : Heap) (depth : Nat) (v : Value) : Prop :=
  ∃ h, heap.Within depth v (.ref .array h) ∧ (heap.slots? h).isSome

theorem AgreeWithin.self (ha : heap.AgreeWithin other depth v) : heap.Agree other depth v :=
  ha 0 v (Nat.zero_le _) (.self v)

theorem AgreeWithin.slot (ha : heap.AgreeWithin other (depth + 1) (.ref .array h))
    (hs : heap.slots? h = some items) (hv : v ∈ items) : heap.AgreeWithin other depth v := by
  intro n w hn hw
  have hat := ha (n + 1) w (by omega) (.slot hs hv hw)
  rwa [Nat.add_sub_add_right] at hat

theorem CutOff.of_slot (hs : heap.slots? h = some items) (hv : v ∈ items)
    (hc : heap.CutOff depth v) : heap.CutOff (depth + 1) (.ref .array h) := by
  obtain ⟨k, hw, hk⟩ := hc
  exact ⟨k, .slot hs hv hw, hk⟩

theorem renderWith_of_agree {room : Nat} (ha : heap.Agree other room v)
    (hv : ∀ h, v ≠ .ref .array h) (f : List Value → String) :
    other.renderWith f v = heap.renderWith f v := by
  cases v with
  | number n => rfl
  | real bits => rfl
  | ref kind h =>
    cases kind with
    | array => exact absurd rfl (hv h)
    | string | shared =>
      have hp : heap.payload? h = other.payload? h := ha
      simp only [renderWith, renderString, hp]
    | object =>
      have hn : heap.objectName? h = other.objectName? h := ha
      simp only [renderWith, hn]
    | _ => rfl

theorem renderValue_of_agree {room : Nat} (ha : heap.Agree other room v)
    (hv : ∀ h, v ≠ .ref .array h) (depth : Nat) :
    other.renderValue depth v = heap.renderValue depth v := by
  rw [renderValue_plain hv depth fun _ => "", renderValue_plain hv depth fun _ => "",
    renderWith_of_agree ha hv]

/-- Heaps that agree up to the bound show the same. -/
theorem renderValue_of_agreeWithin (ha : heap.AgreeWithin other depth v) :
    other.renderValue depth v = heap.renderValue depth v := by
  induction depth generalizing v with
  | zero =>
    obtain hv | ⟨h, rfl, hs⟩ | ⟨h, items, rfl, hs⟩ := heap.array_cases v
    · exact renderValue_of_agree ha.self hv 0
    · have hsome : (heap.slots? h).isSome = (other.slots? h).isSome := ha.self
      have ho : other.slots? h = none := by simpa [hs] using hsome.symm
      rw [renderValue_freed hs, renderValue_freed ho]
    · have hsome : (heap.slots? h).isSome = (other.slots? h).isSome := ha.self
      obtain ⟨more, ho⟩ := Option.isSome_iff_exists.1 (by simpa [hs] using hsome.symm)
      rw [renderValue_elided hs, renderValue_elided ho]
  | succ depth ih =>
    obtain hv | ⟨h, rfl, hs⟩ | ⟨h, items, rfl, hs⟩ := heap.array_cases v
    · exact renderValue_of_agree ha.self hv (depth + 1)
    · have ho : heap.slots? h = other.slots? h := ha.self
      rw [renderValue_freed hs, renderValue_freed (ho ▸ hs)]
    · have ho : heap.slots? h = other.slots? h := ha.self
      rw [renderValue_array hs, renderValue_array (ho ▸ hs), renderItems, renderItems,
        List.map_congr_left fun w hw => ih (ha.slot hs hw)]

theorem renderItems_of_agreeWithin (ha : ∀ v ∈ items, heap.AgreeWithin other depth v) :
    other.renderItems depth items = heap.renderItems depth items := by
  rw [renderItems, renderItems,
    List.map_congr_left fun v hv => renderValue_of_agreeWithin (ha v hv)]

/-- Where no array is left unopened there is nothing more to show. -/
theorem renderValue_of_not_cutOff (hc : ¬ heap.CutOff depth v) (hd : depth ≤ deeper) :
    heap.renderValue deeper v = heap.renderValue depth v := by
  induction depth generalizing v deeper with
  | zero =>
    obtain hv | ⟨h, rfl, hs⟩ | ⟨h, items, rfl, hs⟩ := heap.array_cases v
    · rw [renderValue_plain hv deeper fun _ => "", renderValue_plain hv 0]
    · rw [renderValue_freed hs, renderValue_freed hs]
    · exact absurd ⟨h, .self _, by simp [hs]⟩ hc
  | succ depth ih =>
    obtain hv | ⟨h, rfl, hs⟩ | ⟨h, items, rfl, hs⟩ := heap.array_cases v
    · rw [renderValue_plain hv deeper fun _ => "", renderValue_plain hv (depth + 1)]
    · rw [renderValue_freed hs, renderValue_freed hs]
    · obtain ⟨k, rfl⟩ : ∃ k, deeper = k + 1 := ⟨deeper - 1, by omega⟩
      have hsame : ∀ w ∈ items, heap.renderValue k w = heap.renderValue depth w := by
        intro w hw
        apply ih
        · exact fun hcut => hc (hcut.of_slot hs hw)
        · omega
      rw [renderValue_array hs, renderValue_array hs, renderItems, renderItems,
        List.map_congr_left hsame]

theorem renderItems_of_not_cutOff (hc : ∀ v ∈ items, ¬ heap.CutOff depth v)
    (hd : depth ≤ deeper) : heap.renderItems deeper items = heap.renderItems depth items := by
  rw [renderItems, renderItems,
    List.map_congr_left fun v hv => renderValue_of_not_cutOff (hc v hv) hd]

/-! ## The bound -/

/-- The writer comes to an end on every heap, with the text of the value, and so it does for the
slots of an array. Another heap gives the same text if it agrees on what is come to by opening no
more arrays than may be opened, and a larger bound gives the same text if no array is cut off. The
slots of an array are written as the array is, one level deeper. -/
theorem rendering_bounded (heap : Heap) (depth : Nat) (v : Value) (items : List Value) :
    (∀ text, heap.Writes depth 0 v text ↔ text = heap.renderValue depth v) ∧
    (∀ text, (∃ texts, heap.WritesEach depth 0 items texts ∧ text = bracketed texts) ↔
      text = heap.renderItems depth items) ∧
    (∀ other, heap.AgreeWithin other depth v →
      other.renderValue depth v = heap.renderValue depth v) ∧
    (∀ other, (∀ w ∈ items, heap.AgreeWithin other depth w) →
      other.renderItems depth items = heap.renderItems depth items) ∧
    (¬ heap.CutOff depth v → ∀ deeper, depth ≤ deeper →
      heap.renderValue deeper v = heap.renderValue depth v) ∧
    ((∀ w ∈ items, ¬ heap.CutOff depth w) → ∀ deeper, depth ≤ deeper →
      heap.renderItems deeper items = heap.renderItems depth items) ∧
    (∀ h, heap.slots? h = some items →
      heap.renderItems depth items = heap.renderValue (depth + 1) (.ref .array h)) := by
  refine ⟨fun text => writes_iff, fun text => ?_, fun other => renderValue_of_agreeWithin,
    fun other => renderItems_of_agreeWithin, fun hc deeper => renderValue_of_not_cutOff hc,
    fun hc deeper => renderItems_of_not_cutOff hc, fun h hs => (renderValue_array hs depth).symm⟩
  simp only [writesEach_iff, exists_eq_left, renderItems]

/-- An array that holds another array and itself. -/
def ring (n : Int64) : Heap :=
  let inner := (empty.allocate .array (.slots [.number n]) "pebble").1
  (inner.allocate .array (.slots [.ref .array ⟨0, 0⟩, .ref .array ⟨1, 0⟩]) "ring").1

theorem slots?_ring (n : Int64) :
    (ring n).slots? ⟨0, 0⟩ = some [.number n] ∧
      (ring n).slots? ⟨1, 0⟩ = some [.ref .array ⟨0, 0⟩, .ref .array ⟨1, 0⟩] :=
  ⟨rfl, rfl⟩

theorem rendering_bounded_ring :
    (ring 7).AgreeWithin (ring 8) 1 (.ref .array ⟨1, 0⟩) ∧
    (ring 8).renderValue 1 (.ref .array ⟨1, 0⟩) = (ring 7).renderValue 1 (.ref .array ⟨1, 0⟩) ∧
    (∀ w ∈ [Value.number 7], (ring 7).AgreeWithin (ring 8) 0 w) ∧
    (ring 8).renderItems 0 [.number 7] = (ring 7).renderItems 0 [.number 7] ∧
    ¬ (ring 7).CutOff 1 (.ref .array ⟨0, 0⟩) ∧
    (ring 7).renderValue 4 (.ref .array ⟨0, 0⟩) = (ring 7).renderValue 1 (.ref .array ⟨0, 0⟩) ∧
    (∀ w ∈ [Value.number 7], ¬ (ring 7).CutOff 0 w) ∧
    (ring 7).renderItems 3 [.number 7] = (ring 7).renderItems 0 [.number 7] ∧
    (ring 7).slots? ⟨0, 0⟩ = some [.number 7] ∧
    (ring 7).renderItems 0 [.number 7] = (ring 7).renderValue 1 (.ref .array ⟨0, 0⟩) := by
  obtain ⟨hpebble, hring⟩ := slots?_ring 7
  obtain ⟨hpebble8, hring8⟩ := slots?_ring 8
  -- the pebbles differ, and stand one array too deep to be seen
  have hagree : (ring 7).AgreeWithin (ring 8) 1 (.ref .array ⟨1, 0⟩) := by
    intro n w hn hw
    cases hw with
    | self => simp [Agree, hring, hring8]
    | @slot k _ items inner _ hs hv hw =>
      obtain rfl : k = 0 := by omega
      rw [hring, Option.some.injEq] at hs
      subst hs
      cases hw
      simp only [List.mem_cons, List.not_mem_nil, or_false] at hv
      rcases hv with rfl | rfl
      · simp [Agree, hpebble, hpebble8]
      · simp [Agree, hring, hring8]
  have hnumber : ∀ w ∈ [Value.number 7], (ring 7).AgreeWithin (ring 8) 0 w := by
    intro w hw n x hn hx
    rw [List.mem_singleton.1 hw] at hx
    cases hx
    trivial
  have hwhole : ¬ (ring 7).CutOff 1 (.ref .array ⟨0, 0⟩) := by
    rintro ⟨h, hw, -⟩
    cases hw with
    | slot hs hv hw =>
      rw [hpebble, Option.some.injEq] at hs
      subst hs
      rw [List.mem_singleton.1 hv] at hw
      cases hw
  have hitems : ∀ w ∈ [Value.number 7], ¬ (ring 7).CutOff 0 w := by
    rintro w hw ⟨h, hx, -⟩
    rw [List.mem_singleton.1 hw] at hx
    cases hx
  obtain ⟨-, -, hsame, -⟩ := rendering_bounded (ring 7) 1 (.ref .array ⟨1, 0⟩) []
  obtain ⟨-, -, -, -, hmore, -⟩ := rendering_bounded (ring 7) 1 (.ref .array ⟨0, 0⟩) []
  obtain ⟨-, -, -, hsameItems, -, hmoreItems, hslots⟩ :=
    rendering_bounded (ring 7) 0 .zero [.number 7]
  exact ⟨hagree, hsame _ hagree, hnumber, hsameItems _ hnumber, hwhole, hmore hwhole 4 (by decide),
    hitems, hmoreItems hitems 3 (by decide), hpebble, hslots _ hpebble⟩

example : (ring 7).renderValue 2 (.ref .array ⟨1, 0⟩) =
    "(\x7b (\x7b 7 \x7d), (\x7b (\x7b ... \x7d), (\x7b ... \x7d) \x7d) \x7d)" := by
  decide +kernel

end HeapAudit.Heap
