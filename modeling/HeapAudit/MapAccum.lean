/-!
A state handed along a list, with a result for every element. The loop keeps the results backwards,
so that it needs no stack; the laws take them in order.

Main definitions
* `mapAccum`: the last state and all results.

Main statements
* `mapAccum_cons`, `mapAccum_append`: element by element, and list after list.
-/

namespace HeapAudit

variable {σ : Type u} {α : Type v} {β : Type w} {f : σ → α → σ × β}

/-- One step: the state goes on, the result is put in front. -/
def pushResult (f : σ → α → σ × β) (acc : σ × List β) (a : α) : σ × List β :=
  let (s, b) := f acc.1 a
  (s, b :: acc.2)

def mapAccum (f : σ → α → σ × β) (s : σ) (as : List α) : σ × List β :=
  let (s, results) := as.foldl (pushResult f) (s, [])
  (s, results.reverse)

theorem foldl_pushResult (as : List α) (s : σ) (results : List β) :
    as.foldl (pushResult f) (s, results) =
      ((mapAccum f s as).1, (mapAccum f s as).2.reverse ++ results) := by
  induction as generalizing s results with
  | nil => rfl
  | cons a as ih =>
    simp only [mapAccum, List.foldl_cons, pushResult]
    rw [ih, ih]
    simp

@[simp] theorem mapAccum_nil (s : σ) : mapAccum f s [] = (s, []) := rfl

theorem mapAccum_cons (s : σ) (a : α) (as : List α) :
    mapAccum f s (a :: as) =
      ((mapAccum f (f s a).1 as).1, (f s a).2 :: (mapAccum f (f s a).1 as).2) := by
  rw [mapAccum, List.foldl_cons, pushResult, foldl_pushResult]
  simp

theorem mapAccum_append (s : σ) (as bs : List α) :
    mapAccum f s (as ++ bs) =
      ((mapAccum f (mapAccum f s as).1 bs).1,
        (mapAccum f s as).2 ++ (mapAccum f (mapAccum f s as).1 bs).2) := by
  induction as generalizing s with
  | nil => rfl
  | cons a as ih => simp [mapAccum_cons, ih]

end HeapAudit
