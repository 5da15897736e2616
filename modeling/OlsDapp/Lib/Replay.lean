import Mathlib.Tactic.Common

/-!
# Repeated inputs

A state is folded over inputs that may be repeated. Where an input that was run once is done
for good, and a done input is skipped, running the inputs with all repetitions is running each
at its first occurrence only.
-/

namespace OlsDapp.Lib.Replay

universe u v

variable {σ : Type u} {α : Type v}

/-- The list without what repeats an earlier element. -/
def firsts (same : α → α → Bool) : List α → List α
  | [] => []
  | a :: l => a :: (firsts same l).filter fun b => !same a b

/-- `Done s a`: running `a` in `s` changes nothing any more. -/
structure Replayable (f : σ → α → σ) (same : α → α → Bool) (Done : σ → α → Prop) (Good : α → Prop) :
    Prop where
  ran : ∀ s a b, Good a → same a b = true → Done (f s a) b
  skip : ∀ s a, Done s a → f s a = s
  keep : ∀ s a b, Done s a → Done (f s b) a

variable {f : σ → α → σ} {same : α → α → Bool} {Done : σ → α → Prop} {Good : α → Prop}

theorem Replayable.foldl_filter (h : Replayable f same Done Good) {s : σ} {a : α}
    (hdone : ∀ b, same a b = true → Done s b) (l : List α) :
    (l.filter fun b => !same a b).foldl f s = l.foldl f s := by
  induction l generalizing s with
  | nil => rfl
  | cons b l ih =>
    cases hab : same a b with
    | true =>
      rw [List.filter_cons_of_neg (by simp [hab]), List.foldl_cons, h.skip s b (hdone b hab)]
      exact ih hdone
    | false =>
      rw [List.filter_cons_of_pos (by simp [hab]), List.foldl_cons, List.foldl_cons]
      exact ih fun c hc => h.keep s c b (hdone c hc)

/-- Running a list is running its first occurrences. -/
theorem Replayable.foldl_firsts (h : Replayable f same Done Good) (s : σ) {l : List α}
    (hgood : ∀ a ∈ l, Good a) : l.foldl f s = (firsts same l).foldl f s := by
  induction l generalizing s with
  | nil => rfl
  | cons a l ih =>
    have hrest := ih (f s a) fun b hb => hgood b (List.mem_cons_of_mem a hb)
    have hdone := fun b => h.ran s a b (hgood a List.mem_cons_self)
    rw [firsts, List.foldl_cons, List.foldl_cons, h.foldl_filter hdone]
    exact hrest

end OlsDapp.Lib.Replay
