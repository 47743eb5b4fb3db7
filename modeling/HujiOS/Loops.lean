import Mathlib.Data.List.Basic
import Mathlib.Data.List.Induction

/-!
# Loops as folds

A counting loop with an early exit is a `foldlM` in `Except` over a range, a
loop that remembers what it saw last a `foldl`.  The rules here take the place
of a loop invariant annotation.
-/

namespace Loops

/-- A fold whose steps all succeed is the fold of their results. -/
theorem foldlM_ok {ε α β : Type*} {step : β → α → Except ε β} (value : β → α → β) {xs : List α}
    (hstep : ∀ b, ∀ a ∈ xs, step b a = .ok (value b a)) (b : β) :
    xs.foldlM step b = .ok (xs.foldl value b) := by
  induction xs generalizing b with
  | nil => rfl
  | cons a xs ih =>
      rw [List.foldlM_cons, hstep b a List.mem_cons_self, List.foldl_cons]
      exact ih (fun b x hx => hstep b x (List.mem_cons_of_mem a hx)) (value b a)

/-- **Loop rule.**  A counting loop that has come to `n` goes on with round
`n`. -/
theorem foldlM_range_succ {ε β : Type*} {step : β → Nat → Except ε β} {n : Nat} {b mid last : β}
    (hrun : (List.range n).foldlM step b = .ok mid) (hlast : step mid n = .ok last) :
    (List.range (n + 1)).foldlM step b = .ok last := by
  rw [List.range_succ, List.foldlM_append, hrun]
  simp [bind, Except.bind, hlast, pure, Except.pure]

/-- A fold that keeps the value of the last element chosen. -/
theorem foldl_last_choice {α β : Type*} (choose : α → Prop) [DecidablePred choose] (value : α → β)
    (xs : List α) (b : β) :
    ((∀ x ∈ xs, ¬ choose x) ∧ xs.foldl (fun b x => if choose x then value x else b) b = b) ∨
      ∃ x ∈ xs, choose x ∧ xs.foldl (fun b x => if choose x then value x else b) b = value x := by
  induction xs using List.reverseRecOn with
  | nil => simp
  | append_singleton xs x ih =>
      rw [List.foldl_append, List.foldl_cons, List.foldl_nil]
      by_cases hx : choose x
      · exact Or.inr ⟨x, by simp, hx, if_pos hx⟩
      · rw [if_neg hx]
        rcases ih with ⟨hnone, heq⟩ | ⟨y, hy, hchoose, heq⟩
        · left
          refine ⟨fun y hy => ?_, heq⟩
          rcases List.mem_append.mp hy with hy | hy
          · exact hnone y hy
          · exact (List.mem_singleton.mp hy) ▸ hx
        · exact Or.inr ⟨y, List.mem_append_left _ hy, hchoose, heq⟩

/-- Where one element at most is chosen, the order does not matter. -/
theorem foldl_choice_perm {α β : Type*} (choose : α → Prop) [DecidablePred choose] (value : α → β)
    {xs ys : List α} (hperm : xs.Perm ys)
    (hunique : ∀ x ∈ xs, ∀ y ∈ xs, choose x → choose y → x = y) (b : β) :
    xs.foldl (fun b x => if choose x then value x else b) b =
      ys.foldl (fun b x => if choose x then value x else b) b := by
  apply hperm.foldl_eq'
  intro x hx y hy b
  by_cases hcx : choose x
  · by_cases hcy : choose y
    · rw [hunique x hx y hy hcx hcy]
    · simp only [hcx, hcy, if_true, if_false]
  · by_cases hcy : choose y
    · simp only [hcx, hcy, if_true, if_false]
    · simp only [hcx, hcy, if_false]

end Loops
