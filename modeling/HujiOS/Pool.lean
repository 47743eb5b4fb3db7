import Mathlib.Algebra.BigOperators.Group.Finset.Basic
import Mathlib.Algebra.Order.BigOperators.Group.Finset
import Mathlib.Data.Fintype.BigOperators

/-!
# Totals over a pool of members

A pool is a finite family whose members change one at a time.  `total c f` adds
up what each member contributes.  The balance rule is the only fact about the
sum that an invariant of the form `settled + total = issued` needs: it compares
the member that moved before and after its move.
-/

namespace Pool

variable {ι α M : Type*} [Fintype ι]

/-- The sum of all contributions. -/
def total [AddCommMonoid M] (c : α → M) (f : ι → α) : M := ∑ v, c (f v)

/-- A family whose members hold nothing has nothing in all. -/
theorem total_eq_zero [AddCommMonoid M] {c : α → M} {f : ι → α} (h : ∀ v, c (f v) = 0) :
    total c f = 0 :=
  Finset.sum_eq_zero fun v _ => h v

variable [DecidableEq ι] {f : ι → α} {w : ι} {x : α}

omit [Fintype ι] in
/-- What holds of a member before a move and of the value moved to holds of the
member after it. -/
theorem update_of {P : α → Prop} {v : ι} (h : P (f v)) (hx : P x) :
    P (Function.update f w x v) := by
  by_cases hv : v = w
  · subst hv
    rwa [Function.update_self]
  · rwa [Function.update_of_ne hv]

variable [AddCommMonoid M] {c : α → M}

/-- The total is the share of `w` and a rest that does not depend on it. -/
theorem total_split (c : α → M) (f : ι → α) (w : ι) :
    ∃ others, total c f = c (f w) + others ∧
      ∀ x, total c (Function.update f w x) = c x + others := by
  refine ⟨∑ v ∈ Finset.univ.erase w, c (f v), ?_, fun x => ?_⟩
  · exact (Finset.add_sum_erase _ _ (Finset.mem_univ w)).symm
  · unfold total
    rw [← Finset.add_sum_erase _ _ (Finset.mem_univ w), Function.update_self]
    congr 1
    refine Finset.sum_congr rfl fun v hv => ?_
    rw [Function.update_of_ne (Finset.ne_of_mem_erase hv)]

/-- **Balance rule.**  One member moves, `settled` grows to `settled'`, and `d`
is newly issued. -/
theorem balance {settled settled' issued d : M} (h : settled + total c f = issued)
    (hmove : settled' + c x = settled + c (f w) + d) :
    settled' + total c (Function.update f w x) = issued + d := by
  obtain ⟨others, hold, hnew⟩ := total_split c f w
  rw [hnew x, ← add_assoc, hmove, ← h, hold]
  ac_rfl

/-- The balance rule when nothing is issued. -/
theorem conserve {settled settled' issued : M} (h : settled + total c f = issued)
    (hmove : settled' + c x = settled + c (f w)) :
    settled' + total c (Function.update f w x) = issued := by
  have hbal := balance (d := 0) h (by rw [hmove, add_zero])
  rwa [add_zero] at hbal

/-- A move that adds to the member's contribution adds to the total. -/
theorem total_grow {d : M} (h : c x = c (f w) + d) :
    total c (Function.update f w x) = total c f + d := by
  have hmove : 0 + c x = 0 + c (f w) + d := by rw [zero_add, zero_add, h]
  have hbal := balance (zero_add (total c f)) hmove
  rwa [zero_add] at hbal

/-- A move that keeps the member's contribution keeps the total. -/
theorem total_update (h : c x = c (f w)) : total c (Function.update f w x) = total c f := by
  rw [total_grow (d := 0) (by rw [h, add_zero]), add_zero]

end Pool
