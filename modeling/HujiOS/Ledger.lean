import Mathlib.Algebra.BigOperators.Group.Finset.Basic
import Mathlib.Algebra.BigOperators.Group.Finset.Piecewise

/-!
# Credits to accounts that open and close

A log, newest entry first, records accounts being opened, credited with one
unit and closed; a closed account may be opened again and then starts from
zero.  In a valid log only open accounts are credited or closed.  The balance
rule says that no credit is lost: all credits together are the balances of the
open accounts and the balances at which the others were closed.
-/

namespace Ledger

universe u

/-- What the log records of an account: its opening, a credit, its closing. -/
inductive Entry (α : Type u)
  | opened (a : α)
  | credited (a : α)
  | closed (a : α)
  deriving DecidableEq, Repr

variable {α : Type u}

/-- How many credits the log records. -/
def credits : List (Entry α) → Nat
  | [] => 0
  | .credited _ :: past => credits past + 1
  | _ :: past => credits past

variable [DecidableEq α]

/-- The credits of `a` since it was last opened. -/
def balance (a : α) : List (Entry α) → Nat
  | [] => 0
  | .opened b :: past => if b = a then 0 else balance a past
  | .credited b :: past => balance a past + if b = a then 1 else 0
  | .closed _ :: past => balance a past

/-- The balances at which accounts were closed, added up. -/
def settled : List (Entry α) → Nat
  | [] => 0
  | .closed b :: past => settled past + balance b past
  | _ :: past => settled past

/-- The log is valid and leaves the accounts `live` open. -/
inductive Valid : List (Entry α) → Finset α → Prop
  | nil : Valid [] ∅
  | opened {log : List (Entry α)} {live : Finset α} {a : α} (h : Valid log live) (ha : a ∉ live) :
      Valid (.opened a :: log) (insert a live)
  | credited {log : List (Entry α)} {live : Finset α} {a : α} (h : Valid log live)
      (ha : a ∈ live) : Valid (.credited a :: log) live
  | closed {log : List (Entry α)} {live : Finset α} {a : α} (h : Valid log live) (ha : a ∈ live) :
      Valid (.closed a :: log) (live.erase a)

/-- A credit raises the balance of its account by one. -/
theorem balance_credited_self (a : α) (log : List (Entry α)) :
    balance a (.credited a :: log) = balance a log + 1 := by simp [balance]

/-- A credit leaves the other balances as they are. -/
theorem balance_credited_ne {a b : α} (h : b ≠ a) (log : List (Entry α)) :
    balance a (.credited b :: log) = balance a log := by simp [balance, h]

/-- An account that was just opened has a balance of zero. -/
theorem balance_opened_self (a : α) (log : List (Entry α)) :
    balance a (.opened a :: log) = 0 := by simp [balance]

/-- An opening leaves the other balances as they are. -/
theorem balance_opened_ne {a b : α} (h : b ≠ a) (log : List (Entry α)) :
    balance a (.opened b :: log) = balance a log := by simp [balance, h]

/-- No account has more than all credits. -/
theorem balance_le_credits (a : α) (log : List (Entry α)) : balance a log ≤ credits log := by
  induction log with
  | nil => exact Nat.le_refl 0
  | cons entry past ih =>
      cases entry with
      | opened b =>
          simp only [balance, credits]
          split <;> omega
      | credited b =>
          simp only [balance, credits]
          split <;> omega
      | closed b => exact ih

/-- **Balance rule.**  Every credit is on an open account or was settled. -/
theorem Valid.balanced {log : List (Entry α)} {live : Finset α} (h : Valid log live) :
    credits log = ∑ a ∈ live, balance a log + settled log := by
  induction h with
  | nil => rfl
  | @opened log live a h ha ih =>
      have hrest : ∑ b ∈ live, balance b (.opened a :: log) = ∑ b ∈ live, balance b log := by
        refine Finset.sum_congr rfl fun b hb => balance_opened_ne ?_ log
        exact fun heq => ha (heq ▸ hb)
      rw [Finset.sum_insert ha, balance_opened_self, hrest, Nat.zero_add]
      exact ih
  | @credited log live a h ha ih =>
      have hsum : ∑ b ∈ live, balance b (.credited a :: log) = ∑ b ∈ live, balance b log + 1 := by
        simp only [balance, Finset.sum_add_distrib, Finset.sum_ite_eq, if_pos ha]
      rw [hsum]
      simp only [credits, settled, ih]
      omega
  | @closed log live a h ha ih =>
      have hsum : ∑ b ∈ live.erase a, balance b log + balance a log = ∑ b ∈ live, balance b log :=
        Finset.sum_erase_add live _ ha
      simp only [credits, settled, balance, ih]
      omega

end Ledger
