import HujiOS.MapReduce.Transitions
import HujiOS.Pool

/-!
# Which workers can be where

A worker has returned from `passed` barrier calls and has arrived at
`arrivals`, which is at most one more.  Whoever returns does so after everybody
has arrived, so no worker is ever past a barrier that another has yet to reach.
With the fact that only worker 0 shuffles, this decides which phases can overlap.
-/

namespace MapReduce

open Grouping Runs

universe u

variable {K1 V1 K2 V2 K3 V3 : Type u} {j : Job K1 V1 K2 V2 K3 V3}

namespace Pc

/-- Between the barriers, in worker 0's own part. -/
def isShuffle : Pc j → Bool
  | shuffleSetStage | shuffleLock | shuffleReset | shuffleCopy _ | shuffleMaxKey _
  | shuffleDrain .. | shuffleCount .. | shuffleEndReset | shuffleUnlock | reduceAdvance => true
  | _ => false

/-- At a barrier call or right after one, with nothing in hand. -/
def isResting : Pc j → Bool
  | firstBarrier | firstWait | shuffleSetStage | secondBarrier | secondWait
  | reduceSetStage => true
  | _ => false

/-- A worker returns from no call that it has not arrived at. -/
theorem passed_le_arrivals (pc : Pc j) : pc.passed ≤ pc.arrivals := by
  cases pc <;> simp [arrivals, passed]

/-- A worker makes two barrier calls. -/
theorem arrivals_le_two (pc : Pc j) : pc.arrivals ≤ 2 := by
  cases pc <;> simp [arrivals]

/-- Between the barriers and not shuffling, a worker rests. -/
theorem isResting_of_between {pc : Pc j} (hpassed : pc.passed ≤ 1) (harrived : 1 ≤ pc.arrivals)
    (hshuffle : pc.isShuffle = false) : pc.isResting = true := by
  cases pc <;> simp_all [passed, arrivals, isShuffle, isResting]

end Pc

namespace JobContext

/-- What a step of `w` can do to its program counter. -/
structure Moves (s : JobContext j) (w : Fin j.numOfThreads) (pc : Pc j) : Prop where
  arrives : (s.threads w).pc.arrivals ≤ pc.arrivals
  returns : pc.passed = (s.threads w).pc.passed ∨
    s.Released w ∧ pc.passed ≤ (s.threads w).pc.arrivals
  enters : pc.isShuffle = true → (s.threads w).pc.isShuffle = true ∨ w = j.threadZero

/-- A step of `w` moves `w` only. -/
theorem Transition.moves {s t : JobContext j} {w : Fin j.numOfThreads} (h : Transition s w t) :
    ∃ thread, t.threads = Function.update s.threads w thread ∧ s.Moves w thread.pc := by
  cases h <;> refine ⟨_, rfl, ?_, ?_, ?_⟩ <;>
    simp_all [Pc.arrivals, Pc.passed, Pc.isShuffle]

/-- Nobody is past a barrier that another worker has yet to reach, and only
worker 0 shuffles. -/
structure Control (s : JobContext j) : Prop where
  barrier : ∀ u v, (s.threads u).pc.passed ≤ (s.threads v).pc.arrivals
  shuffler : ∀ v, (s.threads v).pc.isShuffle = true → v = j.threadZero

/-- Before the first step nobody has arrived anywhere. -/
theorem Control.initial : (initial j).Control :=
  ⟨fun _ _ => Nat.zero_le _, fun _ h => Bool.noConfusion h⟩

/-- By the moves of one worker, `Control` is kept by every step. -/
theorem Control.step {s t : JobContext j} {w : Fin j.numOfThreads} (h : s.Control)
    (htr : Transition s w t) : t.Control := by
  obtain ⟨thread, hthreads, hmoves⟩ := htr.moves
  constructor
  · intro u v
    rw [hthreads]
    have harrive :
        (s.threads v).pc.arrivals ≤ (Function.update s.threads w thread v).pc.arrivals := by
      by_cases hv : v = w
      · subst hv
        rw [Function.update_self]
        exact hmoves.arrives
      · rw [Function.update_of_ne hv]
    by_cases hu : u = w
    · subst hu
      rw [Function.update_self]
      rcases hmoves.returns with hsame | ⟨hrel, hle⟩
      · rw [hsame]
        exact (h.barrier u v).trans harrive
      · exact hle.trans ((hrel v).trans harrive)
    · rw [Function.update_of_ne hu]
      exact (h.barrier u v).trans harrive
  · intro v hv
    rw [hthreads] at hv
    by_cases heq : v = w
    · subst heq
      rw [Function.update_self] at hv
      rcases hmoves.enters hv with hold | hzero
      · exact h.shuffler v hold
      · exact hzero
    · rw [Function.update_of_ne heq] at hv
      exact h.shuffler v hv

namespace Control

variable {s : JobContext j} {w : Fin j.numOfThreads}

/-- While worker 0 is between the barriers, everybody else rests. -/
theorem resting_of_zero (h : s.Control) (hpassed : (s.threads j.threadZero).pc.passed = 1)
    (harrived : (s.threads j.threadZero).pc.arrivals = 1) (hw : w ≠ j.threadZero) :
    (s.threads w).pc.isResting = true := by
  apply Pc.isResting_of_between
  · exact harrived ▸ h.barrier w j.threadZero
  · exact hpassed ▸ h.barrier j.threadZero w
  · exact Bool.eq_false_iff.mpr fun hsh => hw (h.shuffler w hsh)

end Control

end JobContext

end MapReduce
