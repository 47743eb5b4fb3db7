import Mathlib.Data.Rat.Cast.Order
import Mathlib.Algebra.Order.Field.Basic
import Mathlib.Tactic.Linarith
import Mathlib.Tactic.Positivity
import HujiOS.MapReduce.Progress
import HujiOS.MapReduce.Termination

/-!
# The reported percentage

`getJobState` divides the count by the total of the stage.  The total is the
placeholder 1 before the map phase, then the size of the input, then the number
of pairs that `map` has emitted.  Nothing keeps the last two from being zero.

The quotient is taken as an exact rational, and is missing where the code divides
by zero.
-/

namespace MapReduce

open Runs

universe u

variable {K1 V1 K2 V2 K3 V3 : Type u} {j : Job K1 V1 K2 V2 K3 V3}

namespace JobState

/-- The percentage of a count out of `totalItems`. -/
def percentage (p : JobState) (totalItems : Nat) : Option ℚ :=
  if totalItems = 0 then none else some (100 * p.numOfProcessed / totalItems)

variable {p : JobState} {totalItems : Nat}

/-- Out of a total of zero there is no percentage. -/
theorem percentage_zero : p.percentage 0 = none := if_pos rfl

/-- Out of another total it is the quotient. -/
theorem percentage_of_pos (h : 0 < totalItems) :
    p.percentage totalItems = some (100 * (p.numOfProcessed : ℚ) / totalItems) :=
  if_neg (Nat.pos_iff_ne_zero.mp h)

/-- A count within a total that is not zero has a percentage. -/
theorem percentage_within (h : 0 < totalItems) (hle : p.numOfProcessed ≤ totalItems) :
    ∃ q, p.percentage totalItems = some q ∧ 0 ≤ q ∧ q ≤ 100 := by
  have hpos : (0 : ℚ) < totalItems := Nat.cast_pos.mpr h
  have hcount : (p.numOfProcessed : ℚ) ≤ totalItems := Nat.cast_le.mpr hle
  refine ⟨_, percentage_of_pos h, ?_, ?_⟩
  · positivity
  · rw [div_le_iff₀ hpos]
    linarith

/-- A hundred percent means that everything is processed, and that there was
something to process. -/
theorem percentage_eq_hundred :
    p.percentage totalItems = some 100 ↔ 0 < totalItems ∧ p.numOfProcessed = totalItems := by
  rcases Nat.eq_zero_or_pos totalItems with rfl | h
  · simp [percentage_zero]
  · have hne : (totalItems : ℚ) ≠ 0 := Nat.cast_ne_zero.mpr (Nat.pos_iff_ne_zero.mp h)
    rw [percentage_of_pos h, Option.some.injEq, div_eq_iff hne]
    constructor
    · intro heq
      have hcast : (p.numOfProcessed : ℚ) = totalItems := by linarith
      exact ⟨h, Nat.cast_injective hcast⟩
    · intro hfull
      rw [hfull.2]

end JobState

namespace JobContext

/-- The percentage that a call of `getJobState` reports. -/
def percentage (s : JobContext j) : Option ℚ :=
  let currJobState := s.getJobState
  currJobState.percentage (s.getTotalItemsOfCurrPhase currJobState)

/-- A client may rely on the percentage: it is always there and in range, and
polling for the end of the reduce stage ends with the job. -/
structure PercentageReliable (j : Job K1 V1 K2 V2 K3 V3) : Prop where
  defined : ∀ s : JobContext j, s.Reachable → ∃ q, s.percentage = some q ∧ 0 ≤ q ∧ q ≤ 100
  complete : ∀ s : JobContext j, s.Reachable → s.Finished →
    s.getJobState.stage = .reduce ∧ s.percentage = some 100

/-- A job that emits has input. -/
theorem input_nonempty_of_emitted (h : 0 < j.emitted.length) : 0 < j.numOfInputElems := by
  by_contra hempty
  have hnil : j.inputVec = [] := List.eq_nil_of_length_eq_zero (Nat.le_zero.mp (not_lt.mp hempty))
  simp [Job.emitted, hnil] at h

/-- In a job that emits, no stage has a total of zero. -/
theorem totalItems_pos (h : 0 < j.emitted.length) {stage : Stage} (hstage : stage ≠ .undefined) :
    0 < j.totalItems stage := by
  cases stage with
  | undefined => exact absurd rfl hstage
  | map => exact input_nonempty_of_emitted h
  | shuffle | reduce => exact h

/-- What is reported is at most the total, and the total is not zero. -/
theorem Inv.percentage_within {s : JobContext j} (h : s.Inv) (hemit : 0 < j.emitted.length) :
    ∃ q, s.percentage = some q ∧ 0 ≤ q ∧ q ≤ 100 := by
  obtain ⟨p, hs⟩ := h.shows
  have hread : s.getJobState.numOfProcessed ≤ j.totalItems s.getJobState.stage := by
    rw [hs.getJobState_eq]
    exact (Nat.mod_le _ _).trans hs.2
  by_cases hstage : s.getJobState.stage = .undefined
  · have htotal : s.getTotalItemsOfCurrPhase s.getJobState = 1 := by
      simp [getTotalItemsOfCurrPhase, hstage]
    rw [hstage] at hread
    refine JobState.percentage_within (htotal ▸ Nat.one_pos) ?_
    rw [htotal]
    exact Nat.le_succ_of_le hread
  · have htotal := h.getTotalItems hstage
    apply JobState.percentage_within
    · rw [htotal]
      exact totalItems_pos hemit hstage
    · rw [htotal]
      exact hread

/-- The percentage of a finished job. -/
theorem Inv.percentage_finished {s : JobContext j} (h : s.Inv) (hfin : s.Finished) :
    s.getJobState.stage = .reduce ∧ s.percentage =
      JobState.percentage ⟨.reduce, j.emitted.length % 2 ^ 32⟩ j.emitted.length := by
  have hread := (h.shows_finished hfin).getJobState_eq
  have htotal := h.getTotalItems (by rw [hread]; simp)
  refine ⟨by rw [hread], ?_⟩
  show s.getJobState.percentage (s.getTotalItemsOfCurrPhase s.getJobState) = _
  rw [htotal, hread]
  rfl

/-- **When the percentage is reliable.**  For every job, every interleaving and
every call of `getJobState`: exactly if `map` emits something, and no more than
the 32 bits of the count hold. -/
theorem percentage_reliable_iff (j : Job K1 V1 K2 V2 K3 V3) :
    PercentageReliable j ↔ 0 < j.emitted.length ∧ j.emitted.length < 2 ^ 32 := by
  constructor
  · intro h
    obtain ⟨s, hs, _, hfin⟩ := Reachable.reaches_finished (s := initial j) ⟨[], rfl⟩
    obtain ⟨_, hhundred⟩ := h.complete s hs hfin
    rw [(hs.inv.percentage_finished hfin).2, JobState.percentage_eq_hundred] at hhundred
    obtain ⟨hpos, hcount⟩ := hhundred
    refine ⟨hpos, ?_⟩
    rw [← hcount]
    exact Nat.mod_lt _ (Nat.two_pow_pos 32)
  · intro ⟨hpos, hlt⟩
    refine ⟨fun s hs => hs.inv.percentage_within hpos, fun s hs hfin => ?_⟩
    obtain ⟨hstage, hpercentage⟩ := hs.inv.percentage_finished hfin
    refine ⟨hstage, ?_⟩
    rw [hpercentage, JobState.percentage_eq_hundred]
    exact ⟨hpos, Nat.mod_eq_of_lt hlt⟩

/-- The job of `countValues` on no input at all. -/
def countNothing : Job Nat Nat Nat Nat Nat Nat := { countValues with inputVec := [] }

/-- The two workers take turns, each going as far as it can. -/
def nothingSchedule : List (Action countNothing) :=
  let first : Fin 2 := ⟨0, Nat.two_pos⟩
  let second : Fin 2 := ⟨1, Nat.one_lt_two⟩
  let blocks := [(first, 4), (second, 6), (first, 16), (second, 4)]
  blocks.flatMap fun block => List.replicate block.2 (.worker block.1)

/-- Under this schedule a job that emits nothing finishes with a total of
zero. -/
theorem nothingSchedule_finishes :
    ((run next (initial countNothing) nothingSchedule).any fun s =>
      decide (s.Finished ∧ s.getTotalItemsOfCurrPhase s.getJobState = 0)) = true := rfl

/-- When it has finished, a call of `getJobState` divides zero by zero. -/
theorem countNothing_percentage :
    ∃ s : JobContext countNothing, run next (initial countNothing) nothingSchedule = some s ∧
      s.Finished ∧ s.percentage = none ∧ ¬ PercentageReliable countNothing := by
  obtain ⟨s, hrun, hs⟩ := (Option.any_eq_true _ _).mp nothingSchedule_finishes
  obtain ⟨hfin, htotal⟩ := of_decide_eq_true hs
  have hnone : s.percentage = none := if_pos htotal
  refine ⟨s, hrun, hfin, hnone, fun hreliable => ?_⟩
  obtain ⟨_, hsome, _⟩ := hreliable.defined s ⟨nothingSchedule, hrun⟩
  rw [hnone] at hsome
  cases hsome

end JobContext

end MapReduce
