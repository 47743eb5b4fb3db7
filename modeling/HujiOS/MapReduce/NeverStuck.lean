import HujiOS.MapReduce.Locks

/-!
# The job cannot get stuck

Whoever holds a mutex can take its next step: inside a section nothing blocks,
and the shuffle, which holds `pthreadCreateMutex_` longest, only ever waits for
`jobStateMutex_`.  With all mutexes free a worker is blocked only in a wait, and
not everybody waits: a worker that does not and cannot move has finished, after
two barriers, so nobody waits in a third.
-/

namespace MapReduce

open Grouping Runs Pool

universe u

variable {K1 V1 K2 V2 K3 V3 : Type u} {j : Job K1 V1 K2 V2 K3 V3}

namespace JobContext

/-- Outside the barrier calls a worker that has not finished has a next step. -/
theorem exists_step {s : JobContext j} {w : Fin j.numOfThreads}
    (hkind : (s.threads w).pc.kind ≠ .barrierCall)
    (hfin : (s.threads w).pc.isFinished = false) : ∃ t, s.step w = some t := by
  unfold step
  cases hpc : (s.threads w).pc with
  | firstWait | secondWait => simp [hpc, Pc.kind] at hkind
  | finished => simp [hpc, Pc.isFinished] at hfin
  | mapping pairs => cases pairs <;> exact ⟨_, rfl⟩
  | shuffleCopy interVecs =>
      dsimp only
      split <;> exact ⟨_, rfl⟩
  | shuffleMaxKey interVecs =>
      dsimp only
      split <;> exact ⟨_, rfl⟩
  | shuffleDrain currMaxKey newVec visited todo =>
      cases todo with
      | nil => exact ⟨_, rfl⟩
      | cons v todo =>
          dsimp only
          split
          · split <;> exact ⟨_, rfl⟩
          · exact ⟨_, rfl⟩
  | reducing shuffleQueue ix outs => cases outs <;> exact ⟨_, rfl⟩
  | _ => exact ⟨_, rfl⟩

/-- A worker about to call the barrier can count itself in. -/
theorem exists_step_of_isCalling {s : JobContext j} {w : Fin j.numOfThreads}
    (h : (s.threads w).pc.isCalling = true) : ∃ t, s.step w = some t := by
  unfold step
  cases hpc : (s.threads w).pc with
  | firstBarrier | secondBarrier => exact ⟨_, rfl⟩
  | _ => simp [hpc, Pc.isCalling] at h

end JobContext

namespace Pc

variable {pc : Pc j}

/-- A worker that waits in its own view is inside a call in the barrier's. -/
theorem Fits.inside_eq {b : BarrierPc} (h : pc.Fits b) :
    Barrier.inside b = if pc.isWaiting = true then 1 else 0 := by
  cases b with
  | outside => rw [show pc.isWaiting = false from h]; rfl
  | locked => cases pc <;> simp_all [Fits, isCalling, isWaiting, Barrier.inside]
  | waiting | woken | leaving => rw [show pc.isWaiting = true from h]; rfl

/-- A worker that has returned needs nobody. -/
theorem isFinished_of_kind (h : pc.kind ≠ .alone) : pc.isFinished = false := by
  cases pc <;> simp_all [kind, isFinished]

/-- A worker that is about to lock `pthreadCreateMutex_` does not hold it. -/
theorem holdsCreate_of_lockCreate (h : pc.kind = .lockCreate) : pc.holdsCreate = false := by
  cases pc <;> simp_all [kind, holdsCreate]

/-- No worker returns with `pthreadCreateMutex_` held. -/
theorem not_finished_of_holdsCreate (h : pc.holdsCreate = true) : pc.isFinished = false := by
  cases pc <;> simp_all [holdsCreate, isFinished]

/-- A worker that has returned has returned from both barrier calls. -/
theorem passed_of_isFinished (h : pc.isFinished = true) : pc.passed = 2 := by
  cases pc <;> simp_all [isFinished, passed]

/-- A worker that has returned has arrived at both barrier calls. -/
theorem arrivals_of_isFinished (h : pc.isFinished = true) : pc.arrivals = 2 := by
  cases pc <;> simp_all [isFinished, arrivals]

/-- A worker returns from at most two barrier calls. -/
theorem passed_le_two (pc : Pc j) : pc.passed ≤ 2 :=
  pc.passed_le_arrivals.trans pc.arrivals_le_two

end Pc

namespace LockedJob

namespace Inv

variable {s : LockedJob j} {w : Fin j.numOfThreads}

/-- A worker that can take a step of the barrier can take its own. -/
theorem exists_callBarrier (h : s.Inv) {barrier : Barrier j.numOfThreads}
    (hstep : s.threadsBarrier.step w = some barrier) : ∃ t, s.callBarrier w = some t := by
  unfold LockedJob.callBarrier
  rw [hstep, Option.bind_some]
  have hfit := h.fits w
  cases hpc : s.threadsBarrier.pcs w with
  | locked =>
      rw [hpc] at hfit
      obtain ⟨job, hjob⟩ := JobContext.exists_step_of_isCalling hfit
      exact ⟨_, by rw [hjob]; rfl⟩
  | _ => exact ⟨_, rfl⟩

/-- The owner of a section can run it. -/
theorem exists_step_of_section (h : s.Inv) {m : SectionMutex} (hm : s.sections m = some w) :
    ∃ t, s.stepWorker w = some t := by
  have hkind := h.sections m w hm
  obtain ⟨job, hjob⟩ := JobContext.exists_step (s := s.job) (w := w) (by simp [hkind])
    (Pc.isFinished_of_kind (by simp [hkind]))
  unfold LockedJob.stepWorker LockedJob.stepSection
  simp only [hkind, hm, if_true, hjob]
  exact ⟨_, rfl⟩

/-- The owner of the barrier's mutex can count itself in or unlock. -/
theorem exists_step_of_barrier (h : s.Inv) (hm : s.threadsBarrier.mutex = some w) :
    ∃ t, s.stepWorker w = some t := by
  obtain ⟨r, hr⟩ := h.round
  have hfit := h.fits w
  have hkind : (s.job.threads w).pc.kind = .barrierCall ∧
      ∃ barrier, s.threadsBarrier.step w = some barrier := by
    unfold Barrier.step
    rcases (hr.owner w).mpr hm with hpc | hpc
    · rw [hpc] at hfit ⊢
      exact ⟨Pc.kind_of_isCalling hfit, _, rfl⟩
    · rw [hpc] at hfit ⊢
      exact ⟨Pc.kind_of_isWaiting hfit, _, rfl⟩
  obtain ⟨hkind, barrier, hstep⟩ := hkind
  unfold LockedJob.stepWorker
  rw [hkind]
  exact h.exists_callBarrier hstep

/-- With every mutex free, or the create mutex its own, a worker that does not
wait and has not finished can move. -/
theorem exists_step_of_free (h : s.Inv) (hcreator : s.creator = .returned)
    (hsections : ∀ m, s.sections m = none) (hmutex : s.threadsBarrier.mutex = none)
    (hcreate : s.pthreadCreateMutex = none ∨ s.pthreadCreateMutex = some (.worker w))
    (hfin : (s.job.threads w).pc.isFinished = false)
    (hwait : s.threadsBarrier.pcs w ≠ .waiting) : ∃ t, s.stepWorker w = some t := by
  obtain ⟨r, hr⟩ := h.round
  have hnone : ¬ (s.threadsBarrier.pcs w = .locked ∨ s.threadsBarrier.pcs w = .leaving) := by
    rw [hr.owner w, hmutex]
    exact fun heq => by cases heq
  have hjob : (s.job.threads w).pc.kind ≠ .barrierCall → ∃ job, s.job.step w = some job :=
    fun hkind => JobContext.exists_step hkind hfin
  unfold LockedJob.stepWorker
  cases hkind : (s.job.threads w).pc.kind with
  | barrierCall =>
      have hlock : ∀ pc, ∃ barrier, s.threadsBarrier.lock w pc = some barrier := fun pc =>
        ⟨_, if_pos hmutex⟩
      have hstep : ∃ barrier, s.threadsBarrier.step w = some barrier := by
        unfold Barrier.step
        cases hpc : s.threadsBarrier.pcs w with
        | outside => exact hlock .locked
        | woken => exact hlock .leaving
        | waiting => exact absurd hpc hwait
        | locked => exact absurd (Or.inl hpc) hnone
        | leaving => exact absurd (Or.inr hpc) hnone
      obtain ⟨barrier, hstep⟩ := hstep
      exact h.exists_callBarrier hstep
  | lockCreate =>
      have hfree : s.pthreadCreateMutex = none := by
        rcases hcreate with hfree | hmine
        · exact hfree
        · have hholds := (h.holder w).mp hmine
          simp [Pc.holdsCreate_of_lockCreate hkind] at hholds
      obtain ⟨job, hjob⟩ := hjob (by simp [hkind])
      simp only [hfree, if_true, hjob]
      exact ⟨_, rfl⟩
  | unlockCreate =>
      obtain ⟨job, hjob⟩ := hjob (by simp [hkind])
      simp only [hjob]
      exact ⟨_, rfl⟩
  | readContext i =>
      obtain ⟨job, hjob⟩ := hjob (by simp [hkind])
      have hassigned : i < s.creator.assigned j.numOfThreads ∨ j.numOfThreads ≤ i := by
        rw [hcreator]
        exact Nat.lt_or_ge i j.numOfThreads
      simp only [hassigned, if_true, hjob]
      exact ⟨_, rfl⟩
  | inSection m =>
      unfold LockedJob.stepSection
      simp only [hsections m]
      exact ⟨_, rfl⟩
  | alone =>
      obtain ⟨job, hjob⟩ := hjob (by simp [hkind])
      simp only [hjob]
      exact ⟨_, rfl⟩

/-- The constructing thread can move until it returns. -/
theorem exists_step_of_creator (h : s.Inv) (hcreator : s.creator ≠ .returned) :
    ∃ t, s.stepCreator = some t := by
  unfold LockedJob.stepCreator
  cases hc : s.creator with
  | lock =>
      have hfree : s.pthreadCreateMutex = none := by
        cases hm : s.pthreadCreateMutex with
        | none => rfl
        | some owner =>
            cases owner with
            | creator =>
                have hlocked := h.creating.mp hm
                simp [hc, CreatorPc.isLocked] at hlocked
            | worker v =>
                have hholds := (h.holder v).mp hm
                have hstart := h.unstarted v (by rw [hc]; exact Nat.zero_le _)
                simp [hstart, Pc.holdsCreate] at hholds
      exact ⟨_, if_pos hfree⟩
  | create i => exact ⟨_, rfl⟩
  | assign i => exact ⟨_, rfl⟩
  | unlock => exact ⟨_, rfl⟩
  | returned => exact absurd hc hcreator

/-- Somebody who has not finished does not wait. -/
theorem exists_not_waiting (h : s.Inv) (hfin : ¬ s.job.Finished) :
    ∃ w, (s.job.threads w).pc.isFinished = false ∧ s.threadsBarrier.pcs w ≠ .waiting := by
  obtain ⟨r, hr⟩ := h.round
  obtain ⟨v, hv⟩ := hr.exists_not_waiting
  by_contra hall
  push Not at hall
  have hvfin : (s.job.threads v).pc.isFinished = true := by
    by_contra hno
    exact hv (hall v (by simpa using hno))
  obtain ⟨w, hw⟩ := not_forall.mp hfin
  have hwait := hall w (by simpa using hw)
  -- the finished one has arrived twice, so the waiting one three times
  have hahead := hr.arrivals_of_waiting hwait hv
  have htwo := (s.job.threads w).pc.arrivals_le_two
  rw [h.arrivals, h.arrivals, Pc.arrivals_of_isFinished hvfin] at hahead
  omega

/-- Somebody can move. -/
theorem exists_next (h : s.Inv) (hfin : ¬ s.job.Finished) : ∃ a t, s.next a = some t := by
  by_cases hcreator : s.creator = .returned
  case neg =>
      obtain ⟨t, ht⟩ := h.exists_step_of_creator hcreator
      exact ⟨.creator, t, ht⟩
  case pos =>
      have hworker : ∀ {w}, (∃ t, s.stepWorker w = some t) → ∃ a t, s.next a = some t := by
        rintro w ⟨t, ht⟩
        refine ⟨.worker w, t, ?_⟩
        unfold LockedJob.next
        rw [hcreator]
        exact (if_pos w.isLt).trans ht
      by_cases hsections : ∃ m v, s.sections m = some v
      · obtain ⟨m, v, hm⟩ := hsections
        exact hworker (h.exists_step_of_section hm)
      have hfree : ∀ m, s.sections m = none := fun m =>
        Option.eq_none_iff_forall_ne_some.mpr fun v hm => hsections ⟨m, v, hm⟩
      cases hmutex : s.threadsBarrier.mutex with
      | some v => exact hworker (h.exists_step_of_barrier hmutex)
      | none =>
          cases hcreate : s.pthreadCreateMutex with
          | none =>
              obtain ⟨w, hw, hwait⟩ := h.exists_not_waiting hfin
              exact hworker
                (h.exists_step_of_free hcreator hfree hmutex (Or.inl hcreate) hw hwait)
          | some owner =>
              cases owner with
              | creator =>
                  have hlocked := h.creating.mp hcreate
                  simp [hcreator, CreatorPc.isLocked] at hlocked
              | worker v =>
                  have hholds := (h.holder v).mp hcreate
                  have hnotwait : s.threadsBarrier.pcs v ≠ .waiting := by
                    intro hpc
                    have hfit := h.fits v
                    rw [hpc] at hfit
                    have hkind := Pc.kind_of_isWaiting hfit
                    simp [Pc.holdsCreate_of_barrierCall hkind] at hholds
                  exact hworker (h.exists_step_of_free hcreator hfree hmutex (Or.inr hcreate)
                    (Pc.not_finished_of_holdsCreate hholds) hnotwait)

/-- A worker has returned from the barrier as often as it has passed it. -/
theorem returns_eq (h : s.Inv) (w : Fin j.numOfThreads) :
    s.threadsBarrier.returns w = (s.job.threads w).pc.passed := by
  obtain ⟨r, hr⟩ := h.round
  have hreturns := hr.returns w
  rw [h.arrivals w, Pc.arrivals_eq, (h.fits w).inside_eq] at hreturns
  exact (Nat.add_right_cancel hreturns).symm

end Inv

/-- **The job cannot get stuck.**  In every reachable state all workers have
finished or somebody has a step; no worker passes a third barrier, and one that
has finished has passed two. -/
theorem never_stuck {s : LockedJob j} (h : s.Reachable) :
    (s.job.Finished ∨ ∃ a t, s.next a = some t) ∧
      ∀ w, s.threadsBarrier.returns w ≤ 2 ∧
        ((s.job.threads w).pc.isFinished = true → s.threadsBarrier.returns w = 2) := by
  refine ⟨?_, fun w => ?_⟩
  · by_cases hfin : s.job.Finished
    · exact Or.inl hfin
    · exact Or.inr (h.inv.exists_next hfin)
  · rw [h.inv.returns_eq w]
    exact ⟨Pc.passed_le_two _, Pc.passed_of_isFinished⟩

/-- The constructor first, then blocks of steps of one worker. -/
def countActors : List (Actor countValues) :=
  let first : Fin 2 := ⟨0, Nat.two_pos⟩
  let second : Fin 2 := ⟨1, Nat.one_lt_two⟩
  let blocks := [(first, 21), (second, 9), (first, 50), (second, 6)]
  List.replicate 7 .creator ++ blocks.flatMap fun block => List.replicate block.2 (.worker block.1)

/-- Under this schedule `countValues` finishes, locks included. -/
theorem countActors_finishes :
    ((run next (initial countValues) countActors).any fun s => decide s.job.Finished) = true := rfl

/-- The end of that schedule, where every worker has returned twice. -/
theorem never_stuck_countValues :
    ∃ s : LockedJob countValues, s.job.Finished ∧ ∀ w, s.threadsBarrier.returns w = 2 := by
  obtain ⟨s, hrun, hs⟩ := (Option.any_eq_true _ _).mp countActors_finishes
  have hfin : s.job.Finished := of_decide_eq_true hs
  have hstuck := never_stuck (s := s) ⟨countActors, hrun⟩
  exact ⟨s, hfin, fun w => (hstuck.2 w).2 (hfin w)⟩

end LockedJob

end MapReduce
