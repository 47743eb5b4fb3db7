import HujiOS.MapReduce.JobHandle
import HujiOS.MapReduce.Termination

/-!
# Waiting for the job and closing its handle

`waitForJob` joins every worker once, `closeJobHandle` deletes the job after
that.  Both return, in whatever order the workers and the client take their
steps: every step lowers a measure, and until the client is back from its call
somebody has a step.
-/

namespace MapReduce

open Grouping Runs Pool

universe u

variable {K1 V1 K2 V2 K3 V3 : Type u} {j : Job K1 V1 K2 V2 K3 V3}

/-! ## Joining and deleting -/

namespace LockedJob

/-- Nothing holds a mutex or is inside the barrier: what the destructors need. -/
structure Quiet (s : LockedJob j) : Prop where
  constructed : s.creator = .returned
  createMutex : s.pthreadCreateMutex = none
  sections : ∀ m, s.sections m = none
  barrierMutex : s.threadsBarrier.mutex = none
  outside : ∀ v, s.threadsBarrier.pcs v = .outside

/-- Once all workers have returned and the constructor too, nobody holds a
mutex or is inside the barrier. -/
theorem Inv.quiet {s : LockedJob j} (h : s.Inv) (hfin : s.job.Finished)
    (hcreator : s.creator = .returned) : s.Quiet := by
  have hkind : ∀ v, (s.job.threads v).pc.kind = .alone := by
    intro v
    by_contra hne
    have hfinv := hfin v
    rw [Pc.isFinished_of_kind hne] at hfinv
    cases hfinv
  have houtside : ∀ v, s.threadsBarrier.pcs v = .outside := fun v =>
    (h.fits v).outside (by simp [hkind v])
  refine ⟨hcreator, ?_, ?_, ?_, houtside⟩
  · cases hm : s.pthreadCreateMutex with
    | none => rfl
    | some owner =>
        cases owner with
        | creator =>
            have hlocked := h.creating.mp hm
            simp [hcreator, CreatorPc.isLocked] at hlocked
        | worker v =>
            have hunfinished := Pc.not_finished_of_holdsCreate ((h.holder v).mp hm)
            exact absurd (hfin v) (by simp [hunfinished])
  · intro m
    refine Option.eq_none_iff_forall_ne_some.mpr fun v hm => ?_
    have hsection := h.sections m v hm
    simp [hkind v] at hsection
  · obtain ⟨r, hr⟩ := h.round
    refine Option.eq_none_iff_forall_ne_some.mpr fun v hm => ?_
    have hpcs := (hr.owner v).mpr hm
    simp [houtside v] at hpcs

/-- Everybody has finished: nobody has a step. -/
theorem Quiet.next_eq_none {s : LockedJob j} (h : s.Quiet) (hfin : s.job.Finished) (a : Actor j) :
    s.next a = none := by
  cases a with
  | creator => simp [next, stepCreator, h.constructed]
  | worker w =>
      have hpc : (s.job.threads w).pc = .finished := by
        have hfinw := hfin w
        revert hfinw
        cases (s.job.threads w).pc <;> simp [Pc.isFinished]
      simp [next, stepWorker, hpc, Pc.kind, JobContext.step]

end LockedJob

namespace JobHandle

/-- Where `areThreadsJoined_` is set, every worker is joined. -/
theorem Inv.joinedUpTo_of_joined {s : JobHandle j} (h : s.Inv)
    (hjoined : s.areThreadsJoined = true) : s.joinedUpTo = j.numOfThreads := by
  unfold joinedUpTo
  cases hclient : s.client with
  | joining closing i => simp [(h.joining closing i hclient).2] at hjoined
  | _ => simp [hjoined]

/-- Where `areThreadsJoined_` is set, every worker has returned. -/
theorem Inv.finished_of_joined {s : JobHandle j} (h : s.Inv) (hjoined : s.areThreadsJoined = true) :
    s.locked.job.Finished :=
  fun v => h.finished v (by rw [h.joinedUpTo_of_joined hjoined]; exact v.isLt)

/-- Once the handle is closed nothing of the job is in use and nobody has a step. -/
theorem Inv.quiet {s : JobHandle j} (h : s.Inv)
    (hclient : s.client = .deleting ∨ s.client = .closed) :
    s.locked.Quiet ∧ ∀ a, s.locked.next a = none := by
  have hjoined := h.joined hclient
  have hfin := h.finished_of_joined hjoined
  have hquiet := h.locked.inv.quiet hfin (h.returned (Or.inr hjoined))
  exact ⟨hquiet, hquiet.next_eq_none hfin⟩

end JobHandle

/-! ## The calls return -/

/-- Steps of the constructor that are still to come. -/
def CreatorPc.stepsLeft (n : Nat) : CreatorPc → Nat
  | lock => 2 * n + 3
  | create i => 2 * (n - i) + 2
  | assign i => 2 * (n - (i + 1)) + 3
  | unlock => 1
  | returned => 0

/-- A lock that a thread takes before it moves in the job. -/
def BarrierPc.locksLeft : BarrierPc → Nat
  | outside | woken => 1
  | locked | waiting | leaving => 0

namespace LockedJob

variable {s t : LockedJob j} {w : Fin j.numOfThreads}

/-- Steps that can come before the next step of the job. -/
def locksLeft (s : LockedJob j) : Nat :=
  s.creator.stepsLeft j.numOfThreads + total BarrierPc.locksLeft s.threadsBarrier.pcs +
    (if s.sections .jobState = none then 1 else 0) +
    if s.sections .outputVec = none then 1 else 0

/-- The work of the job, then the locks. -/
def work (s : LockedJob j) : (Nat ×ₗ Nat) ×ₗ Nat := toLex (s.job.work, s.locksLeft)

/-- A step that leaves the job alone and takes a lock is progress. -/
theorem work_lt_of_locks (hjob : t.job = s.job) (hlocks : t.locksLeft < s.locksLeft) :
    t.work < s.work :=
  Prod.Lex.toLex_lt_toLex.mpr (Or.inr ⟨by rw [hjob], hlocks⟩)

/-- Every step of the constructor is progress. -/
theorem stepCreator_work_lt (hstep : s.stepCreator = some t) : t.work < s.work := by
  refine work_lt_of_locks (stepCreator_frame hstep).1 ?_
  unfold stepCreator at hstep
  unfold locksLeft
  cases hc : s.creator with
  | lock =>
      simp only [hc, Option.ite_none_right_eq_some, Option.some.injEq] at hstep
      obtain ⟨_, rfl⟩ := hstep
      simp only [CreatorPc.stepsLeft]
      omega
  | create i =>
      simp only [hc, Option.some.injEq] at hstep
      subst hstep
      by_cases hi : i < j.numOfThreads
      · simp only [if_pos hi, CreatorPc.stepsLeft]
        omega
      · simp only [if_neg hi, CreatorPc.stepsLeft]
        omega
  | assign i =>
      simp only [hc, Option.some.injEq] at hstep
      subst hstep
      simp only [CreatorPc.stepsLeft]
      omega
  | unlock =>
      simp only [hc, Option.some.injEq] at hstep
      subst hstep
      simp only [CreatorPc.stepsLeft]
      omega
  | returned => simp [hc] at hstep

/-- Every step of a worker is progress. -/
theorem WorkerMove.work_lt (h : WorkerMove s w t) (hinv : s.job.Inv) : t.work < s.work := by
  cases h with
  | inJob hjob =>
      exact Prod.Lex.toLex_lt_toLex.mpr (Or.inl (hinv.work_lt (JobContext.step_transition hjob)))
  | lockBarrier hlock hpc =>
      refine work_lt_of_locks rfl ?_
      obtain ⟨hpcs, _⟩ := Barrier.lock_eq_some hlock
      obtain ⟨others, hold, hnew⟩ := total_split BarrierPc.locksLeft s.threadsBarrier.pcs w
      unfold locksLeft
      simp only [hpcs, hold, hnew]
      rcases hpc with ⟨hbefore, rfl⟩ | ⟨hbefore, rfl⟩
      · simp only [hbefore, BarrierPc.locksLeft]
        omega
      · simp only [hbefore, BarrierPc.locksLeft]
        omega
  | @lockSection m hkind hfree =>
      refine work_lt_of_locks rfl ?_
      unfold locksLeft
      cases m with
      | jobState => simp [hfree]
      | outputVec => simp [hfree]

/-- Every step of the job's threads is progress. -/
theorem next_work_lt (h : s.Reachable) {a : Actor j} (hnext : s.next a = some t) :
    t.work < s.work := by
  cases a with
  | creator => exact stepCreator_work_lt hnext
  | worker w =>
      obtain ⟨hstarted, hstep⟩ := Option.ite_none_right_eq_some.mp hnext
      exact (h.inv.stepWorker_move hstarted hstep).work_lt h.job.inv

end LockedJob

/-- Steps of the client in its call. -/
def ClientPc.stepsLeft (n : Nat) : ClientPc → Nat
  | idle | closed => 0
  | loadStage => n + 4
  | loadProcessed _ => n + 3
  | summing _ i _ => n - i + 2
  | reporting .. | deleting => 1
  | joining _ i => n - i + 2

/-- Whether the client begins a call, which only the client decides. -/
def HandleAction.isCall : HandleAction j → Bool
  | call _ => true
  | actor _ | client => false

namespace JobHandle

variable {s t : JobHandle j}

/-- The work of the threads, then the steps of the client in its call. -/
def work (s : JobHandle j) : ((Nat ×ₗ Nat) ×ₗ Nat) ×ₗ Nat :=
  toLex (s.locked.work, s.client.stepsLeft j.numOfThreads)

/-- A step of the client brings it nearer to the end of its call. -/
theorem stepClient_stepsLeft (hstep : s.stepClient = some t) :
    t.client.stepsLeft j.numOfThreads < s.client.stepsLeft j.numOfThreads := by
  unfold stepClient pthreadJoin at hstep
  cases hclient : s.client with
  | idle => simp [hclient] at hstep
  | closed => simp [hclient] at hstep
  | loadStage =>
      simp only [hclient, Option.some.injEq] at hstep
      simp [← hstep, ClientPc.stepsLeft]
  | loadProcessed stage =>
      simp only [hclient, Option.some.injEq] at hstep
      subst hstep
      cases stage <;> simp only [ClientPc.stepsLeft] <;> omega
  | summing currJobState i threadSize =>
      simp only [hclient] at hstep
      split at hstep
      · obtain rfl := Option.some.inj hstep
        simp only [ClientPc.stepsLeft]
        omega
      · obtain rfl := Option.some.inj hstep
        simp only [ClientPc.stepsLeft]
        omega
  | reporting currJobState totalItems =>
      simp only [hclient, Option.some.injEq] at hstep
      simp [← hstep, ClientPc.stepsLeft]
  | joining closing i =>
      simp only [hclient] at hstep
      split at hstep
      · obtain ⟨_, ht⟩ := Option.ite_none_right_eq_some.mp hstep
        obtain rfl := Option.some.inj ht
        simp only [ClientPc.stepsLeft]
        omega
      · obtain rfl := Option.some.inj hstep
        cases closing <;> simp [ClientPc.stepsLeft]
  | deleting =>
      simp only [hclient, Option.some.injEq] at hstep
      simp [← hstep, ClientPc.stepsLeft]

/-- A step of the client in its call is progress: it leaves the threads
alone. -/
theorem stepClient_work_lt (hstep : s.stepClient = some t) : t.work < s.work :=
  Prod.Lex.toLex_lt_toLex.mpr
    (Or.inr ⟨by rw [stepClient_locked hstep], stepClient_stepsLeft hstep⟩)

/-- Every step that begins no call is progress. -/
theorem next_work_lt (h : s.Inv) {a : HandleAction j} (hcall : a.isCall = false)
    (hnext : s.next a = some t) : t.work < s.work := by
  cases a with
  | call c => cases hcall
  | client => exact stepClient_work_lt hnext
  | actor a =>
      simp only [next, Option.ite_none_left_eq_some, Option.map_eq_some_iff] at hnext
      obtain ⟨_, locked, hlocked, rfl⟩ := hnext
      exact Prod.Lex.toLex_lt_toLex.mpr (Or.inl (LockedJob.next_work_lt h.locked hlocked))

/-- Where the job is not finished and the client does not hold `jobStateMutex_`,
some thread of the job has a step. -/
theorem Inv.exists_actor (h : s.Inv) (hholds : s.client.holdsJobState = false)
    (hfin : ¬ s.locked.job.Finished) : ∃ a t, s.next (.actor a) = some t := by
  obtain ⟨a, locked, hlocked⟩ := h.locked.inv.exists_next hfin
  have hfree : ¬ s.Blocked a := by
    cases a with
    | creator => exact id
    | worker w => exact fun hblocked => Bool.noConfusion (hholds.symm.trans hblocked.1)
  refine ⟨a, { s with locked := locked }, ?_⟩
  simp [JobHandle.next, hfree, hlocked]

/-- The client in `getJobState` never waits. -/
theorem exists_stepClient_of_holds (hholds : s.client.holdsJobState = true) :
    ∃ t, s.stepClient = some t := by
  unfold stepClient
  cases hclient : s.client with
  | summing currJobState i threadSize =>
      dsimp only
      split
      · exact ⟨_, rfl⟩
      · exact ⟨_, rfl⟩
  | loadStage => exact ⟨_, rfl⟩
  | loadProcessed stage => exact ⟨_, rfl⟩
  | reporting currJobState totalItems => exact ⟨_, rfl⟩
  | _ => simp [hclient, ClientPc.holdsJobState] at hholds

/-- Somebody has a step, or the client is back from its call and the job is
finished. -/
theorem Inv.exists_next (h : s.Inv) : (∃ a t, a.isCall = false ∧ s.next a = some t) ∨
    s.locked.job.Finished ∧ (s.client = .idle ∨ s.client = .closed) := by
  cases hholds : s.client.holdsJobState with
  | true =>
      obtain ⟨t, hstep⟩ := exists_stepClient_of_holds hholds
      exact Or.inl ⟨.client, t, rfl, hstep⟩
  | false =>
      by_cases hfin : s.locked.job.Finished
      case neg =>
          obtain ⟨a, t, hnext⟩ := h.exists_actor hholds hfin
          exact Or.inl ⟨.actor a, t, rfl, hnext⟩
      case pos =>
          cases hclient : s.client with
          | idle => exact Or.inr ⟨hfin, Or.inl rfl⟩
          | closed => exact Or.inr ⟨hfin, Or.inr rfl⟩
          | deleting =>
              refine Or.inl ⟨.client, { s with client := .closed }, rfl, ?_⟩
              simp only [JobHandle.next, stepClient, hclient]
          | joining closing i =>
              refine Or.inl ⟨.client, ?_⟩
              simp only [JobHandle.next, stepClient, hclient, pthreadJoin]
              split
              · exact ⟨_, rfl, if_pos (hfin _)⟩
              · exact ⟨_, rfl, rfl⟩
          | _ => simp [hclient, ClientPc.holdsJobState] at hholds

/-- **Every call returns.**  Between two calls of the client only finitely many
steps are possible, in any order; and where none is left the job is finished and
the client is back, also from `waitForJob` and `closeJobHandle`. -/
theorem calls_return {s : JobHandle j} (h : s.Reachable) :
    (∀ states : Nat → JobHandle j, states 0 = s →
      ¬ ∀ i, ∃ a, a.isCall = false ∧ (states i).next a = some (states (i + 1))) ∧
      ((∃ a t, a.isCall = false ∧ s.next a = some t) ∨
        s.locked.job.Finished ∧ (s.client = .idle ∨ s.client = .closed)) := by
  refine ⟨fun states hzero hsteps => ?_, h.inv.exists_next⟩
  have hinv : ∀ i, (states i).Inv := by
    intro i
    induction i with
    | zero => exact hzero ▸ h.inv
    | succ i ih =>
        obtain ⟨a, _, hnext⟩ := hsteps i
        exact ih.next hnext
  obtain ⟨i, hi⟩ := WellFounded.not_rel_apply_succ (r := (· < ·)) fun i => (states i).work
  obtain ⟨a, hcall, hnext⟩ := hsteps i
  exact hi (next_work_lt (hinv i) hcall hnext)

/-- A client that has started to wait. -/
theorem calls_return_countValues :
    ∃ s : JobHandle countValues, s.client = .joining false 0 ∧
      ∃ a t, a.isCall = false ∧ s.next a = some t := by
  have hwaits : ((run next (initial countValues)
      (List.replicate 7 (.actor .creator) ++ [.call .waitForJob])).any fun s =>
        decide (s.client = .joining false 0)) = true := rfl
  obtain ⟨s, hrun, hs⟩ := (Option.any_eq_true _ _).mp hwaits
  have hclient : s.client = .joining false 0 := of_decide_eq_true hs
  refine ⟨s, hclient, (calls_return ⟨_, hrun⟩).2.resolve_right ?_⟩
  intro hback
  rcases hback.2 with hidle | hclosed
  · simp [hclient] at hidle
  · simp [hclient] at hclosed

end JobHandle

end MapReduce
