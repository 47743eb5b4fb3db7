import HujiOS.MapReduce.JobHandle

/-!
# What the client is told

A call of `getJobState` is many steps, between which the workers run.  It holds
`jobStateMutex_`, so the word does not change under it, and it reads the vectors
only in the stages in which no worker touches its own any more.
-/

namespace MapReduce

open Grouping Runs

universe u

variable {K1 V1 K2 V2 K3 V3 : Type u} {j : Job K1 V1 K2 V2 K3 V3}

namespace JobHandle

/-- What a call of `getJobState` returns: the state, and the total of which the
percentage is taken. -/
def reports (s : JobHandle j) (a : HandleAction j) (_ : JobHandle j) : List (JobState × Nat) :=
  match a, s.client with
  | .client, .reporting currJobState totalItems => [(currJobState, totalItems)]
  | _, _ => []

end JobHandle

/-- The same where the call is one step. -/
def JobContext.reports (s : JobContext j) (a : Action j) (_ : JobContext j) :
    List (JobState × Nat) :=
  match a with
  | .getJobState => [(s.getJobState, s.getTotalItemsOfCurrPhase s.getJobState)]
  | .worker _ => []

namespace JobHandle

/-- One step is the steps of the job in which the same is reported. -/
theorem Inv.reports_step {s t : JobHandle j} (h : s.Inv) {a : HandleAction j}
    (hnext : s.next a = some t) :
    ∃ bs, run JobContext.next s.locked.job bs = some t.locked.job ∧
      observed JobContext.next JobContext.reports s.locked.job bs = s.reports a t := by
  cases a with
  | actor a =>
      simp only [JobHandle.next, Option.ite_none_left_eq_some, Option.map_eq_some_iff] at hnext
      obtain ⟨_, locked, hlocked, rfl⟩ := hnext
      cases a with
      | creator =>
          exact ⟨[], congrArg some (LockedJob.stepCreator_job hlocked).symm, rfl⟩
      | worker w =>
          obtain ⟨hstarted, hstep⟩ := Option.ite_none_right_eq_some.mp hlocked
          rcases (h.locked.inv.stepWorker_move hstarted hstep).job_eq with hsame | hjob
          · exact ⟨[], congrArg some hsame.symm, rfl⟩
          · have hworker : s.locked.job.next (.worker w) = some locked.job := hjob
            refine ⟨[.worker w], run_singleton hworker, ?_⟩
            rw [observed_cons hworker]
            rfl
  | call c =>
      obtain ⟨_, hcall⟩ := Option.ite_none_right_eq_some.mp hnext
      refine ⟨[], ?_, rfl⟩
      cases c with
      | getJobState =>
          obtain ⟨_, ht⟩ := Option.ite_none_right_eq_some.mp hcall
          exact Option.some.inj ht ▸ rfl
      | waitForJob => exact Option.some.inj hcall ▸ rfl
      | closeJobHandle => exact Option.some.inj hcall ▸ rfl
  | client =>
      have hcurrent := h.current
      have hstep : s.stepClient = some t := hnext
      rw [stepClient_locked hstep]
      cases hclient : s.client with
      | reporting currJobState totalItems =>
          rw [hclient] at hcurrent
          obtain ⟨rfl, rfl⟩ := hcurrent
          refine ⟨[.getJobState], rfl, ?_⟩
          simp [observed, JobContext.next, JobContext.reports, reports, hclient]
      | _ => exact ⟨[], rfl, by simp [reports, hclient]⟩

end JobHandle

end MapReduce
