import HujiOS.MapReduce.NeverStuck

/-!
# The shuffle from its lock to its unlock

`_invokeShufflePhase` run by worker 0 on any vectors that are sorted, whatever
state the rest of the job is in.  Every step lowers `shuffleWork`, so the loop
ends, and where it ends `ShuffleAt` says what it has made.
-/

namespace MapReduce

open Grouping Runs

universe u

variable {K1 V1 K2 V2 K3 V3 : Type u} {j : Job K1 V1 K2 V2 K3 V3}

namespace Pc

variable {pc : Pc j}

/-- Worker 0 shuffles outside the barrier calls. -/
theorem kind_of_region_shuffle (h : pc.region = .shuffle) : pc.kind ≠ .barrierCall := by
  cases pc <;> simp_all [region, kind]

/-- Worker 0 does not return while it shuffles. -/
theorem isFinished_of_region_shuffle (h : pc.region = .shuffle) : pc.isFinished = false := by
  cases pc <;> simp_all [region, isFinished]

end Pc

namespace JobContext

/-- The shuffle does not stop before its end. -/
theorem Shuffling.exists_step {s : JobContext j} (h : s.Shuffling)
    (hstay : (s.threads j.threadZero).pc ≠ .reduceAdvance) :
    ∃ pc t, s.step j.threadZero = some t ∧ ShuffleStep s pc t := by
  have hregion := h.at_zero.region
  obtain ⟨t, ht⟩ := JobContext.exists_step (Pc.kind_of_region_shuffle hregion)
    (Pc.isFinished_of_region_shuffle hregion)
  obtain ⟨pc, hstep⟩ := (step_transition ht).shuffleStep h hstay
  exact ⟨pc, t, ht, hstep⟩

/-- Worker 0, running alone, gets through the rest of the shuffle. -/
theorem Shuffling.runs {s : JobContext j} (h : s.Shuffling) :
    ∃ n t, run next s (List.replicate n (.worker j.threadZero)) = some t ∧
      (t.threads j.threadZero).pc = .reduceAdvance ∧ t.Shuffling ∧
      ∀ v, (t.threads v).intermediateVec = (s.threads v).intermediateVec := by
  have hprogress : ∀ x : JobContext j,
      (x.Shuffling ∧ ∀ v, (x.threads v).intermediateVec = (s.threads v).intermediateVec) →
      (x.threads j.threadZero).pc ≠ .reduceAdvance → ∃ a y, a = .worker j.threadZero ∧
        x.next a = some y ∧
        (y.Shuffling ∧ ∀ v, (y.threads v).intermediateVec = (s.threads v).intermediateVec) ∧
        shuffleWork y.intermediateVecs (y.threads j.threadZero).pc <
          shuffleWork x.intermediateVecs (x.threads j.threadZero).pc := by
    intro x ⟨hx, hvecs⟩ hstay
    obtain ⟨pc, y, hy, hstep⟩ := hx.exists_step hstay
    refine ⟨_, y, rfl, hy, ⟨hstep.shuffling hx, fun v => ?_⟩, hstep.work_lt⟩
    rw [hstep.threads]
    by_cases hv : v = j.threadZero
    · subst hv
      rw [Function.update_self]
      exact hvecs _
    · rw [Function.update_of_ne hv]
      exact hvecs v
  obtain ⟨acts, t, hacts, hrun, ⟨ht, hvecs⟩, hend⟩ :=
    exists_run_of_measure _ (fun x : JobContext j => (x.threads j.threadZero).pc = .reduceAdvance)
      _ _ hprogress ⟨h, fun _ => rfl⟩
  refine ⟨acts.length, t, ?_, hend, ht, hvecs⟩
  rwa [← List.eq_replicate_of_mem hacts]

/-- **The shuffle groups exactly by key.**  Whatever the vectors hold, as long
as each of them is sorted, the loop ends with one group of equivalent pairs for
every key, the keys decreasing from group to group; all pairs are in the groups,
the vectors are as before, and every pair has been counted. -/
theorem shuffle_groups {s : JobContext j} (hpc : (s.threads j.threadZero).pc = .shuffleLock)
    (hqueue : s.shuffledQueue = [])
    (hword : s.jobStateBitwise = JobState.encode ⟨.shuffle, 0⟩)
    (hsorted : ∀ v, j.order.Sorted (s.threads v).intermediateVec) :
    ∃ n t, run next s (List.replicate n (.worker j.threadZero)) = some t ∧
      (t.threads j.threadZero).pc = .reduceAdvance ∧
      (∀ g ∈ t.shuffledQueue, g ≠ []) ∧
      (∀ g ∈ t.shuffledQueue, ∀ p ∈ g, ∀ q ∈ g, j.order.equiv p.1 q.1 = true) ∧
      t.shuffledQueue.Pairwise
        (fun g g' => ∀ p ∈ g, ∀ q ∈ g', j.order.lt q.1 p.1 = true) ∧
      t.shuffledQueue.flatten.Perm s.intermediateVecs.flatten ∧
      (∀ v, (t.threads v).intermediateVec = (s.threads v).intermediateVec) ∧
      t.jobStateBitwise = JobState.encode ⟨.shuffle, s.getNumOfIntermediatePairs⟩ := by
  have hs : s.Shuffling := by
    refine ⟨fun v hv => ?_, ?_⟩
    · obtain ⟨w, rfl⟩ := List.mem_ofFn.mp hv
      exact hsorted w
    · rw [hpc]
      exact ⟨hqueue, hword⟩
  obtain ⟨n, t, hrun, hend, ht, hvecs⟩ := hs.runs
  have hsame : t.intermediateVecs = s.intermediateVecs := congrArg List.ofFn (funext hvecs)
  obtain ⟨hdesc, hperm, hcount, _⟩ := ht.at_pc hend
  rw [hsame] at hperm hcount
  refine ⟨n, t, hrun, hend, hdesc.nonempty, hdesc.uniform, hdesc.decreasing, hperm, hvecs, ?_⟩
  rw [hcount]
  unfold getNumOfIntermediatePairs
  rw [List.length_flatten]

/-- Worker 0 of `countValues` about to shuffle two vectors that share a key. -/
def countShuffle : JobContext countValues :=
  { initial countValues with
    jobStateBitwise := JobState.encode ⟨.shuffle, 0⟩
    threads := fun w =>
      if w = countValues.threadZero then ⟨.shuffleLock, [(5, 1), (7, 0)]⟩
      else ⟨.firstWait, [(7, 2)]⟩ }

/-- The shuffle of two vectors that share a key. -/
theorem shuffle_groups_countValues :
    ∃ n t, run next countShuffle (List.replicate n (.worker countValues.threadZero)) = some t ∧
      t.shuffledQueue.flatten.Perm [(5, 1), (7, 0), (7, 2)] := by
  have hsorted : ∀ v, countValues.order.Sorted (countShuffle.threads v).intermediateVec := by
    have hshort : ∀ v : List (Nat × Nat), v = [(5, 1), (7, 0)] ∨ v = [(7, 2)] →
        natKeys.Sorted v := by
      rintro v (rfl | rfl) <;> simp [KeyOrder.Sorted, natKeys]
    intro v
    apply hshort
    unfold countShuffle
    by_cases hv : v = countValues.threadZero
    · exact Or.inl (by simp [hv])
    · exact Or.inr (by simp [hv])
  obtain ⟨n, t, hrun, _, _, _, _, hperm, _⟩ :=
    shuffle_groups (s := countShuffle) rfl rfl rfl hsorted
  exact ⟨n, t, hrun, hperm⟩

end JobContext

end MapReduce
