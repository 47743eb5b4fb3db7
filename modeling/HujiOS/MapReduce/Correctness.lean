import HujiOS.MapReduce.Phases
import Mathlib.Data.List.Sort

/-!
# Correctness of a finished job

When all workers have returned, the counter has handed out the whole input and
the whole queue, and no worker has anything in hand.
-/

namespace MapReduce

open Grouping Runs Pool

universe u

variable {K1 V1 K2 V2 K3 V3 : Type u} {j : Job K1 V1 K2 V2 K3 V3}

namespace Pc

variable {pc : Pc j}

/-- A worker that has returned has no `reduce` call to come. -/
theorem reducePending_of_isFinished (h : pc.isFinished = true) : pc.reducePending = 0 := by
  cases pc <;> simp_all [isFinished, reducePending]

/-- A worker that has returned has no `reduce` call running. -/
theorem reduceRunning_of_isFinished (h : pc.isFinished = true) : pc.reduceRunning = 0 := by
  cases pc <;> simp_all [isFinished, reduceRunning]

/-- A worker that has returned has nothing left to emit. -/
theorem emit3Pending_of_isFinished (h : pc.isFinished = true) : pc.emit3Pending = 0 := by
  cases pc <;> simp_all [isFinished, emit3Pending]

/-- A worker returns in the reduce phase. -/
theorem region_of_isFinished (h : pc.isFinished = true) : pc.region = .reduce := by
  cases pc <;> simp_all [isFinished, region]

end Pc

namespace JobContext

/-- What the job is for: `map` on every input pair once, `reduce` once on every
class of emitted keys, and the output of these calls in any order. -/
structure Correct (s : JobContext j) : Prop where
  mapped : s.mapCalls.Perm (List.finRange j.numOfInputElems)
  reduced : GroupedByKey j.order j.emitted s.reduceCalls
  output : s.outputVec.Perm (s.reduceCalls.flatMap j.client.reduce)

/-- When all workers have finished every group was reduced and every result is
in the output. -/
theorem ReduceInv.drained {s : JobContext j} (h : s.ReduceInv) (hfin : s.Finished) :
    s.reduceCalls.Perm s.shuffledQueue ∧
      s.outputVec.Perm (s.reduceCalls.flatMap j.client.reduce) ∧
      s.jobStateBitwise = JobState.encode ⟨.reduce, s.intermediateVecs.flatten.length⟩ := by
  have hcalls : s.reduceCalls.Perm s.shuffledQueue := by
    have hnone : total (fun thread => thread.pc.reducePending) s.threads = 0 :=
      total_eq_zero fun v => Pc.reducePending_of_isFinished (hfin v)
    have hall := List.take_of_length_le (h.exhausted j.threadZero (hfin j.threadZero))
    apply Multiset.coe_eq_coe.mp
    rw [← hall, ← h.calls, hnone, add_zero]
  refine ⟨hcalls, ?_, ?_⟩
  · have hnone : total (fun thread => thread.pc.emit3Pending) s.threads = 0 :=
      total_eq_zero fun v => Pc.emit3Pending_of_isFinished (hfin v)
    apply Multiset.coe_eq_coe.mp
    rw [← h.outputs, hnone, add_zero]
  · obtain ⟨count, hword, hcount⟩ := h.word
    have hnone : total (fun thread => thread.pc.reduceRunning) s.threads = 0 :=
      total_eq_zero fun v => Pc.reduceRunning_of_isFinished (hfin v)
    rw [hnone, add_zero, hcalls.flatten.length_eq, h.perm.length_eq] at hcount
    rw [hword, hcount]

/-- The groups of the queue are the classes of the emitted keys. -/
theorem Inv.correct {s : JobContext j} (h : s.Inv) (hfin : s.Finished) : s.Correct := by
  have hinv := h.phase.reduceInv (Pc.region_of_isFinished (hfin j.threadZero))
  obtain ⟨hcalls, houtput, _⟩ := hinv.drained hfin
  refine ⟨hinv.mapDone.calls, ?_, houtput⟩
  have hperm := hinv.perm.trans hinv.mapDone.pairs
  exact hinv.descending.groupedByKey.perm hperm hcalls.symm

/-- **End-to-end correctness.**  However the workers interleave, a job whose
workers have all returned has mapped every input pair once, has reduced every
class of emitted keys once on all its pairs, and its output is what these calls
emitted. -/
theorem finished_correct {s : JobContext j} (h : s.Reachable) (hfin : s.Finished) :
    s.Correct :=
  h.inv.correct hfin

end JobContext

/-! ## A small job -/

/-- Numbers in their usual order. -/
def natKeys : KeyOrder Nat where
  lt a b := decide (a < b)
  irrefl := by simp
  trans := by simp; omega
  incomp_trans := by simp; omega

/-- Insertion sort by key. -/
def insertionSort : SortRoutine natKeys Nat where
  sort v := v.insertionSort fun p q => p.1 ≤ q.1
  perm v := List.perm_insertionSort _ v
  sorted v := by
    have hsorted := List.pairwise_insertionSort (fun p q : Nat × Nat => p.1 ≤ q.1) v
    exact hsorted.imp fun h => by simpa [natKeys] using h

/-- Two workers count the input pairs with each value. -/
def countValues : Job Nat Nat Nat Nat Nat Nat where
  client :=
    { map := fun key value => [(value, key)]
      reduce := fun pairs => [(pairs.length, 0)] }
  order := natKeys
  stdSort := insertionSort
  inputVec := [(0, 7), (1, 5), (2, 7)]
  numOfThreads := 2
  numOfThreads_pos := by decide

namespace JobContext

/-- One interleaving of the two workers, as blocks of steps of one worker. -/
def countSchedule : List (Action countValues) :=
  let blocks : List (Fin 2 × Nat) :=
    [(0, 2), (1, 2), (0, 1), (1, 10), (0, 31), (1, 14), (0, 4)]
  blocks.flatMap fun block => List.replicate block.2 (.worker block.1)

/-- Under this schedule `countValues` finishes. -/
theorem countSchedule_finishes :
    ((run next (initial countValues) countSchedule).any fun s =>
      decide (s.Finished ∧ s.outputVec = [(2, 0), (1, 0)])) = true := rfl

/-- The end of that schedule, with what it implies. -/
theorem finished_correct_countValues :
    ∃ s : JobContext countValues, s.Finished ∧ s.outputVec = [(2, 0), (1, 0)] ∧ s.Correct := by
  obtain ⟨s, hrun, hs⟩ := (Option.any_eq_true _ _).mp countSchedule_finishes
  obtain ⟨hfin, hout⟩ := of_decide_eq_true hs
  exact ⟨s, hfin, hout, finished_correct ⟨countSchedule, hrun⟩ hfin⟩

end JobContext

end MapReduce
