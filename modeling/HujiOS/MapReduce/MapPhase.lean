import HujiOS.MapReduce.Control
import Mathlib.Algebra.Order.Group.Multiset
import Mathlib.Data.List.FinRange

/-!
# The map phase

From the start of the job until worker 0 moves the stage on, the counter hands
out the indices of the input.  Everything the counter has issued is in a call
that was made or in the hands of one worker; everything `map` has emitted is in
a vector or in the hands of the worker that runs the call.  A worker leaves the
loop only when the counter is past the input.
-/

namespace MapReduce

open Grouping Runs Pool

universe u

variable {K1 V1 K2 V2 K3 V3 : Type u} {j : Job K1 V1 K2 V2 K3 V3}

/-! ## What a worker has in hand -/

namespace Pc

/-- The index taken from the counter whose `map` call is still to come. -/
def mapPending : Pc j → Multiset (Fin j.numOfInputElems)
  | mapCall ix => {ix}
  | _ => 0

/-- The `map` call that is made but not counted. -/
def mapRunning : Pc j → Nat
  | mapping _ => 1
  | _ => 0

/-- The pairs that the running `map` call has left to emit. -/
def emit2Pending : Pc j → Multiset (K2 × V2)
  | mapping pairs => pairs
  | _ => 0

/-- Past the map loop. -/
def isMapped : Pc j → Bool
  | mapSetStage | mapNext | mapCall _ | mapping _ => false
  | _ => true

/-- Past the map loop and the sort. -/
def isSorted : Pc j → Bool
  | mapSetStage | mapNext | mapCall _ | mapping _ | sort => false
  | _ => true

variable {pc : Pc j}

/-- The sort comes after the map loop. -/
theorem isMapped_of_isSorted (h : pc.isSorted = true) : pc.isMapped = true := by
  cases pc <;> simp_all [isSorted, isMapped]

/-- A worker arrives at the barrier with a sorted vector. -/
theorem isSorted_of_arrived (h : 1 ≤ pc.arrivals) : pc.isSorted = true := by
  cases pc <;> simp_all [arrivals, isSorted]

/-- A worker that rests has sorted. -/
theorem isSorted_of_isResting (h : pc.isResting = true) : pc.isSorted = true := by
  cases pc <;> simp_all [isResting, isSorted]

/-- Past the map loop a worker has no index in hand. -/
theorem mapPending_of_isMapped (h : pc.isMapped = true) : pc.mapPending = 0 := by
  cases pc <;> simp_all [isMapped, mapPending]

/-- Past the map loop no `map` call runs. -/
theorem mapRunning_of_isMapped (h : pc.isMapped = true) : pc.mapRunning = 0 := by
  cases pc <;> simp_all [isMapped, mapRunning]

/-- Past the map loop nothing is left to emit. -/
theorem emit2Pending_of_isMapped (h : pc.isMapped = true) : pc.emit2Pending = 0 := by
  cases pc <;> simp_all [isMapped, emit2Pending]

end Pc

/-- The indices a counter that stands at `n` has handed out. -/
def Job.issued (j : Job K1 V1 K2 V2 K3 V3) (n : Nat) : Multiset (Fin j.numOfInputElems) :=
  (List.finRange j.numOfInputElems).take n

/-- Taking an index hands out that index. -/
theorem Job.issued_succ {ix : Fin j.numOfInputElems} {n : Nat} (h : n = ix) :
    j.issued (n + 1) = j.issued n + {ix} := by
  have hlen : n < (List.finRange j.numOfInputElems).length := by
    simp [h]
  unfold Job.issued
  rw [List.take_succ_eq_append_getElem hlen, ← Multiset.coe_add]
  congr 1
  simp [h]

/-- Past the input every index is handed out. -/
theorem Job.issued_of_le {n : Nat} (h : j.numOfInputElems ≤ n) :
    j.issued n = (List.finRange j.numOfInputElems : Multiset (Fin j.numOfInputElems)) := by
  unfold Job.issued
  rw [List.take_of_length_le (by simpa using h)]

namespace ThreadContext

/-- The pairs in the worker's vector and those its `map` call has left to emit. -/
def held (thread : ThreadContext j) : Multiset (K2 × V2) :=
  thread.intermediateVec + thread.pc.emit2Pending

/-- A worker past the map loop has seen the counter past the input. -/
def Exhausted (next : Nat) (thread : ThreadContext j) : Prop :=
  thread.pc.isMapped = true → j.numOfInputElems ≤ next

/-- A worker past the sort has a sorted vector. -/
def VecSorted (thread : ThreadContext j) : Prop :=
  thread.pc.isSorted = true → j.order.Sorted thread.intermediateVec

/-- Past the map loop a worker holds its vector only. -/
theorem held_of_isMapped {thread : ThreadContext j} (h : thread.pc.isMapped = true) :
    thread.held = thread.intermediateVec := by
  unfold held
  rw [Pc.emit2Pending_of_isMapped h, add_zero]

end ThreadContext

namespace JobContext

/-- The finished `map` calls are those made and not running. -/
def MapCounted (s : JobContext j) : Prop :=
  ∃ count, s.jobStateBitwise = JobState.encode ⟨.map, count⟩ ∧
    count + total (fun thread => thread.pc.mapRunning) s.threads = s.mapCalls.length

/-- Nobody has moved yet. -/
def MapUntouched (s : JobContext j) : Prop :=
  s.jobStateBitwise = JobState.encode ⟨.undefined, 0⟩ ∧ s.mapCalls = [] ∧
    ∀ v, (s.threads v).pc = .mapSetStage

/-- The invariant of the map phase: every index handed out is called or in
hand, every pair emitted is in some worker's hands, and nothing of the later
phases has happened. -/
structure MapInv (s : JobContext j) : Prop where
  word : s.MapUntouched ∨ s.MapCounted
  calls : (s.mapCalls : Multiset (Fin j.numOfInputElems)) +
    total (fun thread => thread.pc.mapPending) s.threads = j.issued s.atomicNextItemToProcess
  pairs : total ThreadContext.held s.threads =
    (s.mapCalls.flatMap j.mapAt : Multiset (K2 × V2))
  exhausted : ∀ v, (s.threads v).Exhausted s.atomicNextItemToProcess
  sorted : ∀ v, (s.threads v).VecSorted
  queue : s.shuffledQueue = []
  outputs : s.outputVec = []
  reduced : s.reduceCalls = []

/-- The invariant holds before the first step. -/
theorem MapInv.initial : (initial j).MapInv where
  word := Or.inl ⟨rfl, rfl, fun _ => rfl⟩
  calls := by simp [JobContext.initial, total, Pc.mapPending, Job.issued]
  pairs := by simp [JobContext.initial, total, ThreadContext.held, Pc.emit2Pending]
  exhausted := fun _ h => Bool.noConfusion h
  sorted := fun _ h => Bool.noConfusion h
  queue := rfl
  outputs := rfl
  reduced := rfl

namespace MapInv

variable {s : JobContext j} {w : Fin j.numOfThreads}

/-- Once some worker has moved the word counts. -/
theorem counted (h : s.MapInv) (hpc : (s.threads w).pc ≠ .mapSetStage) : s.MapCounted := by
  rcases h.word with ⟨_, _, hall⟩ | hcount
  · exact absurd (hall w) hpc
  · exact hcount

/-- A step that neither makes a call nor ends one keeps the count right. -/
theorem counted_keep {s' : JobContext j} {thread : ThreadContext j} (h : s.MapInv)
    (hpc : (s.threads w).pc ≠ .mapSetStage) (hthreads : s'.threads = s.threads)
    (hword : s'.jobStateBitwise = s.jobStateBitwise) (hcalls : s'.mapCalls = s.mapCalls)
    (hrun : thread.pc.mapRunning = (s.threads w).pc.mapRunning) :
    (s'.setThread w thread).MapCounted := by
  obtain ⟨count, hcode, hcount⟩ := h.counted hpc
  refine ⟨count, hword.trans hcode, ?_⟩
  rw [setThread_threads, hthreads, setThread_mapCalls, hcalls]
  exact conserve hcount (by rw [hrun])

/-- Setting the stage, once or again, keeps the invariant. -/
theorem mapSetStage (h : s.MapInv) (hpc : (s.threads w).pc = .mapSetStage) :
    ((s.setJobStage .map).goto w .mapNext).MapInv where
  word := by
    right
    rcases h.word with ⟨hword, hcalls, hall⟩ | ⟨count, hword, hcount⟩
    · have hzero : 0 + total (fun thread => thread.pc.mapRunning) s.threads =
          s.mapCalls.length := by
        simp [total, hall, hcalls, Pc.mapRunning]
      refine ⟨0, ?_, conserve hzero (by simp [hpc, Pc.mapRunning])⟩
      simp [hword, JobState.setJobStage_encode, JobState.setJobStage]
    · refine ⟨count, ?_, conserve hcount (by simp [hpc, Pc.mapRunning])⟩
      simp [hword, JobState.setJobStage_encode, JobState.setJobStage]
  calls := conserve h.calls (by simp [hpc, Pc.mapPending])
  pairs := (total_update (by simp [ThreadContext.held, hpc, Pc.emit2Pending])).trans h.pairs
  exhausted := fun v => update_of (h.exhausted v) (fun hm => Bool.noConfusion hm)
  sorted := fun v => update_of (h.sorted v) (fun hm => Bool.noConfusion hm)
  queue := h.queue
  outputs := h.outputs
  reduced := h.reduced

/-- Taking an index keeps the invariant: it moves from the counter into the
worker's hand. -/
theorem mapTake (h : s.MapInv) (hpc : (s.threads w).pc = .mapNext) {ix : Fin j.numOfInputElems}
    (hix : s.atomicNextItemToProcess = ix) :
    (s.takeNextItemToProcess.goto w (.mapCall ix)).MapInv where
  word := Or.inr (h.counted_keep (by simp [hpc]) rfl rfl rfl (by simp [hpc, Pc.mapRunning]))
  calls := by
    show _ = j.issued (s.atomicNextItemToProcess + 1)
    rw [Job.issued_succ hix]
    exact balance h.calls (by simp [hpc, Pc.mapPending])
  pairs := (total_update (by simp [ThreadContext.held, hpc, Pc.emit2Pending])).trans h.pairs
  exhausted := fun v => update_of (fun hm => Nat.le_succ_of_le (h.exhausted v hm))
    (fun hm => Bool.noConfusion hm)
  sorted := fun v => update_of (h.sorted v) (fun hm => Bool.noConfusion hm)
  queue := h.queue
  outputs := h.outputs
  reduced := h.reduced

/-- Leaving the map loop keeps the invariant. -/
theorem mapExhausted (h : s.MapInv) (hpc : (s.threads w).pc = .mapNext)
    (hlen : j.numOfInputElems ≤ s.atomicNextItemToProcess) :
    (s.takeNextItemToProcess.goto w .sort).MapInv where
  word := Or.inr (h.counted_keep (by simp [hpc]) rfl rfl rfl (by simp [hpc, Pc.mapRunning]))
  calls := by
    show _ = j.issued (s.atomicNextItemToProcess + 1)
    have hsame : j.issued (s.atomicNextItemToProcess + 1) = j.issued s.atomicNextItemToProcess := by
      rw [Job.issued_of_le hlen, Job.issued_of_le (Nat.le_succ_of_le hlen)]
    rw [hsame]
    exact conserve h.calls (by simp [hpc, Pc.mapPending])
  pairs := (total_update (by simp [ThreadContext.held, hpc, Pc.emit2Pending])).trans h.pairs
  exhausted := fun v => update_of (fun hm => Nat.le_succ_of_le (h.exhausted v hm))
    (fun _ => Nat.le_succ_of_le hlen)
  sorted := fun v => update_of (h.sorted v) (fun hm => Bool.noConfusion hm)
  queue := h.queue
  outputs := h.outputs
  reduced := h.reduced

/-- Calling `map` keeps the invariant: the pairs it emits are in the worker's
hand. -/
theorem mapCall (h : s.MapInv) {ix : Fin j.numOfInputElems}
    (hpc : (s.threads w).pc = .mapCall ix) :
    ({ s with mapCalls := s.mapCalls ++ [ix] }.goto w (.mapping (j.mapAt ix))).MapInv where
  word := by
    right
    obtain ⟨count, hword, hcount⟩ := h.counted (w := w) (by simp [hpc])
    refine ⟨count, hword, ?_⟩
    rw [goto_mapCalls, List.length_append, List.length_singleton]
    exact balance hcount (by simp [hpc, Pc.mapRunning])
  calls := conserve h.calls (by simp [hpc, Pc.mapPending, ← Multiset.coe_add])
  pairs := by
    rw [goto_mapCalls, List.flatMap_append, ← Multiset.coe_add, ← h.pairs]
    exact total_grow (by simp [ThreadContext.held, hpc, Pc.emit2Pending])
  exhausted := fun v => update_of (h.exhausted v) (fun hm => Bool.noConfusion hm)
  sorted := fun v => update_of (h.sorted v) (fun hm => Bool.noConfusion hm)
  queue := h.queue
  outputs := h.outputs
  reduced := h.reduced

/-- Emitting a pair keeps the invariant: the pair moves into the vector. -/
theorem emit2 (h : s.MapInv) {p : K2 × V2} {pairs : List (K2 × V2)}
    (hpc : (s.threads w).pc = .mapping (p :: pairs)) :
    (s.setThread w ⟨.mapping pairs, (s.threads w).intermediateVec ++ [p]⟩).MapInv where
  word := Or.inr (h.counted_keep (by simp [hpc]) rfl rfl rfl (by simp [hpc, Pc.mapRunning]))
  calls := conserve h.calls (by simp [hpc, Pc.mapPending])
  pairs := (total_update (by simp [ThreadContext.held, hpc, Pc.emit2Pending])).trans h.pairs
  exhausted := fun v => update_of (h.exhausted v) (fun hm => Bool.noConfusion hm)
  sorted := fun v => update_of (h.sorted v) (fun hm => Bool.noConfusion hm)
  queue := h.queue
  outputs := h.outputs
  reduced := h.reduced

/-- Counting a call that has returned keeps the invariant. -/
theorem mapReturn (h : s.MapInv) (hpc : (s.threads w).pc = .mapping []) :
    ((s.addNumberOfProcessedItems .map 1).goto w .mapNext).MapInv where
  word := by
    right
    obtain ⟨count, hword, hcount⟩ := h.counted (w := w) (by simp [hpc])
    refine ⟨count + 1, ?_, conserve hcount (by simp [hpc, Pc.mapRunning])⟩
    simp [hword, JobState.addNumberOfProcessedItems_encode, JobState.addNumberOfProcessedItems]
  calls := conserve h.calls (by simp [hpc, Pc.mapPending])
  pairs := (total_update (by simp [ThreadContext.held, hpc, Pc.emit2Pending])).trans h.pairs
  exhausted := fun v => update_of (h.exhausted v) (fun hm => Bool.noConfusion hm)
  sorted := fun v => update_of (h.sorted v) (fun hm => Bool.noConfusion hm)
  queue := h.queue
  outputs := h.outputs
  reduced := h.reduced

/-- Sorting keeps the invariant: it permutes the vector. -/
theorem sort (h : s.MapInv) (hpc : (s.threads w).pc = .sort) :
    (s.setThread w ⟨.firstBarrier, j.stdSort.sort (s.threads w).intermediateVec⟩).MapInv where
  word := Or.inr (h.counted_keep (by simp [hpc]) rfl rfl rfl (by simp [hpc, Pc.mapRunning]))
  calls := conserve h.calls (by simp [hpc, Pc.mapPending])
  pairs := by
    have hperm := Multiset.coe_eq_coe.mpr (j.stdSort.perm (s.threads w).intermediateVec)
    exact (total_update (by simp [ThreadContext.held, hpc, Pc.emit2Pending, hperm])).trans h.pairs
  exhausted := fun v => update_of (h.exhausted v) (fun _ => h.exhausted w (by rw [hpc]; rfl))
  sorted := fun v => update_of (h.sorted v) (fun _ => j.stdSort.sorted _)
  queue := h.queue
  outputs := h.outputs
  reduced := h.reduced

/-- A resting worker that moves to rest elsewhere has nothing in hand before
and after. -/
theorem rest (h : s.MapInv) {pc : Pc j} (hold : (s.threads w).pc.isResting = true)
    (hnew : pc.isResting = true) : (s.goto w pc).MapInv := by
  have holdSorted := Pc.isSorted_of_isResting hold
  have holdMapped := Pc.isMapped_of_isSorted holdSorted
  have hnewMapped := Pc.isMapped_of_isSorted (Pc.isSorted_of_isResting hnew)
  refine ⟨Or.inr ?_, ?_, ?_, ?_, ?_, h.queue, h.outputs, h.reduced⟩
  · refine h.counted_keep (fun heq => ?_) rfl rfl rfl ?_
    · simp [heq, Pc.isResting] at hold
    · rw [Pc.mapRunning_of_isMapped holdMapped]
      exact Pc.mapRunning_of_isMapped hnewMapped
  · apply conserve h.calls
    rw [Pc.mapPending_of_isMapped holdMapped, Pc.mapPending_of_isMapped hnewMapped]
    rfl
  · refine (total_update ?_).trans h.pairs
    rw [ThreadContext.held_of_isMapped holdMapped, ThreadContext.held_of_isMapped hnewMapped]
  · exact fun v => update_of (h.exhausted v) (fun _ => h.exhausted w holdMapped)
  · exact fun v => update_of (h.sorted v) (fun _ => h.sorted w holdSorted)

end MapInv

end JobContext

end MapReduce
