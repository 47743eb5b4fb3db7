import HujiOS.MapReduce.ShufflePhase

/-!
# The reduce phase

From the moment worker 0 moves the stage on after the shuffle, the counter hands
out the groups of the queue, which no longer changes.  A group the counter has
issued is in a call that was made or in the hands of one worker, and what
`reduce` has emitted is in the output or in the hands of the worker that runs
the call.
-/

namespace MapReduce

open Grouping Runs Pool

universe u

variable {K1 V1 K2 V2 K3 V3 : Type u} {j : Job K1 V1 K2 V2 K3 V3}

namespace Pc

/-- The group taken from the counter whose `reduce` call is still to come. -/
def reducePending : Pc j → Multiset (List (K2 × V2))
  | reduceCall shuffleQueue ix => {shuffleQueue.get ix}
  | _ => 0

/-- The size of the group whose `reduce` call is made but not counted. -/
def reduceRunning : Pc j → Nat
  | reducing shuffleQueue ix _ => (shuffleQueue.get ix).length
  | _ => 0

/-- The pairs that the running `reduce` call has left to emit. -/
def emit3Pending : Pc j → Multiset (K3 × V3)
  | reducing _ _ outs => outs
  | _ => 0

/-- The worker's own copy of the queue. -/
def copiedQueue : Pc j → Option (List (List (K2 × V2)))
  | reduceNext shuffleQueue | reduceCall shuffleQueue _ | reducing shuffleQueue _ _ =>
      some shuffleQueue
  | _ => none

variable {pc : Pc j}

/-- A worker that rests has no group in hand. -/
theorem reducePending_of_isResting (h : pc.isResting = true) : pc.reducePending = 0 := by
  cases pc <;> simp_all [isResting, reducePending]

/-- A worker that rests has no `reduce` call running. -/
theorem reduceRunning_of_isResting (h : pc.isResting = true) : pc.reduceRunning = 0 := by
  cases pc <;> simp_all [isResting, reduceRunning]

/-- A worker that rests has nothing left to emit. -/
theorem emit3Pending_of_isResting (h : pc.isResting = true) : pc.emit3Pending = 0 := by
  cases pc <;> simp_all [isResting, emit3Pending]

/-- A worker that rests has not copied the queue yet. -/
theorem copiedQueue_of_isResting (h : pc.isResting = true) : pc.copiedQueue = none := by
  cases pc <;> simp_all [isResting, copiedQueue]

/-- A worker that rests has not returned. -/
theorem isFinished_of_isResting (h : pc.isResting = true) : pc.isFinished = false := by
  cases pc <;> simp_all [isResting, isFinished]

end Pc

namespace ThreadContext

/-- The worker's copy of the queue, if it has one, is the queue. -/
def Copied (queue : List (List (K2 × V2))) (thread : ThreadContext j) : Prop :=
  ∀ q, thread.pc.copiedQueue = some q → q = queue

/-- A finished worker has seen the counter past the queue. -/
def ReduceExhausted (queue : List (List (K2 × V2))) (next : Nat) (thread : ThreadContext j) :
    Prop :=
  thread.pc.isFinished = true → queue.length ≤ next

end ThreadContext

namespace JobContext

/-- The counted groups are those whose call is made and not running. -/
def ReduceCounted (s : JobContext j) : Prop :=
  ∃ count, s.jobStateBitwise = JobState.encode ⟨.reduce, count⟩ ∧
    count + total (fun thread => thread.pc.reduceRunning) s.threads =
      s.reduceCalls.flatten.length

/-- The invariant of the reduce phase: the queue holds every emitted pair,
grouped, every group handed out is called or in hand, and every pair emitted
is in the output or still to come. -/
structure ReduceInv (s : JobContext j) : Prop where
  mapDone : s.MapDone
  descending : Descending j.order s.shuffledQueue
  perm : s.shuffledQueue.flatten.Perm s.intermediateVecs.flatten
  word : s.ReduceCounted
  calls : (s.reduceCalls : Multiset (List (K2 × V2))) +
    total (fun thread => thread.pc.reducePending) s.threads =
      s.shuffledQueue.take s.atomicNextItemToProcess
  outputs : (s.outputVec : Multiset (K3 × V3)) +
    total (fun thread => thread.pc.emit3Pending) s.threads =
      s.reduceCalls.flatMap j.client.reduce
  copied : ∀ v, (s.threads v).Copied s.shuffledQueue
  exhausted : ∀ v, (s.threads v).ReduceExhausted s.shuffledQueue s.atomicNextItemToProcess

/-- Worker 0 ends the shuffle while all others rest. -/
theorem ShuffleInv.reduceAdvance {s : JobContext j} (h : s.ShuffleInv)
    (hpc : (s.threads j.threadZero).pc = .reduceAdvance)
    (hrest : ∀ v, v ≠ j.threadZero → (s.threads v).pc.isResting = true) :
    (s.setNextPhase.goto j.threadZero .secondBarrier).ReduceInv := by
  obtain ⟨hdesc, hperm, hword, hnext⟩ := h.at_pc hpc
  have hall : ∀ v, ((s.setNextPhase.goto j.threadZero .secondBarrier).threads v).pc.isResting =
      true := by
    intro v
    by_cases hv : v = j.threadZero
    · rw [hv, goto_threads, Function.update_self]
      rfl
    · rw [goto_threads, Function.update_of_ne hv]
      exact hrest v hv
  refine ⟨h.mapDone.of_eq rfl (goto_intermediateVecs _ _ _), hdesc, ?_, ⟨0, ?_, ?_⟩, ?_, ?_, ?_, ?_⟩
  · rw [goto_intermediateVecs]
    exact hperm
  · simp [hword, JobState.setNextPhase_encode, JobState.setNextPhase, Stage.next]
  · refine (congrArg (0 + ·) (total_eq_zero fun v => ?_)).trans ?_
    · exact Pc.reduceRunning_of_isResting (hall v)
    · simp [h.reduced]
  · refine (congrArg (_ + ·) (total_eq_zero fun v => ?_)).trans ?_
    · exact Pc.reducePending_of_isResting (hall v)
    · simp [h.reduced, hnext]
  · refine (congrArg (_ + ·) (total_eq_zero fun v => ?_)).trans ?_
    · exact Pc.emit3Pending_of_isResting (hall v)
    · simp [h.reduced, h.outputs]
  · intro v q hq
    rw [Pc.copiedQueue_of_isResting (hall v)] at hq
    cases hq
  · intro v hv
    rw [Pc.isFinished_of_isResting (hall v)] at hv
    cases hv

namespace ReduceInv

variable {s s' : JobContext j} {w : Fin j.numOfThreads} {pc : Pc j}

/-- A worker in the reduce loop works on the queue itself. -/
theorem queue_eq (h : s.ReduceInv) {q : List (List (K2 × V2))}
    (hq : (s.threads w).pc.copiedQueue = some q) : q = s.shuffledQueue := h.copied w q hq

/-- A step that neither makes a call nor counts one keeps the count right. -/
theorem counted_keep (h : s.ReduceInv) (hthreads : s'.threads = s.threads)
    (hword : s'.jobStateBitwise = s.jobStateBitwise) (hcalls : s'.reduceCalls = s.reduceCalls)
    (hrun : pc.reduceRunning = (s.threads w).pc.reduceRunning) : (s'.goto w pc).ReduceCounted := by
  obtain ⟨count, hcode, hcount⟩ := h.word
  refine ⟨count, hword.trans hcode, ?_⟩
  rw [goto_threads, hthreads, goto_reduceCalls, hcalls]
  exact conserve hcount (by rw [hrun])

/-- A step keeps what the shuffle has left behind.  The counter may move on, and
the calls, the outputs and the count have to balance. -/
theorem advance (h : s.ReduceInv) (hthreads : s'.threads = s.threads)
    (hmapCalls : s'.mapCalls = s.mapCalls) (hqueue : s'.shuffledQueue = s.shuffledQueue)
    (hnext : s.atomicNextItemToProcess ≤ s'.atomicNextItemToProcess)
    (hword : (s'.goto w pc).ReduceCounted)
    (hcalls : (s'.reduceCalls : Multiset (List (K2 × V2))) +
      total (fun thread => thread.pc.reducePending) (s'.goto w pc).threads =
        s'.shuffledQueue.take s'.atomicNextItemToProcess)
    (houtputs : (s'.outputVec : Multiset (K3 × V3)) +
      total (fun thread => thread.pc.emit3Pending) (s'.goto w pc).threads =
        s'.reduceCalls.flatMap j.client.reduce)
    (hcopied : ∀ q, pc.copiedQueue = some q → q = s.shuffledQueue)
    (hexhausted : pc.isFinished = true →
      s.shuffledQueue.length ≤ s'.atomicNextItemToProcess) :
    (s'.goto w pc).ReduceInv := by
  have hvecs : (s'.goto w pc).intermediateVecs = s.intermediateVecs := by
    rw [goto_intermediateVecs]
    unfold intermediateVecs
    rw [hthreads]
  refine ⟨h.mapDone.of_eq hmapCalls hvecs, ?_, ?_, hword, hcalls, houtputs, fun v => ?_,
    fun v => ?_⟩
  · exact hqueue ▸ h.descending
  · rw [hvecs, goto_shuffledQueue, hqueue]
    exact h.perm
  · rw [goto_threads, hthreads, goto_shuffledQueue, hqueue]
    exact update_of (h.copied v) hcopied
  · rw [goto_threads, hthreads, goto_shuffledQueue, hqueue]
    exact update_of (fun hf => (h.exhausted v hf).trans hnext) hexhausted

/-- Setting the stage, once or again, keeps the invariant. -/
theorem reduceSetStage (h : s.ReduceInv) (hpc : (s.threads w).pc = .reduceSetStage) :
    ((s.setJobStage .reduce).goto w .reduceCopy).ReduceInv := by
  refine h.advance rfl rfl rfl (Nat.le_refl _) ?_ ?_ ?_ (fun _ hq => ?_) (fun hf => ?_)
  · obtain ⟨count, hword, hcount⟩ := h.word
    refine ⟨count, ?_, conserve hcount (by simp [hpc, Pc.reduceRunning])⟩
    simp [hword, JobState.setJobStage_encode, JobState.setJobStage]
  · exact conserve h.calls (by simp [hpc, Pc.reducePending])
  · exact conserve h.outputs (by simp [hpc, Pc.emit3Pending])
  · cases hq
  · cases hf

/-- Copying the queue keeps the invariant. -/
theorem reduceCopy (h : s.ReduceInv) (hpc : (s.threads w).pc = .reduceCopy) :
    (s.goto w (.reduceNext s.shuffledQueue)).ReduceInv := by
  refine h.advance rfl rfl rfl (Nat.le_refl _) ?_ ?_ ?_ (fun _ hq => ?_) (fun hf => ?_)
  · exact h.counted_keep rfl rfl rfl (by simp [hpc, Pc.reduceRunning])
  · exact conserve h.calls (by simp [hpc, Pc.reducePending])
  · exact conserve h.outputs (by simp [hpc, Pc.emit3Pending])
  · exact (Option.some.inj hq).symm
  · cases hf

/-- Taking a group keeps the invariant: it moves from the counter into the
worker's hand. -/
theorem reduceTake (h : s.ReduceInv) {shuffleQueue : List (List (K2 × V2))}
    {ix : Fin shuffleQueue.length} (hpc : (s.threads w).pc = .reduceNext shuffleQueue)
    (hix : s.atomicNextItemToProcess = ix) :
    (s.takeNextItemToProcess.goto w (.reduceCall shuffleQueue ix)).ReduceInv := by
  obtain rfl := h.queue_eq (w := w) (by rw [hpc]; rfl)
  refine h.advance rfl rfl rfl (Nat.le_succ _) ?_ ?_ ?_ (fun _ hq => ?_) (fun hf => ?_)
  · exact h.counted_keep rfl rfl rfl (by simp [hpc, Pc.reduceRunning])
  · have hlen : s.atomicNextItemToProcess < s.shuffledQueue.length := hix ▸ ix.isLt
    simp only [takeNextItemToProcess]
    rw [List.take_succ_eq_append_getElem hlen, ← Multiset.coe_add]
    exact balance h.calls (by simp [hpc, Pc.reducePending, hix])
  · exact conserve h.outputs (by simp [hpc, Pc.emit3Pending])
  · exact (Option.some.inj hq).symm
  · cases hf

/-- Leaving the reduce loop keeps the invariant. -/
theorem reduceExhausted (h : s.ReduceInv) {shuffleQueue : List (List (K2 × V2))}
    (hpc : (s.threads w).pc = .reduceNext shuffleQueue)
    (hlen : shuffleQueue.length ≤ s.atomicNextItemToProcess) :
    (s.takeNextItemToProcess.goto w .finished).ReduceInv := by
  obtain rfl := h.queue_eq (w := w) (by rw [hpc]; rfl)
  refine h.advance rfl rfl rfl (Nat.le_succ _) ?_ ?_ ?_ (fun _ hq => ?_) (fun _ => ?_)
  · exact h.counted_keep rfl rfl rfl (by simp [hpc, Pc.reduceRunning])
  · simp only [takeNextItemToProcess]
    rw [List.take_of_length_le (Nat.le_succ_of_le hlen), ← List.take_of_length_le hlen]
    exact conserve h.calls (by simp [hpc, Pc.reducePending])
  · exact conserve h.outputs (by simp [hpc, Pc.emit3Pending])
  · cases hq
  · exact Nat.le_succ_of_le hlen

/-- Calling `reduce` keeps the invariant: the pairs it emits are in the
worker's hand. -/
theorem reduceCall (h : s.ReduceInv) {shuffleQueue : List (List (K2 × V2))}
    {ix : Fin shuffleQueue.length} (hpc : (s.threads w).pc = .reduceCall shuffleQueue ix) :
    ({ s with reduceCalls := s.reduceCalls ++ [shuffleQueue.get ix] }.goto w
      (.reducing shuffleQueue ix (j.client.reduce (shuffleQueue.get ix)))).ReduceInv := by
  have hown := h.queue_eq (w := w) (q := shuffleQueue) (by rw [hpc]; rfl)
  refine h.advance rfl rfl rfl (Nat.le_refl _) ?_ ?_ ?_ (fun _ hq => ?_) (fun hf => ?_)
  · obtain ⟨count, hword, hcount⟩ := h.word
    refine ⟨count, hword, ?_⟩
    rw [goto_reduceCalls, List.flatten_append, List.length_append]
    exact balance hcount (by simp [hpc, Pc.reduceRunning])
  · exact conserve h.calls (by simp [hpc, Pc.reducePending, ← Multiset.coe_add])
  · show _ = ((s.reduceCalls ++ [_]).flatMap j.client.reduce : Multiset (K3 × V3))
    rw [List.flatMap_append, ← Multiset.coe_add]
    exact balance h.outputs (by simp [hpc, Pc.emit3Pending])
  · exact (Option.some.inj hq).symm.trans hown
  · cases hf

/-- Emitting a pair keeps the invariant: the pair moves into the output. -/
theorem emit3 (h : s.ReduceInv) {shuffleQueue : List (List (K2 × V2))}
    {ix : Fin shuffleQueue.length} {out : K3 × V3} {outs : List (K3 × V3)}
    (hpc : (s.threads w).pc = .reducing shuffleQueue ix (out :: outs)) :
    ({ s with outputVec := s.outputVec ++ [out] }.goto w
      (.reducing shuffleQueue ix outs)).ReduceInv := by
  have hown := h.queue_eq (w := w) (q := shuffleQueue) (by rw [hpc]; rfl)
  refine h.advance rfl rfl rfl (Nat.le_refl _) ?_ ?_ ?_ (fun _ hq => ?_) (fun hf => ?_)
  · exact h.counted_keep rfl rfl rfl (by simp [hpc, Pc.reduceRunning])
  · exact conserve h.calls (by simp [hpc, Pc.reducePending])
  · exact conserve h.outputs (by simp [hpc, Pc.emit3Pending])
  · exact (Option.some.inj hq).symm.trans hown
  · cases hf

/-- Counting the pairs of a call that has returned keeps the invariant. -/
theorem reduceReturn (h : s.ReduceInv) {shuffleQueue : List (List (K2 × V2))}
    {ix : Fin shuffleQueue.length} (hpc : (s.threads w).pc = .reducing shuffleQueue ix []) :
    ((s.addNumberOfProcessedItems .reduce (shuffleQueue.get ix).length).goto w
      (.reduceNext shuffleQueue)).ReduceInv := by
  have hown := h.queue_eq (w := w) (q := shuffleQueue) (by rw [hpc]; rfl)
  refine h.advance rfl rfl rfl (Nat.le_refl _) ?_ ?_ ?_ (fun _ hq => ?_) (fun hf => ?_)
  · obtain ⟨count, hword, hcount⟩ := h.word
    refine ⟨count + (shuffleQueue.get ix).length, ?_, conserve hcount ?_⟩
    · simp [hword, JobState.addNumberOfProcessedItems_encode, JobState.addNumberOfProcessedItems]
    · simp [hpc, Pc.reduceRunning]
  · exact conserve h.calls (by simp [hpc, Pc.reducePending])
  · exact conserve h.outputs (by simp [hpc, Pc.emit3Pending])
  · exact (Option.some.inj hq).symm.trans hown
  · cases hf

/-- A resting worker that moves to rest elsewhere has nothing in hand before
and after. -/
theorem rest (h : s.ReduceInv) (hold : (s.threads w).pc.isResting = true)
    (hnew : pc.isResting = true) : (s.goto w pc).ReduceInv := by
  refine h.advance rfl rfl rfl (Nat.le_refl _) ?_ ?_ ?_ (fun _ hq => ?_) (fun hf => ?_)
  · refine h.counted_keep rfl rfl rfl ?_
    rw [Pc.reduceRunning_of_isResting hold, Pc.reduceRunning_of_isResting hnew]
  · apply conserve h.calls
    rw [Pc.reducePending_of_isResting hold, Pc.reducePending_of_isResting hnew]
  · apply conserve h.outputs
    rw [Pc.emit3Pending_of_isResting hold, Pc.emit3Pending_of_isResting hnew]
  · rw [Pc.copiedQueue_of_isResting hnew] at hq
    cases hq
  · rw [Pc.isFinished_of_isResting hnew] at hf
    cases hf

end ReduceInv

end JobContext

end MapReduce
