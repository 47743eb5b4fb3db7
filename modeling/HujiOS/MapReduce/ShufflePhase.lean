import HujiOS.MapReduce.MapPhase
import HujiOS.MapReduce.Shuffle
import Mathlib.Algebra.BigOperators.Fin
import Mathlib.Data.Multiset.Bind

/-!
# The shuffle phase

Worker 0 moves the stage on after everybody has arrived at the first barrier.
Until it arrives at the second, all other workers rest, so the vectors it copies
do not change and nobody else touches the counter or the queue.
-/

namespace MapReduce

open Grouping Runs Pool

universe u

variable {K1 V1 K2 V2 K3 V3 : Type u} {j : Job K1 V1 K2 V2 K3 V3}

/-- `map` at all indices emits what is emitted over the input. -/
theorem Job.flatMap_mapAt (j : Job K1 V1 K2 V2 K3 V3) :
    (List.finRange j.numOfInputElems).flatMap j.mapAt = j.emitted := by
  have hget := List.map_get_finRange j.inputVec
  unfold Job.emitted
  rw [← hget, List.flatMap_map]
  rfl

namespace JobContext

/-- Moving a worker leaves all vectors as they are. -/
@[simp] theorem goto_intermediateVecs (s : JobContext j) (w : Fin j.numOfThreads) (pc : Pc j) :
    (s.goto w pc).intermediateVecs = s.intermediateVecs := by
  unfold intermediateVecs
  congr 1
  funext v
  by_cases hv : v = w
  · subst hv
    simp
  · simp [hv]

/-- There is one vector for each worker. -/
theorem length_intermediateVecs (s : JobContext j) :
    s.intermediateVecs.length = j.numOfThreads := by
  simp [intermediateVecs]

/-- The vectors together hold what the workers hold. -/
theorem intermediateVecs_flatten (s : JobContext j) :
    (s.intermediateVecs.flatten : Multiset (K2 × V2)) =
      total (fun thread => (thread.intermediateVec : Multiset (K2 × V2))) s.threads := by
  unfold intermediateVecs total
  rw [← Multiset.coe_join, List.map_ofFn, ← List.sum_ofFn]
  rfl

/-- The map phase is over: every index was mapped once, and the sorted vectors
hold what was emitted. -/
structure MapDone (s : JobContext j) : Prop where
  calls : s.mapCalls.Perm (List.finRange j.numOfInputElems)
  pairs : s.intermediateVecs.flatten.Perm j.emitted
  sorted : ∀ v ∈ s.intermediateVecs, j.order.Sorted v

/-- That the map phase is over depends only on its calls and on the
vectors. -/
theorem MapDone.of_eq {s t : JobContext j} (h : s.MapDone) (hcalls : t.mapCalls = s.mapCalls)
    (hvecs : t.intermediateVecs = s.intermediateVecs) : t.MapDone :=
  ⟨hcalls ▸ h.calls, hvecs ▸ h.pairs, hvecs ▸ h.sorted⟩

/-- **What the first barrier gives.**  When every worker is past its sort, all
calls are made, counted and returned. -/
theorem MapInv.mapDone {s : JobContext j} (h : s.MapInv)
    (hall : ∀ v, (s.threads v).pc.isSorted = true) :
    s.MapDone ∧ s.jobStateBitwise = JobState.encode ⟨.map, j.numOfInputElems⟩ := by
  have hmapped : ∀ v, (s.threads v).pc.isMapped = true := fun v => Pc.isMapped_of_isSorted (hall v)
  have hcalls : (s.mapCalls : Multiset (Fin j.numOfInputElems)) =
      (List.finRange j.numOfInputElems : Multiset (Fin j.numOfInputElems)) := by
    have hnone : total (fun thread => thread.pc.mapPending) s.threads = 0 :=
      total_eq_zero fun v => Pc.mapPending_of_isMapped (hmapped v)
    rw [← Job.issued_of_le (h.exhausted j.threadZero (hmapped j.threadZero)), ← h.calls, hnone,
      add_zero]
  have hperm := Multiset.coe_eq_coe.mp hcalls
  refine ⟨⟨hperm, ?_, fun v hv => ?_⟩, ?_⟩
  · rw [← j.flatMap_mapAt]
    apply Multiset.coe_eq_coe.mp
    have hheld : total ThreadContext.held s.threads =
        total (fun thread => (thread.intermediateVec : Multiset (K2 × V2))) s.threads :=
      Finset.sum_congr rfl fun v _ => ThreadContext.held_of_isMapped (hmapped v)
    rw [intermediateVecs_flatten, ← hheld, h.pairs]
    exact Multiset.coe_eq_coe.mpr (hperm.flatMap_right j.mapAt)
  · obtain ⟨u, rfl⟩ := List.mem_ofFn.mp hv
    exact h.sorted u (hall u)
  · have hset : (s.threads j.threadZero).pc ≠ .mapSetStage := by
      intro heq
      have hzero := hall j.threadZero
      simp [heq, Pc.isSorted] at hzero
    obtain ⟨count, hword, hcount⟩ := h.counted hset
    have hnone : total (fun thread => thread.pc.mapRunning) s.threads = 0 :=
      total_eq_zero fun v => Pc.mapRunning_of_isMapped (hmapped v)
    rw [hnone, add_zero, hperm.length_eq, List.length_finRange] at hcount
    rw [hword, hcount]

/-- Where the shuffle stands, by worker 0's program counter: the queue, the word
and the counter against the copied vectors. -/
def ShuffleAt (vecs queue : List (List (K2 × V2))) (word next : Nat) : Pc j → Prop
  | .shuffleLock | .shuffleReset => queue = [] ∧ word = JobState.encode ⟨.shuffle, 0⟩
  | .shuffleCopy interVecs =>
      queue = [] ∧ word = JobState.encode ⟨.shuffle, 0⟩ ∧ interVecs = vecs.take interVecs.length
  | .shuffleMaxKey interVecs =>
      AtMaxKey j.order vecs.flatten queue interVecs ∧
        word = JobState.encode ⟨.shuffle, queue.flatten.length⟩
  | .shuffleDrain currMaxKey newVec visited todo =>
      Draining j.order vecs.flatten queue currMaxKey newVec visited todo ∧
        word = JobState.encode ⟨.shuffle, queue.flatten.length + newVec.length⟩
  | .shuffleCount currMaxKey newVec visited todo =>
      Draining j.order vecs.flatten queue currMaxKey newVec visited todo ∧
        ∃ count, word = JobState.encode ⟨.shuffle, count⟩ ∧
          count + 1 = queue.flatten.length + newVec.length
  | .shuffleEndReset =>
      Descending j.order queue ∧ queue.flatten.Perm vecs.flatten ∧
        word = JobState.encode ⟨.shuffle, vecs.flatten.length⟩
  | .shuffleUnlock | .reduceAdvance =>
      Descending j.order queue ∧ queue.flatten.Perm vecs.flatten ∧
        word = JobState.encode ⟨.shuffle, vecs.flatten.length⟩ ∧ next = 0
  | _ => False

/-- The invariant of the shuffle phase: the map phase is over, the reduce
phase has not begun, and the shuffle stands where worker 0 is. -/
structure ShuffleInv (s : JobContext j) : Prop where
  mapDone : s.MapDone
  outputs : s.outputVec = []
  reduced : s.reduceCalls = []
  at_zero : ShuffleAt s.intermediateVecs s.shuffledQueue s.jobStateBitwise
    s.atomicNextItemToProcess (s.threads j.threadZero).pc

/-- Worker 0 starts the shuffle after the first barrier. -/
theorem MapInv.shuffleSetStage {s : JobContext j} (h : s.MapInv)
    (hall : ∀ v, (s.threads v).pc.isSorted = true) :
    (s.setNextPhase.goto j.threadZero .shuffleLock).ShuffleInv := by
  obtain ⟨hdone, hword⟩ := h.mapDone hall
  refine ⟨hdone.of_eq rfl (goto_intermediateVecs _ _ _), h.outputs, h.reduced, ?_⟩
  rw [goto_threads, Function.update_self]
  refine ⟨h.queue, ?_⟩
  simp [hword, JobState.setNextPhase_encode, JobState.setNextPhase, Stage.next]

/-- The shuffle stands where worker 0's program counter says, over vectors that
are sorted. -/
structure Shuffling (s : JobContext j) : Prop where
  sorted : ∀ v ∈ s.intermediateVecs, j.order.Sorted v
  at_zero : ShuffleAt s.intermediateVecs s.shuffledQueue s.jobStateBitwise
    s.atomicNextItemToProcess (s.threads j.threadZero).pc

/-- What is left of the loop over `m` vectors that hold `pairs` pairs: every
pair costs at most a whole round. -/
def roundsLeft (m pairs : Nat) : Nat := (2 * m + 4) * pairs

/-- One more pair costs one more round. -/
theorem roundsLeft_succ (m pairs : Nat) :
    roundsLeft m (pairs + 1) = roundsLeft m pairs + (2 * m + 4) := by
  unfold roundsLeft
  rw [Nat.mul_succ]

/-- A bound on the steps that worker 0 has left in the shuffle of `vecs`. -/
def shuffleWork (vecs : List (List (K2 × V2))) : Pc j → Nat
  | .shuffleLock => roundsLeft vecs.length vecs.flatten.length + 2 * vecs.length + 7
  | .shuffleReset => roundsLeft vecs.length vecs.flatten.length + 2 * vecs.length + 6
  | .shuffleCopy interVecs =>
      roundsLeft vecs.length vecs.flatten.length + vecs.length + 5 +
        (vecs.length - interVecs.length)
  | .shuffleMaxKey interVecs =>
      roundsLeft interVecs.length interVecs.flatten.length + interVecs.length + 4
  | .shuffleDrain _ newVec visited todo =>
      roundsLeft (visited.length + todo.length) (visited.flatten.length + todo.flatten.length) +
        todo.length + 3 + if newVec = [] then 0 else visited.length + todo.length + 2
  | .shuffleCount _ _ visited todo =>
      roundsLeft (visited.length + todo.length) (visited.flatten.length + todo.flatten.length) +
        todo.length + 6 + (visited.length + todo.length)
  | .shuffleEndReset => 2
  | .shuffleUnlock => 1
  | _ => 0

/-- Worker 0 goes on to `pc` in the shuffle, closer to its end. -/
structure ShuffleStep (s : JobContext j) (pc : Pc j) (t : JobContext j) : Prop where
  threads : t.threads = Function.update s.threads j.threadZero
    ⟨pc, (s.threads j.threadZero).intermediateVec⟩
  calls : t.mapCalls = s.mapCalls
  outputs : t.outputVec = s.outputVec
  reduced : t.reduceCalls = s.reduceCalls
  stands : ShuffleAt s.intermediateVecs t.shuffledQueue t.jobStateBitwise
    t.atomicNextItemToProcess pc
  work : shuffleWork s.intermediateVecs pc <
    shuffleWork s.intermediateVecs (s.threads j.threadZero).pc

namespace ShuffleStep

variable {s t : JobContext j} {pc : Pc j}

/-- A step of the shuffle leaves the workers' vectors as they are: it works on
copies. -/
theorem vecs (h : ShuffleStep s pc t) : t.intermediateVecs = s.intermediateVecs := by
  have hgoto := goto_intermediateVecs s j.threadZero pc
  unfold intermediateVecs at hgoto ⊢
  rwa [h.threads]

/-- After a step the shuffle stands where worker 0 is. -/
theorem shuffling (h : ShuffleStep s pc t) (hs : s.Shuffling) : t.Shuffling := by
  refine ⟨h.vecs ▸ hs.sorted, ?_⟩
  rw [h.vecs, h.threads, Function.update_self]
  exact h.stands

/-- A step of the shuffle leaves less work. -/
theorem work_lt (h : ShuffleStep s pc t) :
    shuffleWork t.intermediateVecs (t.threads j.threadZero).pc <
      shuffleWork s.intermediateVecs (s.threads j.threadZero).pc := by
  rw [h.vecs, h.threads, Function.update_self]
  exact h.work

end ShuffleStep

namespace Shuffling

variable {s t : JobContext j} {pc : Pc j}

/-- Where the shuffle stands when worker 0 is at `pc`. -/
theorem at_pc (h : s.Shuffling) (hpc : (s.threads j.threadZero).pc = pc) :
    ShuffleAt s.intermediateVecs s.shuffledQueue s.jobStateBitwise s.atomicNextItemToProcess pc :=
  hpc ▸ h.at_zero

/-- Worker 0 copies the next vector. -/
theorem shuffleCopy (h : s.Shuffling) {interVecs : List (List (K2 × V2))}
    (hpc : (s.threads j.threadZero).pc = .shuffleCopy interVecs)
    (hlen : interVecs.length < j.numOfThreads) :
    ShuffleStep s (.shuffleCopy
        (interVecs ++ [(s.threads ⟨interVecs.length, hlen⟩).intermediateVec]))
      (s.goto j.threadZero (.shuffleCopy
        (interVecs ++ [(s.threads ⟨interVecs.length, hlen⟩).intermediateVec]))) := by
  obtain ⟨hqueue, hword, hcopy⟩ := h.at_pc hpc
  have hlt : interVecs.length < s.intermediateVecs.length := by
    rwa [length_intermediateVecs]
  refine ⟨rfl, rfl, rfl, rfl, ⟨hqueue, hword, ?_⟩, ?_⟩
  · rw [List.length_append, List.length_singleton, List.take_succ_eq_append_getElem hlt, ← hcopy]
    simp [intermediateVecs]
  · rw [hpc]
    simp only [shuffleWork, List.length_append, List.length_singleton]
    omega

/-- Worker 0 has copied all vectors. -/
theorem shuffleCopied (h : s.Shuffling) {interVecs : List (List (K2 × V2))}
    (hpc : (s.threads j.threadZero).pc = .shuffleCopy interVecs)
    (hlen : j.numOfThreads ≤ interVecs.length) :
    ShuffleStep s (.shuffleMaxKey interVecs) (s.goto j.threadZero (.shuffleMaxKey interVecs)) := by
  obtain ⟨hqueue, hword, hcopy⟩ := h.at_pc hpc
  rw [List.take_of_length_le (by rwa [length_intermediateVecs])] at hcopy
  refine ⟨rfl, rfl, rfl, rfl, ?_, ?_⟩
  · rw [hcopy, goto_shuffledQueue, hqueue]
    exact ⟨AtMaxKey.initial h.sorted, hword⟩
  · rw [hpc]
    simp only [shuffleWork, hcopy]
    omega

/-- Worker 0 has found the largest key that is left. -/
theorem shuffleStart (h : s.Shuffling) {interVecs : List (List (K2 × V2))} {currMaxKey : K2}
    (hpc : (s.threads j.threadZero).pc = .shuffleMaxKey interVecs)
    (hkey : getMaxKey j.order interVecs = some currMaxKey) :
    ShuffleStep s (.shuffleDrain currMaxKey [] [] interVecs)
      (s.goto j.threadZero (.shuffleDrain currMaxKey [] [] interVecs)) := by
  obtain ⟨hmax, hword⟩ := h.at_pc hpc
  refine ⟨rfl, rfl, rfl, rfl, ⟨hmax.start hkey, hword⟩, ?_⟩
  rw [hpc]
  simp [shuffleWork]

/-- Worker 0 finds no key: all copies are empty. -/
theorem shuffleExhausted (h : s.Shuffling) {interVecs : List (List (K2 × V2))}
    (hpc : (s.threads j.threadZero).pc = .shuffleMaxKey interVecs)
    (hkey : getMaxKey j.order interVecs = none) :
    ShuffleStep s .shuffleEndReset (s.goto j.threadZero .shuffleEndReset) := by
  obtain ⟨hmax, hword⟩ := h.at_pc hpc
  have hperm := Multiset.coe_eq_coe.mp (hmax.exhausted hkey)
  refine ⟨rfl, rfl, rfl, rfl, ⟨hmax.descending, hperm, hperm.length_eq ▸ hword⟩, ?_⟩
  rw [hpc]
  simp only [shuffleWork]
  omega

/-- A popped pair pays for the visits that come before the next pop. -/
theorem shufflePop (h : s.Shuffling) {currMaxKey : K2} {newVec v : List (K2 × V2)}
    {visited todo : List (List (K2 × V2))} {back : K2 × V2}
    (hpc : (s.threads j.threadZero).pc = .shuffleDrain currMaxKey newVec visited (v :: todo))
    (hback : v.getLast? = some back) (hequiv : j.order.equiv back.1 currMaxKey = true) :
    ShuffleStep s
      (.shuffleCount currMaxKey (newVec ++ [back]) visited (v.dropLast :: todo))
      (s.goto j.threadZero
        (.shuffleCount currMaxKey (newVec ++ [back]) visited (v.dropLast :: todo))) := by
  obtain ⟨hdrain, hword⟩ := h.at_pc hpc
  refine ⟨rfl, rfl, rfl, rfl, ⟨hdrain.pop hback hequiv, _, hword, ?_⟩, ?_⟩
  · rw [List.length_append, List.length_singleton, Nat.add_assoc]
    rfl
  · have hv : v.length = v.dropLast.length + 1 := by
      have hne : v ≠ [] := by
        rintro rfl
        cases hback
      have hpos := List.length_pos_iff.mpr hne
      rw [List.length_dropLast]
      omega
    have hpairs : visited.flatten.length + (v :: todo).flatten.length =
        visited.flatten.length + (v.dropLast :: todo).flatten.length + 1 := by
      rw [List.flatten_cons, List.flatten_cons, List.length_append, List.length_append, hv]
      omega
    rw [hpc]
    simp only [shuffleWork]
    rw [hpairs, roundsLeft_succ]
    simp only [List.length_cons]
    omega

/-- The back of a vector does not have the key: worker 0 goes on to the next
vector. -/
theorem shuffleSkip (h : s.Shuffling) {currMaxKey : K2} {newVec v : List (K2 × V2)}
    {visited todo : List (List (K2 × V2))}
    (hpc : (s.threads j.threadZero).pc = .shuffleDrain currMaxKey newVec visited (v :: todo))
    (hback : ∀ back, v.getLast? = some back → j.order.equiv back.1 currMaxKey = false) :
    ShuffleStep s (.shuffleDrain currMaxKey newVec (visited ++ [v]) todo)
      (s.goto j.threadZero (.shuffleDrain currMaxKey newVec (visited ++ [v]) todo)) := by
  obtain ⟨hdrain, hword⟩ := h.at_pc hpc
  refine ⟨rfl, rfl, rfl, rfl, ⟨hdrain.skip hback, hword⟩, ?_⟩
  have hlength : (visited ++ [v]).length + todo.length = visited.length + (v :: todo).length := by
    rw [List.length_append, List.length_singleton, List.length_cons]
    omega
  have hpairs : (visited ++ [v]).flatten.length + todo.flatten.length =
      visited.flatten.length + (v :: todo).flatten.length := by
    simp [Nat.add_assoc]
  rw [hpc]
  simp only [shuffleWork]
  rw [hlength, hpairs, List.length_cons]
  omega

/-- Worker 0 has been through all vectors: the group is complete. -/
theorem shufflePush (h : s.Shuffling) {currMaxKey : K2} {newVec : List (K2 × V2)}
    {visited : List (List (K2 × V2))}
    (hpc : (s.threads j.threadZero).pc = .shuffleDrain currMaxKey newVec visited []) :
    ShuffleStep s (.shuffleMaxKey visited)
      ({ s with shuffledQueue := s.shuffledQueue ++ [newVec] }.goto j.threadZero
        (.shuffleMaxKey visited)) := by
  obtain ⟨hdrain, hword⟩ := h.at_pc hpc
  refine ⟨rfl, rfl, rfl, rfl, ⟨hdrain.finish, ?_⟩, ?_⟩
  · simpa using hword
  · -- the round has found at least one pair
    have hne : newVec ≠ [] := by
      rcases hdrain.found with hne | ⟨q, hq, _⟩
      · exact hne
      · cases hq
    rw [hpc]
    simp [shuffleWork, hne]
    omega

/-- Worker 0 counts the pair that it moved. -/
theorem shuffleCount (h : s.Shuffling) {currMaxKey : K2} {newVec : List (K2 × V2)}
    {visited todo : List (List (K2 × V2))}
    (hpc : (s.threads j.threadZero).pc = .shuffleCount currMaxKey newVec visited todo) :
    ShuffleStep s (.shuffleDrain currMaxKey newVec visited todo)
      ((s.addNumberOfProcessedItems .shuffle 1).goto j.threadZero
        (.shuffleDrain currMaxKey newVec visited todo)) := by
  obtain ⟨hdrain, count, hword, hcount⟩ := h.at_pc hpc
  refine ⟨rfl, rfl, rfl, rfl, ⟨hdrain, ?_⟩, ?_⟩
  · simp [hword, JobState.addNumberOfProcessedItems_encode, JobState.addNumberOfProcessedItems,
      hcount]
  · rw [hpc]
    simp only [shuffleWork]
    split <;> omega

end Shuffling

/-- **One step of the shuffle**, until worker 0 is about to move the stage on. -/
theorem Transition.shuffleStep {s t : JobContext j} (h : s.Shuffling)
    (htr : Transition s j.threadZero t) (hstay : (s.threads j.threadZero).pc ≠ .reduceAdvance) :
    ∃ pc, ShuffleStep s pc t := by
  have hat := h.at_zero
  cases htr with
  | shuffleLock hpc =>
      rw [hpc] at hat
      exact ⟨_, rfl, rfl, rfl, rfl, hat, by rw [hpc]; exact Nat.lt_succ_self _⟩
  | shuffleReset hpc =>
      rw [hpc] at hat
      refine ⟨_, rfl, rfl, rfl, rfl, ⟨hat.1, hat.2, rfl⟩, ?_⟩
      rw [hpc]
      simp only [shuffleWork, List.length_nil]
      omega
  | shuffleCopy interVecs hpc hlen => exact ⟨_, h.shuffleCopy hpc hlen⟩
  | shuffleCopied interVecs hpc hlen => exact ⟨_, h.shuffleCopied hpc hlen⟩
  | shuffleStart interVecs currMaxKey hpc hkey => exact ⟨_, h.shuffleStart hpc hkey⟩
  | shuffleExhausted interVecs hpc hkey => exact ⟨_, h.shuffleExhausted hpc hkey⟩
  | shufflePop currMaxKey newVec visited v todo back hpc hback hequiv =>
      exact ⟨_, h.shufflePop hpc hback hequiv⟩
  | shuffleSkip currMaxKey newVec visited v todo hpc hback => exact ⟨_, h.shuffleSkip hpc hback⟩
  | shufflePush currMaxKey newVec visited hpc => exact ⟨_, h.shufflePush hpc⟩
  | shuffleCount currMaxKey newVec visited todo hpc => exact ⟨_, h.shuffleCount hpc⟩
  | shuffleEndReset hpc =>
      rw [hpc] at hat
      exact ⟨_, rfl, rfl, rfl, rfl, ⟨hat.1, hat.2.1, hat.2.2, rfl⟩,
        by rw [hpc]; exact Nat.one_lt_two⟩
  | shuffleUnlock hpc =>
      rw [hpc] at hat
      exact ⟨_, rfl, rfl, rfl, rfl, hat, by rw [hpc]; exact Nat.one_pos⟩
  | reduceAdvance hpc => exact absurd hpc hstay
  | _ => simp_all [ShuffleAt]

namespace ShuffleInv

variable {s t : JobContext j} {pc : Pc j}

/-- In the shuffle phase the shuffle stands where worker 0 is. -/
theorem shuffling (h : s.ShuffleInv) : s.Shuffling := ⟨h.mapDone.sorted, h.at_zero⟩

/-- Where the shuffle stands when worker 0 is at `pc`. -/
theorem at_pc (h : s.ShuffleInv) (hpc : (s.threads j.threadZero).pc = pc) :
    ShuffleAt s.intermediateVecs s.shuffledQueue s.jobStateBitwise s.atomicNextItemToProcess pc :=
  h.shuffling.at_pc hpc

/-- A step of the shuffle keeps what only the other phases change. -/
theorem step (h : s.ShuffleInv) (hstep : ShuffleStep s pc t) : t.ShuffleInv := by
  refine ⟨h.mapDone.of_eq hstep.calls hstep.vecs, ?_, ?_, (hstep.shuffling h.shuffling).at_zero⟩
  · exact hstep.outputs.trans h.outputs
  · exact hstep.reduced.trans h.reduced

/-- The other workers rest, which worker 0 does not see. -/
theorem rest (h : s.ShuffleInv) {w : Fin j.numOfThreads} (hw : w ≠ j.threadZero) (pc : Pc j) :
    (s.goto w pc).ShuffleInv := by
  refine ⟨h.mapDone.of_eq rfl (goto_intermediateVecs _ _ _), h.outputs, h.reduced, ?_⟩
  rw [goto_threads, Function.update_of_ne hw.symm, goto_intermediateVecs]
  exact h.at_zero

end ShuffleInv

end JobContext

end MapReduce
