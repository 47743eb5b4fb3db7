import HujiOS.Grouping
import HujiOS.MapReduce.JobState
import HujiOS.Runs
import Mathlib.Data.List.OfFn
import Mathlib.Logic.Function.Basic

/-!
# The MapReduce job and its worker threads

A job runs `numOfThreads` workers over shared data.  One action is one atomic
step of one worker: an access to an atomic variable, a whole section under
`jobStateMutex_` or `outputVecMutex_`, one side of a barrier call, or a piece of
thread-local work between two of these.  The order of the actions is arbitrary.

`Pc` is the program counter of a worker together with its local variables.
Waiting at the barrier ends once every worker has arrived at it.  `mapCalls` and
`reduceCalls` record the calls of the client's routines and are read by no step.
-/

namespace MapReduce

open Grouping Runs

universe u

variable {K1 V1 K2 V2 K3 V3 : Type u}

/-- `map` and `reduce`, each with the pairs it emits during one call, in order. -/
structure MapReduceClient (K1 V1 K2 V2 K3 V3 : Type u) where
  map : K1 → V1 → List (K2 × V2)
  reduce : List (K2 × V2) → List (K3 × V3)

/-- `std::sort` by key.  Pairs with equivalent keys may come in any order. -/
structure SortRoutine (order : KeyOrder K2) (V2 : Type u) where
  sort : List (K2 × V2) → List (K2 × V2)
  perm : ∀ v, (sort v).Perm v
  sorted : ∀ v, order.Sorted (sort v)

/-- The arguments of `startMapReduceJob`; the output vector starts out empty. -/
structure Job (K1 V1 K2 V2 K3 V3 : Type u) where
  client : MapReduceClient K1 V1 K2 V2 K3 V3
  -- `K2::operator<`
  order : KeyOrder K2
  stdSort : SortRoutine order V2
  inputVec : List (K1 × V1)
  numOfThreads : Nat
  numOfThreads_pos : 0 < numOfThreads

namespace Job

variable (j : Job K1 V1 K2 V2 K3 V3)

/-- `getNumOfInputPairs`. -/
def numOfInputElems : Nat := j.inputVec.length

/-- The worker that runs `_threadUniqueEntryPoint`. -/
def threadZero : Fin j.numOfThreads := ⟨0, j.numOfThreads_pos⟩

/-- What the client's `map` emits on the input pair at `ix`. -/
def mapAt (ix : Fin j.numOfInputElems) : List (K2 × V2) :=
  let elem := j.inputVec.get ix
  j.client.map elem.1 elem.2

/-- Everything `map` emits over the whole input. -/
def emitted : List (K2 × V2) := j.inputVec.flatMap fun elem => j.client.map elem.1 elem.2

end Job

/-- Where a worker is in its entry point, with its local variables. -/
inductive Pc (j : Job K1 V1 K2 V2 K3 V3)
  -- `_invokeMapPhase`
  | mapSetStage
  | mapNext
  | mapCall (ix : Fin j.numOfInputElems)
  -- the client's `map` is running and has `pairs` left to emit
  | mapping (pairs : List (K2 × V2))
  | sort
  | firstBarrier
  | firstWait
  -- `setNextPhase` and `_invokeShufflePhase`, worker 0 only
  | shuffleSetStage
  | shuffleLock
  | shuffleReset
  | shuffleCopy (interVecs : List (List (K2 × V2)))
  | shuffleMaxKey (interVecs : List (List (K2 × V2)))
  -- the inner loop over `interVecs`, which is `visited ++ todo`
  | shuffleDrain (currMaxKey : K2) (newVec : List (K2 × V2)) (visited todo : List (List (K2 × V2)))
  | shuffleCount (currMaxKey : K2) (newVec : List (K2 × V2)) (visited todo : List (List (K2 × V2)))
  | shuffleEndReset
  | shuffleUnlock
  | reduceAdvance
  | secondBarrier
  | secondWait
  | reduceSetStage
  -- `_invokeReducePhase`
  | reduceCopy
  | reduceNext (shuffleQueue : List (List (K2 × V2)))
  | reduceCall (shuffleQueue : List (List (K2 × V2))) (ix : Fin shuffleQueue.length)
  -- the client's `reduce` is running and has `outs` left to emit
  | reducing (shuffleQueue : List (List (K2 × V2))) (ix : Fin shuffleQueue.length)
      (outs : List (K3 × V3))
  | finished

/-- A worker: its program counter and its `intermediateVec_`. -/
structure ThreadContext (j : Job K1 V1 K2 V2 K3 V3) where
  pc : Pc j
  intermediateVec : List (K2 × V2)

/-- The fields of `JobContext` that the workers share, with the workers; the
locks come with `LockedJob`. -/
structure JobContext (j : Job K1 V1 K2 V2 K3 V3) where
  jobStateBitwise : Nat
  -- a `size_t`: it stays below the size of a vector plus the number of threads
  atomicNextItemToProcess : Nat
  shuffledQueue : List (List (K2 × V2))
  outputVec : List (K3 × V3)
  threads : Fin j.numOfThreads → ThreadContext j
  mapCalls : List (Fin j.numOfInputElems)
  reduceCalls : List (List (K2 × V2))

namespace Pc

variable {j : Job K1 V1 K2 V2 K3 V3}

/-- How many barrier calls the worker has arrived at. -/
def arrivals : Pc j → Nat
  | mapSetStage | mapNext | mapCall _ | mapping _ | sort | firstBarrier => 0
  | firstWait | shuffleSetStage | shuffleLock | shuffleReset | shuffleCopy _ | shuffleMaxKey _
  | shuffleDrain .. | shuffleCount .. | shuffleEndReset | shuffleUnlock | reduceAdvance
  | secondBarrier => 1
  | secondWait | reduceSetStage | reduceCopy | reduceNext _ | reduceCall .. | reducing ..
  | finished => 2

/-- How many barrier calls the worker has returned from. -/
def passed : Pc j → Nat
  | mapSetStage | mapNext | mapCall _ | mapping _ | sort | firstBarrier | firstWait => 0
  | shuffleSetStage | shuffleLock | shuffleReset | shuffleCopy _ | shuffleMaxKey _
  | shuffleDrain .. | shuffleCount .. | shuffleEndReset | shuffleUnlock | reduceAdvance
  | secondBarrier | secondWait => 1
  | reduceSetStage | reduceCopy | reduceNext _ | reduceCall .. | reducing .. | finished => 2

/-- Returned from the entry point. -/
def isFinished : Pc j → Bool
  | finished => true
  | _ => false

end Pc

/-- The key with no greater one among the last pairs of `interVecs`. -/
def getMaxKey (order : KeyOrder K2) (interVecs : List (List (K2 × V2))) : Option K2 :=
  interVecs.foldl (fun maxKey v =>
    v.getLast?.elim maxKey fun back =>
      maxKey.elim (some back.1) fun key =>
        if order.lt key back.1 then some back.1 else some key) none

namespace JobContext

variable {j : Job K1 V1 K2 V2 K3 V3}

/-- The job before any worker has started. -/
def initial (j : Job K1 V1 K2 V2 K3 V3) : JobContext j where
  jobStateBitwise := 0
  atomicNextItemToProcess := 0
  shuffledQueue := []
  outputVec := []
  threads := fun _ => ⟨.mapSetStage, []⟩
  mapCalls := []
  reduceCalls := []

/-- The job with a new state of worker `w`. -/
def setThread (s : JobContext j) (w : Fin j.numOfThreads) (thread : ThreadContext j) :
    JobContext j :=
  { s with threads := Function.update s.threads w thread }

/-- Worker `w` moves to `pc` and keeps its vector. -/
def goto (s : JobContext j) (w : Fin j.numOfThreads) (pc : Pc j) : JobContext j :=
  s.setThread w ⟨pc, (s.threads w).intermediateVec⟩

/-- `setNextPhase`. -/
@[simp] def setNextPhase (s : JobContext j) : JobContext j :=
  { s with jobStateBitwise := Word.setNextPhase s.jobStateBitwise }

/-- `addNumberOfProcessedItems`. -/
@[simp] def addNumberOfProcessedItems (s : JobContext j) (currStage : Stage) (amount : Nat) :
    JobContext j :=
  { s with
    jobStateBitwise := Word.addNumberOfProcessedItems s.jobStateBitwise currStage amount }

/-- `setJobStage`. -/
@[simp] def setJobStage (s : JobContext j) (currentStage : Stage) : JobContext j :=
  { s with jobStateBitwise := Word.setJobStage s.jobStateBitwise currentStage }

/-- `resetAtomicNextItemToProcess`. -/
@[simp] def resetAtomicNextItemToProcess (s : JobContext j) : JobContext j :=
  { s with atomicNextItemToProcess := 0 }

/-- The counter after a `getNextItemToProcess`, which returns the counter before it. -/
@[simp] def takeNextItemToProcess (s : JobContext j) : JobContext j :=
  { s with atomicNextItemToProcess := s.atomicNextItemToProcess + 1 }

/-- Every worker has arrived at the barrier call that `w` waits in. -/
def Released (s : JobContext j) (w : Fin j.numOfThreads) : Prop :=
  ∀ v, (s.threads w).pc.arrivals ≤ (s.threads v).pc.arrivals

instance (s : JobContext j) (w : Fin j.numOfThreads) : Decidable (s.Released w) :=
  inferInstanceAs (Decidable (∀ v, (s.threads w).pc.arrivals ≤ (s.threads v).pc.arrivals))

/-- The vectors of all workers, in the order of their ids. -/
def intermediateVecs (s : JobContext j) : List (List (K2 × V2)) :=
  List.ofFn fun w => (s.threads w).intermediateVec

/-- `getNumOfIntermediatePairs`. -/
def getNumOfIntermediatePairs (s : JobContext j) : Nat :=
  (s.intermediateVecs.map List.length).sum

/-- `_getTotalItemsOfCurrPhase`, what the count is divided by. -/
def getTotalItemsOfCurrPhase (s : JobContext j) (currJobState : JobState) : Nat :=
  match currJobState.stage with
  | .undefined => 1
  | .map => j.numOfInputElems
  | .shuffle | .reduce => s.getNumOfIntermediatePairs

/-- A worker that waits at the barrier returns from the call. -/
def returnFromBarrier (s : JobContext j) (w : Fin j.numOfThreads) : JobContext j :=
  match (s.threads w).pc with
  | .firstWait => s.goto w (if w = j.threadZero then .shuffleSetStage else .secondBarrier)
  | .secondWait => s.goto w .reduceSetStage
  | _ => s

/-- One atomic step of worker `w`; a waiting or finished worker has none. -/
def step (s : JobContext j) (w : Fin j.numOfThreads) : Option (JobContext j) :=
  match (s.threads w).pc with
  | .mapSetStage => some ((s.setJobStage .map).goto w .mapNext)
  | .mapNext =>
      let ix := s.atomicNextItemToProcess
      some (s.takeNextItemToProcess.goto w
        (if h : ix < j.numOfInputElems then .mapCall ⟨ix, h⟩ else .sort))
  | .mapCall ix =>
      some ({ s with mapCalls := s.mapCalls ++ [ix] }.goto w (.mapping (j.mapAt ix)))
  -- `emit2`, on the worker's own vector
  | .mapping (p :: pairs) =>
      some (s.setThread w ⟨.mapping pairs, (s.threads w).intermediateVec ++ [p]⟩)
  | .mapping [] => some ((s.addNumberOfProcessedItems .map 1).goto w .mapNext)
  | .sort =>
      some (s.setThread w ⟨.firstBarrier, j.stdSort.sort (s.threads w).intermediateVec⟩)
  | .firstBarrier => some (s.goto w .firstWait)
  | .firstWait => if s.Released w then some (s.returnFromBarrier w) else none
  | .shuffleSetStage => some (s.setNextPhase.goto w .shuffleLock)
  | .shuffleLock => some (s.goto w .shuffleReset)
  | .shuffleReset => some (s.resetAtomicNextItemToProcess.goto w (.shuffleCopy []))
  | .shuffleCopy interVecs =>
      if h : interVecs.length < j.numOfThreads then
        some (s.goto w (.shuffleCopy
          (interVecs ++ [(s.threads ⟨interVecs.length, h⟩).intermediateVec])))
      else some (s.goto w (.shuffleMaxKey interVecs))
  | .shuffleMaxKey interVecs =>
      match getMaxKey j.order interVecs with
      | some currMaxKey => some (s.goto w (.shuffleDrain currMaxKey [] [] interVecs))
      | none => some (s.goto w .shuffleEndReset)
  | .shuffleDrain currMaxKey newVec visited (v :: todo) =>
      match v.getLast? with
      | some back =>
          if j.order.equiv back.1 currMaxKey then
            some (s.goto w
              (.shuffleCount currMaxKey (newVec ++ [back]) visited (v.dropLast :: todo)))
          else some (s.goto w (.shuffleDrain currMaxKey newVec (visited ++ [v]) todo))
      | none => some (s.goto w (.shuffleDrain currMaxKey newVec (visited ++ [v]) todo))
  | .shuffleDrain _ newVec visited [] =>
      some ({ s with shuffledQueue := s.shuffledQueue ++ [newVec] }.goto w
        (.shuffleMaxKey visited))
  | .shuffleCount currMaxKey newVec visited todo =>
      some ((s.addNumberOfProcessedItems .shuffle 1).goto w
        (.shuffleDrain currMaxKey newVec visited todo))
  | .shuffleEndReset => some (s.resetAtomicNextItemToProcess.goto w .shuffleUnlock)
  | .shuffleUnlock => some (s.goto w .reduceAdvance)
  | .reduceAdvance => some (s.setNextPhase.goto w .secondBarrier)
  | .secondBarrier => some (s.goto w .secondWait)
  | .secondWait => if s.Released w then some (s.returnFromBarrier w) else none
  | .reduceSetStage => some ((s.setJobStage .reduce).goto w .reduceCopy)
  | .reduceCopy => some (s.goto w (.reduceNext s.shuffledQueue))
  | .reduceNext shuffleQueue =>
      let ix := s.atomicNextItemToProcess
      some (s.takeNextItemToProcess.goto w
        (if h : ix < shuffleQueue.length then .reduceCall shuffleQueue ⟨ix, h⟩ else .finished))
  | .reduceCall shuffleQueue ix =>
      some ({ s with reduceCalls := s.reduceCalls ++ [shuffleQueue.get ix] }.goto w
        (.reducing shuffleQueue ix (j.client.reduce (shuffleQueue.get ix))))
  -- `emit3`: `updateOutputVector` under its mutex
  | .reducing shuffleQueue ix (out :: outs) =>
      some ({ s with outputVec := s.outputVec ++ [out] }.goto w (.reducing shuffleQueue ix outs))
  | .reducing shuffleQueue ix [] =>
      some ((s.addNumberOfProcessedItems .reduce (shuffleQueue.get ix).length).goto w
        (.reduceNext shuffleQueue))
  | .finished => none

end JobContext

/-- What can happen next: a step of a worker, or a call of `getJobState` by
whoever holds the job handle. -/
inductive Action (j : Job K1 V1 K2 V2 K3 V3)
  | worker (w : Fin j.numOfThreads)
  | getJobState

namespace JobContext

variable {j : Job K1 V1 K2 V2 K3 V3}

/-- The stage and the count a call of `getJobState` reports. -/
def getJobState (s : JobContext j) : JobState := Word.getJobState s.jobStateBitwise

/-- What the action does to the job; a report reads only. -/
def next (s : JobContext j) : Action j → Option (JobContext j)
  | .worker w => s.step w
  | .getJobState => some s

/-- Every worker has returned from its entry point. -/
def Finished (s : JobContext j) : Prop := ∀ w, (s.threads w).pc.isFinished = true

instance (s : JobContext j) : Decidable s.Finished :=
  inferInstanceAs (Decidable (∀ w, (s.threads w).pc.isFinished = true))

/-- Some interleaving of the workers leads to `s`. -/
def Reachable (s : JobContext j) : Prop := Reaches next (initial j) s

/-! ## What a move leaves alone -/

section Frame

variable (s : JobContext j) (w : Fin j.numOfThreads) (thread : ThreadContext j) (pc : Pc j)

/-- Only worker `w` is moved. -/
@[simp] theorem setThread_threads :
    (s.setThread w thread).threads = Function.update s.threads w thread := rfl
@[simp] theorem setThread_mapCalls : (s.setThread w thread).mapCalls = s.mapCalls := rfl

/-- Only the program counter of worker `w` changes. -/
@[simp] theorem goto_threads :
    (s.goto w pc).threads =
      Function.update s.threads w ⟨pc, (s.threads w).intermediateVec⟩ := rfl
@[simp] theorem goto_jobStateBitwise : (s.goto w pc).jobStateBitwise = s.jobStateBitwise := rfl
@[simp] theorem goto_next :
    (s.goto w pc).atomicNextItemToProcess = s.atomicNextItemToProcess := rfl
@[simp] theorem goto_shuffledQueue : (s.goto w pc).shuffledQueue = s.shuffledQueue := rfl
@[simp] theorem goto_outputVec : (s.goto w pc).outputVec = s.outputVec := rfl
@[simp] theorem goto_mapCalls : (s.goto w pc).mapCalls = s.mapCalls := rfl
@[simp] theorem goto_reduceCalls : (s.goto w pc).reduceCalls = s.reduceCalls := rfl

end Frame

end JobContext

end MapReduce
