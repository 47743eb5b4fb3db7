import HujiOS.MapReduce.Workers

/-!
# What one step of a worker can do

`Transition s w t` lists the steps of worker `w` one by one, each with the
guard under which the source takes it.  `step_transition` is the only place
where `step` is unfolded.
-/

namespace MapReduce

open Grouping Runs

universe u

variable {K1 V1 K2 V2 K3 V3 : Type u} {j : Job K1 V1 K2 V2 K3 V3}

namespace JobContext

/-- The steps of worker `w`, one constructor for each place of the source
where it can be, with the guard under which the step is taken and the state it
leads to. -/
inductive Transition (s : JobContext j) (w : Fin j.numOfThreads) : JobContext j → Prop
  | mapSetStage (hpc : (s.threads w).pc = .mapSetStage) :
      Transition s w ((s.setJobStage .map).goto w .mapNext)
  | mapTake (hpc : (s.threads w).pc = .mapNext) (ix : Fin j.numOfInputElems)
      (hix : s.atomicNextItemToProcess = ix) :
      Transition s w (s.takeNextItemToProcess.goto w (.mapCall ix))
  | mapExhausted (hpc : (s.threads w).pc = .mapNext)
      (hlen : j.numOfInputElems ≤ s.atomicNextItemToProcess) :
      Transition s w (s.takeNextItemToProcess.goto w .sort)
  | mapCall (ix : Fin j.numOfInputElems) (hpc : (s.threads w).pc = .mapCall ix) :
      Transition s w ({ s with mapCalls := s.mapCalls ++ [ix] }.goto w (.mapping (j.mapAt ix)))
  | emit2 (p : K2 × V2) (pairs : List (K2 × V2)) (hpc : (s.threads w).pc = .mapping (p :: pairs)) :
      Transition s w (s.setThread w ⟨.mapping pairs, (s.threads w).intermediateVec ++ [p]⟩)
  | mapReturn (hpc : (s.threads w).pc = .mapping []) :
      Transition s w ((s.addNumberOfProcessedItems .map 1).goto w .mapNext)
  | sort (hpc : (s.threads w).pc = .sort) :
      Transition s w
        (s.setThread w ⟨.firstBarrier, j.stdSort.sort (s.threads w).intermediateVec⟩)
  | firstArrive (hpc : (s.threads w).pc = .firstBarrier) : Transition s w (s.goto w .firstWait)
  | firstReturnZero (hpc : (s.threads w).pc = .firstWait) (hrel : s.Released w)
      (hzero : w = j.threadZero) : Transition s w (s.goto w .shuffleSetStage)
  | firstReturn (hpc : (s.threads w).pc = .firstWait) (hrel : s.Released w)
      (hzero : w ≠ j.threadZero) : Transition s w (s.goto w .secondBarrier)
  | shuffleSetStage (hpc : (s.threads w).pc = .shuffleSetStage) :
      Transition s w (s.setNextPhase.goto w .shuffleLock)
  | shuffleLock (hpc : (s.threads w).pc = .shuffleLock) : Transition s w (s.goto w .shuffleReset)
  | shuffleReset (hpc : (s.threads w).pc = .shuffleReset) :
      Transition s w (s.resetAtomicNextItemToProcess.goto w (.shuffleCopy []))
  | shuffleCopy (interVecs : List (List (K2 × V2)))
      (hpc : (s.threads w).pc = .shuffleCopy interVecs) (hlen : interVecs.length < j.numOfThreads) :
      Transition s w (s.goto w (.shuffleCopy
        (interVecs ++ [(s.threads ⟨interVecs.length, hlen⟩).intermediateVec])))
  | shuffleCopied (interVecs : List (List (K2 × V2)))
      (hpc : (s.threads w).pc = .shuffleCopy interVecs) (hlen : j.numOfThreads ≤ interVecs.length) :
      Transition s w (s.goto w (.shuffleMaxKey interVecs))
  | shuffleStart (interVecs : List (List (K2 × V2))) (currMaxKey : K2)
      (hpc : (s.threads w).pc = .shuffleMaxKey interVecs)
      (hkey : getMaxKey j.order interVecs = some currMaxKey) :
      Transition s w (s.goto w (.shuffleDrain currMaxKey [] [] interVecs))
  | shuffleExhausted (interVecs : List (List (K2 × V2)))
      (hpc : (s.threads w).pc = .shuffleMaxKey interVecs)
      (hkey : getMaxKey j.order interVecs = none) : Transition s w (s.goto w .shuffleEndReset)
  | shufflePop (currMaxKey : K2) (newVec : List (K2 × V2)) (visited : List (List (K2 × V2)))
      (v : List (K2 × V2)) (todo : List (List (K2 × V2))) (back : K2 × V2)
      (hpc : (s.threads w).pc = .shuffleDrain currMaxKey newVec visited (v :: todo))
      (hback : v.getLast? = some back) (hequiv : j.order.equiv back.1 currMaxKey = true) :
      Transition s w (s.goto w
        (.shuffleCount currMaxKey (newVec ++ [back]) visited (v.dropLast :: todo)))
  | shuffleSkip (currMaxKey : K2) (newVec : List (K2 × V2)) (visited : List (List (K2 × V2)))
      (v : List (K2 × V2)) (todo : List (List (K2 × V2)))
      (hpc : (s.threads w).pc = .shuffleDrain currMaxKey newVec visited (v :: todo))
      (hback : ∀ back, v.getLast? = some back → j.order.equiv back.1 currMaxKey = false) :
      Transition s w (s.goto w (.shuffleDrain currMaxKey newVec (visited ++ [v]) todo))
  | shufflePush (currMaxKey : K2) (newVec : List (K2 × V2)) (visited : List (List (K2 × V2)))
      (hpc : (s.threads w).pc = .shuffleDrain currMaxKey newVec visited []) :
      Transition s w
        ({ s with shuffledQueue := s.shuffledQueue ++ [newVec] }.goto w (.shuffleMaxKey visited))
  | shuffleCount (currMaxKey : K2) (newVec : List (K2 × V2)) (visited todo : List (List (K2 × V2)))
      (hpc : (s.threads w).pc = .shuffleCount currMaxKey newVec visited todo) :
      Transition s w ((s.addNumberOfProcessedItems .shuffle 1).goto w
        (.shuffleDrain currMaxKey newVec visited todo))
  | shuffleEndReset (hpc : (s.threads w).pc = .shuffleEndReset) :
      Transition s w (s.resetAtomicNextItemToProcess.goto w .shuffleUnlock)
  | shuffleUnlock (hpc : (s.threads w).pc = .shuffleUnlock) :
      Transition s w (s.goto w .reduceAdvance)
  | reduceAdvance (hpc : (s.threads w).pc = .reduceAdvance) :
      Transition s w (s.setNextPhase.goto w .secondBarrier)
  | secondArrive (hpc : (s.threads w).pc = .secondBarrier) : Transition s w (s.goto w .secondWait)
  | secondReturn (hpc : (s.threads w).pc = .secondWait) (hrel : s.Released w) :
      Transition s w (s.goto w .reduceSetStage)
  | reduceSetStage (hpc : (s.threads w).pc = .reduceSetStage) :
      Transition s w ((s.setJobStage .reduce).goto w .reduceCopy)
  | reduceCopy (hpc : (s.threads w).pc = .reduceCopy) :
      Transition s w (s.goto w (.reduceNext s.shuffledQueue))
  | reduceTake (shuffleQueue : List (List (K2 × V2))) (ix : Fin shuffleQueue.length)
      (hpc : (s.threads w).pc = .reduceNext shuffleQueue) (hix : s.atomicNextItemToProcess = ix) :
      Transition s w (s.takeNextItemToProcess.goto w (.reduceCall shuffleQueue ix))
  | reduceExhausted (shuffleQueue : List (List (K2 × V2)))
      (hpc : (s.threads w).pc = .reduceNext shuffleQueue)
      (hlen : shuffleQueue.length ≤ s.atomicNextItemToProcess) :
      Transition s w (s.takeNextItemToProcess.goto w .finished)
  | reduceCall (shuffleQueue : List (List (K2 × V2))) (ix : Fin shuffleQueue.length)
      (hpc : (s.threads w).pc = .reduceCall shuffleQueue ix) :
      Transition s w ({ s with reduceCalls := s.reduceCalls ++ [shuffleQueue.get ix] }.goto w
        (.reducing shuffleQueue ix (j.client.reduce (shuffleQueue.get ix))))
  | emit3 (shuffleQueue : List (List (K2 × V2))) (ix : Fin shuffleQueue.length)
      (out : K3 × V3) (outs : List (K3 × V3))
      (hpc : (s.threads w).pc = .reducing shuffleQueue ix (out :: outs)) :
      Transition s w
        ({ s with outputVec := s.outputVec ++ [out] }.goto w (.reducing shuffleQueue ix outs))
  | reduceReturn (shuffleQueue : List (List (K2 × V2))) (ix : Fin shuffleQueue.length)
      (hpc : (s.threads w).pc = .reducing shuffleQueue ix []) :
      Transition s w ((s.addNumberOfProcessedItems .reduce (shuffleQueue.get ix).length).goto w
        (.reduceNext shuffleQueue))

/-- Every step of a worker is one of those that `Transition` lists. -/
theorem step_transition {s t : JobContext j} {w : Fin j.numOfThreads} (h : s.step w = some t) :
    Transition s w t := by
  unfold step at h
  cases hpc : (s.threads w).pc with
  | mapSetStage =>
      simp only [hpc, Option.some.injEq] at h
      exact h ▸ .mapSetStage hpc
  | mapNext =>
      simp only [hpc, Option.some.injEq] at h
      subst h
      split
      · exact .mapTake hpc ⟨_, ‹_›⟩ rfl
      · exact .mapExhausted hpc (Nat.le_of_not_lt ‹_›)
  | mapCall ix =>
      simp only [hpc, Option.some.injEq] at h
      exact h ▸ .mapCall ix hpc
  | mapping pairs =>
      cases pairs with
      | nil =>
          simp only [hpc, Option.some.injEq] at h
          exact h ▸ .mapReturn hpc
      | cons p pairs =>
          simp only [hpc, Option.some.injEq] at h
          exact h ▸ .emit2 p pairs hpc
  | sort =>
      simp only [hpc, Option.some.injEq] at h
      exact h ▸ .sort hpc
  | firstBarrier =>
      simp only [hpc, Option.some.injEq] at h
      exact h ▸ .firstArrive hpc
  | firstWait =>
      simp only [hpc, Option.ite_none_right_eq_some, Option.some.injEq] at h
      obtain ⟨hrel, rfl⟩ := h
      rw [returnFromBarrier, hpc]
      dsimp only
      split
      · exact .firstReturnZero hpc hrel ‹_›
      · exact .firstReturn hpc hrel ‹_›
  | shuffleSetStage =>
      simp only [hpc, Option.some.injEq] at h
      exact h ▸ .shuffleSetStage hpc
  | shuffleLock =>
      simp only [hpc, Option.some.injEq] at h
      exact h ▸ .shuffleLock hpc
  | shuffleReset =>
      simp only [hpc, Option.some.injEq] at h
      exact h ▸ .shuffleReset hpc
  | shuffleCopy interVecs =>
      simp only [hpc] at h
      split at h
      · exact Option.some.inj h ▸ .shuffleCopy interVecs hpc ‹_›
      · exact Option.some.inj h ▸ .shuffleCopied interVecs hpc (Nat.le_of_not_lt ‹_›)
  | shuffleMaxKey interVecs =>
      simp only [hpc] at h
      split at h
      · exact Option.some.inj h ▸ .shuffleStart interVecs _ hpc ‹_›
      · exact Option.some.inj h ▸ .shuffleExhausted interVecs hpc ‹_›
  | shuffleDrain currMaxKey newVec visited todo =>
      cases todo with
      | nil =>
          simp only [hpc, Option.some.injEq] at h
          exact h ▸ .shufflePush currMaxKey newVec visited hpc
      | cons v todo =>
          simp only [hpc] at h
          split at h
          · rename_i back hback
            split at h
            · exact Option.some.inj h ▸
                .shufflePop currMaxKey newVec visited v todo back hpc hback ‹_›
            · rename_i hne
              refine Option.some.inj h ▸ .shuffleSkip currMaxKey newVec visited v todo hpc ?_
              intro back' hback'
              obtain rfl := Option.some.inj (hback.symm.trans hback')
              exact eq_false_of_ne_true hne
          · rename_i hnone
            refine Option.some.inj h ▸ .shuffleSkip currMaxKey newVec visited v todo hpc ?_
            simp [hnone]
  | shuffleCount currMaxKey newVec visited todo =>
      simp only [hpc, Option.some.injEq] at h
      exact h ▸ .shuffleCount currMaxKey newVec visited todo hpc
  | shuffleEndReset =>
      simp only [hpc, Option.some.injEq] at h
      exact h ▸ .shuffleEndReset hpc
  | shuffleUnlock =>
      simp only [hpc, Option.some.injEq] at h
      exact h ▸ .shuffleUnlock hpc
  | reduceAdvance =>
      simp only [hpc, Option.some.injEq] at h
      exact h ▸ .reduceAdvance hpc
  | secondBarrier =>
      simp only [hpc, Option.some.injEq] at h
      exact h ▸ .secondArrive hpc
  | secondWait =>
      simp only [hpc, Option.ite_none_right_eq_some, Option.some.injEq] at h
      obtain ⟨hrel, rfl⟩ := h
      rw [returnFromBarrier, hpc]
      exact .secondReturn hpc hrel
  | reduceSetStage =>
      simp only [hpc, Option.some.injEq] at h
      exact h ▸ .reduceSetStage hpc
  | reduceCopy =>
      simp only [hpc, Option.some.injEq] at h
      exact h ▸ .reduceCopy hpc
  | reduceNext shuffleQueue =>
      simp only [hpc, Option.some.injEq] at h
      subst h
      split
      · exact .reduceTake shuffleQueue ⟨_, ‹_›⟩ hpc rfl
      · exact .reduceExhausted shuffleQueue hpc (Nat.le_of_not_lt ‹_›)
  | reduceCall shuffleQueue ix =>
      simp only [hpc, Option.some.injEq] at h
      exact h ▸ .reduceCall shuffleQueue ix hpc
  | reducing shuffleQueue ix outs =>
      cases outs with
      | nil =>
          simp only [hpc, Option.some.injEq] at h
          exact h ▸ .reduceReturn shuffleQueue ix hpc
      | cons out outs =>
          simp only [hpc, Option.some.injEq] at h
          exact h ▸ .emit3 shuffleQueue ix out outs hpc
  | finished => simp [hpc] at h

end JobContext

end MapReduce
