import HujiOS.MapReduce.JobState

/-!
# The word refines the pair over every sequence of updates

`JobState` is what the packed word stands for: a stage and the number of items
processed in it.  Three methods of `JobContext` update the word, from any
thread and in any order, each under `jobStateMutex_`; a history of the word is
therefore a list of calls.  Every call on the word is the same call on the
pair under `encode`, so the word after a history is the code of the pair after
it, and `getJobState` reads that pair back while the count fits its field.
-/

namespace MapReduce

/-- An update of `jobStateBitwise_`. -/
inductive JobStateCall
  | setJobStage (currentStage : Stage)
  | setNextPhase
  | addNumberOfProcessedItems (currStage : Stage) (amount : Nat)
  deriving DecidableEq, Repr

namespace JobStateCall

/-- The call on the packed word. -/
def onWord (word : Nat) : JobStateCall → Nat
  | setJobStage currentStage => Word.setJobStage word currentStage
  | setNextPhase => Word.setNextPhase word
  | addNumberOfProcessedItems currStage amount =>
      Word.addNumberOfProcessedItems word currStage amount

/-- The call on the pair: `setJobStage` starts a stage other than the current
one, `setNextPhase` starts the stage that follows, and items count only for
the current stage. -/
def onState (p : JobState) : JobStateCall → JobState
  | setJobStage currentStage => p.setJobStage currentStage
  | setNextPhase => p.setNextPhase
  | addNumberOfProcessedItems currStage amount =>
      p.addNumberOfProcessedItems currStage amount

/-- The word of a new job, 0, after some calls. -/
def wordAfter (calls : List JobStateCall) : Nat := calls.foldl onWord 0

/-- The pair of a new job, no stage and no items, after the same calls. -/
def stateAfter (calls : List JobStateCall) : JobState := calls.foldl onState ⟨.undefined, 0⟩

/-- One call on the word is the call on the pair it encodes. -/
theorem onWord_encode (p : JobState) (call : JobStateCall) :
    onWord p.encode call = (onState p call).encode := by
  cases call with
  | setJobStage currentStage => exact p.setJobStage_encode currentStage
  | setNextPhase => exact p.setNextPhase_encode
  | addNumberOfProcessedItems currStage amount =>
      exact p.addNumberOfProcessedItems_encode currStage amount

/-- The word after a history is the code of the pair after it, whatever the
counts. -/
theorem wordAfter_eq (calls : List JobStateCall) :
    wordAfter calls = (stateAfter calls).encode := by
  have hstart : (0 : Nat) = JobState.encode ⟨.undefined, 0⟩ := rfl
  unfold wordAfter stateAfter
  rw [hstart]
  exact List.foldl_hom JobState.encode onWord_encode

/-- Neither counting nor a phase change ever leaves a wrong stage: the stage
bits need no bound on the count. -/
theorem stageOf_wordAfter (calls : List JobStateCall) :
    Word.stageOf (wordAfter calls) = (stateAfter calls).stage := by
  rw [wordAfter_eq, JobState.stageOf_encode]

/-- **Refinement.**  After every sequence of updates, in any order and with
any arguments, whose last count fits 32 bits, the decoded word is the pair
that the abstract calls lead to.  `setNextPhase` needs no guard here: after
the last stage both sides wrap to the first. -/
theorem getJobState_wordAfter (calls : List JobStateCall)
    (hcount : (stateAfter calls).numOfProcessed < 2 ^ 32) :
    Word.getJobState (wordAfter calls) = stateAfter calls := by
  rw [wordAfter_eq]
  exact JobState.getJobState_encode_of_lt hcount

/-- Three of the six additions are for the stage that is current then. -/
theorem getJobState_wordAfter_mixed :
    Word.getJobState (wordAfter
      [addNumberOfProcessedItems .map 9, setJobStage .map, addNumberOfProcessedItems .map 3,
        setJobStage .map, addNumberOfProcessedItems .shuffle 7, setNextPhase,
        addNumberOfProcessedItems .shuffle 5, addNumberOfProcessedItems .map 1,
        addNumberOfProcessedItems .shuffle 4294967290]) = ⟨.shuffle, 4294967295⟩ :=
  getJobState_wordAfter _ (by decide)

end JobStateCall

end MapReduce
