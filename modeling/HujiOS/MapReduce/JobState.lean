import Mathlib.Data.Nat.Bitwise
import Mathlib.Data.Prod.Lex

/-!
# The packed job-state word

`jobStateBitwise_` is an atomic 64-bit word: the two low bits are the stage,
the rest counts the items processed in it.  Each update below is one section
of `jobStateMutex_`, so it is one step of the job.

`encode` is the word of a stage and an unbounded count.  Every update of the
word is the plain update of the pair under `encode`, and `getJobState` reads
the stage exactly and the count modulo `2 ^ 32`.
-/

namespace MapReduce

/-- `stage_t`. -/
inductive Stage
  | undefined
  | map
  | shuffle
  | reduce
  deriving DecidableEq, Repr

namespace Stage

/-- The value of the enumerator. -/
def toNat : Stage → Nat
  | undefined => 0
  | map => 1
  | shuffle => 2
  | reduce => 3

/-- The cast from two bits to `stage_t`. -/
def ofBits : Nat → Stage
  | 0 => undefined
  | 1 => map
  | 2 => shuffle
  | _ => reduce

/-- The stage after this one; the two bits wrap. -/
def next : Stage → Stage
  | undefined => map
  | map => shuffle
  | shuffle => reduce
  | reduce => undefined

/-- Two bits are enough for a stage. -/
@[simp] theorem ofBits_toNat (s : Stage) : ofBits s.toNat = s := by
  cases s <;> rfl

/-- Different stages have different bits. -/
theorem toNat_injective : Function.Injective toNat := Function.LeftInverse.injective ofBits_toNat

/-- A stage fits into two bits. -/
theorem toNat_lt (s : Stage) : s.toNat < 4 := by
  cases s <;> decide

/-- The next stage has the next value, modulo 4. -/
theorem toNat_next (s : Stage) : s.next.toNat = (s.toNat + 1) % 4 := by
  cases s <;> rfl

end Stage

/-- What `getJobState` reads: the stage and the number of processed items.
The percentage it reports is the quotient of that number by the total of the
stage. -/
@[ext] structure JobState where
  stage : Stage
  numOfProcessed : Nat
  deriving DecidableEq, Repr

namespace Word

/-- The stage bits of the word. -/
def stageOf (word : Nat) : Stage := Stage.ofBits (word &&& (1 <<< 2 - 1))

/-- `setNextPhase`: the next stage, with the count cleared. -/
def setNextPhase (word : Nat) : Nat :=
  let tmpNextPhase := (word + 1) % 2 ^ 64
  let phaseBitsTurnedOn := 1 <<< 2 - 1
  tmpNextPhase &&& phaseBitsTurnedOn

/-- `addNumberOfProcessedItems`: nothing is counted unless the word still
shows the stage `currStage`. -/
def addNumberOfProcessedItems (word : Nat) (currStage : Stage) (amount : Nat) : Nat :=
  if currStage = stageOf word then (word + (amount <<< 2) % 2 ^ 64) % 2 ^ 64 else word

/-- `setJobStage`: a new stage with the count cleared, or nothing where that
stage is set already. -/
def setJobStage (word : Nat) (currentStage : Stage) : Nat :=
  if currentStage ≠ stageOf word then currentStage.toNat else word

/-- `getJobState`: the stage from the low bits, and 32 bits of count above
them. -/
def getJobState (word : Nat) : JobState where
  stage := stageOf word
  numOfProcessed :=
    let discardPhase := word >>> 2
    let numOfProcessedBitsTurnedOn := 1 <<< 32 - 1
    discardPhase &&& numOfProcessedBitsTurnedOn

end Word

namespace JobState

/-- Lexicographic position of a state: stages first, then the count. -/
def rank (p : JobState) : Nat ×ₗ Nat := toLex (p.stage.toNat, p.numOfProcessed)

/-- The word that holds a stage and a count. -/
def encode (p : JobState) : Nat := (p.stage.toNat + 4 * p.numOfProcessed) % 2 ^ 64

/-- The stage is in the two low bits and the count above them, modulo the
word. -/
theorem encode_mk (stage : Stage) (n : Nat) :
    encode ⟨stage, n⟩ = (stage.toNat + 4 * n) % 2 ^ 64 := rfl

/-- What `setNextPhase` does to the stage and the count. -/
def setNextPhase (p : JobState) : JobState := ⟨p.stage.next, 0⟩

/-- What `addNumberOfProcessedItems` does to the stage and the count. -/
def addNumberOfProcessedItems (p : JobState) (currStage : Stage) (amount : Nat) : JobState :=
  if currStage = p.stage then { p with numOfProcessed := p.numOfProcessed + amount } else p

/-- What `setJobStage` does to the stage and the count. -/
def setJobStage (p : JobState) (currentStage : Stage) : JobState :=
  if currentStage ≠ p.stage then ⟨currentStage, 0⟩ else p

/-- States are ordered by stage, and within a stage by count. -/
theorem rank_le_iff {p q : JobState} :
    p.rank ≤ q.rank ↔ p.stage.toNat < q.stage.toNat ∨
      p.stage.toNat = q.stage.toNat ∧ p.numOfProcessed ≤ q.numOfProcessed :=
  Prod.Lex.toLex_le_toLex

/-- A word holds one stage and one count, as long as the count fits. -/
theorem encode_inj {p q : JobState} (hp : p.numOfProcessed < 2 ^ 62)
    (hq : q.numOfProcessed < 2 ^ 62) (h : p.encode = q.encode) : p = q := by
  have hpl := p.stage.toNat_lt
  have hql := q.stage.toNat_lt
  unfold encode at h
  have hstage : p.stage.toNat = q.stage.toNat := by omega
  have hstage' := congrArg Stage.ofBits hstage
  rw [Stage.ofBits_toNat, Stage.ofBits_toNat] at hstage'
  exact JobState.ext hstage' (by omega)

/-! ## The word follows the pair -/

/-- The stage is read back from the word. -/
@[simp] theorem stageOf_encode (p : JobState) : Word.stageOf p.encode = p.stage := by
  have hbits : p.encode &&& (1 <<< 2 - 1) = p.stage.toNat := by
    have hmask : p.encode &&& (2 ^ 2 - 1) = p.encode % 2 ^ 2 := Nat.and_two_pow_sub_one_eq_mod _ 2
    have hlt := p.stage.toNat_lt
    have hshift : (1 <<< 2 - 1 : Nat) = 2 ^ 2 - 1 := rfl
    rw [hshift, hmask]
    unfold encode
    omega
  unfold Word.stageOf
  rw [hbits, Stage.ofBits_toNat]

/-- `setNextPhase` on the word is `setNextPhase` on the pair it encodes. -/
theorem setNextPhase_encode (p : JobState) :
    Word.setNextPhase p.encode = p.setNextPhase.encode := by
  have hmask : ∀ x : Nat, x &&& (1 <<< 2 - 1) = x % 4 := fun x =>
    Nat.and_two_pow_sub_one_eq_mod x 2
  have hlt := p.stage.toNat_lt
  unfold Word.setNextPhase
  rw [hmask]
  obtain ⟨stage, n⟩ := p
  unfold setNextPhase
  rw [encode_mk, encode_mk, Stage.toNat_next]
  dsimp only at hlt ⊢
  omega

/-- Counting on the word is counting on the pair it encodes, with the wrap. -/
theorem addNumberOfProcessedItems_encode (p : JobState) (currStage : Stage) (amount : Nat) :
    Word.addNumberOfProcessedItems p.encode currStage amount =
      (p.addNumberOfProcessedItems currStage amount).encode := by
  unfold Word.addNumberOfProcessedItems addNumberOfProcessedItems
  rw [stageOf_encode]
  split
  · obtain ⟨stage, n⟩ := p
    rw [Nat.shiftLeft_eq, encode_mk, encode_mk]
    dsimp only
    omega
  · rfl

/-- `setJobStage` on the word is `setJobStage` on the pair it encodes. -/
theorem setJobStage_encode (p : JobState) (currentStage : Stage) :
    Word.setJobStage p.encode currentStage = (p.setJobStage currentStage).encode := by
  unfold Word.setJobStage setJobStage
  rw [stageOf_encode]
  split
  · have hlt := currentStage.toNat_lt
    rw [encode_mk]
    omega
  · rfl

/-- `getJobState` reads the stage exactly, and the count in its 32 bits. -/
theorem getJobState_encode (p : JobState) :
    Word.getJobState p.encode = ⟨p.stage, p.numOfProcessed % 2 ^ 32⟩ := by
  have hmask : ∀ x : Nat, x &&& (1 <<< 32 - 1) = x % 2 ^ 32 := fun x =>
    Nat.and_two_pow_sub_one_eq_mod x 32
  have hlt := p.stage.toNat_lt
  unfold Word.getJobState
  rw [stageOf_encode, hmask, Nat.shiftRight_eq_div_pow]
  have hcount : p.encode / 2 ^ 2 % 2 ^ 32 = p.numOfProcessed % 2 ^ 32 := by
    unfold encode
    omega
  rw [hcount]

/-- The count is read exactly while it fits its bits. -/
theorem getJobState_encode_of_lt {p : JobState} (h : p.numOfProcessed < 2 ^ 32) :
    Word.getJobState p.encode = p := by
  rw [getJobState_encode, Nat.mod_eq_of_lt h]

end JobState

end MapReduce
