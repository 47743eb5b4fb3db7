import HujiOS.MapReduce.Correctness

/-!
# The reported progress

In every reachable state the word encodes a stage and a count that is at most
the stage's total.  One step keeps the stage and does not lower the count, or
moves to the next stage, and out of `MAP` and `SHUFFLE` only once the count is
the total.  The late calls of `setJobStage` change nothing.
-/

namespace MapReduce

open Grouping Runs Pool

universe u

variable {K1 V1 K2 V2 K3 V3 : Type u} {j : Job K1 V1 K2 V2 K3 V3}

/-- The number of items that a stage processes. -/
def Job.totalItems (j : Job K1 V1 K2 V2 K3 V3) : Stage → Nat
  | .undefined => 0
  | .map => j.numOfInputElems
  | .shuffle | .reduce => j.emitted.length

/-- How the state may change in one step. -/
inductive JobState.Advances (j : Job K1 V1 K2 V2 K3 V3) (p q : JobState) : Prop
  | within (hstage : q.stage = p.stage) (hcount : p.numOfProcessed ≤ q.numOfProcessed)
  | toMap (hp : p = ⟨.undefined, 0⟩) (hq : q = ⟨.map, 0⟩)
  | toShuffle (hp : p = ⟨.map, j.totalItems .map⟩) (hq : q = ⟨.shuffle, 0⟩)
  | toReduce (hp : p = ⟨.shuffle, j.totalItems .shuffle⟩) (hq : q = ⟨.reduce, 0⟩)

/-- The state never goes back. -/
theorem JobState.Advances.rank_le {p q : JobState} (h : JobState.Advances j p q) :
    p.rank ≤ q.rank := by
  rw [JobState.rank_le_iff]
  cases h with
  | within hstage hcount => exact Or.inr ⟨by rw [hstage], hcount⟩
  | toMap hp hq => exact Or.inl (by simp [hp, hq, Stage.toNat])
  | toShuffle hp hq => exact Or.inl (by simp [hp, hq, Stage.toNat])
  | toReduce hp hq => exact Or.inl (by simp [hp, hq, Stage.toNat])

namespace JobContext

/-- The word encodes `p`, and the count is within the total of the stage. -/
def Shows (s : JobContext j) (p : JobState) : Prop :=
  s.jobStateBitwise = p.encode ∧ p.numOfProcessed ≤ j.totalItems p.stage

/-- The word of the map phase counts no more than the input. -/
theorem MapCounted.shows {s : JobContext j} (hword : s.MapCounted) (h : s.MapInv) :
    ∃ p, s.Shows p ∧ p.stage = .map := by
  obtain ⟨count, hword, hcount⟩ := hword
  refine ⟨_, ⟨hword, ?_⟩, rfl⟩
  have hcard := congrArg Multiset.card h.calls
  have hissued : Multiset.card (j.issued s.atomicNextItemToProcess) ≤ j.numOfInputElems := by
    simp [Job.issued]
  rw [Multiset.card_add, Multiset.coe_card] at hcard
  show count ≤ j.numOfInputElems
  omega

/-- The word of the shuffle phase counts no more than the pairs emitted. -/
theorem ShuffleInv.shows {s : JobContext j} (h : s.ShuffleInv) :
    ∃ p, s.Shows p ∧ p.stage = .shuffle := by
  have htotal : s.intermediateVecs.flatten.length = j.emitted.length := h.mapDone.pairs.length_eq
  cases hpc : (s.threads j.threadZero).pc with
  | shuffleLock | shuffleReset =>
      have hat := h.at_pc hpc
      exact ⟨_, ⟨hat.2, Nat.zero_le _⟩, rfl⟩
  | shuffleCopy =>
      have hat := h.at_pc hpc
      exact ⟨_, ⟨hat.2.1, Nat.zero_le _⟩, rfl⟩
  | shuffleMaxKey interVecs =>
      obtain ⟨hmax, hword⟩ := h.at_pc hpc
      refine ⟨_, ⟨hword, ?_⟩, rfl⟩
      have hcard := congrArg Multiset.card hmax.perm
      simp only [Multiset.card_add, Multiset.coe_card] at hcard
      show s.shuffledQueue.flatten.length ≤ j.emitted.length
      omega
  | shuffleDrain currMaxKey newVec visited todo =>
      obtain ⟨hdrain, hword⟩ := h.at_pc hpc
      refine ⟨_, ⟨hword, ?_⟩, rfl⟩
      have hcard := congrArg Multiset.card hdrain.perm
      simp only [Multiset.card_add, Multiset.coe_card] at hcard
      show s.shuffledQueue.flatten.length + newVec.length ≤ j.emitted.length
      omega
  | shuffleCount currMaxKey newVec visited todo =>
      obtain ⟨hdrain, count, hword, hcount⟩ := h.at_pc hpc
      refine ⟨_, ⟨hword, ?_⟩, rfl⟩
      have hcard := congrArg Multiset.card hdrain.perm
      simp only [Multiset.card_add, Multiset.coe_card] at hcard
      show count ≤ j.emitted.length
      omega
  | shuffleEndReset =>
      have hat := h.at_pc hpc
      exact ⟨_, ⟨hat.2.2, htotal.le⟩, rfl⟩
  | shuffleUnlock | reduceAdvance =>
      have hat := h.at_pc hpc
      exact ⟨_, ⟨hat.2.2.1, htotal.le⟩, rfl⟩
  | _ =>
      cases h.at_pc hpc

/-- The word of the reduce phase counts no more than the pairs emitted. -/
theorem ReduceInv.shows {s : JobContext j} (h : s.ReduceInv) :
    ∃ p, s.Shows p ∧ p.stage = .reduce := by
  obtain ⟨count, hword, hcount⟩ := h.word
  refine ⟨_, ⟨hword, ?_⟩, rfl⟩
  -- the groups of the calls made are among those of the queue
  have hsizes : (s.reduceCalls.map List.length).sum ≤ (s.shuffledQueue.map List.length).sum := by
    have hcalls := congrArg (fun groups => (groups.map List.length).sum) h.calls
    simp only [Multiset.map_add, Multiset.sum_add, Multiset.map_coe, Multiset.sum_coe] at hcalls
    have htake := (List.take_sublist s.atomicNextItemToProcess s.shuffledQueue).map List.length
    have hle := htake.sum_le_sum (fun _ _ => Nat.zero_le _)
    omega
  rw [← List.length_flatten, ← List.length_flatten, h.perm.length_eq,
    h.mapDone.pairs.length_eq] at hsizes
  show count ≤ j.emitted.length
  omega

/-- In every phase the word shows a count within its total. -/
theorem Inv.shows {s : JobContext j} (h : s.Inv) : ∃ p, s.Shows p := by
  cases h.phase with
  | mapping _ h =>
      rcases h.word with huntouched | hcounted
      · exact ⟨_, huntouched.1, Nat.le_refl 0⟩
      · exact (hcounted.shows h).imp fun _ hp => hp.1
  | shuffling _ h => exact h.shows.imp fun _ hp => hp.1
  | reducing _ h => exact h.shows.imp fun _ hp => hp.1

/-- What `getJobState` reads of what is shown: the stage, and the count in its 32
bits. -/
theorem Shows.getJobState_eq {s : JobContext j} {p : JobState} (h : s.Shows p) :
    s.getJobState = ⟨p.stage, p.numOfProcessed % 2 ^ 32⟩ := by
  unfold JobContext.getJobState
  rw [h.1]
  exact JobState.getJobState_encode p

/-- After the map phase the workers' vectors hold what was emitted. -/
theorem MapDone.getNumOfIntermediatePairs {s : JobContext j} (h : s.MapDone) :
    s.getNumOfIntermediatePairs = j.emitted.length := by
  unfold JobContext.getNumOfIntermediatePairs
  rw [← List.length_flatten, h.pairs.length_eq]

/-- Once the stage is past `MAP` the vectors hold everything that was emitted, so
the total that the percentage refers to is the stage's. -/
theorem Inv.getTotalItems {s : JobContext j} (h : s.Inv)
    (hstage : s.getJobState.stage ≠ .undefined) :
    s.getTotalItemsOfCurrPhase s.getJobState = j.totalItems s.getJobState.stage := by
  unfold getTotalItemsOfCurrPhase
  cases h.phase with
  | mapping _ hm =>
      rcases hm.word with ⟨hword, _⟩ | hcounted
      · have hs : s.Shows ⟨.undefined, 0⟩ := ⟨hword, Nat.le_refl 0⟩
        rw [hs.getJobState_eq] at hstage
        exact absurd rfl hstage
      · obtain ⟨p, hs, hp⟩ := hcounted.shows hm
        rw [hs.getJobState_eq, hp]
        rfl
  | shuffling _ hsh =>
      obtain ⟨p, hs, hp⟩ := hsh.shows
      rw [hs.getJobState_eq, hp]
      exact hsh.mapDone.getNumOfIntermediatePairs
  | reducing _ hr =>
      obtain ⟨p, hs, hp⟩ := hr.shows
      rw [hs.getJobState_eq, hp]
      exact hr.mapDone.getNumOfIntermediatePairs

/-- In a finished job everything that was emitted is reduced and counted. -/
theorem Inv.shows_finished {s : JobContext j} (h : s.Inv) (hfin : s.Finished) :
    s.Shows ⟨.reduce, j.emitted.length⟩ := by
  have hr := h.phase.reduceInv (Pc.region_of_isFinished (hfin j.threadZero))
  obtain ⟨_, _, hword⟩ := hr.drained hfin
  rw [hr.mapDone.pairs.length_eq] at hword
  exact ⟨hword, Nat.le_refl _⟩

/-! ## One step -/

section Steps

variable (hmap : j.numOfInputElems < 2 ^ 32) (hemit : j.emitted.length < 2 ^ 32)

include hmap hemit

/-- Under the bounds, every total fits into the 32 bits of the count. -/
theorem totalItems_lt (stage : Stage) : j.totalItems stage < 2 ^ 32 := by
  cases stage with
  | undefined => exact Nat.two_pow_pos 32
  | map => exact hmap
  | shuffle => exact hemit
  | reduce => exact hemit

/-- What is shown is what `getJobState` reads. -/
theorem Shows.getJobState {s : JobContext j} {p : JobState} (h : s.Shows p) :
    s.getJobState = p := by
  unfold JobContext.getJobState
  rw [h.1]
  exact JobState.getJobState_encode_of_lt (h.2.trans_lt (totalItems_lt hmap hemit p.stage))

/-- Setting the stage that is set already changes nothing. -/
theorem Shows.setJobStage {s t : JobContext j} {p : JobState} (hs : s.Shows p)
    (hword : t.jobStateBitwise = Word.setJobStage s.jobStateBitwise p.stage) :
    JobState.Advances j s.getJobState t.getJobState := by
  have hsame : t.jobStateBitwise = s.jobStateBitwise := by
    rw [hword, hs.1, JobState.setJobStage_encode]
    simp [JobState.setJobStage]
  have ht : t.Shows p := ⟨hsame.trans hs.1, hs.2⟩
  rw [hs.getJobState hmap hemit, ht.getJobState hmap hemit]
  exact .within rfl (Nat.le_refl _)

/-- Counting `amount` items of the current stage raises the count by `amount`. -/
theorem Shows.counted {s t : JobContext j} {p q : JobState} {amount : Nat} (hs : s.Shows p)
    (ht : t.Shows q) (hamount : amount < 2 ^ 32) (hword : t.jobStateBitwise =
      Word.addNumberOfProcessedItems s.jobStateBitwise p.stage amount) :
    JobState.Advances j s.getJobState t.getJobState := by
  have hp := hs.2.trans_lt (totalItems_lt hmap hemit p.stage)
  have hq := ht.2.trans_lt (totalItems_lt hmap hemit q.stage)
  rw [hs.1, JobState.addNumberOfProcessedItems_encode, ht.1] at hword
  unfold JobState.addNumberOfProcessedItems at hword
  rw [if_pos rfl] at hword
  have hsum : p.numOfProcessed + amount < 2 ^ 62 := by omega
  have heq := JobState.encode_inj (by omega) hsum hword
  rw [hs.getJobState hmap hemit, ht.getJobState hmap hemit, heq]
  exact .within rfl (Nat.le_add_right _ _)

/-- **One step advances the reported state.** -/
theorem Inv.advances {s t : JobContext j} {w : Fin j.numOfThreads} (h : s.Inv)
    (htr : Transition s w t) : JobState.Advances j s.getJobState t.getJobState := by
  have hinv : t.Inv := ⟨h.control.step htr, h.phase.step h.control htr⟩
  obtain ⟨q, ht⟩ := hinv.shows
  cases htr
  case mapSetStage hpc =>
      obtain ⟨_, hm⟩ := h.phase.mapInv_at h.control hpc rfl
      rcases hm.word with huntouched | hcounted
      · have hs : s.Shows ⟨.undefined, 0⟩ := ⟨huntouched.1, Nat.le_refl 0⟩
        have hnew : ((s.setJobStage .map).goto w .mapNext).Shows ⟨.map, 0⟩ := by
          refine ⟨?_, Nat.zero_le _⟩
          simp [huntouched.1, JobState.setJobStage_encode, JobState.setJobStage]
        rw [hs.getJobState hmap hemit, hnew.getJobState hmap hemit]
        exact .toMap rfl rfl
      · obtain ⟨p, hs, hp⟩ := hcounted.shows hm
        exact hs.setJobStage hmap hemit (by rw [hp]; rfl)
  case mapReturn hpc =>
      obtain ⟨_, hm⟩ := h.phase.mapInv_at h.control hpc rfl
      obtain ⟨p, hs, hp⟩ := (hm.counted (w := w) (by simp [hpc])).shows hm
      exact hs.counted hmap hemit ht (Nat.one_lt_two_pow (by decide)) (by rw [hp]; rfl)
  case shuffleSetStage hpc =>
      obtain rfl := h.control.shuffler w (by rw [hpc]; rfl)
      have hm := h.phase.mapInv (by rw [hpc]; rfl)
      obtain ⟨_, hword⟩ := hm.mapDone (h.control.sorted_of_zero (by rw [hpc]; rfl))
      have hs : s.Shows ⟨.map, j.totalItems .map⟩ := ⟨hword, Nat.le_refl _⟩
      have hnew : (s.setNextPhase.goto j.threadZero .shuffleLock).Shows ⟨.shuffle, 0⟩ := by
        refine ⟨?_, Nat.zero_le _⟩
        simp [hword, JobState.setNextPhase_encode, JobState.setNextPhase, Stage.next]
      rw [hs.getJobState hmap hemit, hnew.getJobState hmap hemit]
      exact .toShuffle rfl rfl
  case shuffleCount hpc =>
      obtain ⟨_, hsh⟩ := h.phase.shuffleInv_at h.control hpc rfl rfl
      obtain ⟨p, hs, hp⟩ := hsh.shows
      exact hs.counted hmap hemit ht (Nat.one_lt_two_pow (by decide)) (by rw [hp]; rfl)
  case reduceAdvance hpc =>
      obtain ⟨rfl, hsh⟩ := h.phase.shuffleInv_at h.control hpc rfl rfl
      obtain ⟨_, _, hword, _⟩ := hsh.at_pc hpc
      rw [hsh.mapDone.pairs.length_eq] at hword
      have hs : s.Shows ⟨.shuffle, j.totalItems .shuffle⟩ := ⟨hword, Nat.le_refl _⟩
      have hnew : (s.setNextPhase.goto j.threadZero .secondBarrier).Shows ⟨.reduce, 0⟩ := by
        refine ⟨?_, Nat.zero_le _⟩
        simp [hword, JobState.setNextPhase_encode, JobState.setNextPhase, Stage.next]
      rw [hs.getJobState hmap hemit, hnew.getJobState hmap hemit]
      exact .toReduce rfl rfl
  case reduceSetStage hpc =>
      obtain ⟨_, hr⟩ := h.phase.reduceInv_at h.control hpc rfl
      obtain ⟨p, hs, hp⟩ := hr.shows
      exact hs.setJobStage hmap hemit (by rw [hp]; rfl)
  case reduceReturn shuffleQueue ix hpc =>
      obtain ⟨_, hr⟩ := h.phase.reduceInv_at h.control hpc rfl
      obtain ⟨p, hs, hp⟩ := hr.shows
      obtain rfl := hr.queue_eq (w := w) (by rw [hpc]; rfl)
      have hgroup : (s.shuffledQueue.get ix).length ≤ s.shuffledQueue.flatten.length :=
        (List.sublist_flatten_of_mem (List.get_mem _ ix)).length_le
      rw [hr.perm.length_eq, hr.mapDone.pairs.length_eq] at hgroup
      exact hs.counted hmap hemit ht (hgroup.trans_lt hemit) (by rw [hp]; rfl)
  -- no other step touches the word
  all_goals exact .within rfl (Nat.le_refl _)

/-! ## Runs -/

/-- In one step the reported state stays or advances. -/
theorem Inv.advances_next {s t : JobContext j} {a : Action j} (h : s.Inv)
    (hnext : s.next a = some t) : JobState.Advances j s.getJobState t.getJobState := by
  cases a with
  | worker w => exact h.advances hmap hemit (step_transition hnext)
  | getJobState =>
      obtain rfl := Option.some.inj hnext
      exact .within rfl (Nat.le_refl _)

/-- **The reported progress is monotone and complete.**  Along every run the
reported states do not decrease, the count stays within the total of its stage,
a stage is left for the next one and with its total reached, and a finished job
reports the whole reduce stage. -/
theorem progress_monotone_complete :
    (∀ s t : JobContext j, s.Reachable → Reaches next s t →
      s.getJobState.rank ≤ t.getJobState.rank) ∧
    (∀ s : JobContext j, s.Reachable →
      s.getJobState.numOfProcessed ≤ j.totalItems s.getJobState.stage) ∧
    (∀ (s t : JobContext j) (a : Action j), s.Reachable → s.next a = some t →
      t.getJobState.stage ≠ s.getJobState.stage →
        t.getJobState.stage = s.getJobState.stage.next ∧
          s.getJobState.numOfProcessed = j.totalItems s.getJobState.stage) ∧
    (∀ s : JobContext j, s.Reachable → s.Finished →
      s.getJobState = ⟨.reduce, j.emitted.length⟩) := by
  refine ⟨fun s t hs hst => ?_, fun s hs => ?_, fun s t a hs hnext hne => ?_, fun s hs hfin => ?_⟩
  · exact hst.monotone (fun x => x.getJobState.rank) (fun _ _ _ hx hxy => Inv.next hx hxy)
      (fun _ _ _ hx hxy => (hx.advances_next hmap hemit hxy).rank_le) hs.inv
  · obtain ⟨p, hp⟩ := hs.inv.shows
    rw [hp.getJobState hmap hemit]
    exact hp.2
  · cases hs.inv.advances_next hmap hemit hnext with
    | within hstage _ => exact absurd hstage hne
    | toMap hp hq => rw [hp, hq]; exact ⟨rfl, rfl⟩
    | toShuffle hp hq => rw [hp, hq]; exact ⟨rfl, rfl⟩
    | toReduce hp hq => rw [hp, hq]; exact ⟨rfl, rfl⟩
  · exact (hs.inv.shows_finished hfin).getJobState hmap hemit

end Steps

/-- A run of `countValues`, and the state it reports at its end. -/
theorem progress_monotone_complete_countValues :
    ∃ s : JobContext countValues, s.Finished ∧ s.getJobState = ⟨.reduce, 3⟩ := by
  obtain ⟨s, hrun, hs⟩ := (Option.any_eq_true _ _).mp countSchedule_finishes
  have hfin := (of_decide_eq_true hs).1
  have hprogress := progress_monotone_complete (j := countValues) (by decide) (by decide)
  exact ⟨s, hfin, hprogress.2.2.2 s ⟨countSchedule, hrun⟩ hfin⟩

end JobContext

end MapReduce
