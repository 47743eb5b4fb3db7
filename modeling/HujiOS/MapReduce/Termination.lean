import HujiOS.MapReduce.ShuffleRun

/-!
# Every job finishes

The measure is lexicographic.  First comes the phase of the job.  Within a
phase, each worker has a number of steps left to the end of its entry point, as
far as they are its own; the calls that the counter has yet to hand out, or the
rest of the shuffle, are a shared part.  A worker that takes an item from the
counter moves the cost of one call from the shared part to its own.

Every step of every worker lowers the measure, and somebody has a step until all
have finished.
-/

namespace MapReduce

open Grouping Runs Pool

universe u

variable {K1 V1 K2 V2 K3 V3 : Type u} {j : Job K1 V1 K2 V2 K3 V3}

/-! ## What the counter has yet to hand out -/

section Tickets

variable {α : Type u} (cost : α → Nat) (items : List α)

/-- The cost of the items from index `next` on. -/
def ticketsLeft (next : Nat) : Nat := ((items.drop next).map cost).sum

/-- Handing out an item takes its cost away from what is left. -/
theorem ticketsLeft_take {next : Nat} (h : next < items.length) :
    ticketsLeft cost items next =
      cost (items.get ⟨next, h⟩) + ticketsLeft cost items (next + 1) := by
  unfold ticketsLeft
  rw [List.drop_eq_getElem_cons h, List.map_cons, List.sum_cons]
  rfl

/-- Handing out never adds to what is left, past the last item either. -/
theorem ticketsLeft_succ_le (next : Nat) :
    ticketsLeft cost items (next + 1) ≤ ticketsLeft cost items next := by
  by_cases h : next < items.length
  · rw [ticketsLeft_take cost items h]
    omega
  · unfold ticketsLeft
    rw [List.drop_eq_nil_of_le (by omega)]
    exact Nat.zero_le _

end Tickets

namespace Pc

/-- How many steps of its own a worker has left, if it gets nothing more from
the counter. -/
def stepsLeft : Pc j → Nat
  | mapCall ix => 13 + (j.mapAt ix).length
  | mapSetStage => 12
  | mapping pairs => 12 + pairs.length
  | mapNext => 11
  | sort => 10
  | firstBarrier => 9
  | firstWait => 8
  | shuffleSetStage => 7
  -- the shuffle itself is part of the shared work
  | shuffleLock | shuffleReset | shuffleCopy _ | shuffleMaxKey _ | shuffleDrain ..
  | shuffleCount .. | shuffleEndReset | shuffleUnlock | reduceAdvance => 6
  | secondBarrier => 5
  | secondWait => 4
  | reduceSetStage => 3
  | reduceCopy => 2
  | reduceCall shuffleQueue ix => 3 + (j.client.reduce (shuffleQueue.get ix)).length
  | reducing _ _ outs => 2 + outs.length
  | reduceNext _ => 1
  | finished => 0

/-- In the shuffle worker 0's own steps are those after it. -/
theorem stepsLeft_of_region_shuffle {pc : Pc j} (h : pc.region = .shuffle) : pc.stepsLeft = 6 := by
  cases pc <;> simp_all [region, stepsLeft]

end Pc

namespace JobContext

/-- The phase of the job. -/
def region (s : JobContext j) : Stage := (s.threads j.threadZero).pc.region

/-- The cost of one `map` call from the moment its index is taken. -/
def mapCost (ix : Fin j.numOfInputElems) : Nat := (j.mapAt ix).length + 3

variable (j) in
/-- The cost of one `reduce` call from the moment its group is taken. -/
def reduceCost (group : List (K2 × V2)) : Nat := (j.client.reduce group).length + 3

/-- The work that no worker has taken yet. -/
def sharedWork (s : JobContext j) : Nat :=
  match s.region with
  | .map => ticketsLeft mapCost (List.finRange j.numOfInputElems) s.atomicNextItemToProcess
  | .shuffle => shuffleWork s.intermediateVecs (s.threads j.threadZero).pc
  | .reduce => ticketsLeft (reduceCost j) s.shuffledQueue s.atomicNextItemToProcess
  | .undefined => 0

/-- The phases still to come, then the work left in this one. -/
def work (s : JobContext j) : Nat ×ₗ Nat :=
  toLex (4 - s.region.toNat, s.sharedWork + total (fun thread => thread.pc.stepsLeft) s.threads)

section Steps

variable {s t : JobContext j} {w : Fin j.numOfThreads} {thread : ThreadContext j}

/-- A step keeps the phase unless worker 0 leaves it. -/
theorem region_of_update (hthreads : t.threads = Function.update s.threads w thread)
    (hkeep : w = j.threadZero → thread.pc.region = (s.threads w).pc.region) :
    t.region = s.region := by
  unfold region
  rw [hthreads]
  by_cases hw : w = j.threadZero
  · subst hw
    rw [Function.update_self]
    exact hkeep rfl
  · rw [Function.update_of_ne (Ne.symm hw)]

/-- A step into a later phase leaves less work, whatever it adds. -/
theorem work_lt_of_region (h : s.region.toNat < t.region.toNat) : t.work < s.work := by
  have hlt := t.region.toNat_lt
  exact Prod.Lex.toLex_lt_toLex.mpr (Or.inl (by omega))

/-- Within a phase, what the shared part gives the worker must cost less. -/
theorem work_lt (hthreads : t.threads = Function.update s.threads w thread)
    (hregion : t.region = s.region)
    (hlt : t.sharedWork + thread.pc.stepsLeft < s.sharedWork + (s.threads w).pc.stepsLeft) :
    t.work < s.work := by
  obtain ⟨others, hold, hnew⟩ :=
    total_split (fun thread : ThreadContext j => thread.pc.stepsLeft) s.threads w
  refine Prod.Lex.toLex_lt_toLex.mpr (Or.inr ⟨by rw [hregion], ?_⟩)
  show t.sharedWork + total _ t.threads < s.sharedWork + total _ s.threads
  rw [hthreads, hnew thread, hold]
  omega

/-- In the map phase the shared work is the indices not handed out. -/
theorem sharedWork_map (h : s.region = .map) : s.sharedWork =
    ticketsLeft mapCost (List.finRange j.numOfInputElems) s.atomicNextItemToProcess := by
  unfold sharedWork
  rw [h]

/-- In the shuffle phase the shared work is worker 0's. -/
theorem sharedWork_shuffle (h : s.region = .shuffle) :
    s.sharedWork = shuffleWork s.intermediateVecs (s.threads j.threadZero).pc := by
  unfold sharedWork
  rw [h]

/-- In the reduce phase the shared work is the groups not handed out. -/
theorem sharedWork_reduce (h : s.region = .reduce) : s.sharedWork =
    ticketsLeft (reduceCost j) s.shuffledQueue s.atomicNextItemToProcess := by
  unfold sharedWork
  rw [h]

/-- A step in the map phase, whatever it takes from the counter. -/
theorem work_lt_mapTickets (hregion : s.region = .map)
    (hthreads : t.threads = Function.update s.threads w thread)
    (hkeep : w = j.threadZero → thread.pc.region = (s.threads w).pc.region)
    (hlt : ticketsLeft mapCost (List.finRange j.numOfInputElems) t.atomicNextItemToProcess +
        thread.pc.stepsLeft <
      ticketsLeft mapCost (List.finRange j.numOfInputElems) s.atomicNextItemToProcess +
        (s.threads w).pc.stepsLeft) : t.work < s.work := by
  have hsame := region_of_update hthreads hkeep
  refine work_lt hthreads hsame ?_
  rw [sharedWork_map hregion, sharedWork_map (hsame.trans hregion)]
  exact hlt

/-- A step of a worker's own in the map phase. -/
theorem work_lt_map (hregion : s.region = .map)
    (hthreads : t.threads = Function.update s.threads w thread)
    (hkeep : w = j.threadZero → thread.pc.region = (s.threads w).pc.region)
    (hnext : t.atomicNextItemToProcess = s.atomicNextItemToProcess)
    (hlt : thread.pc.stepsLeft < (s.threads w).pc.stepsLeft) : t.work < s.work := by
  apply work_lt_mapTickets hregion hthreads hkeep
  rw [hnext]
  exact Nat.add_lt_add_left hlt _

/-- A step in the reduce phase, whatever it takes from the counter. -/
theorem work_lt_reduceTickets (hregion : s.region = .reduce)
    (hthreads : t.threads = Function.update s.threads w thread)
    (hkeep : w = j.threadZero → thread.pc.region = (s.threads w).pc.region)
    (hqueue : t.shuffledQueue = s.shuffledQueue)
    (hlt : ticketsLeft (reduceCost j) s.shuffledQueue t.atomicNextItemToProcess +
        thread.pc.stepsLeft <
      ticketsLeft (reduceCost j) s.shuffledQueue s.atomicNextItemToProcess +
        (s.threads w).pc.stepsLeft) : t.work < s.work := by
  have hsame := region_of_update hthreads hkeep
  refine work_lt hthreads hsame ?_
  rw [sharedWork_reduce hregion, sharedWork_reduce (hsame.trans hregion), hqueue]
  exact hlt

/-- A step of a worker's own in the reduce phase. -/
theorem work_lt_reduce (hregion : s.region = .reduce)
    (hthreads : t.threads = Function.update s.threads w thread)
    (hkeep : w = j.threadZero → thread.pc.region = (s.threads w).pc.region)
    (hnext : t.atomicNextItemToProcess = s.atomicNextItemToProcess)
    (hqueue : t.shuffledQueue = s.shuffledQueue)
    (hlt : thread.pc.stepsLeft < (s.threads w).pc.stepsLeft) : t.work < s.work := by
  apply work_lt_reduceTickets hregion hthreads hkeep hqueue
  rw [hnext]
  exact Nat.add_lt_add_left hlt _

/-- A step from one resting place to another, in any phase. -/
theorem Phase.work_lt_rest (h : s.Phase) {pc : Pc j} (hold : (s.threads w).pc.isResting = true)
    (hkeep : w = j.threadZero → pc.region = (s.threads w).pc.region)
    (hlt : pc.stepsLeft < (s.threads w).pc.stepsLeft) : (s.goto w pc).work < s.work := by
  cases h with
  | mapping hregion _ => exact work_lt_map hregion rfl hkeep rfl hlt
  | reducing hregion _ => exact work_lt_reduce hregion rfl hkeep rfl rfl hlt
  | shuffling hregion _ =>
      have hsame : (s.goto w pc).region = s.region := region_of_update rfl hkeep
      have hw : w ≠ j.threadZero := by
        rintro rfl
        exact Pc.region_ne_shuffle_of_isResting hold hregion
      refine work_lt rfl hsame ?_
      rw [sharedWork_shuffle hregion, sharedWork_shuffle (hsame.trans hregion),
        goto_intermediateVecs, goto_threads, Function.update_of_ne (Ne.symm hw)]
      exact Nat.add_lt_add_left hlt _

/-- A step inside the shuffle. -/
theorem work_lt_shuffle (hregion : s.region = .shuffle) {pc : Pc j} (h : ShuffleStep s pc t) :
    t.work < s.work := by
  have hsame : t.region = s.region :=
    region_of_update h.threads fun _ => h.stands.region.trans hregion.symm
  refine work_lt h.threads hsame ?_
  rw [sharedWork_shuffle hregion, sharedWork_shuffle (hsame.trans hregion),
    Pc.stepsLeft_of_region_shuffle h.stands.region, Pc.stepsLeft_of_region_shuffle hregion]
  exact Nat.add_lt_add_right h.work_lt 6

/-- **Every step lowers the measure.** -/
theorem Inv.work_lt (h : s.Inv) (htr : Transition s w t) : t.work < s.work := by
  by_cases hshuffle :
      (s.threads w).pc.region = .shuffle ∧ (s.threads w).pc ≠ .reduceAdvance
  · obtain ⟨rfl, hinv⟩ := h.phase.shuffleInv_at h.control rfl
      (Pc.isShuffle_of_region hshuffle.1) hshuffle.1
    obtain ⟨pc, hstep⟩ := htr.shuffleStep hinv.shuffling hshuffle.2
    exact work_lt_shuffle hshuffle.1 hstep
  cases htr with
  | mapSetStage hpc =>
      obtain ⟨hr, _⟩ := h.phase.mapInv_at h.control hpc rfl
      exact work_lt_map hr rfl (fun _ => by rw [hpc]; rfl) rfl (by simp [hpc, Pc.stepsLeft])
  | mapTake hpc ix hix =>
      obtain ⟨hr, _⟩ := h.phase.mapInv_at h.control hpc rfl
      have hlen : s.atomicNextItemToProcess < (List.finRange j.numOfInputElems).length := by
        rw [List.length_finRange, hix]
        exact ix.isLt
      have htake := ticketsLeft_take mapCost (List.finRange j.numOfInputElems) hlen
      have hget : (List.finRange j.numOfInputElems).get ⟨_, hlen⟩ = ix := by simp [hix]
      rw [hget] at htake
      refine work_lt_mapTickets hr rfl (fun _ => by rw [hpc]; rfl) ?_
      simp only [htake, hpc, mapCost, Pc.stepsLeft, takeNextItemToProcess, goto, setThread]
      omega
  | mapExhausted hpc hlen =>
      obtain ⟨hr, _⟩ := h.phase.mapInv_at h.control hpc rfl
      have hle := ticketsLeft_succ_le mapCost (List.finRange j.numOfInputElems)
        s.atomicNextItemToProcess
      refine work_lt_mapTickets hr rfl (fun _ => by rw [hpc]; rfl) ?_
      simp only [hpc, Pc.stepsLeft, takeNextItemToProcess, goto, setThread]
      omega
  | mapCall ix hpc =>
      obtain ⟨hr, _⟩ := h.phase.mapInv_at h.control hpc rfl
      exact work_lt_map hr rfl (fun _ => by rw [hpc]; rfl) rfl (by simp [hpc, Pc.stepsLeft])
  | emit2 p pairs hpc =>
      obtain ⟨hr, _⟩ := h.phase.mapInv_at h.control hpc rfl
      exact work_lt_map hr rfl (fun _ => by rw [hpc]; rfl) rfl (by simp [hpc, Pc.stepsLeft])
  | mapReturn hpc =>
      obtain ⟨hr, _⟩ := h.phase.mapInv_at h.control hpc rfl
      exact work_lt_map hr rfl (fun _ => by rw [hpc]; rfl) rfl (by simp [hpc, Pc.stepsLeft])
  | sort hpc =>
      obtain ⟨hr, _⟩ := h.phase.mapInv_at h.control hpc rfl
      exact work_lt_map hr rfl (fun _ => by rw [hpc]; rfl) rfl (by simp [hpc, Pc.stepsLeft])
  | firstArrive hpc =>
      exact h.phase.work_lt_rest (by rw [hpc]; rfl) (fun _ => by rw [hpc]; rfl)
        (by simp [hpc, Pc.stepsLeft])
  | firstReturnZero hpc hrel hw =>
      exact h.phase.work_lt_rest (by rw [hpc]; rfl) (fun _ => by rw [hpc]; rfl)
        (by simp [hpc, Pc.stepsLeft])
  | firstReturn hpc hrel hw =>
      exact h.phase.work_lt_rest (by rw [hpc]; rfl) (fun heq => absurd heq hw)
        (by simp [hpc, Pc.stepsLeft])
  | shuffleSetStage hpc =>
      obtain rfl := h.control.shuffler w (by rw [hpc]; rfl)
      apply work_lt_of_region
      simp [region, hpc, Pc.region, Stage.toNat]
  | reduceAdvance hpc =>
      obtain rfl := h.control.shuffler w (by rw [hpc]; rfl)
      apply work_lt_of_region
      simp [region, hpc, Pc.region, Stage.toNat]
  | secondArrive hpc =>
      exact h.phase.work_lt_rest (by rw [hpc]; rfl) (fun _ => by rw [hpc]; rfl)
        (by simp [hpc, Pc.stepsLeft])
  | secondReturn hpc hrel =>
      exact h.phase.work_lt_rest (by rw [hpc]; rfl) (fun _ => by rw [hpc]; rfl)
        (by simp [hpc, Pc.stepsLeft])
  | reduceSetStage hpc =>
      obtain ⟨hr, _⟩ := h.phase.reduceInv_at h.control hpc rfl
      exact work_lt_reduce hr rfl (fun _ => by rw [hpc]; rfl) rfl rfl (by simp [hpc, Pc.stepsLeft])
  | reduceCopy hpc =>
      obtain ⟨hr, _⟩ := h.phase.reduceInv_at h.control hpc rfl
      exact work_lt_reduce hr rfl (fun _ => by rw [hpc]; rfl) rfl rfl (by simp [hpc, Pc.stepsLeft])
  | reduceTake shuffleQueue ix hpc hix =>
      obtain ⟨hr, hred⟩ := h.phase.reduceInv_at h.control hpc rfl
      obtain rfl := hred.queue_eq (w := w) (by rw [hpc]; rfl)
      have hlen : s.atomicNextItemToProcess < s.shuffledQueue.length := hix ▸ ix.isLt
      have htake := ticketsLeft_take (reduceCost j) s.shuffledQueue hlen
      have hget : s.shuffledQueue.get ⟨_, hlen⟩ = s.shuffledQueue.get ix := by simp [hix]
      rw [hget] at htake
      refine work_lt_reduceTickets hr rfl (fun _ => by rw [hpc]; rfl) rfl ?_
      simp only [htake, hpc, reduceCost, Pc.stepsLeft, takeNextItemToProcess, goto, setThread]
      omega
  | reduceExhausted shuffleQueue hpc hlen =>
      obtain ⟨hr, hred⟩ := h.phase.reduceInv_at h.control hpc rfl
      have hle := ticketsLeft_succ_le (reduceCost j) s.shuffledQueue s.atomicNextItemToProcess
      refine work_lt_reduceTickets hr rfl (fun _ => by rw [hpc]; rfl) rfl ?_
      simp only [hpc, Pc.stepsLeft, takeNextItemToProcess, goto, setThread]
      omega
  | reduceCall shuffleQueue ix hpc =>
      obtain ⟨hr, _⟩ := h.phase.reduceInv_at h.control hpc rfl
      exact work_lt_reduce hr rfl (fun _ => by rw [hpc]; rfl) rfl rfl (by simp [hpc, Pc.stepsLeft])
  | emit3 shuffleQueue ix out outs hpc =>
      obtain ⟨hr, _⟩ := h.phase.reduceInv_at h.control hpc rfl
      exact work_lt_reduce hr rfl (fun _ => by rw [hpc]; rfl) rfl rfl (by simp [hpc, Pc.stepsLeft])
  | reduceReturn shuffleQueue ix hpc =>
      obtain ⟨hr, _⟩ := h.phase.reduceInv_at h.control hpc rfl
      exact work_lt_reduce hr rfl (fun _ => by rw [hpc]; rfl) rfl rfl (by simp [hpc, Pc.stepsLeft])
  -- the steps inside the shuffle
  | _ => simp_all [Pc.region]

end Steps

/-! ## A finishing run -/

/-- A worker that neither waits nor has finished has a next step. -/
theorem exists_step_of_not_waiting {s : JobContext j} {w : Fin j.numOfThreads}
    (hfin : (s.threads w).pc.isFinished = false) (hwait : (s.threads w).pc.isWaiting = false) :
    ∃ t, s.step w = some t := by
  by_cases hkind : (s.threads w).pc.kind = .barrierCall
  · rcases Pc.isCalling_or_isWaiting hkind with hcall | hwaits
    · exact exists_step_of_isCalling hcall
    · simp [hwait] at hwaits
  · exact exists_step hkind hfin

/-- Of the workers that have not finished, one that has arrived least often may
leave its wait. -/
theorem exists_released {s : JobContext j} (h : ¬ s.Finished) :
    ∃ w, (s.threads w).pc.isFinished = false ∧ s.Released w := by
  obtain ⟨u, hu⟩ := not_forall.mp h
  have hmem : u ∈ Finset.univ.filter fun v => (s.threads v).pc.isFinished = false := by
    simpa using hu
  obtain ⟨w, hw, hmin⟩ :=
    Finset.exists_min_image _ (fun v => (s.threads v).pc.arrivals) ⟨u, hmem⟩
  refine ⟨w, (Finset.mem_filter.mp hw).2, fun v => ?_⟩
  cases hv : (s.threads v).pc.isFinished with
  | true => exact (Pc.arrivals_of_isFinished hv).symm ▸ (s.threads w).pc.arrivals_le_two
  | false => exact hmin v (by simpa using hv)

/-- Somebody has a step until all have finished. -/
theorem exists_step_of_unfinished {s : JobContext j} (h : ¬ s.Finished) :
    ∃ w t, s.step w = some t := by
  obtain ⟨w, hfin, hrel⟩ := exists_released h
  cases hwait : (s.threads w).pc.isWaiting with
  | true => exact ⟨w, _, step_of_released hwait hrel⟩
  | false => exact ⟨w, exists_step_of_not_waiting hfin hwait⟩

/-- **Every run can be carried on to a finished one.** -/
theorem Reachable.reaches_finished {s : JobContext j} (h : s.Reachable) :
    ∃ t : JobContext j, t.Reachable ∧ Reaches next s t ∧ t.Finished := by
  have hprogress : ∀ m : JobContext j, m.Inv → ¬ m.Finished →
      ∃ a t, True ∧ m.next a = some t ∧ t.Inv ∧ t.work < m.work := by
    intro m hm hfin
    obtain ⟨w, t, hstep⟩ := exists_step_of_unfinished hfin
    have hnext : m.next (.worker w) = some t := hstep
    exact ⟨.worker w, t, trivial, hnext, hm.next hnext, hm.work_lt (step_transition hstep)⟩
  obtain ⟨acts, t, _, hrun, _, hfin⟩ :=
    exists_run_of_measure Inv Finished (fun _ => True) work hprogress h.inv
  obtain ⟨before, hbefore⟩ := h
  exact ⟨t, ⟨before ++ acts, run_join hbefore hrun⟩, ⟨acts, hrun⟩, hfin⟩

/-- **The workers cannot go on for ever**, in whatever order they run. -/
theorem Reachable.no_infinite_run {states : Nat → JobContext j} (h : (states 0).Reachable) :
    ¬ ∀ i, ∃ w, (states i).step w = some (states (i + 1)) := by
  intro hsteps
  have hinv : ∀ i, (states i).Inv := by
    intro i
    induction i with
    | zero => exact h.inv
    | succ i ih =>
        obtain ⟨w, hstep⟩ := hsteps i
        have hnext : (states i).next (.worker w) = some (states (i + 1)) := hstep
        exact ih.next hnext
  obtain ⟨i, hi⟩ := WellFounded.not_rel_apply_succ (r := (· < ·)) fun i => (states i).work
  obtain ⟨w, hstep⟩ := hsteps i
  exact hi ((hinv i).work_lt (step_transition hstep))

end JobContext

end MapReduce
