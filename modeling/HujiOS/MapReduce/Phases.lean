import HujiOS.MapReduce.ReducePhase

/-!
# The three phases of a run

Worker 0's program counter says which phase the job is in.  A step of any worker
in the map part can only happen in the first phase, a shuffle step only in the
second and a reduce step only in the third; at the barriers the workers rest.
So every reachable state satisfies the invariant of its phase.
-/

namespace MapReduce

open Grouping Runs Pool

universe u

variable {K1 V1 K2 V2 K3 V3 : Type u} {j : Job K1 V1 K2 V2 K3 V3}

namespace Pc

/-- The phase of the job when worker 0 is here: up to the first change of stage
after the map phase, up to the second, or later. -/
def region : Pc j → Stage
  | mapSetStage | mapNext | mapCall _ | mapping _ | sort | firstBarrier | firstWait
  | shuffleSetStage => .map
  | shuffleLock | shuffleReset | shuffleCopy _ | shuffleMaxKey _ | shuffleDrain ..
  | shuffleCount .. | shuffleEndReset | shuffleUnlock | reduceAdvance => .shuffle
  | secondBarrier | secondWait | reduceSetStage | reduceCopy | reduceNext _ | reduceCall ..
  | reducing .. | finished => .reduce

variable {pc : Pc j}

/-- Before the first barrier, the job is in the map phase. -/
theorem region_of_passed_zero (h : pc.passed = 0) : pc.region = .map := by
  cases pc <;> simp_all [passed, region]

/-- From the second barrier on, the job is in the reduce phase. -/
theorem region_of_arrived_two (h : 2 ≤ pc.arrivals) : pc.region = .reduce := by
  cases pc <;> simp_all [arrivals, region]

/-- In the shuffle phase worker 0 is in its own part. -/
theorem isShuffle_of_region (h : pc.region = .shuffle) : pc.isShuffle = true := by
  cases pc <;> simp_all [region, isShuffle]

/-- A worker 0 that rests is not in the shuffle phase. -/
theorem region_ne_shuffle_of_isResting (h : pc.isResting = true) : pc.region ≠ .shuffle := by
  cases pc <;> simp_all [isResting, region]

end Pc

namespace JobContext

/-- Where the shuffle can stand, worker 0 shuffles. -/
theorem ShuffleAt.region {vecs queue : List (List (K2 × V2))} {word next : Nat} {pc : Pc j}
    (h : ShuffleAt vecs queue word next pc) : pc.region = .shuffle := by
  cases pc <;> simp_all [ShuffleAt, Pc.region]

/-- The invariant of the phase the job is in. -/
inductive Phase (s : JobContext j) : Prop
  | mapping (hregion : (s.threads j.threadZero).pc.region = .map) (h : s.MapInv)
  | shuffling (hregion : (s.threads j.threadZero).pc.region = .shuffle) (h : s.ShuffleInv)
  | reducing (hregion : (s.threads j.threadZero).pc.region = .reduce) (h : s.ReduceInv)

namespace Phase

variable {s t : JobContext j} {w : Fin j.numOfThreads}

/-- In the map phase, the invariant of the map phase. -/
theorem mapInv (h : s.Phase) (hregion : (s.threads j.threadZero).pc.region = .map) : s.MapInv := by
  rcases h with ⟨_, h⟩ | ⟨hother, _⟩ | ⟨hother, _⟩
  · exact h
  · simp [hother] at hregion
  · simp [hother] at hregion

/-- In the shuffle phase, the invariant of the shuffle phase. -/
theorem shuffleInv (h : s.Phase) (hregion : (s.threads j.threadZero).pc.region = .shuffle) :
    s.ShuffleInv := by
  rcases h with ⟨hother, _⟩ | ⟨_, h⟩ | ⟨hother, _⟩
  · simp [hother] at hregion
  · exact h
  · simp [hother] at hregion

/-- In the reduce phase, the invariant of the reduce phase. -/
theorem reduceInv (h : s.Phase) (hregion : (s.threads j.threadZero).pc.region = .reduce) :
    s.ReduceInv := by
  rcases h with ⟨hother, _⟩ | ⟨hother, _⟩ | ⟨_, h⟩
  · simp [hother] at hregion
  · simp [hother] at hregion
  · exact h

end Phase

section Regions

variable {s : JobContext j} {w : Fin j.numOfThreads} {pc : Pc j}

/-- A worker before the first barrier shows that the job is in the map phase. -/
theorem Phase.mapInv_at (h : s.Phase) (hcontrol : s.Control) (hpc : (s.threads w).pc = pc)
    (harrived : pc.arrivals = 0) :
    (s.threads j.threadZero).pc.region = .map ∧ s.MapInv := by
  have hle := hcontrol.barrier j.threadZero w
  rw [hpc, harrived] at hle
  have hregion := Pc.region_of_passed_zero (Nat.le_zero.mp hle)
  exact ⟨hregion, h.mapInv hregion⟩

/-- Only worker 0 shuffles, and while it does the job is in the shuffle phase. -/
theorem Phase.shuffleInv_at (h : s.Phase) (hcontrol : s.Control) (hpc : (s.threads w).pc = pc)
    (hshuffle : pc.isShuffle = true) (hregion : pc.region = .shuffle) :
    w = j.threadZero ∧ s.ShuffleInv := by
  have hzero : w = j.threadZero := hcontrol.shuffler w (by rw [hpc, hshuffle])
  exact ⟨hzero, h.shuffleInv (by rw [← hzero, hpc, hregion])⟩

/-- A worker past the second barrier shows that the job is in the reduce phase. -/
theorem Phase.reduceInv_at (h : s.Phase) (hcontrol : s.Control) (hpc : (s.threads w).pc = pc)
    (hpassed : pc.passed = 2) :
    (s.threads j.threadZero).pc.region = .reduce ∧ s.ReduceInv := by
  have hle := hcontrol.barrier w j.threadZero
  rw [hpc, hpassed] at hle
  have hregion := Pc.region_of_arrived_two hle
  exact ⟨hregion, h.reduceInv hregion⟩

/-- Once worker 0 is past the first barrier everybody is past the sort. -/
theorem Control.sorted_of_zero (hcontrol : s.Control)
    (hpassed : 1 ≤ (s.threads j.threadZero).pc.passed) :
    ∀ v, (s.threads v).pc.isSorted = true :=
  fun v => Pc.isSorted_of_arrived (hpassed.trans (hcontrol.barrier j.threadZero v))

end Regions

/-- A step in the map phase that leaves worker 0 in it. -/
theorem Phase.of_mapInv {s s' : JobContext j} {w : Fin j.numOfThreads} {thread : ThreadContext j}
    (hregion : (s.threads j.threadZero).pc.region = .map) (hthreads : s'.threads = s.threads)
    (hnew : thread.pc.region = .map) (h : (s'.setThread w thread).MapInv) :
    (s'.setThread w thread).Phase := by
  refine .mapping ?_ h
  rw [setThread_threads, hthreads]
  exact update_of (P := fun thread : ThreadContext j => thread.pc.region = .map) hregion hnew

/-- A step in the reduce phase that leaves worker 0 in it. -/
theorem Phase.of_reduceInv {s s' : JobContext j} {w : Fin j.numOfThreads}
    {thread : ThreadContext j} (hregion : (s.threads j.threadZero).pc.region = .reduce)
    (hthreads : s'.threads = s.threads) (hnew : thread.pc.region = .reduce)
    (h : (s'.setThread w thread).ReduceInv) : (s'.setThread w thread).Phase := by
  refine .reducing ?_ h
  rw [setThread_threads, hthreads]
  exact update_of (P := fun thread : ThreadContext j => thread.pc.region = .reduce) hregion hnew

/-- A step inside the shuffle. -/
theorem Phase.step_shuffle {s t : JobContext j} {w : Fin j.numOfThreads} (h : s.Phase)
    (hcontrol : s.Control) (htr : Transition s w t) (hregion : (s.threads w).pc.region = .shuffle)
    (hstay : (s.threads w).pc ≠ .reduceAdvance) : t.Phase := by
  obtain ⟨rfl, hinv⟩ := h.shuffleInv_at hcontrol rfl (Pc.isShuffle_of_region hregion) hregion
  obtain ⟨pc, hstep⟩ := htr.shuffleStep hinv.shuffling hstay
  refine .shuffling ?_ (hinv.step hstep)
  rw [hstep.threads, Function.update_self]
  exact hstep.stands.region

/-- A worker that moves from one resting place to another, worker 0 within its
phase. -/
theorem Phase.rest {s : JobContext j} {w : Fin j.numOfThreads} {pc : Pc j} (h : s.Phase)
    (hold : (s.threads w).pc.isResting = true) (hnew : pc.isResting = true)
    (hkeep : w = j.threadZero → pc.region = (s.threads w).pc.region) : (s.goto w pc).Phase := by
  have hregion : ((s.goto w pc).threads j.threadZero).pc.region =
      (s.threads j.threadZero).pc.region := by
    rw [goto_threads]
    by_cases hw : w = j.threadZero
    · subst hw
      rw [Function.update_self]
      exact hkeep rfl
    · rw [Function.update_of_ne (Ne.symm hw)]
  cases h with
  | mapping hr h => exact .mapping (hregion.trans hr) (h.rest hold hnew)
  | shuffling hr h =>
      refine .shuffling (hregion.trans hr) (h.rest (fun hw => ?_) pc)
      exact Pc.region_ne_shuffle_of_isResting hold (hw ▸ hr)
  | reducing hr h => exact .reducing (hregion.trans hr) (h.rest hold hnew)

/-- **One step keeps the phase invariant.** -/
theorem Phase.step {s t : JobContext j} {w : Fin j.numOfThreads} (h : s.Phase)
    (hcontrol : s.Control) (htr : Transition s w t) : t.Phase := by
  by_cases hshuffle :
      (s.threads w).pc.region = .shuffle ∧ (s.threads w).pc ≠ .reduceAdvance
  · exact h.step_shuffle hcontrol htr hshuffle.1 hshuffle.2
  cases htr with
  | mapSetStage hpc =>
      obtain ⟨hr, hm⟩ := h.mapInv_at hcontrol hpc rfl
      exact .of_mapInv hr rfl rfl (hm.mapSetStage hpc)
  | mapTake hpc ix hix =>
      obtain ⟨hr, hm⟩ := h.mapInv_at hcontrol hpc rfl
      exact .of_mapInv hr rfl rfl (hm.mapTake hpc hix)
  | mapExhausted hpc hlen =>
      obtain ⟨hr, hm⟩ := h.mapInv_at hcontrol hpc rfl
      exact .of_mapInv hr rfl rfl (hm.mapExhausted hpc hlen)
  | mapCall ix hpc =>
      obtain ⟨hr, hm⟩ := h.mapInv_at hcontrol hpc rfl
      exact .of_mapInv hr rfl rfl (hm.mapCall hpc)
  | emit2 p pairs hpc =>
      obtain ⟨hr, hm⟩ := h.mapInv_at hcontrol hpc rfl
      exact .of_mapInv hr rfl rfl (hm.emit2 hpc)
  | mapReturn hpc =>
      obtain ⟨hr, hm⟩ := h.mapInv_at hcontrol hpc rfl
      exact .of_mapInv hr rfl rfl (hm.mapReturn hpc)
  | sort hpc =>
      obtain ⟨hr, hm⟩ := h.mapInv_at hcontrol hpc rfl
      exact .of_mapInv hr rfl rfl (hm.sort hpc)
  | firstArrive hpc =>
      exact h.rest (by rw [hpc]; rfl) rfl (fun _ => by rw [hpc]; rfl)
  | firstReturnZero hpc hrel hw =>
      exact h.rest (by rw [hpc]; rfl) rfl (fun _ => by rw [hpc]; rfl)
  | firstReturn hpc hrel hw =>
      exact h.rest (by rw [hpc]; rfl) rfl (fun heq => absurd heq hw)
  | shuffleSetStage hpc =>
      obtain rfl := hcontrol.shuffler w (by rw [hpc]; rfl)
      have hr : (s.threads j.threadZero).pc.region = .map := by rw [hpc]; rfl
      have hall := hcontrol.sorted_of_zero (by rw [hpc]; rfl)
      refine .shuffling ?_ ((h.mapInv hr).shuffleSetStage hall)
      rw [goto_threads, Function.update_self]
      rfl
  | reduceAdvance hpc =>
      obtain ⟨rfl, hsh⟩ := h.shuffleInv_at hcontrol hpc rfl rfl
      refine .reducing ?_ (hsh.reduceAdvance hpc fun v hv => ?_)
      · rw [goto_threads, Function.update_self]
        rfl
      · exact hcontrol.resting_of_zero (by rw [hpc]; rfl) (by rw [hpc]; rfl) hv
  | secondArrive hpc => exact h.rest (by rw [hpc]; rfl) rfl (fun _ => by rw [hpc]; rfl)
  | secondReturn hpc hrel => exact h.rest (by rw [hpc]; rfl) rfl (fun _ => by rw [hpc]; rfl)
  | reduceSetStage hpc =>
      obtain ⟨hr, hred⟩ := h.reduceInv_at hcontrol hpc rfl
      exact .of_reduceInv hr rfl rfl (hred.reduceSetStage hpc)
  | reduceCopy hpc =>
      obtain ⟨hr, hred⟩ := h.reduceInv_at hcontrol hpc rfl
      exact .of_reduceInv hr rfl rfl (hred.reduceCopy hpc)
  | reduceTake shuffleQueue ix hpc hix =>
      obtain ⟨hr, hred⟩ := h.reduceInv_at hcontrol hpc rfl
      exact .of_reduceInv hr rfl rfl (hred.reduceTake hpc hix)
  | reduceExhausted shuffleQueue hpc hlen =>
      obtain ⟨hr, hred⟩ := h.reduceInv_at hcontrol hpc rfl
      exact .of_reduceInv hr rfl rfl (hred.reduceExhausted hpc hlen)
  | reduceCall shuffleQueue ix hpc =>
      obtain ⟨hr, hred⟩ := h.reduceInv_at hcontrol hpc rfl
      exact .of_reduceInv hr rfl rfl (hred.reduceCall hpc)
  | emit3 shuffleQueue ix out outs hpc =>
      obtain ⟨hr, hred⟩ := h.reduceInv_at hcontrol hpc rfl
      exact .of_reduceInv hr rfl rfl (hred.emit3 hpc)
  | reduceReturn shuffleQueue ix hpc =>
      obtain ⟨hr, hred⟩ := h.reduceInv_at hcontrol hpc rfl
      exact .of_reduceInv hr rfl rfl (hred.reduceReturn hpc)
  -- the steps inside the shuffle
  | _ => simp_all [Pc.region]

/-! ## Runs -/

/-- What holds in every reachable state. -/
structure Inv (s : JobContext j) : Prop where
  control : s.Control
  phase : s.Phase

/-- The invariant holds before the first step. -/
theorem Inv.initial : (initial j).Inv :=
  ⟨Control.initial, .mapping rfl MapInv.initial⟩

/-- Every step keeps the invariant, and a report changes nothing. -/
theorem Inv.next {s t : JobContext j} {a : Action j} (h : s.Inv) (hnext : s.next a = some t) :
    t.Inv := by
  cases a with
  | worker w =>
      have htr := step_transition hnext
      exact ⟨h.control.step htr, h.phase.step h.control htr⟩
  | getJobState => exact Option.some.inj hnext ▸ h

/-- By induction over the run, the invariant holds in every reachable
state. -/
theorem Reachable.inv {s : JobContext j} (h : s.Reachable) : s.Inv :=
  Reaches.invariant Inv (fun _ _ _ hinv hnext => hinv.next hnext) h Inv.initial

end JobContext

end MapReduce
