import HujiOS.MapReduce.SampleMain

/-!
# The sample program ends

`main` can always go on, and in a run that goes on for ever it asks again and again
while the workers, though they could go on, do not; such runs there are.  Without a
character the reduce stage has no percentage, and `main` never leaves its loop.
-/

namespace MapReduce

open Runs

universe u

variable {K1 V1 K2 V2 K3 V3 : Type u} {j : Job K1 V1 K2 V2 K3 V3}

/-! ## Somebody can go on -/

namespace SampleMain

variable {float : FloatPercentage} {s t : SampleMain j}

/-- Where `main` is in no call some worker has a step, until all have finished. -/
theorem Inv.exists_worker (h : s.Inv) (hcreator : s.handle.locked.creator = .returned)
    (hholds : s.handle.client.holdsJobState = false) (hfin : ¬ s.handle.locked.job.Finished) :
    ∃ w t, s.step float (.worker w) = some t := by
  obtain ⟨a, handle, hnext⟩ := h.handle.inv.exists_actor hholds hfin
  cases a with
  | creator =>
      obtain ⟨locked, _, hstep, _⟩ := JobHandle.next_actor hnext
      have hnone : s.handle.locked.stepCreator = some locked := hstep
      simp [LockedJob.stepCreator, hcreator] at hnone
  | worker w => exact ⟨w, _, congrArg (Option.map _) hnext⟩

/-- A step of the library is a step of the program. -/
theorem isSome_callLibrary {a : HandleAction j} {handle : JobHandle j}
    (h : s.handle.next a = some handle) : (s.callLibrary a).isSome = true := by
  unfold callLibrary
  rw [h]
  rfl

/-- `main` goes on with the call that it is in. -/
theorem isSome_stepMain_client {handle : JobHandle j} (hpc : s.pc = .polling ∨ s.pc = .deleting)
    (h : s.handle.stepClient = some handle) : (s.stepMain float).isSome = true := by
  have hnext : s.handle.next .client = some handle := h
  have hcall := isSome_callLibrary hnext
  unfold stepMain
  rcases hpc with hpc | hpc
  · simp only [hpc]
    split
    · rw [Option.isSome_map]
      exact hcall
    · exact hcall
  · simp only [hpc]
    split
    · rfl
    · exact hcall

/-- `main` can ask while no worker is changing the state of the job. -/
theorem Inv.isSome_asking (h : s.Inv) (hpc : s.pc = .asking)
    (hfree : s.handle.locked.sections .jobState = none) : (s.stepMain float).isSome = true := by
  have hfits := h.fits
  rw [hpc] at hfits
  have hidle : s.handle.client = .idle := hfits
  have hcreator := h.returned (by simp [hpc])
  simp [stepMain, callLibrary, hpc, JobHandle.next, JobHandle.callFunction, hcreator, hidle, hfree]

/-- `main` can go on with its test. -/
theorem isSome_testing (hpc : s.pc = .testing) : (s.stepMain float).isSome = true := by
  unfold stepMain
  simp only [hpc]
  split
  · rfl
  · rfl

/-- **Nobody is stuck** before the end. -/
theorem Inv.exists_step (h : s.Inv) (hended : s.pc ≠ .ended) : ∃ a t, s.step float a = some t := by
  have hmain : (s.stepMain float).isSome = true → ∃ a t, s.step float a = some t := by
    intro hsome
    obtain ⟨t, ht⟩ := Option.isSome_iff_exists.mp hsome
    exact ⟨.main, t, ht⟩
  have hworker : s.pc ≠ .starting → s.handle.client.holdsJobState = false →
      ¬ s.handle.locked.job.Finished → ∃ a t, s.step float a = some t := by
    intro hpc hholds hfin
    obtain ⟨w, t, ht⟩ := h.exists_worker (h.returned hpc) hholds hfin
    exact ⟨.worker w, t, ht⟩
  have hfits := h.fits
  cases hpc : s.pc with
  | starting =>
      refine hmain ?_
      unfold stepMain
      simp only [hpc]
      split
      · rfl
      · next hcreator =>
          obtain ⟨locked, hlocked⟩ := h.handle.inv.locked.inv.exists_step_of_creator hcreator
          have hnext : s.handle.next (.actor .creator) =
              some { s.handle with locked := locked } := by
            simp [JobHandle.next, JobHandle.Blocked, LockedJob.next, hlocked]
          exact isSome_callLibrary hnext
  | asking =>
      rw [hpc] at hfits
      have hidle : s.handle.client = .idle := hfits
      have hcreator := h.returned (by simp [hpc])
      by_cases hfin : s.handle.locked.job.Finished
      · exact hmain (h.isSome_asking hpc
          ((h.handle.inv.locked.inv.quiet hfin hcreator).sections .jobState))
      · exact hworker (by simp [hpc]) (by rw [hidle]; rfl) hfin
  | polling =>
      rw [hpc] at hfits
      obtain ⟨handle, hstep⟩ := JobHandle.exists_stepClient_of_holds hfits
      exact hmain (isSome_stepMain_client (Or.inl hpc) hstep)
  | testing => exact hmain (isSome_testing hpc)
  | closing =>
      rw [hpc] at hfits
      have hidle : s.handle.client = .idle := hfits
      have hcreator := h.returned (by simp [hpc])
      refine hmain ?_
      simp [stepMain, callLibrary, hpc, JobHandle.next, JobHandle.callFunction, hcreator, hidle]
  | deleting =>
      rw [hpc] at hfits
      rcases hfits with ⟨i, hjoining⟩ | hdeleting | hclosed
      · by_cases hfin : s.handle.locked.job.Finished
        · have hstep : ∃ handle, s.handle.stepClient = some handle := by
            simp only [JobHandle.stepClient, hjoining, JobHandle.pthreadJoin]
            split
            · exact ⟨_, if_pos (hfin _)⟩
            · exact ⟨_, rfl⟩
          obtain ⟨handle, hstep⟩ := hstep
          exact hmain (isSome_stepMain_client (Or.inr hpc) hstep)
        · exact hworker (by simp [hpc]) (by rw [hjoining]; rfl) hfin
      · have hstep : s.handle.stepClient = some { s.handle with client := .closed } := by
          simp only [JobHandle.stepClient, hdeleting]
        exact hmain (isSome_stepMain_client (Or.inr hpc) hstep)
      · refine hmain ?_
        simp [stepMain, hpc, hclosed]
  | ended => exact absurd hpc hended

/-! ## A run that does not end -/

/-- A step of the job lowers its work, and a step of `main` outside of the constructor
leaves the job alone. -/
theorem Inv.locked_step (h : s.Inv) {a : MainAction j} (hstep : s.step float a = some t) :
    t.handle.locked.work < s.handle.locked.work ∨
      a = .main ∧ t.handle.locked = s.handle.locked := by
  have hactor : ∀ {a : Actor j} {handle : JobHandle j}, s.handle.next (.actor a) = some handle →
      handle.locked.work < s.handle.locked.work := by
    intro a handle hnext
    obtain ⟨locked, _, hlocked, rfl⟩ := JobHandle.next_actor hnext
    exact LockedJob.next_work_lt h.handle.inv.locked hlocked
  cases step_move hstep with
  | worker hnext => exact Or.inl (hactor hnext)
  | constructs _ hnext => exact Or.inl (hactor hnext)
  | starts _ _ => exact Or.inr ⟨rfl, rfl⟩
  | asks _ hnext => exact Or.inr ⟨rfl, by rw [JobHandle.next_getJobState hnext]⟩
  | polls _ _ hnext => exact Or.inr ⟨rfl, JobHandle.stepClient_locked hnext⟩
  | told _ _ hnext => exact Or.inr ⟨rfl, JobHandle.stepClient_locked hnext⟩
  | leaves _ _ => exact Or.inr ⟨rfl, rfl⟩
  | again _ _ => exact Or.inr ⟨rfl, rfl⟩
  | closes _ hnext => exact Or.inr ⟨rfl, (JobHandle.next_closeJobHandle hnext).1⟩
  | deletes _ _ hnext => exact Or.inr ⟨rfl, JobHandle.stepClient_locked hnext⟩
  | prints _ _ => exact Or.inr ⟨rfl, rfl⟩

/-- The steps that `main` has left once the workers have finished.  What it was told
before that may send it round once more. -/
def left (s : SampleMain j) : Nat :=
  let round := j.numOfThreads + 6
  match s.pc with
  | .starting => 5 * round
  | .testing => if s.state.isDone then 2 * round else 4 * round
  | .asking => 3 * round
  | .polling => 2 * round + s.handle.client.stepsLeft j.numOfThreads
  | .closing => round
  | .deleting => 1 + s.handle.client.stepsLeft j.numOfThreads
  | .ended => 0

/-- A finished job tells `main` to leave its loop. -/
theorem told_finished (hmap : j.numOfInputElems < 2 ^ 32) (hemit : j.emitted.length < 2 ^ 32)
    (hpos : 0 < j.emitted.length) {job : JobContext j} (hinv : job.Inv) (hfin : job.Finished) :
    (j.told float job.getJobState).isDone = true := by
  rw [(hinv.shows_finished hfin).getJobState hmap hemit, Told.isDone_iff]
  refine Told.ext rfl ?_
  rw [told_percentage hpos]
  exact congrArg some (float.all_processed hpos)

/-- While the job is finished `main` comes nearer to the end with every step. -/
theorem Inv.left_lt (hmap : j.numOfInputElems < 2 ^ 32) (hemit : j.emitted.length < 2 ^ 32)
    (hpos : 0 < j.emitted.length) (h : s.Inv) (hfin : s.handle.locked.job.Finished)
    {a : MainAction j} (hstep : s.step float a = some t)
    (hlocked : t.handle.locked.work = s.handle.locked.work) : t.left < s.left := by
  have hactor : ∀ {a : Actor j} {handle : JobHandle j}, s.handle.next (.actor a) = some handle →
      handle.locked.work ≠ s.handle.locked.work := by
    intro a handle hnext
    obtain ⟨locked, _, hlocked, rfl⟩ := JobHandle.next_actor hnext
    exact (LockedJob.next_work_lt h.handle.inv.locked hlocked).ne
  unfold left
  cases step_move hstep with
  | worker hnext => exact absurd hlocked (hactor hnext)
  | constructs _ hnext => exact absurd hlocked (hactor hnext)
  | starts hpc _ =>
      simp only [hpc]
      omega
  | asks hpc hnext =>
      simp only [hpc, JobHandle.next_getJobState hnext, ClientPc.stepsLeft]
      omega
  | polls hpc _ hnext =>
      have hlt := JobHandle.stepClient_stepsLeft hnext
      simp only [hpc]
      omega
  | @told handle p totalItems hpc hclient hnext =>
      have hlt := JobHandle.stepClient_stepsLeft hnext
      have hdone : (Told.of float p totalItems).isDone = true := by
        rw [h.handle.inv.told_eq float hclient]
        exact told_finished hmap hemit hpos h.handle.inv.locked.job.inv hfin
      simp only [hpc, hdone, if_true]
      omega
  | leaves hpc hdone =>
      simp only [hpc, hdone, if_true]
      omega
  | again hpc hdone =>
      simp only [hpc, hdone, Bool.false_eq_true, if_false]
      omega
  | closes hpc hnext =>
      simp only [hpc]
      rcases (JobHandle.next_closeJobHandle hnext).2 with ⟨i, hclient⟩ | hclient
      · simp only [hclient, ClientPc.stepsLeft]
        omega
      · simp only [hclient, ClientPc.stepsLeft]
        omega
  | deletes hpc _ hnext =>
      have hlt := JobHandle.stepClient_stepsLeft hnext
      simp only [hpc]
      omega
  | prints hpc _ =>
      simp only [hpc]
      omega

/-- In the constructor `main` takes steps of the job. -/
theorem Inv.creator_of_idle (h : s.Inv) (hstep : s.step float .main = some t)
    (hlocked : t.handle.locked = s.handle.locked) : s.handle.locked.creator = .returned := by
  by_contra hcreator
  have hpc : s.pc = .starting := by
    by_contra hne
    exact hcreator (h.returned hne)
  have hmain : s.stepMain float = some t := hstep
  unfold stepMain at hmain
  simp only [hpc, if_neg hcreator] at hmain
  obtain ⟨handle, hnext, rfl⟩ := callLibrary_eq_some hmain
  obtain ⟨locked, _, hlower, rfl⟩ := JobHandle.next_actor hnext
  exact (LockedJob.next_work_lt h.handle.inv.locked hlower).ne (congrArg LockedJob.work hlocked)

/-- A call of `getJobState` comes to its end. -/
theorem Inv.stepsLeft_lt (h : s.Inv) (hholds : s.handle.client.holdsJobState = true)
    (hstep : s.step float .main = some t) :
    t.handle.client.stepsLeft j.numOfThreads < s.handle.client.stepsLeft j.numOfThreads := by
  have hfits := h.fits
  have hpolling : s.pc = .polling := by
    cases hpc : s.pc with
    | polling => rfl
    | deleting =>
        rw [hpc] at hfits
        rcases hfits with ⟨i, hclient⟩ | hclient | hclient
        · simp [hclient, ClientPc.holdsJobState] at hholds
        · simp [hclient, ClientPc.holdsJobState] at hholds
        · simp [hclient, ClientPc.holdsJobState] at hholds
    | _ =>
        rw [hpc] at hfits
        have hclient := hfits
        unfold MainPc.Fits at hclient
        simp [hclient, ClientPc.holdsJobState] at hholds
  have hmain : s.stepMain float = some t := hstep
  unfold stepMain at hmain
  simp only [hpolling] at hmain
  split at hmain
  · obtain ⟨m, hm, rfl⟩ := Option.map_eq_some_iff.mp hmain
    obtain ⟨handle, hnext, rfl⟩ := callLibrary_eq_some hm
    exact JobHandle.stepClient_stepsLeft hnext
  · obtain ⟨handle, hnext, rfl⟩ := callLibrary_eq_some hmain
    exact JobHandle.stepClient_stepsLeft hnext

/-- The workers take steps for ever if they can take steps for ever. -/
def Fair (float : FloatPercentage) (acts : Nat → MainAction j) (states : Nat → SampleMain j) :
    Prop :=
  (∀ i, ∃ k ≥ i, ∃ w t, (states k).step float (.worker w) = some t) →
    ∀ i, ∃ k ≥ i, ∃ w, acts k = .worker w

section Infinite

variable {acts : Nat → MainAction j} {states : Nat → SampleMain j}
  (hinv : ∀ i, (states i).Inv)
  (hsteps : ∀ i, (states i).step float (acts i) = some (states (i + 1)))

include hinv hsteps

/-- From some point on nobody but `main` takes a step. -/
theorem exists_idle : ∃ i, ∀ k ≥ i, acts k = .main ∧
    (states k).handle.locked = (states i).handle.locked := by
  let work := fun i => (states i).handle.locked.work
  have hle : Antitone work := antitone_nat_of_succ_le fun i => by
    rcases (hinv i).locked_step (hsteps i) with hlt | ⟨_, heq⟩
    · exact hlt.le
    · exact le_of_eq (congrArg LockedJob.work heq)
  obtain ⟨_, hmem, hmin⟩ := wellFounded_lt.has_min (Set.range work) ⟨work 0, 0, rfl⟩
  obtain ⟨i, rfl⟩ := hmem
  have hmain : ∀ k ≥ i, acts k = .main ∧
      (states (k + 1)).handle.locked = (states k).handle.locked := by
    intro k hk
    refine ((hinv k).locked_step (hsteps k)).resolve_left fun hlt => ?_
    exact hmin (work (k + 1)) ⟨k + 1, rfl⟩ (hlt.trans_le (hle hk))
  refine ⟨i, fun k hk => ⟨(hmain k hk).1, ?_⟩⟩
  induction k, hk using Nat.le_induction with
  | base => rfl
  | succ k hk ih => exact (hmain k hk).2.trans ih

/-- **A run that does not end is unfair to the workers.** -/
theorem not_fair (hmap : j.numOfInputElems < 2 ^ 32) (hemit : j.emitted.length < 2 ^ 32)
    (hpos : 0 < j.emitted.length) : ¬ Fair float acts states := by
  intro hfair
  obtain ⟨i, hidle⟩ := exists_idle hinv hsteps
  have hnever : ¬ ∀ i, ∃ k ≥ i, ∃ w, acts k = .worker w := by
    intro hoften
    obtain ⟨k, hk, w, hw⟩ := hoften i
    rw [(hidle k hk).1] at hw
    cases hw
  obtain ⟨m, hm⟩ := not_forall.mp fun hcan => hnever (hfair hcan)
  have hlocked : ∀ k, (states (i + m + k)).handle.locked = (states i).handle.locked := fun k =>
    (hidle (i + m + k) (by omega)).2
  have hmain : ∀ k, (states (i + m + k)).step float .main = some (states (i + m + k + 1)) := by
    intro k
    rw [← (hidle (i + m + k) (by omega)).1]
    exact hsteps (i + m + k)
  by_cases hfin : (states i).handle.locked.job.Finished
  · -- `main` would come nearer to the end for ever
    obtain ⟨k, hk⟩ := WellFounded.not_rel_apply_succ (r := (· < ·)) fun k =>
      (states (i + m + k)).left
    refine hk ((hinv _).left_lt hmap hemit hpos ?_ (hsteps (i + m + k)) ?_)
    · rw [hlocked]
      exact hfin
    · exact congrArg LockedJob.work ((hlocked (k + 1)).trans (hlocked k).symm)
  · -- `main` would hold `jobStateMutex_` for ever
    have hholds : ∀ k, (states (i + m + k)).handle.client.holdsJobState = true := by
      intro k
      by_contra hfree
      have hcreator := (hinv _).creator_of_idle (hmain k) ((hlocked (k + 1)).trans (hlocked k).symm)
      have hworker : ∃ w t, (states (i + m + k)).step float (.worker w) = some t :=
        (hinv _).exists_worker hcreator (Bool.eq_false_iff.mpr hfree) (by rw [hlocked]; exact hfin)
      obtain ⟨w, t, ht⟩ := hworker
      exact hm ⟨i + m + k, by omega, w, t, ht⟩
    obtain ⟨k, hk⟩ := WellFounded.not_rel_apply_succ (r := (· < ·)) fun k =>
      (states (i + m + k)).handle.client.stepsLeft j.numOfThreads
    exact hk ((hinv _).stepsLeft_lt (hholds k) (hmain k))

end Infinite

/-- `main` is in its loop, and the job, which nobody changes, does not let it out. -/
structure Polls (float : FloatPercentage) (s : SampleMain j) : Prop where
  inv : s.Inv
  loops : s.pc = .asking ∨ s.pc = .polling ∨ s.pc = .testing
  free : s.handle.locked.sections .jobState = none
  state : s.state.isDone = false
  told : (j.told float s.handle.locked.job.getJobState).isDone = false

/-- Then `main` goes on, and the job stays as it is. -/
theorem Polls.step (h : s.Polls float) : ∃ t, s.step float .main = some t ∧ t.Polls float := by
  have hsome : (s.stepMain float).isSome = true := by
    rcases h.loops with hpc | hpc | hpc
    · exact h.inv.isSome_asking hpc h.free
    · have hfits := h.inv.fits
      rw [hpc] at hfits
      obtain ⟨handle, hstep⟩ := JobHandle.exists_stepClient_of_holds hfits
      exact isSome_stepMain_client (Or.inl hpc) hstep
    · exact isSome_testing hpc
  obtain ⟨t, ht⟩ := Option.isSome_iff_exists.mp hsome
  have hinv := h.inv.step (a := .main) ht
  have hloops := h.loops
  refine ⟨t, ht, ?_⟩
  cases step_move (a := .main) ht with
  | constructs hpc => simp [hpc] at hloops
  | starts hpc => simp [hpc] at hloops
  | asks hpc hnext =>
      have hlocked := congrArg JobHandle.locked (JobHandle.next_getJobState hnext)
      exact ⟨hinv, Or.inr (Or.inl rfl), hlocked ▸ h.free, h.state, hlocked ▸ h.told⟩
  | polls hpc hclient hnext =>
      have hlocked := JobHandle.stepClient_locked hnext
      exact ⟨hinv, h.loops, hlocked ▸ h.free, h.state, hlocked ▸ h.told⟩
  | told hpc hclient hnext =>
      have hlocked := JobHandle.stepClient_locked hnext
      refine ⟨hinv, Or.inr (Or.inr rfl), hlocked ▸ h.free, ?_, hlocked ▸ h.told⟩
      rw [h.inv.handle.inv.told_eq float hclient]
      exact h.told
  | leaves hpc hdone => exact absurd hdone (by simp [h.state])
  | again hpc hdone => exact ⟨hinv, Or.inl rfl, h.free, h.state, h.told⟩
  | closes hpc => simp [hpc] at hloops
  | deletes hpc => simp [hpc] at hloops
  | prints hpc => simp [hpc] at hloops

/-! ## Nothing to count -/

/-- In the loop, and not told to leave it. -/
structure InLoop (s : SampleMain j) : Prop where
  inv : s.Inv
  notBehind : s.pc.isBehind = false
  state : s.state.isDone = false

/-- Of nothing there is no percentage. -/
theorem told_of_nothing (hnone : j.emitted.length = 0) (p : JobState) :
    (j.told float p).isDone = false := by
  refine Bool.eq_false_iff.mpr fun hdone => ?_
  have heq := Told.isDone_iff.mp hdone
  have hstage : p.stage = .reduce := congrArg Told.stage heq
  have hpercentage : (j.told float p).percentage = some 100 := congrArg Told.percentage heq
  unfold Job.told Told.of Job.total Job.totalItems at hpercentage
  rw [hstage] at hpercentage
  simp [hnone] at hpercentage

/-- Of a job that emits nothing, `main` never leaves the loop. -/
theorem InLoop.step (hnone : j.emitted.length = 0) (h : s.InLoop) {a : MainAction j}
    (hstep : s.step float a = some t) : t.InLoop := by
  have hinv := h.inv.step hstep
  have hbehind := h.notBehind
  cases step_move hstep with
  | worker _ => exact ⟨hinv, hbehind, h.state⟩
  | constructs _ _ => exact ⟨hinv, hbehind, h.state⟩
  | starts _ _ => exact ⟨hinv, rfl, h.state⟩
  | asks _ _ => exact ⟨hinv, rfl, h.state⟩
  | polls _ _ _ => exact ⟨hinv, hbehind, h.state⟩
  | @told handle p totalItems _ hclient _ =>
      refine ⟨hinv, rfl, ?_⟩
      show (Told.of float p totalItems).isDone = false
      rw [h.inv.handle.inv.told_eq float hclient]
      exact told_of_nothing hnone _
  | leaves _ hdone => exact absurd hdone (by simp [h.state])
  | again _ _ => exact ⟨hinv, rfl, h.state⟩
  | closes hpc _ => simp [hpc, MainPc.isBehind] at hbehind
  | deletes hpc _ _ => simp [hpc, MainPc.isBehind] at hbehind
  | prints hpc _ => simp [hpc, MainPc.isBehind] at hbehind

end SampleMain

open CounterClient MachineInt

/-- **When the sample program ends.**  For fewer than 2^32 strings with no more
characters in all than an `int` can count, any number of threads and any rounding.
With a character in the strings somebody can go on in every reachable
state before the end, and an infinite run is one in which from some point on the
workers could take steps again and again and take none: so every fair run ends.
Without a character no run does. -/
theorem main_ends {contents : List (List Int8)} {stdSort : SortRoutine kcharOrder Int}
    {n : Nat} {hn : 0 < n} {float : FloatPercentage} (hmany : contents.length < 2 ^ 32)
    (hlen : (contents.flatten.length : Int) ≤ intMax)
    {s : SampleMain (counterJob contents stdSort n hn)} (h : s.Reachable float) :
    (contents.flatten ≠ [] → (s.pc = .ended ∨ ∃ a t, s.step float a = some t) ∧
      ∀ acts states, states 0 = s →
        (∀ i, (states i).step float (acts i) = some (states (i + 1))) →
          ¬ SampleMain.Fair float acts states) ∧
      (contents.flatten = [] → s.pc ≠ .ended) := by
  have hinput : (counterJob contents stdSort n hn).numOfInputElems < 2 ^ 32 := by
    simpa [Job.numOfInputElems, counterJob] using hmany
  have hpositive : 0 < (counterJob contents stdSort n hn).emitted.length ↔ contents.flatten ≠ [] :=
    emitted_pos hlen
  refine ⟨fun hchar => ⟨?_, ?_⟩, fun hnone => ?_⟩
  · by_cases hended : s.pc = .ended
    · exact Or.inl hended
    · exact Or.inr (h.inv.exists_step hended)
  · intro acts states hzero hsteps
    have hinv : ∀ i, (states i).Inv := by
      intro i
      induction i with
      | zero => exact hzero ▸ h.inv
      | succ i ih => exact ih.step (hsteps i)
    exact SampleMain.not_fair hinv hsteps hinput (emitted_lt hlen) (hpositive.mpr hchar)
  · have hzero : (counterJob contents stdSort n hn).emitted.length = 0 := by
      by_contra hne
      exact hpositive.mp (Nat.pos_of_ne_zero hne) hnone
    have hloop : s.InLoop :=
      Reaches.invariant SampleMain.InLoop (fun _ _ _ hin hstep => hin.step hzero hstep) h
        ⟨SampleMain.Inv.initial, rfl, rfl⟩
    intro hended
    have hbehind := hloop.notBehind
    simp [hended, MainPc.isBehind] at hbehind

/-- The characters of a string literal. -/
def bytes (text : String) : List Int8 := text.toList.map fun c => Int8.ofNat c.toNat

/-- The strings of `main`. -/
def sampleStrings : List (List Int8) :=
  [bytes "This string is full of characters", bytes "Multithreading is awesome",
    bytes "race conditions are bad"]

/-- The job of `main`. -/
def sampleJob : Job Unit (List Int8) Int8 Int Int8 Int :=
  counterJob sampleStrings kcharSort 4 (by decide)

/-- Worker 2 has begun to map when `main` asks for the state. -/
def samplePolls : List (MainAction sampleJob) :=
  List.replicate 9 .main ++ List.replicate 3 (.worker ⟨2, by decide⟩) ++ List.replicate 5 .main

/-- From there `main` can poll for ever, which is not fair to the workers. -/
theorem main_ends_sample :
    ∃ s acts states, run (SampleMain.step .exact) (SampleMain.initial sampleJob) samplePolls =
        some s ∧ states 0 = s ∧
      (∀ i, (states i).step .exact (acts i) = some (states (i + 1))) ∧
      ¬ SampleMain.Fair .exact acts states := by
  have hpolls : ((run (SampleMain.step .exact) (SampleMain.initial sampleJob) samplePolls).any
      fun s => decide ((s.pc = .asking ∨ s.pc = .polling ∨ s.pc = .testing) ∧
        s.handle.locked.sections .jobState = none ∧ s.state.isDone = false ∧
        (sampleJob.told .exact s.handle.locked.job.getJobState).isDone = false)) = true := by
    decide +kernel
  obtain ⟨s, hrun, hs⟩ := (Option.any_eq_true _ _).mp hpolls
  obtain ⟨hloops, hfree, hstate, htold⟩ := of_decide_eq_true hs
  have hreach : s.Reachable .exact := ⟨samplePolls, hrun⟩
  obtain ⟨states, hzero, hsteps⟩ := exists_infinite_run MainAction.main
    (SampleMain.Polls .exact)
    (fun _ h => h.step) ⟨hreach.inv, hloops, hfree, hstate, htold⟩
  have hends := (main_ends (by decide) (by decide) hreach).1 (by decide)
  exact ⟨s, fun _ => .main, states, hrun, hzero, hsteps, hends.2 _ _ hzero hsteps⟩

end MapReduce
