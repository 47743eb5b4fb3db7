import HujiOS.MapReduce.Percentage
import HujiOS.MapReduce.AtomicReports
import HujiOS.MapReduce.SampleClient

/-!
# The sample program

`main` starts the job, asks for its state until the reduce stage is at 100 percent
and closes the handle.  It prints each state that differs from the one before, and
the output at the end.

The percentage is a `float`.  Of its arithmetic only this is used: rounding is
monotone, and exact for no items and for all of them.
-/

namespace MapReduce

open Runs

universe u

variable {K1 V1 K2 V2 K3 V3 : Type u} {j : Job K1 V1 K2 V2 K3 V3}

/-- `((float) numOfProcessed / totalItems) * 100`, for a total that is not zero. -/
structure FloatPercentage where
  percentage : Nat → Nat → ℚ
  mono : ∀ {totalItems}, 0 < totalItems →
    Monotone fun numOfProcessed => percentage numOfProcessed totalItems
  none_processed : ∀ {totalItems}, 0 < totalItems → percentage 0 totalItems = 0
  all_processed : ∀ {totalItems}, 0 < totalItems → percentage totalItems totalItems = 100

/-- `JobState` as the client has it.  Zero divided by zero is NaN, here `none`. -/
@[ext] structure Told where
  stage : Stage
  percentage : Option ℚ
  deriving DecidableEq

namespace Told

/-- What `getJobState` returns for a count and a total. -/
def of (float : FloatPercentage) (p : JobState) (totalItems : Nat) : Told where
  stage := p.stage
  percentage :=
    if totalItems = 0 then none else some (float.percentage p.numOfProcessed totalItems)

/-- `{UNDEFINED_STAGE, 0}`. -/
def initial : Told := ⟨.undefined, some 0⟩

/-- `state.stage == REDUCE_STAGE && state.percentage == 100.0`. -/
def isDone (state : Told) : Bool := state.stage = .reduce && state.percentage = some 100

/-- Both fields are equal; NaN does not equal itself. -/
def same (state last : Told) : Bool :=
  state.stage = last.stage && state.percentage = last.percentage && state.percentage.isSome

end Told

/-- Where `main` is. -/
inductive MainPc
  -- in `startMapReduceJob`
  | starting
  -- about to call `getJobState`
  | asking
  | polling
  -- at the condition of the loop
  | testing
  -- about to call `closeJobHandle`
  | closing
  | deleting
  | ended
  deriving DecidableEq, Repr

/-- The program: the handle, where `main` is, its two variables, and what it
has printed. -/
structure SampleMain (j : Job K1 V1 K2 V2 K3 V3) where
  handle : JobHandle j
  pc : MainPc
  state : Told
  lastState : Told
  /-- the states that are printed -/
  progress : List Told
  /-- the pairs of the output vector that are printed -/
  printed : List (K3 × V3)

/-- One step of a worker or of the main thread. -/
inductive MainAction (j : Job K1 V1 K2 V2 K3 V3)
  | worker (w : Fin j.numOfThreads)
  | main

namespace SampleMain

/-- `state` is not initialised, and not read before the first `getJobState`. -/
def initial (j : Job K1 V1 K2 V2 K3 V3) : SampleMain j where
  handle := JobHandle.initial j
  pc := .starting
  state := Told.initial
  lastState := Told.initial
  progress := []
  printed := []

variable (float : FloatPercentage)

/-- The main thread does the steps of the library calls that it is in. -/
def callLibrary (s : SampleMain j) (a : HandleAction j) : Option (SampleMain j) :=
  (s.handle.next a).map fun handle => { s with handle := handle }

/-- One step of the main thread, inside a library call or between two. -/
def stepMain (s : SampleMain j) : Option (SampleMain j) :=
  match s.pc with
  | .starting =>
      if s.handle.locked.creator = .returned then some { s with pc := .asking }
      else s.callLibrary (.actor .creator)
  | .asking => (s.callLibrary (.call .getJobState)).map fun t => { t with pc := .polling }
  | .polling =>
      match s.handle.client with
      | .reporting currJobState totalItems =>
          (s.callLibrary .client).map fun t =>
            { t with state := Told.of float currJobState totalItems, pc := .testing }
      | _ => s.callLibrary .client
  | .testing =>
      if s.state.isDone then
        some { s with progress := s.progress ++ [s.state], pc := .closing }
      else
        some { s with
          progress := if s.state.same s.lastState then s.progress else s.progress ++ [s.state]
          lastState := s.state
          pc := .asking }
  | .closing => (s.callLibrary (.call .closeJobHandle)).map fun t => { t with pc := .deleting }
  | .deleting =>
      if s.handle.client = .closed then
        some { s with printed := s.handle.locked.job.outputVec, pc := .ended }
      else s.callLibrary .client
  | .ended => none

/-- One step of the program. -/
def step (s : SampleMain j) : MainAction j → Option (SampleMain j)
  | .worker w => s.callLibrary (.actor (.worker w))
  | .main => s.stepMain float

/-- Some interleaving of `main` and the workers leads to `s`. -/
def Reachable (s : SampleMain j) : Prop := Reaches (step float) (initial j) s

end SampleMain

/-! ## What a step can do -/

namespace SampleMain

variable {float : FloatPercentage} {s t : SampleMain j}

/-- A call of the library changes the handle only. -/
theorem callLibrary_eq_some {a : HandleAction j} (h : s.callLibrary a = some t) :
    ∃ handle, s.handle.next a = some handle ∧ t = { s with handle := handle } := by
  obtain ⟨handle, hnext, rfl⟩ := Option.map_eq_some_iff.mp h
  exact ⟨handle, hnext, rfl⟩

/-- Everything a step of the program can do. -/
inductive Move (float : FloatPercentage) (s : SampleMain j) : MainAction j → SampleMain j → Prop
  | worker {w : Fin j.numOfThreads} {handle : JobHandle j}
      (hnext : s.handle.next (.actor (.worker w)) = some handle) :
      Move float s (.worker w) { s with handle := handle }
  | constructs {handle : JobHandle j} (hpc : s.pc = .starting)
      (hnext : s.handle.next (.actor .creator) = some handle) :
      Move float s .main { s with handle := handle }
  | starts (hpc : s.pc = .starting) (hcreator : s.handle.locked.creator = .returned) :
      Move float s .main { s with pc := .asking }
  | asks {handle : JobHandle j} (hpc : s.pc = .asking)
      (hnext : s.handle.next (.call .getJobState) = some handle) :
      Move float s .main { s with handle := handle, pc := .polling }
  | polls {handle : JobHandle j} (hpc : s.pc = .polling)
      (hclient : ∀ currJobState totalItems, s.handle.client ≠ .reporting currJobState totalItems)
      (hnext : s.handle.next .client = some handle) :
      Move float s .main { s with handle := handle }
  | told {handle : JobHandle j} {currJobState : JobState} {totalItems : Nat}
      (hpc : s.pc = .polling) (hclient : s.handle.client = .reporting currJobState totalItems)
      (hnext : s.handle.next .client = some handle) :
      Move float s .main
        { s with
          handle := handle
          state := Told.of float currJobState totalItems
          pc := .testing }
  | leaves (hpc : s.pc = .testing) (hdone : s.state.isDone = true) :
      Move float s .main { s with progress := s.progress ++ [s.state], pc := .closing }
  | again (hpc : s.pc = .testing) (hdone : s.state.isDone = false) :
      Move float s .main
        { s with
          progress := if s.state.same s.lastState then s.progress else s.progress ++ [s.state]
          lastState := s.state
          pc := .asking }
  | closes {handle : JobHandle j} (hpc : s.pc = .closing)
      (hnext : s.handle.next (.call .closeJobHandle) = some handle) :
      Move float s .main { s with handle := handle, pc := .deleting }
  | deletes {handle : JobHandle j} (hpc : s.pc = .deleting) (hclient : s.handle.client ≠ .closed)
      (hnext : s.handle.next .client = some handle) :
      Move float s .main { s with handle := handle }
  | prints (hpc : s.pc = .deleting) (hclient : s.handle.client = .closed) :
      Move float s .main { s with printed := s.handle.locked.job.outputVec, pc := .ended }

/-- Every step of the program is one that `Move` lists. -/
theorem step_move {a : MainAction j} (h : s.step float a = some t) : Move float s a t := by
  cases a with
  | worker w =>
      obtain ⟨handle, hnext, rfl⟩ := callLibrary_eq_some h
      exact .worker hnext
  | main =>
      have hmain : s.stepMain float = some t := h
      unfold stepMain at hmain
      cases hpc : s.pc with
      | starting =>
          simp only [hpc] at hmain
          split at hmain
          · next hcreator =>
              obtain rfl := Option.some.inj hmain
              exact .starts hpc hcreator
          · obtain ⟨handle, hnext, rfl⟩ := callLibrary_eq_some hmain
            exact .constructs hpc hnext
      | asking =>
          simp only [hpc] at hmain
          obtain ⟨m, hm, rfl⟩ := Option.map_eq_some_iff.mp hmain
          obtain ⟨handle, hnext, rfl⟩ := callLibrary_eq_some hm
          exact .asks hpc hnext
      | polling =>
          simp only [hpc] at hmain
          split at hmain
          · next hclient =>
              obtain ⟨m, hm, rfl⟩ := Option.map_eq_some_iff.mp hmain
              obtain ⟨handle, hnext, rfl⟩ := callLibrary_eq_some hm
              exact .told hpc hclient hnext
          · next hclient =>
              obtain ⟨handle, hnext, rfl⟩ := callLibrary_eq_some hmain
              exact .polls hpc hclient hnext
      | testing =>
          simp only [hpc] at hmain
          split at hmain
          · next hdone =>
              obtain rfl := Option.some.inj hmain
              exact .leaves hpc hdone
          · next hdone =>
              obtain rfl := Option.some.inj hmain
              exact .again hpc (Bool.eq_false_iff.mpr hdone)
      | closing =>
          simp only [hpc] at hmain
          obtain ⟨m, hm, rfl⟩ := Option.map_eq_some_iff.mp hmain
          obtain ⟨handle, hnext, rfl⟩ := callLibrary_eq_some hm
          exact .closes hpc hnext
      | deleting =>
          simp only [hpc] at hmain
          split at hmain
          · next hclient =>
              obtain rfl := Option.some.inj hmain
              exact .prints hpc hclient
          · next hclient =>
              obtain ⟨handle, hnext, rfl⟩ := callLibrary_eq_some hmain
              exact .deletes hpc hclient hnext
      | ended => simp [hpc] at hmain

end SampleMain

/-! ## Where `main` and the library are -/

/-- Where the client is in its call when `main` is at `pc`. -/
def MainPc.Fits : MainPc → ClientPc → Prop
  | starting, client | asking, client | testing, client | closing, client => client = .idle
  | polling, client => client.holdsJobState = true
  | deleting, client => (∃ i, client = .joining true i) ∨ client = .deleting ∨ client = .closed
  | ended, client => client = .closed

namespace SampleMain

variable {float : FloatPercentage} {s t : SampleMain j}

/-- The invariant of the program: the client of the handle is where `main` is,
and there are no calls before the constructor has returned. -/
structure Inv (s : SampleMain j) : Prop where
  handle : s.handle.Reachable
  fits : s.pc.Fits s.handle.client
  returned : s.pc ≠ .starting → s.handle.locked.creator = .returned

/-- The invariant holds before the first step. -/
theorem Inv.initial : (initial j).Inv where
  handle := Reaches.refl _
  fits := rfl
  returned := by simp [SampleMain.initial]

end SampleMain

namespace JobHandle

variable {s t : JobHandle j}

/-- A step of a thread does not touch the client. -/
theorem next_actor {a : Actor j} (h : s.next (.actor a) = some t) :
    ∃ locked, ¬ s.Blocked a ∧ s.locked.next a = some locked ∧ t = { s with locked := locked } := by
  simp only [next, Option.ite_none_left_eq_some, Option.map_eq_some_iff] at h
  obtain ⟨hblocked, locked, hlocked, rfl⟩ := h
  exact ⟨locked, hblocked, hlocked, rfl⟩

/-- A call of `getJobState` begins with the mutex and reads nothing yet. -/
theorem next_getJobState (h : s.next (.call .getJobState) = some t) :
    t = { s with client := .loadStage } := by
  obtain ⟨_, hcall⟩ := Option.ite_none_right_eq_some.mp h
  obtain ⟨_, ht⟩ := Option.ite_none_right_eq_some.mp hcall
  exact (Option.some.inj ht).symm

/-- A call of `closeJobHandle` begins with the joins, or with the deletion
where they are made. -/
theorem next_closeJobHandle (h : s.next (.call .closeJobHandle) = some t) :
    t.locked = s.locked ∧ ((∃ i, t.client = .joining true i) ∨ t.client = .deleting) := by
  obtain ⟨_, hcall⟩ := Option.ite_none_right_eq_some.mp h
  obtain rfl := Option.some.inj hcall
  refine ⟨rfl, ?_⟩
  cases s.areThreadsJoined with
  | true => exact Or.inr rfl
  | false => exact Or.inl ⟨0, rfl⟩

/-- In `getJobState` the client holds the mutex up to its report. -/
theorem stepClient_holds (h : s.stepClient = some t) (hholds : s.client.holdsJobState = true)
    (hclient : ∀ p totalItems, s.client ≠ .reporting p totalItems) :
    t.client.holdsJobState = true := by
  unfold stepClient at h
  cases hc : s.client with
  | loadStage =>
      simp only [hc, Option.some.injEq] at h
      rw [← h]
      rfl
  | loadProcessed stage =>
      simp only [hc, Option.some.injEq] at h
      rw [← h]
      cases stage <;> rfl
  | summing p i threadSize =>
      simp only [hc] at h
      split at h
      · rw [← Option.some.inj h]
        rfl
      · rw [← Option.some.inj h]
        rfl
  | reporting p totalItems => exact absurd hc (hclient p totalItems)
  | _ => simp [hc, ClientPc.holdsJobState] at hholds

/-- The report ends the call. -/
theorem stepClient_reporting {p : JobState} {totalItems : Nat} (h : s.stepClient = some t)
    (hclient : s.client = .reporting p totalItems) : t.client = .idle := by
  unfold stepClient at h
  simp only [hclient, Option.some.injEq] at h
  rw [← h]

/-- In `closeJobHandle` the client stays there up to the end. -/
theorem stepClient_closing (h : s.stepClient = some t)
    (hclient : (∃ i, s.client = .joining true i) ∨ s.client = .deleting) :
    (∃ i, t.client = .joining true i) ∨ t.client = .deleting ∨ t.client = .closed := by
  unfold stepClient pthreadJoin at h
  rcases hclient with ⟨i, hc⟩ | hc
  · simp only [hc] at h
    split at h
    · obtain ⟨_, ht⟩ := Option.ite_none_right_eq_some.mp h
      rw [← Option.some.inj ht]
      exact Or.inl ⟨i + 1, rfl⟩
    · rw [← Option.some.inj h]
      exact Or.inr (Or.inl rfl)
  · simp only [hc, Option.some.injEq] at h
    rw [← h]
    exact Or.inr (Or.inr rfl)

/-- The constructor returns once. -/
theorem Inv.creator_stays (hinv : s.Inv) {a : HandleAction j} (h : s.next a = some t)
    (hcreator : s.locked.creator = .returned) : t.locked.creator = .returned := by
  cases a with
  | actor a =>
      obtain ⟨locked, _, hlocked, rfl⟩ := next_actor h
      cases a with
      | creator =>
          have hstep : s.locked.stepCreator = some locked := hlocked
          simp [LockedJob.stepCreator, hcreator] at hstep
      | worker w =>
          obtain ⟨hstarted, hstep⟩ := Option.ite_none_right_eq_some.mp hlocked
          exact (hinv.locked.inv.stepWorker_move hstarted hstep).creator_eq.trans hcreator
  | call c =>
      obtain ⟨_, hcall⟩ := Option.ite_none_right_eq_some.mp h
      cases c with
      | getJobState =>
          rw [next_getJobState h]
          exact hcreator
      | waitForJob =>
          rw [← Option.some.inj hcall]
          exact hcreator
      | closeJobHandle =>
          rw [(next_closeJobHandle h).1]
          exact hcreator
  | client =>
      have hstep : s.stepClient = some t := h
      rw [stepClient_locked hstep]
      exact hcreator

end JobHandle

namespace SampleMain

variable {float : FloatPercentage} {s t : SampleMain j}

/-- **One step keeps the invariant.** -/
theorem Inv.step (h : s.Inv) {a : MainAction j} (hstep : s.step float a = some t) : t.Inv := by
  cases step_move hstep with
  | worker hnext =>
      obtain ⟨locked, _, _, rfl⟩ := JobHandle.next_actor hnext
      exact ⟨h.handle.snoc hnext, h.fits,
        fun hpc => h.handle.inv.creator_stays hnext (h.returned hpc)⟩
  | constructs hpc hnext =>
      obtain ⟨locked, _, _, rfl⟩ := JobHandle.next_actor hnext
      exact ⟨h.handle.snoc hnext, h.fits, fun hne => absurd hpc hne⟩
  | starts hpc hcreator =>
      have hfits := h.fits
      rw [hpc] at hfits
      exact ⟨h.handle, hfits, fun _ => hcreator⟩
  | asks hpc hnext =>
      refine ⟨h.handle.snoc hnext, ?_, fun _ => ?_⟩
      · rw [JobHandle.next_getJobState hnext]
        rfl
      · exact h.handle.inv.creator_stays hnext (h.returned (by simp [hpc]))
  | polls hpc hclient hnext =>
      have hfits := h.fits
      rw [hpc] at hfits
      refine ⟨h.handle.snoc hnext, ?_, fun hne => ?_⟩
      · show s.pc.Fits _
        rw [hpc]
        exact JobHandle.stepClient_holds hnext hfits hclient
      · exact h.handle.inv.creator_stays hnext (h.returned hne)
  | told hpc hclient hnext =>
      refine ⟨h.handle.snoc hnext, JobHandle.stepClient_reporting hnext hclient, fun _ => ?_⟩
      exact h.handle.inv.creator_stays hnext (h.returned (by simp [hpc]))
  | leaves hpc _ =>
      have hfits := h.fits
      rw [hpc] at hfits
      exact ⟨h.handle, hfits, fun _ => h.returned (by simp [hpc])⟩
  | again hpc _ =>
      have hfits := h.fits
      rw [hpc] at hfits
      exact ⟨h.handle, hfits, fun _ => h.returned (by simp [hpc])⟩
  | closes hpc hnext =>
      refine ⟨h.handle.snoc hnext, ?_, fun _ => ?_⟩
      · exact (JobHandle.next_closeJobHandle hnext).2.imp_right Or.inl
      · exact h.handle.inv.creator_stays hnext (h.returned (by simp [hpc]))
  | deletes hpc hclient hnext =>
      have hfits := h.fits
      rw [hpc] at hfits
      refine ⟨h.handle.snoc hnext, ?_, fun hne => ?_⟩
      · show s.pc.Fits _
        rw [hpc]
        refine JobHandle.stepClient_closing hnext (hfits.imp_right fun hlate => ?_)
        exact hlate.resolve_right hclient
      · exact h.handle.inv.creator_stays hnext (h.returned hne)
  | prints hpc hclient =>
      exact ⟨h.handle, hclient, fun _ => h.returned (by simp [hpc])⟩

/-- By induction over the run, the invariant holds in every reachable
state. -/
theorem Reachable.inv (h : s.Reachable float) : s.Inv :=
  Reaches.invariant Inv (fun _ _ _ hinv hstep => hinv.step hstep) h Inv.initial

end SampleMain

/-! ## What `main` is told -/

namespace Job

/-- What the percentage of a stage is taken of. -/
def total (j : Job K1 V1 K2 V2 K3 V3) : Stage → Nat
  | .undefined => 1
  | .map => j.totalItems .map
  | .shuffle => j.totalItems .shuffle
  | .reduce => j.totalItems .reduce

/-- What `main` is told in a state of the job. -/
def told (j : Job K1 V1 K2 V2 K3 V3) (float : FloatPercentage) (p : JobState) : Told :=
  Told.of float p (j.total p.stage)

/-- The divisor of the percentage is at least the number of items. -/
theorem totalItems_le_total (stage : Stage) : j.totalItems stage ≤ j.total stage := by
  cases stage with
  | undefined => exact Nat.zero_le _
  | map | shuffle | reduce => exact Nat.le_refl _

/-- In a job that emits, no divisor is zero. -/
theorem total_pos (hpos : 0 < j.emitted.length) (stage : Stage) : 0 < j.total stage := by
  cases stage with
  | undefined => exact Nat.one_pos
  | map => exact JobContext.input_nonempty_of_emitted hpos
  | shuffle | reduce => exact hpos

end Job

/-- Nothing is processed before the map phase. -/
theorem Job.told_initial (float : FloatPercentage) :
    j.told float ⟨.undefined, 0⟩ = Told.initial := by
  refine Told.ext rfl ?_
  exact congrArg some (float.none_processed Nat.one_pos)

/-- By stage, then by percentage. -/
def Told.rank (t : Told) : Nat ×ₗ ℚ := toLex (t.stage.toNat, t.percentage.getD 0)

/-- What a job can tell. -/
def Reported (j : Job K1 V1 K2 V2 K3 V3) (float : FloatPercentage) (t : Told) : Prop :=
  ∃ p : JobState, t = j.told float p ∧ p.numOfProcessed ≤ j.total p.stage

/-- The first value of `lastState` is one that a job can tell. -/
theorem reported_initial (float : FloatPercentage) : Reported j float Told.initial :=
  ⟨⟨.undefined, 0⟩, (Job.told_initial float).symm, Nat.zero_le _⟩

/-- What the library divides by is the total of the stage. -/
theorem JobContext.Inv.total_eq {s : JobContext j} (h : s.Inv) :
    s.getTotalItemsOfCurrPhase s.getJobState = j.total s.getJobState.stage := by
  by_cases hstage : s.getJobState.stage = .undefined
  · simp [getTotalItemsOfCurrPhase, hstage, Job.total]
  · rw [h.getTotalItems hstage]
    cases hcurr : s.getJobState.stage with
    | undefined => exact absurd hcurr hstage
    | map | shuffle | reduce => rfl

/-- The answer of `getJobState` is that of the moment at which it comes. -/
theorem JobHandle.Inv.told_eq {s : JobHandle j} (h : s.Inv) (float : FloatPercentage)
    {p : JobState} {totalItems : Nat} (hclient : s.client = .reporting p totalItems) :
    Told.of float p totalItems = j.told float s.locked.job.getJobState := by
  have hcurrent := h.current
  rw [hclient] at hcurrent
  obtain ⟨rfl, rfl⟩ := hcurrent
  rw [h.locked.job.inv.total_eq]
  rfl

/-- Nothing is counted that is not there. -/
theorem JobHandle.Inv.reported {s : JobHandle j} (h : s.Inv) (float : FloatPercentage) :
    Reported j float (j.told float s.locked.job.getJobState) := by
  obtain ⟨p, hs⟩ := h.locked.job.inv.shows
  refine ⟨_, rfl, ?_⟩
  rw [hs.getJobState_eq]
  exact (Nat.mod_le _ _).trans (hs.2.trans (Job.totalItems_le_total _))

/-- The state of the job does not go back. -/
theorem JobHandle.Inv.rank_le {s t : JobHandle j} (hmap : j.numOfInputElems < 2 ^ 32)
    (hemit : j.emitted.length < 2 ^ 32) (h : s.Inv) {a : HandleAction j}
    (hnext : s.next a = some t) :
    s.locked.job.getJobState.rank ≤ t.locked.job.getJobState.rank := by
  obtain ⟨bs, hrun, _⟩ := h.reports_step hnext
  exact Reaches.monotone (fun job : JobContext j => job.getJobState.rank)
    (fun _ _ _ hinv hstep => JobContext.Inv.next hinv hstep)
    (fun _ _ _ hinv hstep => (hinv.advances_next hmap hemit hstep).rank_le) ⟨bs, hrun⟩
    h.locked.job.inv

section Positive

variable {float : FloatPercentage} (hpos : 0 < j.emitted.length)

include hpos

/-- In a job that emits, the percentage is always there. -/
theorem told_percentage (p : JobState) :
    (j.told float p).percentage = some (float.percentage p.numOfProcessed (j.total p.stage)) :=
  if_neg (Nat.pos_iff_ne_zero.mp (Job.total_pos hpos p.stage))

/-- In a job that emits, states are ordered by stage and percentage. -/
theorem told_rank (p : JobState) : (j.told float p).rank =
    toLex (p.stage.toNat, float.percentage p.numOfProcessed (j.total p.stage)) := by
  unfold Told.rank
  rw [told_percentage hpos]
  rfl

/-- Monotone rounding keeps the order of the states. -/
theorem told_rank_le {p q : JobState} (h : p.rank ≤ q.rank) :
    (j.told float p).rank ≤ (j.told float q).rank := by
  rw [told_rank hpos, told_rank hpos, Prod.Lex.toLex_le_toLex]
  refine (JobState.rank_le_iff.mp h).imp_right fun hsame => ?_
  obtain ⟨hstage, hcount⟩ := hsame
  have heq : p.stage = q.stage := Stage.toNat_injective hstage
  refine ⟨hstage, ?_⟩
  rw [heq]
  exact float.mono (Job.total_pos hpos q.stage) hcount

/-- In a job that emits, what is told is between 0 and 100. -/
theorem Reported.percentage_eq {t : Told} (h : Reported j float t) :
    ∃ q, t.percentage = some q ∧ 0 ≤ q ∧ q ≤ 100 := by
  obtain ⟨p, rfl, hle⟩ := h
  have htotal := Job.total_pos hpos p.stage
  refine ⟨_, told_percentage hpos p, ?_, ?_⟩
  · rw [← float.none_processed htotal]
    exact float.mono htotal (Nat.zero_le _)
  · rw [← float.all_processed htotal]
    exact float.mono htotal hle

/-- What is not the same goes on. -/
theorem Reported.rank_lt {a b : Told} (ha : Reported j float a) (hb : Reported j float b)
    (hle : a.rank ≤ b.rank) (hne : b ≠ a) : a.rank < b.rank := by
  refine lt_of_le_of_ne hle fun heq => hne ?_
  obtain ⟨p, hp, _⟩ := ha.percentage_eq hpos
  obtain ⟨q, hq, _⟩ := hb.percentage_eq hpos
  obtain ⟨hstage, hpercentage⟩ := Prod.mk.inj (toLex.injective heq)
  rw [hp, hq] at hpercentage
  refine Told.ext (Stage.toNat_injective hstage).symm ?_
  rw [hp, hq]
  exact congrArg some hpercentage.symm

end Positive

/-! ## What `main` prints -/

/-- Behind the loop. -/
def MainPc.isBehind : MainPc → Bool
  | closing | deleting | ended => true
  | starting | asking | polling | testing => false

/-- `main` leaves the loop at a hundred percent of the reduce stage. -/
theorem Told.isDone_iff {t : Told} : t.isDone = true ↔ t = ⟨.reduce, some 100⟩ := by
  unfold Told.isDone
  rw [Told.ext_iff]
  simp

/-- Two states are the same for `main` when they are equal and have no NaN. -/
theorem Told.same_iff {a b : Told} : a.same b = true ↔ a = b ∧ a.percentage.isSome = true := by
  unfold Told.same
  rw [Told.ext_iff]
  simp

namespace SampleMain

variable {float : FloatPercentage} {s t : SampleMain j}

/-- What is printed so far is in order, up to the last state that was asked for,
and that is not behind the job. -/
structure Prints (float : FloatPercentage) (s : SampleMain j) : Prop where
  inv : s.Inv
  state : Reported j float s.state
  lastState : Reported j float s.lastState
  lastOpen : s.lastState.isDone = false
  first : Told.initial.rank ≤ s.lastState.rank
  last_le : s.lastState.rank ≤ s.state.rank
  state_le : s.state.rank ≤ (j.told float s.handle.locked.job.getJobState).rank
  progress : ∀ t ∈ s.progress, Reported j float t ∧ Told.initial.rank < t.rank
  sorted : s.progress.Pairwise fun a b => a.rank < b.rank
  below : s.pc.isBehind = false → ∀ t ∈ s.progress, t.rank ≤ s.lastState.rank
  behind : s.pc.isBehind = true → s.progress.getLast? = some ⟨.reduce, some 100⟩
  printed : s.pc = .ended → s.printed = s.handle.locked.job.outputVec

/-- Nothing is printed before the first step. -/
theorem Prints.initial : (initial j).Prints float where
  inv := Inv.initial
  state := reported_initial float
  lastState := reported_initial float
  lastOpen := rfl
  first := le_rfl
  last_le := le_rfl
  state_le := by
    have hzero : Word.getJobState 0 = ⟨.undefined, 0⟩ := by decide
    show Told.initial.rank ≤ (j.told float (Word.getJobState 0)).rank
    rw [hzero, Job.told_initial]
  progress := by simp [SampleMain.initial]
  sorted := List.Pairwise.nil
  below := by simp [SampleMain.initial]
  behind := by simp [SampleMain.initial, MainPc.isBehind]
  printed := by simp [SampleMain.initial]

/-- A state that `main` takes for new is new. -/
theorem Prints.not_same (hpos : 0 < j.emitted.length) (h : s.Prints float)
    (hsame : ¬ s.state.same s.lastState = true) : s.state ≠ s.lastState := by
  obtain ⟨q, hq, _⟩ := h.state.percentage_eq hpos
  intro heq
  exact hsame (Told.same_iff.mpr ⟨heq, by rw [hq]; rfl⟩)

/-- A new state goes behind all that are printed. -/
theorem Prints.pairwise_snoc (hpos : 0 < j.emitted.length) (h : s.Prints float)
    (hpc : s.pc.isBehind = false) (hne : s.state ≠ s.lastState) :
    (s.progress ++ [s.state]).Pairwise fun a b => a.rank < b.rank := by
  have hlt := h.lastState.rank_lt hpos h.state h.last_le hne
  rw [List.pairwise_append]
  refine ⟨h.sorted, List.pairwise_singleton _ _, fun a ha b hb => ?_⟩
  rw [List.mem_singleton.mp hb]
  exact (h.below hpc a ha).trans_lt hlt

/-- A new state is one that the job can tell, and beyond the initial one. -/
theorem Prints.mem_snoc (hpos : 0 < j.emitted.length) (h : s.Prints float)
    (hne : s.state ≠ s.lastState) {t : Told} (ht : t ∈ s.progress ++ [s.state]) :
    Reported j float t ∧ Told.initial.rank < t.rank := by
  rcases List.mem_append.mp ht with hmem | hmem
  · exact h.progress t hmem
  · rw [List.mem_singleton.mp hmem]
    exact ⟨h.state, h.first.trans_lt (h.lastState.rank_lt hpos h.state h.last_le hne)⟩

/-- What is printed when `main` goes round again, with the new state or without. -/
theorem Prints.printed_again (hpos : 0 < j.emitted.length) (h : s.Prints float)
    (hpc : s.pc.isBehind = false) {progress : List Told}
    (hprogress : progress =
      if s.state.same s.lastState then s.progress else s.progress ++ [s.state]) :
    (∀ t ∈ progress, Reported j float t ∧ Told.initial.rank < t.rank) ∧
      (progress.Pairwise fun a b => a.rank < b.rank) ∧
      ∀ t ∈ progress, t.rank ≤ s.state.rank := by
  have hold : ∀ t ∈ s.progress, t.rank ≤ s.state.rank :=
    fun t ht => (h.below hpc t ht).trans h.last_le
  subst hprogress
  by_cases hsame : s.state.same s.lastState = true
  · rw [if_pos hsame]
    exact ⟨h.progress, h.sorted, hold⟩
  · rw [if_neg hsame]
    have hne := h.not_same hpos hsame
    refine ⟨fun t ht => h.mem_snoc hpos hne ht, h.pairwise_snoc hpos hpc hne, fun t ht => ?_⟩
    rcases List.mem_append.mp ht with hmem | hnew
    · exact hold t hmem
    · rw [List.mem_singleton.mp hnew]

/-- The pairs that are printed at the end are those of a correct job. -/
theorem Prints.correct (h : s.Prints float) (hended : s.pc = .ended) :
    s.handle.locked.job.Correct := by
  have hfits := h.inv.fits
  rw [hended] at hfits
  have hinv := h.inv.handle.inv
  exact hinv.locked.correct (hinv.finished_of_joined (hinv.joined (Or.inr hfits)))

section Positive

variable (hmap : j.numOfInputElems < 2 ^ 32) (hemit : j.emitted.length < 2 ^ 32)
  (hpos : 0 < j.emitted.length)

include hmap hemit hpos

/-- The library moves, and `main` stays with what it has printed. -/
theorem Prints.library (h : s.Prints float) {a : HandleAction j} {handle : JobHandle j}
    (hnext : s.handle.next a = some handle) {pc : MainPc}
    (hinv : { s with handle := handle, pc := pc }.Inv) (hbehind : pc.isBehind = s.pc.isBehind)
    (hended : pc ≠ .ended) : { s with handle := handle, pc := pc }.Prints float where
  inv := hinv
  state := h.state
  lastState := h.lastState
  lastOpen := h.lastOpen
  first := h.first
  last_le := h.last_le
  state_le := h.state_le.trans
    (told_rank_le hpos (h.inv.handle.inv.rank_le hmap hemit hnext))
  progress := h.progress
  sorted := h.sorted
  below := fun hpc => h.below (hbehind.symm.trans hpc)
  behind := fun hpc => h.behind (hbehind.symm.trans hpc)
  printed := fun hpc => absurd hpc hended

/-- **Step lemma.** -/
theorem Prints.step (h : s.Prints float) {a : MainAction j} (hstep : s.step float a = some t) :
    t.Prints float := by
  have hinv := h.inv.step hstep
  cases step_move hstep with
  | @worker w handle hnext =>
      by_cases hended : s.pc = .ended
      · -- the workers have finished
        have hfits := h.inv.fits
        rw [hended] at hfits
        obtain ⟨locked, _, hlocked, rfl⟩ := JobHandle.next_actor hnext
        have hnone := (h.inv.handle.inv.quiet (Or.inr hfits)).2 (.worker w)
        rw [hlocked] at hnone
        cases hnone
      · exact h.library hmap hemit hpos hnext hinv rfl hended
  | constructs hpc hnext =>
      exact h.library hmap hemit hpos hnext hinv rfl (by simp [hpc])
  | starts hpc hcreator =>
      exact { h with
        inv := hinv
        below := fun _ => h.below (by rw [hpc]; rfl)
        behind := fun hbehind => Bool.noConfusion hbehind
        printed := fun hended => MainPc.noConfusion hended }
  | asks hpc hnext =>
      exact h.library hmap hemit hpos hnext hinv (by rw [hpc]; rfl) MainPc.noConfusion
  | polls hpc hclient hnext =>
      exact h.library hmap hemit hpos hnext hinv rfl (by simp [hpc])
  | @told handle p totalItems hpc hclient hnext =>
      have htold := h.inv.handle.inv.told_eq float hclient
      have hlocked : handle.locked = s.handle.locked := JobHandle.stepClient_locked hnext
      exact { h with
        inv := hinv
        state := by
          rw [htold]
          exact h.inv.handle.inv.reported float
        last_le := by
          rw [htold]
          exact h.last_le.trans h.state_le
        state_le := by
          show (Told.of float p totalItems).rank ≤ (j.told float handle.locked.job.getJobState).rank
          rw [htold, hlocked]
        below := fun _ => h.below (by rw [hpc]; rfl)
        behind := fun hbehind => Bool.noConfusion hbehind
        printed := fun hended => MainPc.noConfusion hended }
  | leaves hpc hdone =>
      have hne : s.state ≠ s.lastState := by
        intro heq
        rw [heq, h.lastOpen] at hdone
        cases hdone
      have hpc' : s.pc.isBehind = false := by rw [hpc]; rfl
      exact { h with
        inv := hinv
        progress := fun t ht => h.mem_snoc hpos hne ht
        sorted := h.pairwise_snoc hpos hpc' hne
        below := fun hbehind => Bool.noConfusion hbehind
        behind := fun _ => by rw [List.getLast?_concat, Told.isDone_iff.mp hdone]
        printed := fun hended => MainPc.noConfusion hended }
  | again hpc hdone =>
      obtain ⟨hall, hsorted, hbelow⟩ := h.printed_again hpos (by rw [hpc]; rfl) rfl
      exact
        { inv := hinv
          state := h.state
          lastState := h.state
          lastOpen := hdone
          first := h.first.trans h.last_le
          last_le := le_rfl
          state_le := h.state_le
          progress := hall
          sorted := hsorted
          below := fun _ => hbelow
          behind := fun hbehind => Bool.noConfusion hbehind
          printed := fun hended => MainPc.noConfusion hended }
  | closes hpc hnext =>
      exact h.library hmap hemit hpos hnext hinv (by rw [hpc]; rfl) MainPc.noConfusion
  | deletes hpc hclient hnext =>
      exact h.library hmap hemit hpos hnext hinv rfl (by simp [hpc])
  | prints hpc hclient =>
      exact { h with
        inv := hinv
        below := fun hbehind => Bool.noConfusion hbehind
        behind := fun _ => h.behind (by rw [hpc]; rfl)
        printed := fun _ => rfl }

/-- By induction over the run, what is printed is in order in every reachable
state. -/
theorem Reachable.prints (h : s.Reachable float) : s.Prints float :=
  Reaches.invariant (Prints float) (fun _ _ _ hprints hstep => hprints.step hmap hemit hpos hstep)
    h Prints.initial

end Positive

end SampleMain

/-! ## The program on some strings -/

/-- Exact arithmetic. -/
def FloatPercentage.exact : FloatPercentage where
  percentage numOfProcessed totalItems := numOfProcessed / totalItems * 100
  mono := by
    intro totalItems hpos p q hle
    have hcount : (p : ℚ) ≤ q := Nat.cast_le.mpr hle
    dsimp only
    gcongr
  none_processed := by simp
  all_processed := by
    intro totalItems hpos
    have hne : (totalItems : ℚ) ≠ 0 := Nat.cast_ne_zero.mpr hpos.ne'
    rw [div_self hne, one_mul]

open CounterClient MachineInt

/-- **What the sample program prints.**  For fewer than 2^32 strings with a character,
and with no more in all than an `int` can count, any number of threads and any
interleaving: the states that are printed strictly go forward, by
stage and then by percentage, none is the state before the map phase, and every
percentage is between 0 and 100.  If the program ends, the last of them is the reduce
stage at 100 percent, and it prints one pair for each character, with the number of
its occurrences. -/
theorem main_prints {contents : List (List Int8)} {stdSort : SortRoutine kcharOrder Int}
    {n : Nat} {hn : 0 < n} {float : FloatPercentage} (hmany : contents.length < 2 ^ 32)
    (hlen : (contents.flatten.length : Int) ≤ intMax) (hchar : contents.flatten ≠ [])
    {s : SampleMain (counterJob contents stdSort n hn)} (h : s.Reachable float) :
    (s.progress.Pairwise fun a b => a.rank < b.rank) ∧
      (∀ t ∈ s.progress, Told.initial.rank < t.rank ∧
        ∃ q, t.percentage = some q ∧ 0 ≤ q ∧ q ≤ 100) ∧
      (s.pc = .ended → s.progress.getLast? = some ⟨.reduce, some 100⟩ ∧
        s.printed.Perm
          (contents.flatten.dedup.map fun c => (c, (contents.flatten.count c : Int)))) := by
  have hinput : (counterJob contents stdSort n hn).numOfInputElems < 2 ^ 32 := by
    simpa [Job.numOfInputElems, counterJob] using hmany
  have hpos : 0 < (counterJob contents stdSort n hn).emitted.length := (emitted_pos hlen).mpr hchar
  have hprints := h.prints hinput (emitted_lt hlen) hpos
  refine ⟨hprints.sorted, fun t ht => ?_, fun hended => ?_⟩
  · obtain ⟨hreported, hrank⟩ := hprints.progress t ht
    exact ⟨hrank, hreported.percentage_eq hpos⟩
  · refine ⟨hprints.behind (by rw [hended]; rfl), ?_⟩
    rw [hprints.printed hended]
    exact counts_of_correct hlen (hprints.correct hended)

/-- Two strings and one thread; `main` asks in the map phase and again at the end. -/
def abcMain : List (MainAction abcJob) :=
  let worker : MainAction abcJob := .worker ⟨0, Nat.one_pos⟩
  List.replicate 6 .main ++ List.replicate 10 worker ++ List.replicate 5 .main ++
    List.replicate 53 worker ++ List.replicate 12 .main

/-- A run of `abcJob` to its end, with the last state and the pairs
printed. -/
theorem main_prints_abc :
    ∃ s : SampleMain abcJob, s.pc = .ended ∧
      s.progress.getLast? = some ⟨.reduce, some 100⟩ ∧ s.printed.Perm [(97, 2), (98, 2)] := by
  have hends : ((run (SampleMain.step .exact) (SampleMain.initial abcJob) abcMain).any fun s =>
      decide (s.pc = .ended)) = true := by decide +kernel
  obtain ⟨s, hrun, hs⟩ := (Option.any_eq_true _ _).mp hends
  have hended : s.pc = .ended := of_decide_eq_true hs
  have hreach : s.Reachable FloatPercentage.exact := ⟨abcMain, hrun⟩
  exact ⟨s, hended, (main_prints (by decide) (by decide) (by decide) hreach).2.2 hended⟩

end MapReduce
