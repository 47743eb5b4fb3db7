import HujiOS.MapReduce.NeverStuck

/-!
# The client and its job handle

The thread that called `startMapReduceJob` goes on with the handle while the
workers run.  `getJobState` holds `jobStateMutex_` while it loads the word
twice and adds up the sizes of the vectors in a loop; `getJobDone` joins the
workers one after another; `closeJobHandle` does that too and deletes the job.
`JobHandle` takes these calls step by step.
-/

namespace MapReduce

open Grouping Runs

universe u

variable {K1 V1 K2 V2 K3 V3 : Type u} {j : Job K1 V1 K2 V2 K3 V3}

/-- Where the client is in its calls. -/
inductive ClientPc
  -- between two calls
  | idle
  -- `JobContext::getJobState`, with `jobStateMutex_` held
  | loadStage
  | loadProcessed (stage : Stage)
  -- `getNumOfIntermediatePairs`, about to read context `i`
  | summing (currJobState : JobState) (i threadSize : Nat)
  | reporting (currJobState : JobState) (totalItems : Nat)
  -- `getJobDone`, about to join worker `i`
  | joining (closing : Bool) (i : Nat)
  | deleting
  | closed
  deriving DecidableEq, Repr

/-- In `getJobState`. -/
def ClientPc.holdsJobState : ClientPc → Bool
  | loadStage | loadProcessed _ | summing .. | reporting .. => true
  | idle | joining .. | deleting | closed => false

/-- The functions that a client calls with the handle. -/
inductive ClientCall
  | getJobState
  | waitForJob
  | closeJobHandle
  deriving DecidableEq, Repr

/-- The job with its locks, and what the client does with the handle. -/
structure JobHandle (j : Job K1 V1 K2 V2 K3 V3) where
  locked : LockedJob j
  client : ClientPc
  areThreadsJoined : Bool
  /-- how often each worker was joined -/
  joins : Fin j.numOfThreads → Nat

/-- One step of the library or of its client. -/
inductive HandleAction (j : Job K1 V1 K2 V2 K3 V3)
  -- the constructor, which runs in `startMapReduceJob`, or a worker
  | actor (a : Actor j)
  | call (c : ClientCall)
  -- the next step of the call that the client is in
  | client

namespace JobHandle

/-- `startMapReduceJob` is about to lock `pthreadCreateMutex_`. -/
def initial (j : Job K1 V1 K2 V2 K3 V3) : JobHandle j where
  locked := LockedJob.initial j
  client := .idle
  areThreadsJoined := false
  joins := fun _ => 0

/-- The worker has to lock `jobStateMutex_` and the client has it. -/
def Blocked (s : JobHandle j) : Actor j → Prop
  | .creator => False
  | .worker w => s.client.holdsJobState = true ∧ s.locked.sections .jobState = none ∧
      (s.locked.job.threads w).pc.kind = .inSection .jobState

instance (s : JobHandle j) : (a : Actor j) → Decidable (s.Blocked a)
  | .creator => inferInstanceAs (Decidable False)
  | .worker _ => inferInstanceAs (Decidable (_ ∧ _ ∧ _))

/-- The client calls a function of the library.  `areThreadsJoined_` spares
`getJobDone` the loop. -/
def callFunction (s : JobHandle j) : ClientCall → Option (JobHandle j)
  | .getJobState =>
      if s.locked.sections .jobState = none then some { s with client := .loadStage } else none
  | .waitForJob =>
      some { s with client := if s.areThreadsJoined then .idle else .joining false 0 }
  | .closeJobHandle =>
      some { s with client := if s.areThreadsJoined then .deleting else .joining true 0 }

/-- `pthreadJoin` of worker `i`, which waits for it to return. -/
def pthreadJoin (s : JobHandle j) (closing : Bool) (i : Fin j.numOfThreads) :
    Option (JobHandle j) :=
  if (s.locked.job.threads i).pc.isFinished = true then
    some { s with
      client := .joining closing (i + 1)
      joins := Function.update s.joins i (s.joins i + 1) }
  else none

/-- One step of the call that the client is in. -/
def stepClient (s : JobHandle j) : Option (JobHandle j) :=
  let job := s.locked.job
  match s.client with
  | .loadStage => some { s with client := .loadProcessed (Word.stageOf job.jobStateBitwise) }
  | .loadProcessed stage =>
      let currJobState : JobState :=
        ⟨stage, (Word.getJobState job.jobStateBitwise).numOfProcessed⟩
      -- `_getTotalItemsOfCurrPhase`
      some { s with client := match stage with
        | .undefined => .reporting currJobState 1
        | .map => .reporting currJobState j.numOfInputElems
        | .shuffle | .reduce => .summing currJobState 0 0 }
  | .summing currJobState i threadSize =>
      if h : i < j.numOfThreads then
        let v := (job.threads ⟨i, h⟩).intermediateVec
        some { s with client := .summing currJobState (i + 1) (threadSize + v.length) }
      else some { s with client := .reporting currJobState threadSize }
  | .reporting _ _ => some { s with client := .idle }
  | .joining closing i =>
      if h : i < j.numOfThreads then s.pthreadJoin closing ⟨i, h⟩
      else
        some { s with
          client := if closing then .deleting else .idle
          areThreadsJoined := true }
  | .deleting => some { s with client := .closed }
  | .idle | .closed => none

/-- The client has the handle once the constructor has returned, and makes no
call after `closeJobHandle`. -/
def next (s : JobHandle j) : HandleAction j → Option (JobHandle j)
  | .actor a =>
      if s.Blocked a then none else (s.locked.next a).map fun locked => { s with locked := locked }
  | .call c =>
      if s.locked.creator = .returned ∧ s.client = .idle then s.callFunction c else none
  | .client => s.stepClient

/-- Some interleaving of the threads and the client leads to `s`. -/
def Reachable (s : JobHandle j) : Prop := Reaches next (initial j) s

/-- The calls do not touch what the workers share. -/
theorem stepClient_locked {s t : JobHandle j} (hstep : s.stepClient = some t) :
    t.locked = s.locked := by
  unfold stepClient pthreadJoin at hstep
  grind

end JobHandle

/-! ## What the workers leave alone -/

namespace JobContext

variable {s t : JobContext j} {w : Fin j.numOfThreads}

/-- Moving a worker does not write the word. -/
@[simp] theorem setThread_jobStateBitwise (thread : ThreadContext j) :
    (s.setThread w thread).jobStateBitwise = s.jobStateBitwise := rfl

/-- The word changes under `jobStateMutex_` only. -/
theorem Transition.jobStateBitwise_eq (h : Transition s w t)
    (hkind : (s.threads w).pc.kind ≠ .inSection .jobState) :
    t.jobStateBitwise = s.jobStateBitwise := by
  cases h <;> simp_all [Pc.kind]

/-- After its sort a worker does not touch its vector. -/
theorem Transition.intermediateVecs_eq (h : Transition s w t)
    (hsorted : (s.threads w).pc.isSorted = true) : t.intermediateVecs = s.intermediateVecs := by
  have hvec : ∃ thread : ThreadContext j, t.threads = Function.update s.threads w thread ∧
      thread.intermediateVec = (s.threads w).intermediateVec := by
    cases h <;> first | exact ⟨_, rfl, rfl⟩ | simp_all [Pc.isSorted]
  obtain ⟨thread, hthreads, hsame⟩ := hvec
  unfold intermediateVecs
  rw [hthreads]
  congr 1
  funext v
  by_cases hv : v = w
  · subst hv
    rw [Function.update_self, hsame]
  · rw [Function.update_of_ne hv]

/-- In the shuffle and the reduce stage all workers are past their sort. -/
theorem Inv.sorted_of_stage (h : s.Inv)
    (hstage : s.getJobState.stage = .shuffle ∨ s.getJobState.stage = .reduce)
    (v : Fin j.numOfThreads) : (s.threads v).pc.isSorted = true := by
  have hpassed : 1 ≤ (s.threads j.threadZero).pc.passed := by
    by_contra hzero
    have hm := h.phase.mapInv (Pc.region_of_passed_zero (by omega))
    have hmap : s.getJobState.stage = .undefined ∨ s.getJobState.stage = .map := by
      rcases hm.word with ⟨hword, _⟩ | ⟨count, hword, _⟩
      · simp [getJobState, Word.getJobState, hword]
      · simp [getJobState, Word.getJobState, hword]
    rcases hmap with hmap | hmap <;> simp [hmap] at hstage
  exact h.control.sorted_of_zero hpassed v

/-- A worker that has returned stays so. -/
theorem finished_of_step {v : Fin j.numOfThreads} (hstep : s.step w = some t)
    (hfin : (s.threads v).pc.isFinished = true) : (t.threads v).pc.isFinished = true := by
  have htr := step_transition hstep
  obtain ⟨thread, hthreads, _⟩ := htr.moves
  have hne : v ≠ w := by
    intro heq
    subst heq
    cases htr <;> simp_all [Pc.isFinished]
  rw [hthreads, Function.update_of_ne hne]
  exact hfin

end JobContext

namespace LockedJob

variable {s t : LockedJob j} {w : Fin j.numOfThreads}

/-- A step of a worker is a step of the job, or only takes a mutex. -/
inductive WorkerMove (s : LockedJob j) (w : Fin j.numOfThreads) : LockedJob j → Prop
  | inJob {job : JobContext j} {createMutex : Option (Owner j.numOfThreads)}
      {sections : SectionMutex → Option (Fin j.numOfThreads)} {barrier : Barrier j.numOfThreads}
      (hjob : s.job.step w = some job)
      (hsections : ∀ m, (s.job.threads w).pc.kind ≠ .inSection m → sections m = s.sections m) :
      WorkerMove s w
        { s with
          job := job
          pthreadCreateMutex := createMutex
          sections := sections
          threadsBarrier := barrier }
  | lockBarrier {barrier : Barrier j.numOfThreads} {pc : BarrierPc}
      (hlock : s.threadsBarrier.lock w pc = some barrier)
      (hpc : s.threadsBarrier.pcs w = .outside ∧ pc = .locked ∨
        s.threadsBarrier.pcs w = .woken ∧ pc = .leaving) :
      WorkerMove s w { s with threadsBarrier := barrier }
  | lockSection {m : SectionMutex} (hkind : (s.job.threads w).pc.kind = .inSection m)
      (hfree : s.sections m = none) :
      WorkerMove s w { s with sections := Function.update s.sections m (some w) }

/-- Inside the barrier a worker takes a lock or moves in the job. -/
theorem Inv.callBarrier_move (h : s.Inv) (hstarted : w < s.creator.started j.numOfThreads)
    (hstep : s.callBarrier w = some t) : WorkerMove s w t := by
  obtain ⟨barrier, hb, ht⟩ := Option.bind_eq_some_iff.mp hstep
  obtain ⟨r, hr⟩ := h.round
  have hround := hr.step hb
  unfold Barrier.step at hb
  cases hpc : s.threadsBarrier.pcs w with
  | outside =>
      simp only [hpc, Option.some.injEq] at ht hb
      exact ht ▸ .lockBarrier hb (Or.inl ⟨hpc, rfl⟩)
  | locked =>
      simp only [hpc, Option.map_eq_some_iff] at ht
      obtain ⟨job, hjob, rfl⟩ := ht
      exact .inJob hjob fun _ _ => rfl
  | waiting => simp [hpc] at hb
  | woken =>
      simp only [hpc, Option.some.injEq] at ht hb
      exact ht ▸ .lockBarrier hb (Or.inr ⟨hpc, rfl⟩)
  | leaving =>
      simp only [hpc, Option.some.injEq] at ht hb
      subst ht hb
      exact .inJob (h.leaveBarrier hstarted hpc hround rfl rfl).2 fun _ _ => rfl

/-- At a section a worker takes the lock or moves in the job. -/
theorem stepSection_move {m : SectionMutex} (hkind : (s.job.threads w).pc.kind = .inSection m)
    (hstep : s.stepSection m w = some t) : WorkerMove s w t := by
  unfold stepSection at hstep
  split at hstep
  · exact Option.some.inj hstep ▸ .lockSection hkind ‹_›
  · simp only [Option.ite_none_right_eq_some, Option.map_eq_some_iff] at hstep
    obtain ⟨_, job, hjob, rfl⟩ := hstep
    refine .inJob hjob fun m' hm' => Function.update_of_ne ?_ _ _
    intro heq
    exact hm' (heq ▸ hkind)

/-- Every step of a started worker takes one lock or moves in the job. -/
theorem Inv.stepWorker_move (h : s.Inv) (hstarted : w < s.creator.started j.numOfThreads)
    (hstep : s.stepWorker w = some t) : WorkerMove s w t := by
  unfold LockedJob.stepWorker at hstep
  cases hkind : (s.job.threads w).pc.kind with
  | barrierCall =>
      rw [hkind] at hstep
      exact h.callBarrier_move hstarted hstep
  | inSection m =>
      rw [hkind] at hstep
      exact stepSection_move hkind hstep
  | lockCreate =>
      simp only [hkind, Option.ite_none_right_eq_some, Option.map_eq_some_iff] at hstep
      obtain ⟨_, job, hjob, rfl⟩ := hstep
      exact .inJob hjob fun _ _ => rfl
  | readContext i =>
      simp only [hkind, Option.ite_none_right_eq_some, Option.map_eq_some_iff] at hstep
      obtain ⟨_, job, hjob, rfl⟩ := hstep
      exact .inJob hjob fun _ _ => rfl
  | unlockCreate | alone =>
      simp only [hkind, Option.map_eq_some_iff] at hstep
      obtain ⟨job, hjob, rfl⟩ := hstep
      exact .inJob hjob fun _ _ => rfl

namespace WorkerMove

/-- A worker does not touch the constructor. -/
theorem creator_eq (h : WorkerMove s w t) : t.creator = s.creator := by
  cases h <;> rfl

/-- A worker leaves the job as it is or takes a step of it. -/
theorem job_eq (h : WorkerMove s w t) : t.job = s.job ∨ s.job.step w = some t.job := by
  cases h with
  | inJob hjob => exact Or.inr hjob
  | lockBarrier => exact Or.inl rfl
  | lockSection => exact Or.inl rfl

/-- A worker changes only the section it is at. -/
theorem sections_eq (h : WorkerMove s w t) {m : SectionMutex}
    (hkind : (s.job.threads w).pc.kind ≠ .inSection m) : t.sections m = s.sections m := by
  cases h with
  | inJob _ hsections => exact hsections m hkind
  | lockBarrier => rfl
  | lockSection hother =>
      refine Function.update_of_ne ?_ _ _
      intro heq
      exact hkind (heq ▸ hother)

end WorkerMove

/-- The creator touches neither the job nor the sections. -/
theorem stepCreator_frame (hstep : s.stepCreator = some t) :
    t.job = s.job ∧ t.sections = s.sections ∧ s.creator ≠ .returned := by
  unfold stepCreator at hstep
  cases hc : s.creator with
  | lock =>
      simp only [hc, Option.ite_none_right_eq_some, Option.some.injEq] at hstep
      exact hstep.2 ▸ ⟨rfl, rfl, CreatorPc.noConfusion⟩
  | returned => simp [hc] at hstep
  | _ =>
      simp only [hc, Option.some.injEq] at hstep
      exact hstep ▸ ⟨rfl, rfl, CreatorPc.noConfusion⟩

end LockedJob

/-! ## The invariant -/

/-- What the client has read so far is what it would read now. -/
def ClientPc.Current (job : JobContext j) : ClientPc → Prop
  | .loadProcessed stage => stage = job.getJobState.stage
  | .summing currJobState i threadSize =>
      currJobState = job.getJobState ∧
        (currJobState.stage = .shuffle ∨ currJobState.stage = .reduce) ∧ i ≤ j.numOfThreads ∧
        threadSize = ((job.intermediateVecs.take i).map List.length).sum
  | .reporting currJobState totalItems =>
      currJobState = job.getJobState ∧ totalItems = job.getTotalItemsOfCurrPhase currJobState
  | _ => True

namespace JobHandle

/-- The workers below this one are joined. -/
def joinedUpTo (s : JobHandle j) : Nat :=
  match s.client with
  | .joining _ i => i
  | _ => if s.areThreadsJoined then j.numOfThreads else 0

/-- The invariant of the handle: what the client knows is up to date, the
handle is used after the constructor only, and the joined workers are the
first ones and have returned. -/
structure Inv (s : JobHandle j) : Prop where
  locked : s.locked.Reachable
  returned : s.client ≠ .idle ∨ s.areThreadsJoined = true → s.locked.creator = .returned
  exclusive : s.client.holdsJobState = true → s.locked.sections .jobState = none
  current : s.client.Current s.locked.job
  joining : ∀ closing i, s.client = .joining closing i →
    i ≤ j.numOfThreads ∧ s.areThreadsJoined = false
  joined : s.client = .deleting ∨ s.client = .closed → s.areThreadsJoined = true
  joins : ∀ v : Fin j.numOfThreads, s.joins v = if v < s.joinedUpTo then 1 else 0
  finished : ∀ v : Fin j.numOfThreads, v < s.joinedUpTo →
    (s.locked.job.threads v).pc.isFinished = true

/-- The invariant holds before the first step. -/
theorem Inv.initial : (initial j).Inv where
  locked := Reaches.refl _
  returned := by simp [JobHandle.initial]
  exclusive := by simp [JobHandle.initial, ClientPc.holdsJobState]
  current := trivial
  joining := by simp [JobHandle.initial]
  joined := by simp [JobHandle.initial]
  joins := by simp [JobHandle.initial, joinedUpTo]
  finished := by simp [JobHandle.initial, joinedUpTo]

namespace Inv

variable {s t : JobHandle j}

/-- A worker that does not change the word leaves what the client has read
valid. -/
theorem current_step (h : s.Inv) {w : Fin j.numOfThreads} {job : JobContext j}
    (hjob : s.locked.job.step w = some job)
    (hkind : s.client.holdsJobState = true →
      (s.locked.job.threads w).pc.kind ≠ .inSection .jobState) : s.client.Current job := by
  have hcurrent := h.current
  have htr := JobContext.step_transition hjob
  have hword : s.client.holdsJobState = true → job.getJobState = s.locked.job.getJobState := by
    intro hholds
    unfold JobContext.getJobState
    rw [htr.jobStateBitwise_eq (hkind hholds)]
  have hvecs : (s.locked.job.getJobState.stage = .shuffle ∨
      s.locked.job.getJobState.stage = .reduce) →
      job.intermediateVecs = s.locked.job.intermediateVecs :=
    fun hstage => htr.intermediateVecs_eq (h.locked.job.inv.sorted_of_stage hstage w)
  cases hclient : s.client with
  | loadProcessed stage =>
      rw [hclient] at hcurrent hword
      rw [ClientPc.Current, hword rfl]
      exact hcurrent
  | summing currJobState i threadSize =>
      rw [hclient] at hcurrent hword
      obtain ⟨hstate, hstage, hi, hsize⟩ := hcurrent
      rw [ClientPc.Current, hword rfl, hvecs (hstate ▸ hstage)]
      exact ⟨hstate, hstage, hi, hsize⟩
  | reporting currJobState totalItems =>
      rw [hclient] at hcurrent hword
      obtain ⟨hstate, htotal⟩ := hcurrent
      rw [ClientPc.Current, hword rfl]
      refine ⟨hstate, htotal.trans ?_⟩
      unfold JobContext.getTotalItemsOfCurrPhase JobContext.getNumOfIntermediatePairs
      cases hstage : currJobState.stage with
      | undefined => rfl
      | map => rfl
      | shuffle => rw [hvecs (Or.inl (hstate ▸ hstage))]
      | reduce => rw [hvecs (Or.inr (hstate ▸ hstage))]
  | _ => trivial

/-- A step of the constructor or of a worker. -/
theorem actor (h : s.Inv) {a : Actor j} (hblocked : ¬ s.Blocked a) {locked : LockedJob j}
    (hnext : s.locked.next a = some locked) : Inv { s with locked := locked } := by
  have hreach := h.locked.snoc hnext
  cases a with
  | creator =>
      obtain ⟨hjob, hsections, hcreator⟩ := LockedJob.stepCreator_frame hnext
      refine ⟨hreach, fun hc => absurd (h.returned hc) hcreator, ?_, ?_, h.joining, h.joined,
        h.joins, ?_⟩
      · exact fun hholds => (congrFun hsections _).trans (h.exclusive hholds)
      · exact hjob ▸ h.current
      · exact hjob ▸ h.finished
  | worker w =>
      obtain ⟨hstarted, hstep⟩ := Option.ite_none_right_eq_some.mp hnext
      have hmove := h.locked.inv.stepWorker_move hstarted hstep
      have hkind : s.client.holdsJobState = true →
          (s.locked.job.threads w).pc.kind ≠ .inSection .jobState :=
        fun hholds hkind => hblocked ⟨hholds, h.exclusive hholds, hkind⟩
      refine ⟨hreach, fun hc => hmove.creator_eq.trans (h.returned hc), ?_, ?_, h.joining,
        h.joined, h.joins, ?_⟩
      · exact fun hholds => (hmove.sections_eq (hkind hholds)).trans (h.exclusive hholds)
      · rcases hmove.job_eq with hsame | hjob
        · exact hsame ▸ h.current
        · exact h.current_step hjob hkind
      · intro v hv
        rcases hmove.job_eq with hsame | hjob
        · exact hsame ▸ h.finished v hv
        · exact JobContext.finished_of_step hjob (h.finished v hv)

/-- The client moves and joins nobody. -/
theorem goto (h : s.Inv) (hcreator : s.locked.creator = .returned) {client : ClientPc}
    (hexclusive : client.holdsJobState = true → s.locked.sections .jobState = none)
    (hcurrent : client.Current s.locked.job)
    (hjoining : ∀ closing i, client = .joining closing i →
      i ≤ j.numOfThreads ∧ s.areThreadsJoined = false)
    (hjoined : client = .deleting ∨ client = .closed → s.areThreadsJoined = true)
    (hsame : { s with client := client }.joinedUpTo = s.joinedUpTo) :
    Inv { s with client := client } where
  locked := h.locked
  returned := fun _ => hcreator
  exclusive := hexclusive
  current := hcurrent
  joining := hjoining
  joined := hjoined
  joins := by
    rw [hsame]
    exact h.joins
  finished := by
    rw [hsame]
    exact h.finished

/-- The client starts `getJobDone`, or finds that it was done before. -/
theorem getJobDone (h : s.Inv) (hcreator : s.locked.creator = .returned)
    (hidle : s.client = .idle) {after start : ClientPc} (closing : Bool)
    (hafter : after = if closing then .deleting else .idle) (hstart : start = .joining closing 0) :
    Inv { s with client := if s.areThreadsJoined then after else start } := by
  by_cases hjoined : s.areThreadsJoined = true
  · rw [if_pos hjoined, hafter]
    have hholds : (if closing then ClientPc.deleting else .idle).holdsJobState = false := by
      cases closing <;> rfl
    refine h.goto hcreator (by simp [hholds]) ?_ ?_ (fun _ => hjoined) ?_
    · cases closing <;> trivial
    · cases closing <;> simp
    · cases closing <;> simp [joinedUpTo, hidle]
  · rw [if_neg hjoined, hstart]
    refine h.goto hcreator (by simp [ClientPc.holdsJobState]) trivial ?_ (by simp) ?_
    · intro _ i heq
      cases heq
      exact ⟨Nat.zero_le _, eq_false_of_ne_true hjoined⟩
    · simp [joinedUpTo, hidle, hjoined]

/-- The client begins a call. -/
theorem call (h : s.Inv) {c : ClientCall} (hcreator : s.locked.creator = .returned)
    (hidle : s.client = .idle) (hcall : s.callFunction c = some t) : t.Inv := by
  cases c with
  | getJobState =>
      obtain ⟨hfree, ht⟩ := Option.ite_none_right_eq_some.mp hcall
      obtain rfl := Option.some.inj ht
      refine h.goto hcreator (fun _ => hfree) trivial (by simp) (by simp) ?_
      simp [joinedUpTo, hidle]
  | waitForJob =>
      obtain rfl := Option.some.inj hcall
      exact h.getJobDone hcreator hidle false rfl rfl
  | closeJobHandle =>
      obtain rfl := Option.some.inj hcall
      exact h.getJobDone hcreator hidle true rfl rfl

/-- The sizes up to the next context. -/
theorem sum_take_succ {job : JobContext j} {i : Nat} (hi : i < j.numOfThreads) :
    ((job.intermediateVecs.take (i + 1)).map List.length).sum =
      ((job.intermediateVecs.take i).map List.length).sum +
        (job.threads ⟨i, hi⟩).intermediateVec.length := by
  have hlen : i < job.intermediateVecs.length := by simpa [JobContext.intermediateVecs] using hi
  rw [List.take_succ_eq_append_getElem hlen]
  simp [JobContext.intermediateVecs]

/-- In `getJobState` the client joins nobody. -/
theorem joinedUpTo_of_holds (hholds : s.client.holdsJobState = true) :
    s.joinedUpTo = if s.areThreadsJoined then j.numOfThreads else 0 := by
  unfold joinedUpTo
  cases hclient : s.client <;> simp_all [ClientPc.holdsJobState]

/-- The client goes on inside `getJobState`. -/
theorem read (h : s.Inv) (hholds : s.client.holdsJobState = true) {client : ClientPc}
    (hnew : client.holdsJobState = true) (hcurrent : client.Current s.locked.job) :
    Inv { s with client := client } := by
  have hcreator : s.locked.creator = .returned := by
    refine h.returned (Or.inl ?_)
    intro heq
    simp [heq, ClientPc.holdsJobState] at hholds
  refine h.goto hcreator (fun _ => h.exclusive hholds) hcurrent ?_ ?_ ?_
  · intro closing i heq
    simp [heq, ClientPc.holdsJobState] at hnew
  · intro heq
    rcases heq with heq | heq <;> simp [heq, ClientPc.holdsJobState] at hnew
  · rw [joinedUpTo_of_holds hholds]
    exact joinedUpTo_of_holds (s := { s with client := client }) hnew

/-- `getJobDone` joins the next worker, or is done. -/
theorem join (h : s.Inv) {closing : Bool} {i : Nat} (hclient : s.client = .joining closing i)
    (hstep : s.stepClient = some t) : t.Inv := by
  have hcreator := h.returned (Or.inl (by simp [hclient]))
  have hupTo : s.joinedUpTo = i := by simp [joinedUpTo, hclient]
  obtain ⟨hi, hjoined⟩ := h.joining closing i hclient
  have hjoins := h.joins
  have hfinished := h.finished
  rw [hupTo] at hjoins hfinished
  simp only [stepClient, hclient] at hstep
  split at hstep
  · next hlt =>
      obtain ⟨hfin, ht⟩ := Option.ite_none_right_eq_some.mp hstep
      obtain rfl := Option.some.inj ht
      refine ⟨h.locked, fun _ => hcreator, by simp [ClientPc.holdsJobState], trivial, ?_,
        by simp, ?_, ?_⟩
      · intro _ k heq
        cases heq
        exact ⟨hlt, hjoined⟩
      · intro v
        show Function.update s.joins ⟨i, hlt⟩ (s.joins ⟨i, hlt⟩ + 1) v = if v < i + 1 then 1 else 0
        by_cases hv : v = ⟨i, hlt⟩
        · subst hv
          simp [hjoins]
        · have hne : (v : Nat) ≠ i := fun heq => hv (Fin.ext heq)
          rw [Function.update_of_ne hv, hjoins]
          grind
      · intro v hv
        have hle : (v : Nat) ≤ i := Nat.lt_succ_iff.mp hv
        rcases Nat.lt_or_eq_of_le hle with hless | heq
        · exact hfinished v hless
        · obtain rfl : v = ⟨i, hlt⟩ := Fin.ext heq
          exact hfin
  · next hge =>
      obtain rfl := Option.some.inj hstep
      obtain rfl : i = j.numOfThreads := Nat.le_antisymm hi (Nat.le_of_not_lt hge)
      have hdone : (if closing then ClientPc.deleting else .idle).holdsJobState = false := by
        cases closing <;> rfl
      refine ⟨h.locked, fun _ => hcreator, by simp [hdone], ?_, ?_, fun _ => rfl, ?_, ?_⟩
      · cases closing <;> trivial
      · cases closing <;> simp
      · cases closing <;> exact hjoins
      · cases closing <;> exact hfinished

/-- The next step of the call that the client is in. -/
theorem client (h : s.Inv) (hstep : s.stepClient = some t) : t.Inv := by
  have hcurrent := h.current
  cases hclient : s.client with
  | idle => simp [stepClient, hclient] at hstep
  | closed => simp [stepClient, hclient] at hstep
  | loadStage =>
      simp only [stepClient, hclient, Option.some.injEq] at hstep
      exact hstep ▸ h.read (by rw [hclient]; rfl) rfl rfl
  | loadProcessed stage =>
      have hholds : s.client.holdsJobState = true := by rw [hclient]; rfl
      simp only [stepClient, hclient, Option.some.injEq] at hstep
      subst hstep
      rw [hclient] at hcurrent
      have hstate : (⟨stage, (Word.getJobState s.locked.job.jobStateBitwise).numOfProcessed⟩ :
          JobState) = s.locked.job.getJobState := JobState.ext hcurrent rfl
      cases stage with
      | undefined => exact h.read hholds rfl ⟨hstate, rfl⟩
      | map => exact h.read hholds rfl ⟨hstate, rfl⟩
      | shuffle => exact h.read hholds rfl ⟨hstate, Or.inl rfl, Nat.zero_le _, rfl⟩
      | reduce => exact h.read hholds rfl ⟨hstate, Or.inr rfl, Nat.zero_le _, rfl⟩
  | summing currJobState i threadSize =>
      have hholds : s.client.holdsJobState = true := by rw [hclient]; rfl
      rw [hclient] at hcurrent
      obtain ⟨hstate, hstage, hi, hsize⟩ := hcurrent
      simp only [stepClient, hclient] at hstep
      split at hstep
      · next hlt =>
          obtain rfl := Option.some.inj hstep
          refine h.read hholds rfl ⟨hstate, hstage, hlt, ?_⟩
          rw [sum_take_succ hlt, hsize]
      · next hge =>
          obtain rfl := Option.some.inj hstep
          have hall : s.locked.job.intermediateVecs.take i = s.locked.job.intermediateVecs :=
            List.take_of_length_le (by
              simpa [JobContext.intermediateVecs] using Nat.le_of_not_lt hge)
          refine h.read hholds rfl ⟨hstate, ?_⟩
          rw [hsize, hall]
          unfold JobContext.getTotalItemsOfCurrPhase
          rcases hstage with hstage | hstage <;> rw [hstage] <;> rfl
  | reporting currJobState totalItems =>
      have hholds : s.client.holdsJobState = true := by rw [hclient]; rfl
      simp only [stepClient, hclient, Option.some.injEq] at hstep
      subst hstep
      refine h.goto (h.returned (Or.inl (by simp [hclient]))) (by simp [ClientPc.holdsJobState])
        trivial (by simp) (by simp) ?_
      rw [joinedUpTo_of_holds hholds]
      rfl
  | joining closing i => exact h.join hclient hstep
  | deleting =>
      simp only [stepClient, hclient, Option.some.injEq] at hstep
      subst hstep
      have hjoined := h.joined (Or.inl hclient)
      refine h.goto (h.returned (Or.inr hjoined)) (by simp [ClientPc.holdsJobState]) trivial
        (by simp) (fun _ => hjoined) ?_
      simp [joinedUpTo, hclient]

/-- **One step keeps the invariant.** -/
theorem next (h : s.Inv) {a : HandleAction j} (hnext : s.next a = some t) : t.Inv := by
  cases a with
  | actor a =>
      simp only [JobHandle.next, Option.ite_none_left_eq_some, Option.map_eq_some_iff] at hnext
      obtain ⟨hblocked, locked, hlocked, rfl⟩ := hnext
      exact h.actor hblocked hlocked
  | call c =>
      obtain ⟨⟨hcreator, hidle⟩, hcall⟩ := Option.ite_none_right_eq_some.mp hnext
      exact h.call hcreator hidle hcall
  | client => exact h.client hnext

end Inv

/-- By induction over the run, the invariant holds in every reachable
state. -/
theorem Reachable.inv {s : JobHandle j} (h : s.Reachable) : s.Inv :=
  Reaches.invariant Inv (fun _ _ _ hinv hnext => hinv.next hnext) h Inv.initial

end JobHandle

end MapReduce
