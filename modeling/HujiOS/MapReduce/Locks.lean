import HujiOS.MapReduce.Barrier
import HujiOS.MapReduce.Correctness

/-!
# The job with its mutexes, its barrier and the thread that creates it

`LockedJob` refines `JobContext`: a section takes its mutex in one step and runs
and unlocks in another, a barrier call goes through the steps of `Barrier`, and
the constructor holds `pthreadCreateMutex_` while it creates the workers one
after another.  Nothing here looks at whether others have arrived; that nobody
leaves the barrier early is a consequence of the barrier's invariant, and with
it every run of the refined job is a run of the job.
-/

namespace MapReduce

open Grouping Runs Pool

universe u

variable {K1 V1 K2 V2 K3 V3 : Type u} {j : Job K1 V1 K2 V2 K3 V3}

/-- The mutexes whose sections are single steps of the job. -/
inductive SectionMutex
  | jobState
  | outputVec
  deriving DecidableEq, Repr

/-- Who can hold `pthreadCreateMutex_`. -/
inductive Owner (n : Nat)
  | creator
  | worker (w : Fin n)
  deriving DecidableEq, Repr

/-- Where the constructing thread is in `JobContext::JobContext`. -/
inductive CreatorPc
  | lock
  -- the loop, about to construct context `i`, which calls `pthread_create`
  | create (i : Nat)
  -- worker `i` runs, `threadContexts_[i]` is not assigned yet
  | assign (i : Nat)
  | unlock
  | returned
  deriving DecidableEq, Repr

namespace CreatorPc

/-- How many of `n` workers have been started. -/
def started (n : Nat) : CreatorPc → Nat
  | lock => 0
  | create i => i
  | assign i => i + 1
  | unlock | returned => n

/-- How many entries of `threadContexts_` are assigned. -/
def assigned (n : Nat) : CreatorPc → Nat
  | lock => 0
  | create i | assign i => i
  | unlock | returned => n

/-- Inside the section of `pthreadCreateMutex_`. -/
def isLocked : CreatorPc → Bool
  | lock | returned => false
  | create _ | assign _ | unlock => true

end CreatorPc

/-- What a worker needs for its next step, apart from the shared data. -/
inductive StepKind
  | barrierCall
  | lockCreate
  | unlockCreate
  -- reads through `threadContexts_[i]`, unless `i` is past the last
  | readContext (i : Nat)
  | inSection (m : SectionMutex)
  | alone
  deriving DecidableEq, Repr

namespace Pc

/-- The kind of the worker's next step. -/
def kind : Pc j → StepKind
  | firstBarrier | firstWait | secondBarrier | secondWait => .barrierCall
  | shuffleLock => .lockCreate
  | shuffleUnlock => .unlockCreate
  | shuffleCopy interVecs => .readContext interVecs.length
  | mapSetStage | mapping [] | shuffleSetStage | shuffleCount .. | reduceAdvance
  | reduceSetStage | reducing _ _ [] => .inSection .jobState
  | reducing _ _ (_ :: _) => .inSection .outputVec
  | mapNext | mapCall _ | mapping (_ :: _) | sort | shuffleReset | shuffleMaxKey _
  | shuffleDrain .. | shuffleEndReset | reduceCopy | reduceNext _ | reduceCall ..
  | finished => .alone

/-- In the shuffle, with `pthreadCreateMutex_` held. -/
def holdsCreate : Pc j → Bool
  | shuffleReset | shuffleCopy _ | shuffleMaxKey _ | shuffleDrain .. | shuffleCount ..
  | shuffleEndReset | shuffleUnlock => true
  | _ => false

/-- About to call the barrier. -/
def isCalling : Pc j → Bool
  | firstBarrier | secondBarrier => true
  | _ => false

/-- Counted in by the barrier and not returned. -/
def isWaiting : Pc j → Bool
  | firstWait | secondWait => true
  | _ => false

end Pc

/-- The job, with the constructor that starts its workers, its mutexes and its
barrier. -/
structure LockedJob (j : Job K1 V1 K2 V2 K3 V3) where
  job : JobContext j
  creator : CreatorPc
  pthreadCreateMutex : Option (Owner j.numOfThreads)
  sections : SectionMutex → Option (Fin j.numOfThreads)
  threadsBarrier : Barrier j.numOfThreads

/-- The constructing thread or a worker takes a step. -/
inductive Actor (j : Job K1 V1 K2 V2 K3 V3)
  | creator
  | worker (w : Fin j.numOfThreads)

namespace LockedJob

/-- The constructor is about to lock `pthreadCreateMutex_`. -/
def initial (j : Job K1 V1 K2 V2 K3 V3) : LockedJob j where
  job := JobContext.initial j
  creator := .lock
  pthreadCreateMutex := none
  sections := fun _ => none
  threadsBarrier := Barrier.initial j.numOfThreads

/-- The constructor: `for (i = 0; i < numOfThreads_; ++i)` under the mutex. -/
def stepCreator (s : LockedJob j) : Option (LockedJob j) :=
  match s.creator with
  | .lock =>
      if s.pthreadCreateMutex = none then
        some { s with creator := .create 0, pthreadCreateMutex := some .creator }
      else none
  | .create i =>
      some { s with creator := if i < j.numOfThreads then .assign i else .unlock }
  | .assign i => some { s with creator := .create (i + 1) }
  | .unlock => some { s with creator := .returned, pthreadCreateMutex := none }
  | .returned => none

/-- A step inside `Barrier::barrier`; the job moves when the worker counts itself
in and when it returns. -/
def callBarrier (s : LockedJob j) (w : Fin j.numOfThreads) : Option (LockedJob j) :=
  (s.threadsBarrier.step w).bind fun barrier =>
    match s.threadsBarrier.pcs w with
    | .locked => (s.job.step w).map fun job => { s with job := job, threadsBarrier := barrier }
    | .leaving =>
        some { s with job := s.job.returnFromBarrier w, threadsBarrier := barrier }
    | _ => some { s with threadsBarrier := barrier }

/-- A section under `m`: `ApplyMutex` locks, then the section runs and unlocks. -/
def stepSection (s : LockedJob j) (m : SectionMutex) (w : Fin j.numOfThreads) :
    Option (LockedJob j) :=
  match s.sections m with
  | none => some { s with sections := Function.update s.sections m (some w) }
  | some v =>
      if v = w then
        (s.job.step w).map fun job =>
          { s with job := job, sections := Function.update s.sections m none }
      else none

/-- One step of a worker, where the mutexes and the barrier allow it. -/
def stepWorker (s : LockedJob j) (w : Fin j.numOfThreads) : Option (LockedJob j) :=
  match (s.job.threads w).pc.kind with
  | .barrierCall => s.callBarrier w
  | .lockCreate =>
      if s.pthreadCreateMutex = none then
        (s.job.step w).map fun job =>
          { s with job := job, pthreadCreateMutex := some (.worker w) }
      else none
  | .unlockCreate =>
      (s.job.step w).map fun job => { s with job := job, pthreadCreateMutex := none }
  -- an entry that is not assigned is a null pointer
  | .readContext i =>
      if i < s.creator.assigned j.numOfThreads ∨ j.numOfThreads ≤ i then
        (s.job.step w).map fun job => { s with job := job }
      else none
  | .inSection m => s.stepSection m w
  | .alone => (s.job.step w).map fun job => { s with job := job }

/-- A worker runs once it has been started. -/
def next (s : LockedJob j) : Actor j → Option (LockedJob j)
  | .creator => s.stepCreator
  | .worker w => if w < s.creator.started j.numOfThreads then s.stepWorker w else none

/-- Some interleaving of the constructor and the workers leads to `s`. -/
def Reachable (s : LockedJob j) : Prop := Reaches next (initial j) s

end LockedJob

/-! ## How the two levels move together -/

namespace Pc

variable {pc : Pc j}

/-- The barrier's view of a worker fits the worker's own. -/
def Fits (pc : Pc j) : BarrierPc → Prop
  | .outside => pc.isWaiting = false
  | .locked => pc.isCalling = true
  | .waiting | .woken | .leaving => pc.isWaiting = true

/-- A broadcast moves no worker in the job. -/
theorem Fits.wake {b : BarrierPc} (h : pc.Fits b) : pc.Fits (Barrier.wake b) := by
  cases b <;> exact h

/-- A worker has returned from every call but the one it waits in. -/
theorem arrivals_eq (pc : Pc j) :
    pc.arrivals = pc.passed + if pc.isWaiting = true then 1 else 0 := by
  cases pc <;> simp [arrivals, passed, isWaiting]

/-- Who waits is in the barrier. -/
theorem kind_of_isWaiting (h : pc.isWaiting = true) : pc.kind = .barrierCall := by
  cases pc <;> simp_all [isWaiting, kind]

/-- Who is about to call the barrier takes a step of it next. -/
theorem kind_of_isCalling (h : pc.isCalling = true) : pc.kind = .barrierCall := by
  cases pc <;> simp_all [isCalling, kind]

/-- A worker that is in no barrier call of its own is in none of the barrier's. -/
theorem Fits.outside {b : BarrierPc} (h : pc.Fits b) (hkind : pc.kind ≠ .barrierCall) :
    b = .outside := by
  cases b with
  | outside => rfl
  | locked => exact absurd (kind_of_isCalling h) hkind
  | waiting | woken | leaving => exact absurd (kind_of_isWaiting h) hkind

/-- At the barrier a worker does not hold `pthreadCreateMutex_`. -/
theorem holdsCreate_of_barrierCall (h : pc.kind = .barrierCall) : pc.holdsCreate = false := by
  cases pc <;> simp_all [kind, holdsCreate]

/-- Who unlocks `pthreadCreateMutex_` holds it. -/
theorem holdsCreate_of_unlockCreate (h : pc.kind = .unlockCreate) : pc.holdsCreate = true := by
  unfold kind at h
  split at h <;> simp_all [holdsCreate]

/-- At the barrier a worker is about to call it or waits in it. -/
theorem isCalling_or_isWaiting (h : pc.kind = .barrierCall) :
    pc.isCalling = true ∨ pc.isWaiting = true := by
  unfold kind at h
  split at h <;> simp_all [isCalling, isWaiting]

end Pc

namespace JobContext

/-- A step outside the barrier calls stays outside, and only the lock and the
unlock of the shuffle change who holds `pthreadCreateMutex_`. -/
structure Stays (pc pc' : Pc j) : Prop where
  arrivals : pc'.arrivals = pc.arrivals
  waiting : pc'.isWaiting = false
  holds : pc'.holdsCreate =
    (pc.holdsCreate && pc.kind != .unlockCreate || pc.kind == .lockCreate)

/-- A step outside the barrier moves one worker, as `Stays` says. -/
theorem Transition.stays {s t : JobContext j} {w : Fin j.numOfThreads} (h : Transition s w t)
    (hkind : (s.threads w).pc.kind ≠ .barrierCall) :
    ∃ thread, t.threads = Function.update s.threads w thread ∧
      Stays (s.threads w).pc thread.pc := by
  cases h <;> refine ⟨_, rfl, ?_, ?_, ?_⟩ <;>
    simp_all [Pc.kind, Pc.arrivals, Pc.isWaiting, Pc.holdsCreate]

/-- Counting in at the barrier. -/
theorem step_of_isCalling {s t : JobContext j} {w : Fin j.numOfThreads}
    (hcall : (s.threads w).pc.isCalling = true) (h : s.step w = some t) :
    ∃ pc, t = s.goto w pc ∧ pc.isWaiting = true ∧
      pc.arrivals = (s.threads w).pc.arrivals + 1 := by
  cases step_transition h <;> simp_all [Pc.isCalling] <;>
    exact ⟨_, rfl, rfl, rfl⟩

/-- Returning from the barrier. -/
theorem returnFromBarrier_eq {s : JobContext j} {w : Fin j.numOfThreads}
    (hwait : (s.threads w).pc.isWaiting = true) :
    ∃ pc, s.returnFromBarrier w = s.goto w pc ∧ pc.isWaiting = false ∧
      pc.holdsCreate = false ∧ pc.arrivals = (s.threads w).pc.arrivals := by
  unfold returnFromBarrier
  cases hpc : (s.threads w).pc with
  | firstWait =>
      refine ⟨_, rfl, ?_, ?_, ?_⟩ <;> split <;> rfl
  | secondWait => exact ⟨_, rfl, rfl, rfl, rfl⟩
  | _ => simp [hpc, Pc.isWaiting] at hwait

/-- A worker that waits returns as soon as it is released. -/
theorem step_of_released {s : JobContext j} {w : Fin j.numOfThreads}
    (hwait : (s.threads w).pc.isWaiting = true) (hrel : s.Released w) :
    s.step w = some (s.returnFromBarrier w) := by
  unfold step
  cases hpc : (s.threads w).pc with
  | firstWait => exact if_pos hrel
  | secondWait => exact if_pos hrel
  | _ => simp [hpc, Pc.isWaiting] at hwait

end JobContext

namespace LockedJob

/-- Owners of mutexes are where they can own them, and the barrier agrees with
the workers about who is in a call. -/
structure Inv (s : LockedJob j) : Prop where
  round : ∃ r, s.threadsBarrier.Round r
  fits : ∀ v, (s.job.threads v).pc.Fits (s.threadsBarrier.pcs v)
  arrivals : ∀ v, s.threadsBarrier.arrivals v = (s.job.threads v).pc.arrivals
  sections : ∀ m v, s.sections m = some v → (s.job.threads v).pc.kind = .inSection m
  holder : ∀ v, s.pthreadCreateMutex = some (.worker v) ↔
    (s.job.threads v).pc.holdsCreate = true
  creating : s.pthreadCreateMutex = some .creator ↔ s.creator.isLocked = true
  unstarted : ∀ v : Fin j.numOfThreads, s.creator.started j.numOfThreads ≤ v →
    (s.job.threads v).pc = .mapSetStage

/-- The invariant holds before the first step. -/
theorem Inv.initial : (initial j).Inv where
  round := ⟨0, Barrier.Round.initial j.numOfThreads_pos⟩
  fits := fun _ => rfl
  arrivals := fun _ => rfl
  sections := fun _ _ h => by cases h
  holder := fun v => ⟨fun h => (by cases h), fun h => (by cases h)⟩
  creating := ⟨fun h => (by cases h), fun h => (by cases h)⟩
  unstarted := fun _ _ => rfl

namespace Inv

variable {s t : LockedJob j} {w : Fin j.numOfThreads}

/-- The constructor keeps the invariant. -/
theorem stepCreator (h : s.Inv) (hstep : s.stepCreator = some t) : t.Inv := by
  unfold LockedJob.stepCreator at hstep
  have hunstarted := h.unstarted
  cases hc : s.creator with
  | lock =>
      simp only [hc, Option.ite_none_right_eq_some, Option.some.injEq] at hstep
      obtain ⟨hfree, rfl⟩ := hstep
      refine ⟨h.round, h.fits, h.arrivals, h.sections, fun v => ?_, ?_, ?_⟩
      · rw [← h.holder v, hfree]
        simp
      · simp [CreatorPc.isLocked]
      · simpa [hc, CreatorPc.started] using hunstarted
  | create i =>
      simp only [hc, Option.some.injEq] at hstep
      subst hstep
      refine ⟨h.round, h.fits, h.arrivals, h.sections, h.holder, ?_, fun v hv => ?_⟩
      · rw [h.creating, hc]
        by_cases hi : i < j.numOfThreads <;> simp [hi, CreatorPc.isLocked]
      · apply hunstarted v
        rw [hc]
        have hlt := v.isLt
        by_cases hi : i < j.numOfThreads
        · simp only [hi, if_true, CreatorPc.started] at hv ⊢
          omega
        · simp only [hi, if_false, CreatorPc.started] at hv
          omega
  | assign i =>
      simp only [hc, Option.some.injEq] at hstep
      subst hstep
      refine ⟨h.round, h.fits, h.arrivals, h.sections, h.holder, ?_, ?_⟩
      · rw [h.creating, hc]
        simp [CreatorPc.isLocked]
      · simpa [hc, CreatorPc.started] using hunstarted
  | unlock =>
      simp only [hc, Option.some.injEq] at hstep
      subst hstep
      have hmine : s.pthreadCreateMutex = some .creator := h.creating.mpr (by rw [hc]; rfl)
      refine ⟨h.round, h.fits, h.arrivals, h.sections, fun v => ?_, ?_, fun v hv => ?_⟩
      · rw [← h.holder v, hmine]
        simp
      · simp [CreatorPc.isLocked]
      · exact absurd v.isLt (Nat.not_lt.mpr hv)
  | returned => simp [hc] at hstep

/-- A step of `w` in a barrier call, which holds none of the other mutexes. -/
theorem of_call (h : s.Inv) (hstarted : w < s.creator.started j.numOfThreads)
    (hkind : (s.job.threads w).pc.kind = .barrierCall) {job : JobContext j}
    {thread : ThreadContext j} (hthreads : job.threads = Function.update s.job.threads w thread)
    (hholds : thread.pc.holdsCreate = false) {barrier : Barrier j.numOfThreads}
    (hround : ∃ r, barrier.Round r) (hfits : ∀ v, (job.threads v).pc.Fits (barrier.pcs v))
    (harrivals : ∀ v, barrier.arrivals v = (job.threads v).pc.arrivals) :
    Inv { s with job := job, threadsBarrier := barrier } where
  round := hround
  fits := hfits
  arrivals := harrivals
  sections := by
    intro m v hm
    have hold := h.sections m v hm
    have hv : v ≠ w := by
      rintro rfl
      simp [hkind] at hold
    rw [hthreads, Function.update_of_ne hv]
    exact hold
  holder := by
    intro v
    rw [h.holder v, hthreads]
    by_cases hv : v = w
    · subst hv
      rw [Function.update_self, hholds, Pc.holdsCreate_of_barrierCall hkind]
    · rw [Function.update_of_ne hv]
  creating := h.creating
  unstarted := by
    intro v hv
    have hne : v ≠ w := by
      rintro rfl
      exact Nat.not_lt.mpr hv hstarted
    rw [hthreads, Function.update_of_ne hne]
    exact h.unstarted v hv

/-- A step of `w` outside the barrier calls, after which it owns no section. -/
theorem of_step (h : s.Inv) (hstarted : w < s.creator.started j.numOfThreads)
    (hkind : (s.job.threads w).pc.kind ≠ .barrierCall) {job : JobContext j}
    (hjob : s.job.step w = some job) {createMutex : Option (Owner j.numOfThreads)}
    {sections : SectionMutex → Option (Fin j.numOfThreads)}
    (hsections : ∀ m v, sections m = some v → v ≠ w ∧ s.sections m = some v)
    (hholder : createMutex = some (.worker w) ↔
      ((s.job.threads w).pc.holdsCreate && (s.job.threads w).pc.kind != .unlockCreate ||
        (s.job.threads w).pc.kind == .lockCreate) = true)
    (hothers : ∀ v, v ≠ w → (createMutex = some (.worker v) ↔
      s.pthreadCreateMutex = some (.worker v)))
    (hcreating : createMutex = some .creator ↔ s.pthreadCreateMutex = some .creator) :
    Inv { s with job := job, pthreadCreateMutex := createMutex, sections := sections } := by
  obtain ⟨thread, hthreads, hstays⟩ := (JobContext.step_transition hjob).stays hkind
  have hother : ∀ v, v ≠ w → job.threads v = s.job.threads v := by
    intro v hv
    rw [hthreads, Function.update_of_ne hv]
  have hself : job.threads w = thread := by
    rw [hthreads, Function.update_self]
  constructor
  · exact h.round
  · intro v
    by_cases hv : v = w
    · subst hv
      show (job.threads v).pc.Fits (s.threadsBarrier.pcs v)
      rw [hself, (h.fits v).outside hkind]
      exact hstays.waiting
    · show (job.threads v).pc.Fits (s.threadsBarrier.pcs v)
      rw [hother v hv]
      exact h.fits v
  · intro v
    show s.threadsBarrier.arrivals v = (job.threads v).pc.arrivals
    by_cases hv : v = w
    · subst hv
      rw [hself, hstays.arrivals]
      exact h.arrivals v
    · rw [hother v hv]
      exact h.arrivals v
  · intro m v hm
    obtain ⟨hv, hold⟩ := hsections m v hm
    show (job.threads v).pc.kind = _
    rw [hother v hv]
    exact h.sections m v hold
  · intro v
    show createMutex = some (.worker v) ↔ (job.threads v).pc.holdsCreate = true
    by_cases hv : v = w
    · subst hv
      rw [hself, hstays.holds]
      exact hholder
    · rw [hothers v hv, hother v hv]
      exact h.holder v
  · exact hcreating.trans h.creating
  · intro v hv
    have hne : v ≠ w := by
      rintro rfl
      exact Nat.not_lt.mpr hv hstarted
    show (job.threads v).pc = .mapSetStage
    rw [hother v hne]
    exact h.unstarted v hv

/-- Such a step that neither takes nor releases `pthreadCreateMutex_`. -/
theorem of_step_kept (h : s.Inv) (hstarted : w < s.creator.started j.numOfThreads)
    (hcall : (s.job.threads w).pc.kind ≠ .barrierCall)
    (hlock : (s.job.threads w).pc.kind ≠ .lockCreate)
    (hunlock : (s.job.threads w).pc.kind ≠ .unlockCreate) {job : JobContext j}
    (hjob : s.job.step w = some job) {sections : SectionMutex → Option (Fin j.numOfThreads)}
    (hsections : ∀ m v, sections m = some v → v ≠ w ∧ s.sections m = some v) :
    Inv { s with job := job, sections := sections } := by
  have hholder : s.pthreadCreateMutex = some (.worker w) ↔
      ((s.job.threads w).pc.holdsCreate && (s.job.threads w).pc.kind != .unlockCreate ||
        (s.job.threads w).pc.kind == .lockCreate) = true := by
    rw [h.holder w]
    simp [hlock, hunlock]
  exact h.of_step hstarted hcall hjob hsections hholder (fun _ _ => Iff.rfl) Iff.rfl

/-- A worker that leaves the barrier finds that everybody has arrived. -/
theorem released (h : s.Inv) (hpc : s.threadsBarrier.pcs w = .leaving) : s.job.Released w := by
  obtain ⟨r, hr⟩ := h.round
  intro v
  rw [← h.arrivals w, ← h.arrivals v]
  exact hr.arrivals_le (by simp [hpc]) v

/-- Taking the barrier's mutex, on the way in or out. -/
theorem lockBarrier (h : s.Inv) (hstarted : w < s.creator.started j.numOfThreads)
    (hkind : (s.job.threads w).pc.kind = .barrierCall) {pc : BarrierPc}
    {barrier : Barrier j.numOfThreads} (hlock : s.threadsBarrier.lock w pc = some barrier)
    (hround : ∃ r, barrier.Round r) (hfits : (s.job.threads w).pc.Fits pc) :
    Inv { s with threadsBarrier := barrier } := by
  have hidle := (Function.update_eq_self w s.job.threads).symm
  obtain ⟨hpcs, harrivals⟩ := Barrier.lock_eq_some hlock
  refine h.of_call hstarted hkind hidle (Pc.holdsCreate_of_barrierCall hkind) hround
    (fun v => ?_) (fun v => ?_)
  · rw [hpcs]
    by_cases hv : v = w
    · subst hv
      rw [Function.update_self]
      exact hfits
    · rw [Function.update_of_ne hv]
      exact h.fits v
  · rw [harrivals]
    exact h.arrivals v

/-- Counting in: the worker waits in the job, and at the barrier unless it is the
last one, which wakes the others. -/
theorem countIn (h : s.Inv) (hstarted : w < s.creator.started j.numOfThreads)
    (hpc : s.threadsBarrier.pcs w = .locked) {job : JobContext j}
    (hjob : s.job.step w = some job) (hround : ∃ r, (s.threadsBarrier.arrive w).Round r) :
    Inv { s with job := job, threadsBarrier := s.threadsBarrier.arrive w } := by
  have hcall := h.fits w
  rw [hpc] at hcall
  obtain ⟨pc, rfl, hwait, harrive⟩ := JobContext.step_of_isCalling hcall hjob
  have hholds := Pc.holdsCreate_of_barrierCall (Pc.kind_of_isWaiting hwait)
  refine h.of_call hstarted (Pc.kind_of_isCalling hcall) rfl hholds hround
    (fun v => ?_) (fun v => ?_)
  · rw [JobContext.goto_threads]
    by_cases hv : v = w
    · subst hv
      rw [Function.update_self]
      rcases Barrier.arrive_pcs_self (b := s.threadsBarrier) (w := v) with hb | hb
      · rw [hb]
        exact hwait
      · rw [hb]
        exact hwait
    · rw [Function.update_of_ne hv]
      rcases Barrier.arrive_pcs_ne (b := s.threadsBarrier) hv with hb | hb
      · rw [hb]
        exact h.fits v
      · rw [hb]
        exact (h.fits v).wake
  · rw [JobContext.goto_threads, Barrier.arrive_arrivals]
    by_cases hv : v = w
    · subst hv
      rw [Function.update_self, Function.update_self, harrive, h.arrivals v]
    · rw [Function.update_of_ne hv, Function.update_of_ne hv]
      exact h.arrivals v

/-- Unlocking on the way out: everybody has arrived, so the job returns as well. -/
theorem leaveBarrier (h : s.Inv) (hstarted : w < s.creator.started j.numOfThreads)
    (hpc : s.threadsBarrier.pcs w = .leaving) {barrier : Barrier j.numOfThreads}
    (hround : ∃ r, barrier.Round r)
    (hpcs : barrier.pcs = Function.update s.threadsBarrier.pcs w .outside)
    (harrivals : barrier.arrivals = s.threadsBarrier.arrivals) :
    Inv { s with job := s.job.returnFromBarrier w, threadsBarrier := barrier } ∧
      s.job.step w = some (s.job.returnFromBarrier w) := by
  have hfit := h.fits w
  rw [hpc] at hfit
  refine ⟨?_, JobContext.step_of_released hfit (h.released hpc)⟩
  obtain ⟨pc, hret, hwait, hnew, harrive⟩ := JobContext.returnFromBarrier_eq hfit
  rw [hret]
  refine h.of_call hstarted (Pc.kind_of_isWaiting hfit) rfl hnew hround
    (fun v => ?_) (fun v => ?_)
  · rw [JobContext.goto_threads, hpcs]
    by_cases hv : v = w
    · subst hv
      rw [Function.update_self, Function.update_self]
      exact hwait
    · rw [Function.update_of_ne hv, Function.update_of_ne hv]
      exact h.fits v
  · rw [JobContext.goto_threads, harrivals]
    by_cases hv : v = w
    · subst hv
      rw [Function.update_self]
      exact (h.arrivals v).trans harrive.symm
    · rw [Function.update_of_ne hv]
      exact h.arrivals v

/-- A barrier step is a step of the job or is not seen there. -/
theorem callBarrier (h : s.Inv) (hstarted : w < s.creator.started j.numOfThreads)
    (hkind : (s.job.threads w).pc.kind = .barrierCall) (hstep : s.callBarrier w = some t) :
    t.Inv ∧ (t.job = s.job ∨ s.job.step w = some t.job) := by
  obtain ⟨barrier, hb, ht⟩ := Option.bind_eq_some_iff.mp hstep
  obtain ⟨r, hr⟩ := h.round
  have hround := hr.step hb
  have hfit := h.fits w
  unfold Barrier.step at hb
  cases hpc : s.threadsBarrier.pcs w with
  | outside =>
      simp only [hpc, Option.some.injEq] at ht hb
      subst ht
      rw [hpc] at hfit
      refine ⟨h.lockBarrier hstarted hkind hb hround ?_, Or.inl rfl⟩
      rcases Pc.isCalling_or_isWaiting hkind with hcall | hwait
      · exact hcall
      · exact absurd (hwait.symm.trans hfit) (by decide)
  | locked =>
      simp only [hpc, Option.map_eq_some_iff, Option.some.injEq] at ht hb
      obtain ⟨job, hjob, rfl⟩ := ht
      subst hb
      exact ⟨h.countIn hstarted hpc hjob hround, Or.inr hjob⟩
  | waiting => simp [hpc] at hb
  | woken =>
      simp only [hpc, Option.some.injEq] at ht hb
      subst ht
      rw [hpc] at hfit
      exact ⟨h.lockBarrier hstarted hkind hb hround hfit, Or.inl rfl⟩
  | leaving =>
      simp only [hpc, Option.some.injEq] at ht hb
      subst ht hb
      obtain ⟨hinv, hjob⟩ := h.leaveBarrier hstarted hpc hround rfl rfl
      exact ⟨hinv, Or.inr hjob⟩

/-- Locking the section's mutex, or running the section and unlocking. -/
theorem stepSection (h : s.Inv) (hstarted : w < s.creator.started j.numOfThreads)
    {m : SectionMutex} (hkind : (s.job.threads w).pc.kind = .inSection m)
    (hstep : s.stepSection m w = some t) :
    t.Inv ∧ (t.job = s.job ∨ s.job.step w = some t.job) := by
  unfold LockedJob.stepSection at hstep
  split at hstep
  · obtain rfl := Option.some.inj hstep
    refine ⟨⟨h.round, h.fits, h.arrivals, fun m' v hm => ?_, h.holder, h.creating, h.unstarted⟩,
      Or.inl rfl⟩
    by_cases heq : m' = m
    · subst heq
      dsimp only at hm
      rw [Function.update_self] at hm
      exact Option.some.inj hm ▸ hkind
    · dsimp only at hm
      rw [Function.update_of_ne heq] at hm
      exact h.sections m' v hm
  · rename_i v hv
    simp only [Option.ite_none_right_eq_some, Option.map_eq_some_iff] at hstep
    obtain ⟨rfl, job, hjob, rfl⟩ := hstep
    refine ⟨h.of_step_kept hstarted (by simp [hkind]) (by simp [hkind]) (by simp [hkind]) hjob
      fun m' u hm => ?_, Or.inr hjob⟩
    by_cases heq : m' = m
    · subst heq
      rw [Function.update_self] at hm
      cases hm
    · rw [Function.update_of_ne heq] at hm
      refine ⟨?_, hm⟩
      rintro rfl
      have hother := h.sections m' u hm
      rw [hkind] at hother
      exact heq (StepKind.inSection.inj hother).symm

/-- A worker that owns no section and is not about to enter one. -/
theorem no_section (h : s.Inv) (hkind : ∀ m, (s.job.threads w).pc.kind ≠ .inSection m) :
    ∀ m v, s.sections m = some v → v ≠ w ∧ s.sections m = some v := by
  intro m v hm
  refine ⟨?_, hm⟩
  rintro rfl
  exact hkind m (h.sections m v hm)

/-- **One step of a worker keeps the invariant, and the job sees it as a step or
not at all.** -/
theorem stepWorker (h : s.Inv) (hstarted : w < s.creator.started j.numOfThreads)
    (hstep : s.stepWorker w = some t) :
    t.Inv ∧ (t.job = s.job ∨ s.job.step w = some t.job) := by
  unfold LockedJob.stepWorker at hstep
  cases hkind : (s.job.threads w).pc.kind with
  | barrierCall =>
      rw [hkind] at hstep
      exact h.callBarrier hstarted hkind hstep
  | lockCreate =>
      simp only [hkind, Option.ite_none_right_eq_some, Option.map_eq_some_iff] at hstep
      obtain ⟨hfree, job, hjob, rfl⟩ := hstep
      refine ⟨h.of_step hstarted (by simp [hkind]) hjob (h.no_section (by simp [hkind])) ?_
        (fun v hv => ?_) ?_, Or.inr hjob⟩
      · simp [hkind]
      · simp [hfree, Ne.symm hv]
      · simp [hfree]
  | unlockCreate =>
      simp only [hkind, Option.map_eq_some_iff] at hstep
      obtain ⟨job, hjob, rfl⟩ := hstep
      have hmine : s.pthreadCreateMutex = some (.worker w) :=
        (h.holder w).mpr (Pc.holdsCreate_of_unlockCreate hkind)
      refine ⟨h.of_step hstarted (by simp [hkind]) hjob (h.no_section (by simp [hkind])) ?_
        (fun v hv => ?_) ?_, Or.inr hjob⟩
      · simp [hkind]
      · simp [hmine, Ne.symm hv]
      · simp [hmine]
  | readContext i =>
      simp only [hkind, Option.ite_none_right_eq_some, Option.map_eq_some_iff] at hstep
      obtain ⟨_, job, hjob, rfl⟩ := hstep
      exact ⟨h.of_step_kept hstarted (by simp [hkind]) (by simp [hkind]) (by simp [hkind]) hjob
        (h.no_section (by simp [hkind])), Or.inr hjob⟩
  | inSection m =>
      rw [hkind] at hstep
      exact h.stepSection hstarted hkind hstep
  | alone =>
      simp only [hkind, Option.map_eq_some_iff] at hstep
      obtain ⟨job, hjob, rfl⟩ := hstep
      exact ⟨h.of_step_kept hstarted (by simp [hkind]) (by simp [hkind]) (by simp [hkind]) hjob
        (h.no_section (by simp [hkind])), Or.inr hjob⟩

/-- Every step keeps the invariant. -/
theorem next {a : Actor j} (h : s.Inv) (hnext : s.next a = some t) : t.Inv := by
  cases a with
  | creator => exact h.stepCreator hnext
  | worker w =>
      obtain ⟨hstarted, hstep⟩ := Option.ite_none_right_eq_some.mp hnext
      exact (h.stepWorker hstarted hstep).1

end Inv

/-- By induction over the run, the invariant holds in every reachable
state. -/
theorem Reachable.inv {s : LockedJob j} (h : s.Reachable) : s.Inv :=
  Reaches.invariant Inv (fun _ _ _ hinv hnext => hinv.next hnext) h Inv.initial

/-- The constructing thread does not touch what the workers share. -/
theorem stepCreator_job {s t : LockedJob j} (h : s.stepCreator = some t) : t.job = s.job := by
  unfold stepCreator at h
  split at h
  · obtain ⟨_, hsome⟩ := Option.ite_none_right_eq_some.mp h
    exact Option.some.inj hsome ▸ rfl
  · exact Option.some.inj h ▸ rfl
  · exact Option.some.inj h ▸ rfl
  · exact Option.some.inj h ▸ rfl
  · cases h

/-- **Refinement.**  Every run with the locks and the barrier is a run of the
job, in which nobody leaves the barrier before all have arrived. -/
theorem Reachable.job {s : LockedJob j} (h : s.Reachable) : s.job.Reachable := by
  show Reaches JobContext.next (JobContext.initial j) s.job
  refine Reaches.simulate LockedJob.job (fun _ _ _ hinv hnext => Inv.next hinv hnext)
    (fun x a y hinv hnext => ?_) h Inv.initial
  cases a with
  | creator => exact Or.inl (stepCreator_job hnext)
  | worker w =>
      obtain ⟨hstarted, hstep⟩ := Option.ite_none_right_eq_some.mp hnext
      rcases (hinv.stepWorker hstarted hstep).2 with hsame | hjob
      · exact Or.inl hsame
      · exact Or.inr ⟨.worker w, hjob⟩

/-- The finished job is correct also with its locks and its barrier as they are. -/
theorem Reachable.correct {s : LockedJob j} (h : s.Reachable) (hfin : s.job.Finished) :
    s.job.Correct :=
  h.job.inv.correct hfin

end LockedJob

end MapReduce
