import HujiOS.Uthreads.SpawnOrder

/-!
# Signal masks and saved contexts

`Scheduler` takes a library call or a tick as one step, and a context switch as
a change of the running tid.  This is the process one level below: the signal
mask with the `SigMask` of every call, a timer signal that is pending or
interrupts the running thread, the library functions on the stack of that
thread, and the `env_` of every `Thread`, which `sigsetjmp` fills and
`siglongjmp` resumes.

A library function counts from its `SIG_BLOCK` to its `SIG_UNBLOCK`: what a
`uthread_*` function does before and after them is user code here, where the
signal can be taken.  It can arrive at any time, also inside the library.  That
it is taken in user code only, and that every jump finds a context that was
saved, is the invariant `Sound`.

`std::exit` in `uthread_terminate(0)` has no step.  Called by another thread than
the main one it frees the stack it runs on, as `stack_in_use_kept` has to except.
-/

namespace Uthreads

open Scheduler Runs

/-- `sigset_t`: the signals that are masked. -/
abbrev SigSet := Finset Int

/-- What put a library function on the stack of a thread. -/
inductive Origin
  /-- a `uthread_*` call, with its `SigMask` -/
  | call (call : Call)
  /-- a signal; the kernel keeps the mask that the return restores -/
  | handler (oldMask : SigSet)
  deriving DecidableEq

/-- What the function does in the scheduler. -/
def Origin.body : Origin → Call
  | .call c => c
  | .handler _ => .tick

/-- How far a library function on the stack has come. -/
inductive Phase
  | entered
  /-- in `_applySigJmp`: the scheduler's fields are changed, the jump is not made -/
  | switching (preemptedThreadId : Int) (reply : Reply)
  | returning (reply : Reply)
  deriving DecidableEq

/-- A library function on a stack. -/
structure Frame where
  origin : Origin
  phase : Phase
  deriving DecidableEq

/-- `sigjmp_buf`. -/
inductive Env
  /-- `env_{}` of the main thread -/
  | zero
  /-- as the constructor prepares it, at the entry point with no signal masked -/
  | start
  | saved (frames : List Frame) (mask : SigSet)
  deriving DecidableEq

/-- The process: the scheduler, the signal state of the running thread, its
stack and the contexts of the threads that were left. -/
structure Process where
  scheduler : Scheduler
  mask : SigSet
  /-- `SIGVTALRM` was raised and has not been delivered -/
  pending : Bool
  /-- of the running thread, the innermost first; none in user code -/
  frames : List Frame
  /-- `env_` of the `Thread` with a tid -/
  envs : Int → Env

/-- What can happen to a process. -/
inductive Action
  /-- a `uthread_*` function is called, up to the `SIG_BLOCK` of its `SigMask` -/
  | call (call : Call)
  /-- `sigprocmask` in user code -/
  | sigprocmask (mask : SigSet)
  /-- the virtual timer expires -/
  | expire
  /-- the kernel runs the handler of a pending signal -/
  | deliver
  /-- the method of the scheduler -/
  | body
  /-- `sigsetjmp` and `siglongjmp` -/
  | jump
  /-- the `SIG_UNBLOCK` and the return, or the return of the handler -/
  | ret

namespace Process

/-- After `uthread_init`, called with a signal mask. -/
def boot (quantumUsecs : Int) (mask : SigSet) : Process where
  scheduler := Scheduler.create quantumUsecs
  mask := (insert sigvtalrm mask).erase sigvtalrm
  pending := false
  frames := []
  envs := fun _ => .zero

/-- The thread on whose stack the processor is. -/
def executing (p : Process) : Int :=
  match p.frames with
  | ⟨_, .switching preemptedThreadId _⟩ :: _ => preemptedThreadId
  | _ => p.scheduler.currentRunningThread

/-- The constructor of the `Thread` that a spawn made. -/
def construct (envs : Int → Env) : Call → Reply → Int → Env
  | .spawn _, .returned tid =>
      if tid = exitFail then envs else Function.update envs tid .start
  | _, _ => envs

/-- A zero `sigjmp_buf` is no context. -/
def siglongjmp (p : Process) : Env → Option Process
  | .zero => none
  | .start => some { p with mask := ∅, frames := [] }
  | .saved frames mask => some { p with mask := mask, frames := frames }

/-- `sigsetjmp(env_, 1)` of the thread that is preempted.  A later jump there
continues behind it. -/
def sigsetjmp (p : Process) (tid : Int) (frames : List Frame) : Process :=
  { p with envs := Function.update p.envs tid (.saved frames p.mask) }

/-- One step of the process, where it is possible. -/
def step (p : Process) : Action → Option Process
  | .call call =>
      if p.frames = [] ∧ call ≠ .tick then
        some { p with
          mask := insert sigvtalrm p.mask
          frames := [⟨.call call, .entered⟩] }
      else none
  | .sigprocmask mask => if p.frames = [] then some { p with mask := mask } else none
  | .expire => some { p with pending := true }
  -- the kernel masks the signal while its handler runs
  | .deliver =>
      if p.pending = true ∧ sigvtalrm ∉ p.mask then
        some { p with
          pending := false
          mask := insert sigvtalrm p.mask
          frames := ⟨.handler p.mask, .entered⟩ :: p.frames }
      else none
  -- `_applySigJmp` is where the running tid changes
  | .body =>
      match p.frames with
      | ⟨origin, .entered⟩ :: rest =>
          match invoke p.scheduler origin.body with
          | .ok (reply, t) =>
              let phase : Phase :=
                if t.currentRunningThread = p.scheduler.currentRunningThread then
                  .returning reply
                else .switching p.scheduler.currentRunningThread reply
              some { p with
                scheduler := t
                envs := construct p.envs origin.body reply
                frames := ⟨origin, phase⟩ :: rest }
          | .error _ => none
      | _ => none
  | .jump =>
      match p.frames with
      | ⟨origin, .switching preemptedThreadId reply⟩ :: rest =>
          let next := p.scheduler.currentRunningThread
          -- `PreemptReason::Termination` saves nothing
          let p := if reply = .gone then p
            else p.sigsetjmp preemptedThreadId (⟨origin, .returning reply⟩ :: rest)
          p.siglongjmp (p.envs next)
      | _ => none
  | .ret =>
      match p.frames with
      -- `SigMask::~SigMask` unblocks, whatever the mask was before
      | ⟨.call _, .returning _⟩ :: rest =>
          some { p with mask := p.mask.erase sigvtalrm, frames := rest }
      | ⟨.handler oldMask, .returning _⟩ :: rest =>
          some { p with mask := oldMask, frames := rest }
      | _ => none

/-- What the process can be in after `uthread_init`. -/
def Reachable (p : Process) : Prop :=
  ∃ quantumUsecs mask, 1 ≤ quantumUsecs ∧ Reaches step (boot quantumUsecs mask) p

end Process

/-- The main thread spawns a thread and a tick switches to it; it blocks itself,
and the main thread returns from the handler. -/
example : ((run Process.step (Process.boot 1 {15})
      [.call (.spawn (some 1)), .body, .ret, .expire, .deliver, .body, .jump,
        .sigprocmask {10}, .call (.block 1), .body, .expire, .jump, .ret]).map fun p =>
    (p.executing, p.mask, p.frames, p.pending)) = some (0, {15}, [], true) := by decide

/-! ## What a call does to the thread that makes it -/

/-- The running thread is live. -/
theorem Scheduler.Inv.current_live {s : Scheduler} (h : s.Inv) :
    s.currentRunningThread ∈ s.liveTids :=
  mem_liveTids.mpr ((h.live _).mp (mem_roster.mpr (Or.inl rfl)))

/-- The thread that makes a call stays alive, or the call never returns and the
object of the thread is kept. -/
theorem Transition.caller {p t : Scheduler} {call : Call} {r : Reply} (h : p.Inv)
    (hnone : p.tidToTerminate = -1) (htr : Transition p call r t) :
    (r ≠ .gone ∧ p.currentRunningThread ∈ t.liveTids) ∨
      (r = .gone ∧ p.currentRunningThread ∉ t.liveTids ∧ p.currentRunningThread ∈ t.threads ∧
        t.currentRunningThread ≠ p.currentRunningThread) := by
  have hlive := htr.liveTids h hnone
  have hcur := h.current_live
  have hoff : ∀ tid ∈ p.offCpu, p.currentRunningThread ≠ tid := by
    intro tid htid heq
    exact h.current_notMem_offCpu (heq ▸ htid)
  cases htr with
  | @terminateSelf nextTid rest _ hqueue =>
      obtain ⟨hnext, _, hne⟩ := h.front_facts hqueue
      refine Or.inr ⟨rfl, ?_, ?_, hne.symm⟩
      · simp [mem_liveTids]
      · exact (mem_threads_dispatched hnext rest _).mpr h.current_mem
  | rejected hreject =>
      exact Or.inl ⟨Reply.noConfusion, hcur⟩
  | spawn =>
      refine Or.inl ⟨Reply.noConfusion, ?_⟩
      simp only [hlive, idsAfter]
      split
      · exact hcur
      · exact Finset.mem_insert_of_mem hcur
  | terminateSleeper hasleep =>
      have hne := hoff _ (mem_offCpu.mpr (Or.inr (Or.inr hasleep)))
      refine Or.inl ⟨Reply.noConfusion, ?_⟩
      simp [hlive, idsAfter, Reply.value, exitFail, exitSuccess, hcur, hne]
  | terminateBlocked hblocked =>
      have hne := hoff _ (mem_offCpu.mpr (Or.inr (Or.inl hblocked)))
      refine Or.inl ⟨Reply.noConfusion, ?_⟩
      simp [hlive, idsAfter, Reply.value, exitFail, exitSuccess, hcur, hne]
  | terminateReady _ hready =>
      have hne := hoff _ (mem_offCpu.mpr (Or.inl hready))
      refine Or.inl ⟨Reply.noConfusion, ?_⟩
      simp [hlive, idsAfter, Reply.value, exitFail, exitSuccess, hcur, hne]
  | _ => exact Or.inl ⟨Reply.noConfusion, by rw [hlive]; exact hcur⟩

/-- What an answered call means for the thread that made it and for the live
threads. -/
structure Handover (s : Scheduler) (call : Call) (r : Reply) (t : Scheduler) : Prop where
  inv : t.Inv
  live : t.liveTids = idsAfter s.liveTids call r
  /-- the object of the caller, with its stack, is not deleted -/
  object : s.currentRunningThread ∈ t.threads
  gone_iff : r = .gone ↔ s.currentRunningThread ∉ t.liveTids
  leaves : r = .gone → t.currentRunningThread ≠ s.currentRunningThread
  /-- a spawned tid was not live -/
  fresh : ∀ e tid, call = .spawn e → r = .returned tid → tid ≠ exitFail → tid ∉ s.liveTids

/-- Every call that returns a reply keeps what `Handover` says. -/
theorem invoke_handover {s t : Scheduler} {call : Call} {r : Reply} (h : s.Inv)
    (hcall : invoke s call = .ok (r, t)) : Handover s call r t := by
  have hinv : t.Inv := next_inv h (by unfold next; rw [hcall])
  rcases invoke_cases h hcall with ⟨hgetter, rfl⟩ | htr
  · have hr : r ≠ .gone := by
      rcases hgetter with rfl | rfl <;>
        simp only [invoke, getTid, getTotalQuantums, Except.ok.injEq, Prod.mk.injEq] at hcall <;>
        exact hcall.1 ▸ Reply.noConfusion
    refine ⟨hinv, ?_, h.current_mem, iff_of_false hr (not_not.mpr h.current_live),
      fun heq => absurd heq hr, ?_⟩
    · rcases hgetter with rfl | rfl <;> rfl
    · rcases hgetter with rfl | rfl <;> exact fun _ _ heq => by cases heq
  · have hp := h.deleteTerminatedThread
    have hnone := h.deleteTerminatedThread_tidToTerminate
    have hclean := liveTids_cleanup h
    have hcaller := htr.caller hp hnone
    simp only [deleteTerminatedThread_currentRunningThread] at hcaller
    refine ⟨hinv, by rw [← hclean]; exact htr.liveTids hp hnone, ?_, ?_, ?_, ?_⟩
    · rcases hcaller with ⟨_, hmem⟩ | ⟨_, _, hmem, _⟩
      · exact (mem_liveTids.mp hmem).1
      · exact hmem
    · rcases hcaller with ⟨hr, hmem⟩ | ⟨hr, hmem, _⟩
      · exact iff_of_false hr (not_not.mpr hmem)
      · exact iff_of_true hr hmem
    · intro hr
      rcases hcaller with ⟨hne, _⟩ | ⟨_, _, _, hleft⟩
      · exact absurd hr hne
      · exact hleft
    · intro e tid hspawn hr hfail
      subst hspawn
      cases htr with
      | rejected hreject => cases hr
      | @spawn _ new _ _ hfree _ _ =>
          obtain rfl : (new : Int) = tid := Reply.returned.inj hr
          intro hmem
          rw [← hclean] at hmem
          exact hfree (mem_liveTids.mp hmem).1

/-! ## The invariant -/

/-- The signal mask while a library function runs. -/
def Origin.Masks : Origin → SigSet → Prop
  | .call c, mask => c ≠ .tick ∧ sigvtalrm ∈ mask
  | .handler oldMask, mask => sigvtalrm ∉ oldMask ∧ mask = insert sigvtalrm oldMask

/-- While a library function runs the timer signal is masked. -/
theorem Origin.Masks.masked {origin : Origin} {mask : SigSet} (h : origin.Masks mask) :
    sigvtalrm ∈ mask := by
  cases origin with
  | call c => exact h.2
  | handler oldMask => exact h.2 ▸ Finset.mem_insert_self _ _

/-- What a jump can resume: a thread that has not run, or one in a library
function that is about to return. -/
inductive Env.Resumable : Env → Prop
  | start : Resumable .start
  | saved {origin : Origin} {reply : Reply} {mask : SigSet} (h : origin.Masks mask) :
      Resumable (.saved [⟨origin, .returning reply⟩] mask)

namespace Process

/-- The invariant of the process: one library function at a time, on a stack
that exists, and a context for every live thread that does not run. -/
structure Sound (p : Process) : Prop where
  inv : p.scheduler.Inv
  /-- library functions are not nested, and run with the timer signal masked -/
  single : ∀ f rest, p.frames = f :: rest → rest = [] ∧ f.origin.Masks p.mask
  object : p.executing ∈ p.scheduler.threads
  left : ∀ origin tid reply rest, p.frames = ⟨origin, .switching tid reply⟩ :: rest →
    tid ≠ p.scheduler.currentRunningThread ∧ (reply = .gone ↔ tid ∉ p.scheduler.liveTids)
  parked : ∀ tid ∈ p.scheduler.liveTids, tid ≠ p.executing → (p.envs tid).Resumable

variable {p q : Process}

/-- In user code the running thread's stack is in use. -/
theorem executing_of_user (h : p.frames = []) :
    p.executing = p.scheduler.currentRunningThread := by
  simp [executing, h]

/-- Until the switch, the stack in use is that of the running thread. -/
theorem executing_of_entered {origin : Origin} {rest : List Frame}
    (h : p.frames = ⟨origin, .entered⟩ :: rest) :
    p.executing = p.scheduler.currentRunningThread := by
  simp [executing, h]

/-- On the way out, the stack in use is that of the running thread. -/
theorem executing_of_returning {origin : Origin} {reply : Reply} {rest : List Frame}
    (h : p.frames = ⟨origin, .returning reply⟩ :: rest) :
    p.executing = p.scheduler.currentRunningThread := by
  simp [executing, h]

/-- Between the change of the fields and the jump, the stack in use is that of
the thread that is left. -/
theorem executing_of_switching {origin : Origin} {tid : Int} {reply : Reply} {rest : List Frame}
    (h : p.frames = ⟨origin, .switching tid reply⟩ :: rest) : p.executing = tid := by
  simp [executing, h]

/-- A spawn prepares the context of the new thread only. -/
theorem construct_of_live {s t : Scheduler} {call : Call} {r : Reply} (h : Handover s call r t)
    (envs : Int → Env) {tid : Int} (hlive : tid ∈ s.liveTids) :
    construct envs call r tid = envs tid := by
  unfold construct
  split
  · next e new =>
      split
      · rfl
      · next hfail =>
          apply Function.update_of_ne
          intro heq
          exact h.fresh e new rfl rfl hfail (heq ▸ hlive)
  · rfl

/-- A spawn prepares the context of the thread it made. -/
theorem construct_of_new {s t : Scheduler} {call : Call} {r : Reply} (h : Handover s call r t)
    (envs : Int → Env) {tid : Int} (hlive : tid ∈ t.liveTids) (hnew : tid ∉ s.liveTids) :
    construct envs call r tid = .start := by
  rw [h.live] at hlive
  unfold idsAfter at hlive
  split at hlive
  · next e new =>
      split at hlive
      · exact absurd hlive hnew
      · next hfail =>
          obtain rfl := (Finset.mem_insert.mp hlive).resolve_right hnew
          simp [construct, hfail]
  · split at hlive
    · exact absurd hlive hnew
    · exact absurd (Finset.mem_of_mem_erase hlive) hnew
  · exact absurd hlive hnew

namespace Sound

/-- Where the timer signal is not masked, user code runs. -/
theorem user_of_unmasked (h : p.Sound) (hmask : sigvtalrm ∉ p.mask) : p.frames = [] := by
  cases hframes : p.frames with
  | nil => rfl
  | cons f rest => exact absurd (h.single f rest hframes).2.masked hmask

end Sound

/-- The contexts after the preempted thread was left. -/
def saveContext (p : Process) (tid : Int) (origin : Origin) (reply : Reply) : Int → Env :=
  if reply = .gone then p.envs
  else Function.update p.envs tid (.saved [⟨origin, .returning reply⟩] p.mask)

/-- Everything a step can do where the invariant holds. -/
inductive Move (p : Process) : Action → Process → Prop
  | call {c : Call} (huser : p.frames = []) (hc : c ≠ .tick) :
      Move p (.call c)
        { p with mask := insert sigvtalrm p.mask, frames := [⟨.call c, .entered⟩] }
  | sigprocmask {mask : SigSet} (huser : p.frames = []) :
      Move p (.sigprocmask mask) { p with mask := mask }
  | expire : Move p .expire { p with pending := true }
  | deliver (hpending : p.pending = true) (huser : p.frames = []) (hmask : sigvtalrm ∉ p.mask) :
      Move p .deliver
        { p with
          pending := false
          mask := insert sigvtalrm p.mask
          frames := [⟨.handler p.mask, .entered⟩] }
  | returns {origin : Origin} {r : Reply} {t : Scheduler}
      (hframes : p.frames = [⟨origin, .entered⟩])
      (hcall : invoke p.scheduler origin.body = .ok (r, t))
      (hsame : t.currentRunningThread = p.scheduler.currentRunningThread) :
      Move p .body
        { p with
          scheduler := t
          envs := construct p.envs origin.body r
          frames := [⟨origin, .returning r⟩] }
  | switches {origin : Origin} {r : Reply} {t : Scheduler}
      (hframes : p.frames = [⟨origin, .entered⟩])
      (hcall : invoke p.scheduler origin.body = .ok (r, t))
      (hother : t.currentRunningThread ≠ p.scheduler.currentRunningThread) :
      Move p .body
        { p with
          scheduler := t
          envs := construct p.envs origin.body r
          frames := [⟨origin, .switching p.scheduler.currentRunningThread r⟩] }
  | jumpStart {origin : Origin} {tid : Int} {r : Reply}
      (hframes : p.frames = [⟨origin, .switching tid r⟩])
      (henv : p.envs p.scheduler.currentRunningThread = .start) :
      Move p .jump
        { p with mask := ∅, frames := [], envs := p.saveContext tid origin r }
  | jumpSaved {origin origin' : Origin} {tid : Int} {r r' : Reply} {mask : SigSet}
      (hframes : p.frames = [⟨origin, .switching tid r⟩])
      (henv : p.envs p.scheduler.currentRunningThread = .saved [⟨origin', .returning r'⟩] mask)
      (hmasks : origin'.Masks mask) :
      Move p .jump
        { p with
          mask := mask
          frames := [⟨origin', .returning r'⟩]
          envs := p.saveContext tid origin r }
  | retCall {c : Call} {r : Reply} (hframes : p.frames = [⟨.call c, .returning r⟩]) :
      Move p .ret { p with mask := p.mask.erase sigvtalrm, frames := [] }
  | retHandler {oldMask : SigSet} {r : Reply}
      (hframes : p.frames = [⟨.handler oldMask, .returning r⟩]) :
      Move p .ret { p with mask := oldMask, frames := [] }

/-- The thread that a switch goes to has a context. -/
theorem Sound.next_resumable (h : p.Sound) {origin : Origin} {tid : Int} {r : Reply}
    (hframes : p.frames = [⟨origin, .switching tid r⟩]) :
    (p.envs p.scheduler.currentRunningThread).Resumable := by
  apply h.parked _ h.inv.current_live
  rw [executing_of_switching hframes]
  exact (h.left _ _ _ _ hframes).1.symm

/-- A jump saves the thread that it leaves, unless that is gone, and resumes
the next one from its own context. -/
theorem Sound.step_jump (h : p.Sound) {origin : Origin} {tid : Int} {r : Reply}
    (hframes : p.frames = [⟨origin, .switching tid r⟩]) :
    p.step .jump = ({ p with envs := p.saveContext tid origin r } : Process).siglongjmp
      (p.envs p.scheduler.currentRunningThread) := by
  have hne := (h.left _ _ _ _ hframes).1
  have hsave : (if r = .gone then p else p.sigsetjmp tid [⟨origin, .returning r⟩]) =
      { p with envs := p.saveContext tid origin r } := by
    unfold saveContext sigsetjmp
    split <;> rfl
  have henv : p.saveContext tid origin r p.scheduler.currentRunningThread =
      p.envs p.scheduler.currentRunningThread := by
    unfold saveContext
    split
    · rfl
    · exact Function.update_of_ne hne.symm _ _
  simp only [step, hframes, hsave, henv]

/-- Every step of a sound process is one that `Move` lists. -/
theorem Sound.step_move (h : p.Sound) {a : Action} (hstep : p.step a = some q) : Move p a q := by
  cases a with
  | call c =>
      obtain ⟨⟨huser, hc⟩, rfl⟩ : (p.frames = [] ∧ c ≠ .tick) ∧ _ = q := by simpa [step] using hstep
      exact .call huser hc
  | sigprocmask mask =>
      obtain ⟨huser, rfl⟩ : p.frames = [] ∧ _ = q := by simpa [step] using hstep
      exact .sigprocmask huser
  | expire =>
      obtain rfl := Option.some.inj hstep
      exact .expire
  | deliver =>
      obtain ⟨⟨hpending, hmask⟩, rfl⟩ : (p.pending = true ∧ sigvtalrm ∉ p.mask) ∧ _ = q := by
        simpa [step] using hstep
      have huser := h.user_of_unmasked hmask
      rw [huser]
      exact .deliver hpending huser hmask
  | body =>
      simp only [step] at hstep
      split at hstep
      · next origin rest hframes =>
          obtain rfl := (h.single _ _ hframes).1
          split at hstep
          · next r t hcall =>
              obtain rfl := Option.some.inj hstep
              by_cases hsame : t.currentRunningThread = p.scheduler.currentRunningThread
              · simp only [hsame, if_true]
                exact .returns hframes hcall hsame
              · simp only [hsame, if_false]
                exact .switches hframes hcall hsame
          · cases hstep
      · cases hstep
  | jump =>
      simp only [step] at hstep
      split at hstep
      · next origin tid r rest hframes =>
          obtain rfl := (h.single _ _ hframes).1
          have hready := h.next_resumable hframes
          have hjump := h.step_jump hframes
          simp only [step, hframes] at hjump
          rw [hjump] at hstep
          generalize hctx : p.envs p.scheduler.currentRunningThread = env at hready hstep
          cases hready with
          | start =>
              obtain rfl := Option.some.inj hstep
              exact .jumpStart hframes hctx
          | saved hmasks =>
              obtain rfl := Option.some.inj hstep
              exact .jumpSaved hframes hctx hmasks
      · cases hstep
  | ret =>
      simp only [step] at hstep
      split at hstep
      · next c r rest hframes =>
          obtain rfl := (h.single _ _ hframes).1
          obtain rfl := Option.some.inj hstep
          exact .retCall hframes
      · next oldMask r rest hframes =>
          obtain rfl := (h.single _ _ hframes).1
          obtain rfl := Option.some.inj hstep
          exact .retHandler hframes
      · cases hstep

/-- The contexts of the other threads after a call of the scheduler. -/
theorem Sound.parked_construct (h : p.Sound) {origin : Origin} {r : Reply} {t : Scheduler}
    (hframes : p.frames = [⟨origin, .entered⟩])
    (hcall : invoke p.scheduler origin.body = .ok (r, t)) {tid : Int} (hlive : tid ∈ t.liveTids)
    (hne : tid ≠ p.scheduler.currentRunningThread) :
    (construct p.envs origin.body r tid).Resumable := by
  have hand := invoke_handover h.inv hcall
  by_cases hold : tid ∈ p.scheduler.liveTids
  · rw [construct_of_live hand p.envs hold]
    exact h.parked tid hold (by rw [executing_of_entered hframes]; exact hne)
  · rw [construct_of_new hand p.envs hlive hold]
    exact .start

/-- The contexts of the other threads after the preempted thread was left. -/
theorem Sound.parked_saveContext (h : p.Sound) {origin : Origin} {left tid : Int} {r : Reply}
    (hframes : p.frames = [⟨origin, .switching left r⟩]) (hlive : tid ∈ p.scheduler.liveTids) :
    (p.saveContext left origin r tid).Resumable ∨ tid = p.scheduler.currentRunningThread := by
  have hgone := (h.left _ _ _ _ hframes).2
  by_cases heq : tid = left
  · subst heq
    have hr : r ≠ .gone := fun hr => hgone.mp hr hlive
    simp only [saveContext, if_neg hr, Function.update_self]
    exact Or.inl (.saved (h.single _ _ hframes).2)
  · have hsame : p.saveContext left origin r tid = p.envs tid := by
      unfold saveContext
      split
      · rfl
      · exact Function.update_of_ne heq _ _
    rw [hsame]
    exact Or.inl (h.parked tid hlive (by rw [executing_of_switching hframes]; exact heq))

/-- **Step lemma.** -/
theorem Sound.move (h : p.Sound) {a : Action} (hmove : Move p a q) : q.Sound := by
  cases hmove with
  | call huser hc =>
      have hexec := executing_of_user huser
      refine ⟨h.inv, ?_, h.inv.current_mem, fun _ _ _ _ heq => (nomatch heq), ?_⟩
      · intro f rest heq
        cases heq
        exact ⟨rfl, hc, Finset.mem_insert_self _ _⟩
      · exact fun tid hlive hne => h.parked tid hlive (hexec ▸ hne)
  | sigprocmask huser =>
      refine ⟨h.inv, ?_, h.object, h.left, h.parked⟩
      intro f rest heq
      cases huser.symm.trans heq
  | expire => exact ⟨h.inv, h.single, h.object, h.left, h.parked⟩
  | deliver _ huser hmask =>
      have hexec := executing_of_user huser
      refine ⟨h.inv, ?_, h.inv.current_mem, fun _ _ _ _ heq => (nomatch heq), ?_⟩
      · intro f rest heq
        cases heq
        exact ⟨rfl, hmask, rfl⟩
      · exact fun tid hlive hne => h.parked tid hlive (hexec ▸ hne)
  | returns hframes hcall hsame =>
      have hand := invoke_handover h.inv hcall
      refine ⟨hand.inv, ?_, hand.inv.current_mem, fun _ _ _ _ heq => (nomatch heq), ?_⟩
      · intro f rest heq
        cases heq
        exact ⟨rfl, (h.single _ _ hframes).2⟩
      · exact fun tid hlive hne => h.parked_construct hframes hcall hlive (hsame ▸ hne)
  | switches hframes hcall hother =>
      have hand := invoke_handover h.inv hcall
      refine ⟨hand.inv, ?_, hand.object, ?_, ?_⟩
      · intro f rest heq
        cases heq
        exact ⟨rfl, (h.single _ _ hframes).2⟩
      · intro origin tid reply rest heq
        cases heq
        exact ⟨hother.symm, hand.gone_iff⟩
      · exact fun tid hlive hne => h.parked_construct hframes hcall hlive hne
  | jumpStart hframes _ =>
      refine ⟨h.inv, fun _ _ heq => (nomatch heq), h.inv.current_mem,
        fun _ _ _ _ heq => (nomatch heq), ?_⟩
      exact fun tid hlive hne => (h.parked_saveContext hframes hlive).resolve_right hne
  | jumpSaved hframes _ hmasks =>
      refine ⟨h.inv, ?_, h.inv.current_mem, fun _ _ _ _ heq => (nomatch heq), ?_⟩
      · intro f rest heq
        cases heq
        exact ⟨rfl, hmasks⟩
      · exact fun tid hlive hne => (h.parked_saveContext hframes hlive).resolve_right hne
  | retCall hframes =>
      have hexec := executing_of_returning hframes
      refine ⟨h.inv, fun _ _ heq => (nomatch heq), h.inv.current_mem,
        fun _ _ _ _ heq => (nomatch heq), ?_⟩
      exact fun tid hlive hne => h.parked tid hlive (hexec ▸ hne)
  | retHandler hframes =>
      have hexec := executing_of_returning hframes
      refine ⟨h.inv, fun _ _ heq => (nomatch heq), h.inv.current_mem,
        fun _ _ _ _ heq => (nomatch heq), ?_⟩
      exact fun tid hlive hne => h.parked tid hlive (hexec ▸ hne)

/-- Every step keeps the invariant. -/
theorem Sound.step (h : p.Sound) {a : Action} (hstep : p.step a = some q) : q.Sound :=
  h.move (h.step_move hstep)

/-- Between the entry of a library function and its body the timer can only
expire. -/
theorem Sound.waits (h : p.Sound) {origin : Origin} (hframes : p.frames = [⟨origin, .entered⟩])
    {acts : List Action} (hrun : run Process.step p acts = some q) :
    (∀ a ∈ acts, a = .expire) ∧ q.scheduler = p.scheduler ∧ q.frames = p.frames ∨
      ∃ waits later m, acts = waits ++ .body :: later ∧ (∀ a ∈ waits, a = .expire) ∧
        run Process.step p waits = some m ∧ m.scheduler = p.scheduler := by
  induction acts generalizing p with
  | nil =>
      have heq : p = q := Option.some.inj hrun
      subst heq
      exact Or.inl ⟨by simp, rfl, rfl⟩
  | cons a rest ih =>
      obtain ⟨m, hm, hrest⟩ := run_cons_some hrun
      cases h.step_move hm with
      | expire =>
          rcases ih (h.step hm) hframes hrest with
            ⟨hall, hsame⟩ | ⟨waits, later, m', rfl, hall, hrun', hm'⟩
          · exact Or.inl ⟨List.forall_mem_cons.mpr ⟨rfl, hall⟩, hsame⟩
          · refine Or.inr ⟨.expire :: waits, later, m', rfl,
              List.forall_mem_cons.mpr ⟨rfl, hall⟩, ?_, hm'⟩
            rw [run_cons, hm]
            exact hrun'
      | returns => exact Or.inr ⟨[], rest, p, rfl, by simp, rfl, rfl⟩
      | switches => exact Or.inr ⟨[], rest, p, rfl, by simp, rfl, rfl⟩
      | call huser => cases huser.symm.trans hframes
      | sigprocmask huser => cases huser.symm.trans hframes
      | deliver _ huser => cases huser.symm.trans hframes
      | jumpStart hother => cases hother.symm.trans hframes
      | jumpSaved hother => cases hother.symm.trans hframes
      | retCall hother => cases hother.symm.trans hframes
      | retHandler hother => cases hother.symm.trans hframes

end Process

end Uthreads
