import HujiOS.Uthreads.Contexts

/-!
# Atomic calls, and a signal mask for each thread

What a program can rely on: a call or a tick happens at once, and every thread
has a signal mask of its own, which only the thread itself changes and which is
empty when the thread starts.  `ThreadView` says that and knows nothing of
frames and contexts.  A process refines it, whatever the program does with its
masks and whenever the timer expires; the bit of the timer signal is the
library's and is left out.  In the other direction every run of the view in
which the program leaves that bit alone is a run of the process, so no switch
gets stuck.
-/

namespace Uthreads

open Scheduler Runs

/-- The threads, each with its own signal mask. -/
@[ext] structure ThreadView where
  scheduler : Scheduler
  signalMasks : Int → SigSet

/-- What a program sees happen: a library call as one step, and its own
changes of the mask. -/
inductive ViewAction
  | call (call : Call)
  | sigprocmask (mask : SigSet)

namespace ThreadView

/-- After `uthread_init`, called with a signal mask. -/
def create (quantumUsecs : Int) (mask : SigSet) : ThreadView where
  scheduler := Scheduler.create quantumUsecs
  signalMasks := Function.update (fun _ => ∅) 0 (mask.erase sigvtalrm)

/-- A thread keeps its mask as long as it lives. -/
def step (v : ThreadView) : ViewAction → Option ThreadView
  | .call call =>
      (next v.scheduler call).map fun t =>
        { scheduler := t
          signalMasks := fun tid =>
            if tid ∈ v.scheduler.liveTids ∧ tid ∈ t.liveTids then v.signalMasks tid else ∅ }
  | .sigprocmask mask =>
      some { v with
        signalMasks := Function.update v.signalMasks v.scheduler.currentRunningThread
          (mask.erase sigvtalrm) }

end ThreadView

/-- The mask that a jump to this context sets. -/
def Env.mask : Env → SigSet
  | .zero | .start => ∅
  | .saved _ mask => mask

namespace Process

/-- What the program sees of a step: the body of a library function, and its own
change of the mask. -/
def seen (p : Process) (a : Action) (_ : Process) : List ViewAction :=
  match a, p.frames with
  | .body, f :: _ => [.call f.origin.body]
  | .sigprocmask mask, _ => [.sigprocmask mask]
  | _, _ => []

variable {p q : Process}

/-- A call, or the delivery of the signal, enters the library. -/
theorem Sound.enter (h : p.Sound) (huser : p.frames = []) (hmask : sigvtalrm ∉ p.mask) (c : Call) :
    ∃ acts m origin, run Process.step p acts = some m ∧ observed Process.step seen p acts = [] ∧
      m.Sound ∧ m.frames = [⟨origin, .entered⟩] ∧ origin.body = c ∧ m.scheduler = p.scheduler := by
  by_cases hc : c = .tick
  · have hexpire : p.step .expire = some { p with pending := true } := rfl
    have hdeliver : { p with pending := true }.step .deliver = some _ := if_pos ⟨rfl, hmask⟩
    refine ⟨[.expire, .deliver], _, .handler p.mask,
      (run_snoc (run_singleton hexpire) hdeliver), ?_, (h.step hexpire).step hdeliver, ?_,
      hc.symm, rfl⟩
    · rw [observed_cons hexpire, observed_cons hdeliver]
      rfl
    · exact congrArg _ huser
  · have hcall : p.step (.call c) = some _ := if_pos ⟨huser, hc⟩
    refine ⟨[.call c], _, .call c, run_singleton hcall, ?_, h.step hcall, rfl, rfl, rfl⟩
    rw [observed_cons hcall]
    rfl

/-- The last steps of a library function, with the jump to another thread or
without. -/
theorem Sound.leave_returning (h : p.Sound) {origin : Origin} {r : Reply}
    (hframes : p.frames = [⟨origin, .returning r⟩]) :
    ∃ q, p.step .ret = some q ∧ q.frames = [] ∧ sigvtalrm ∉ q.mask := by
  have hmasks := (h.single _ _ hframes).2
  cases origin with
  | call c =>
      refine ⟨{ p with mask := p.mask.erase sigvtalrm, frames := [] }, ?_, rfl,
        Finset.notMem_erase _ _⟩
      simp only [Process.step, hframes]
  | handler oldMask =>
      refine ⟨{ p with mask := oldMask, frames := [] }, ?_, rfl, hmasks.1⟩
      simp only [Process.step, hframes]

/-- From a switch the jump is possible, and leads to user code or to a library
function about to return. -/
theorem Sound.leave_switching (h : p.Sound) {origin : Origin} {tid : Int} {r : Reply}
    (hframes : p.frames = [⟨origin, .switching tid r⟩]) :
    ∃ q, p.step .jump = some q ∧
      (q.frames = [] ∧ sigvtalrm ∉ q.mask ∨
        ∃ origin' r', q.frames = [⟨origin', .returning r'⟩]) := by
  have hready := h.next_resumable hframes
  have hjump := h.step_jump hframes
  generalize hctx : p.envs p.scheduler.currentRunningThread = env at hready hjump
  cases hready with
  | start => exact ⟨_, hjump, Or.inl ⟨rfl, Finset.notMem_empty _⟩⟩
  | @saved origin' reply mask hmasks => exact ⟨_, hjump, Or.inr ⟨origin', reply, rfl⟩⟩

/-- Once its body is done a library function gives the processor back to user
code, with nothing else to see. -/
theorem Sound.leave (h : p.Sound) {origin : Origin} {phase : Phase}
    (hframes : p.frames = [⟨origin, phase⟩]) (hdone : phase ≠ .entered) :
    ∃ acts q, run Process.step p acts = some q ∧ observed Process.step seen p acts = [] ∧
      q.frames = [] ∧ sigvtalrm ∉ q.mask := by
  have hret : ∀ {p : Process} {origin r}, p.Sound → p.frames = [⟨origin, .returning r⟩] →
      ∃ q, run Process.step p [.ret] = some q ∧ observed Process.step seen p [.ret] = [] ∧
        q.frames = [] ∧ sigvtalrm ∉ q.mask := by
    intro p origin r hp hp'
    obtain ⟨q, hstep, huser, hmask⟩ := hp.leave_returning hp'
    exact ⟨q, run_singleton hstep, by rw [observed_cons hstep]; rfl, huser, hmask⟩
  cases phase with
  | entered => exact absurd rfl hdone
  | returning r =>
      obtain ⟨q, hrun⟩ := hret h hframes
      exact ⟨_, q, hrun⟩
  | switching tid r =>
      obtain ⟨m, hjump, ⟨huser, hmask⟩ | ⟨origin', r', hm⟩⟩ := h.leave_switching hframes
      · exact ⟨[.jump], m, run_singleton hjump, by rw [observed_cons hjump]; rfl, huser, hmask⟩
      · obtain ⟨q, hrun, hseen, huser, hmask⟩ := hret (h.step hjump) hm
        refine ⟨[.jump, .ret], q, by rw [run_cons, hjump]; exact hrun, ?_, huser, hmask⟩
        rw [observed_cons hjump, hseen]
        rfl

end Process

end Uthreads
