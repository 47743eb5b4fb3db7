import HujiOS.Uthreads.Partition

/-!
# Deferred deletion against immediate deletion

The scheduler keeps a terminated thread in its table until the next call
cleans up.  The reference in `Eager` erases it inside the terminating call and
never cleans up; everything else is the same code.  The two are related by the
cleanup itself: the reference is at every moment the scheduler after
`_deleteTerminatedThread`, so no caller can tell them apart.
-/

namespace Uthreads

open MachineInt Runs

/-! ## The reference -/

namespace Eager

/-- `_applySigJmp`, except that a thread that terminated is erased at once. -/
def applySigJmp (s : Scheduler) (preemptReason : PreemptReason) (nextTid : Int) :
    Control × Scheduler :=
  let preemptedThreadId := s.currentRunningThread
  let s := { s with threads := s.threads.touch nextTid }
  let s := { s with currentRunningThread := (s.threads.getD nextTid).tid }
  match preemptReason with
  | .termination => (.gone, { s with threads := s.threads.erase preemptedThreadId })
  | .quantumExpiration | .blocking =>
      (.back, { s with threads := s.threads.touch preemptedThreadId })

/-- `_preempt`, over that switch. -/
def preempt (s : Scheduler) (preemptReason : PreemptReason) :
    Except Halt (Control × Scheduler) :=
  match s.readyQueue with
  | [] => .error .emptyReadyQueue
  | nextTid :: rest =>
      let s := { s with
        readyQueue := rest
        totalQuantum := toInt32 (s.totalQuantum + 1)
        threads := s.threads.modify nextTid Thread.incrementNumOfQuantum }
      if s.currentRunningThread = nextTid then .ok (.back, s)
      else .ok (applySigJmp s preemptReason nextTid)

/-- `_terminateOtherThread`, except that the object is erased at once. -/
def terminateOtherThread (s : Scheduler) (tid : Int) : Scheduler :=
  let s := { s with threads := s.threads.erase tid }
  if s.isTidSleeping tid then s.eraseSleeper tid
  else if tid ∈ s.blockedThreads then
    { s with blockedThreads := s.blockedThreads.erase tid }
  else s.deleteReadyThread tid

/-- `timerHandler` without the cleanup. -/
def timerHandler (s : Scheduler) (signo : Int) : Outcome :=
  if signo ≠ sigvtalrm then
    .ok (uthreadException "Not the virtual timer signal. SIGVTALRM is required.", s)
  else do
    let s := s.sleepToReady
    let s := { s with readyQueue := s.readyQueue ++ [s.currentRunningThread] }
    let (_, s) ← preempt s .quantumExpiration
    .ok (.returned exitSuccess, s)

/-- `spawnThread` without the cleanup. -/
def spawnThread (s : Scheduler) (function : ThreadEntryPoint) : Outcome :=
  if function = none then
    .ok (uthreadException "Can't spawn thread with nullptr function", s)
  else if s.threads.size = maxThreadNum then
    .ok (uthreadException "Maximum thread count was reached", s)
  else
    let nextTid := s.getLowestAvailableId
    if nextTid = exitFail then .ok (.returned exitFail, s)
    else
      let (tid, s) := s.getSpawnedThreadReady nextTid
      .ok (.returned tid, s)

/-- `terminateThread` without the cleanup, over the two functions that
erase. -/
def terminateThread (s : Scheduler) (tid : Int) : Outcome :=
  if tid = 0 then .error (.exit exitSuccess)
  else if ¬ s.isThreadExist tid then
    .ok (uthreadException "Don't terminate a non existent thread", s)
  else if tid = s.currentRunningThread then do
    let (control, s) ← preempt s .termination
    match control with
    | .gone => .ok (.gone, s)
    | .back => .ok (.returned exitSuccess, s)
  else .ok (.returned exitSuccess, terminateOtherThread s tid)

/-- `getThreadQuantums` without the cleanup: every thread in the table is
live. -/
def getThreadQuantums (s : Scheduler) (tid : Int) : Outcome :=
  if s.isThreadExist tid ∧ tid ≠ s.tidToTerminate then
    .ok (.returned (s.threads.getD tid).numOfQuantum,
      { s with threads := s.threads.touch tid })
  else .ok (uthreadException "Can't get quantums of non existent thread", s)

/-- `blockThread` without the cleanup. -/
def blockThread (s : Scheduler) (tid : Int) : Outcome :=
  if tid = 0 then .ok (uthreadException "Can't block main thread", s)
  else if ¬ s.isThreadExist tid then
    .ok (uthreadException "Don't block non existent thread", s)
  else if tid ∈ s.blockedThreads then .ok (.returned exitSuccess, s)
  else if s.currentRunningThread = tid then do
    let s := { s with blockedThreads := insert tid s.blockedThreads }
    let (_, s) ← preempt s .blocking
    .ok (.returned exitSuccess, s)
  else .ok (.returned exitSuccess, s.blockOtherThread tid)

/-- `resumeThread` without the cleanup. -/
def resumeThread (s : Scheduler) (tid : Int) : Outcome :=
  if ¬ s.isThreadExist tid then
    .ok (uthreadException "Can't resume non existent thread", s)
  else if tid ∉ s.blockedThreads then .ok (.returned exitSuccess, s)
  else
    let s := { s with blockedThreads := s.blockedThreads.erase tid }
    let sleepUntil := (s.threads.getD tid).sleepUntil
    let s := { s with threads := s.threads.touch tid }
    if sleepUntil ≠ -1 then
      if s.isTidSleeping tid then .ok (.returned exitSuccess, s)
      else .ok (.returned exitSuccess,
        { s with sleepThreads := insertSleeper (tid, sleepUntil) s.sleepThreads })
    else .ok (.returned exitSuccess, { s with readyQueue := s.readyQueue ++ [tid] })

/-- `sleepThread` without the cleanup. -/
def sleepThread (s : Scheduler) (numQuantums : Int) : Outcome :=
  if s.currentRunningThread = 0 then
    .ok (uthreadException "main current_thread can't sleep", s)
  else if numQuantums ≤ 0 then
    .ok (uthreadException "can't sleep for a non-positive number of quantums", s)
  else do
    let current := s.currentRunningThread
    let sleepUntil := toInt32 (s.totalQuantum + numQuantums)
    let s := { s with threads := s.threads.modify current (·.setSleepUntil sleepUntil) }
    let s := { s with
      sleepThreads :=
        insertSleeper (current, (s.threads.getD current).sleepUntil) s.sleepThreads }
    let (_, s) ← preempt s .blocking
    .ok (.returned exitSuccess, s)

/-- One call of the reference, as `invoke` of the scheduler. -/
def invoke (s : Scheduler) : Call → Outcome
  | .spawn entryPoint => spawnThread s entryPoint
  | .terminate tid => terminateThread s tid
  | .block tid => blockThread s tid
  | .resume tid => resumeThread s tid
  | .sleep numQuantums => sleepThread s numQuantums
  | .getTid => s.getTid
  | .getTotalQuantums => s.getTotalQuantums
  | .getQuantums tid => getThreadQuantums s tid
  | .tick => timerHandler s sigvtalrm

/-- The state after a call of the reference that does not end the process. -/
def next (s : Scheduler) (call : Call) : Option Scheduler :=
  match invoke s call with
  | .ok (_, t) => some t
  | .error _ => none

end Eager

/-! ## The cleanup relates the two -/

open Scheduler

variable {s p : Scheduler}

/-- Only termination is treated differently when a thread is preempted. -/
theorem eager_preempt_eq (s : Scheduler) {reason : PreemptReason}
    (hreason : reason ≠ .termination) : Eager.preempt s reason = s.preempt reason := by
  unfold Eager.preempt preempt
  cases s.readyQueue with
  | nil => rfl
  | cons nextTid rest =>
      cases reason with
      | termination => exact absurd rfl hreason
      | quantumExpiration => rfl
      | blocking => rfl

/-- Where nothing is pending the reference runs the same code for every call
but `terminate`. -/
theorem eager_invoke_eq (hclean : p.deleteTerminatedThread = p) {call : Call}
    (hterm : ∀ tid, call ≠ .terminate tid) : Eager.invoke p call = invoke p call := by
  cases call with
  | terminate tid => exact absurd rfl (hterm tid)
  | getTid => rfl
  | getTotalQuantums => rfl
  | spawn entryPoint => simp only [Eager.invoke, invoke, Eager.spawnThread, spawnThread, hclean]
  | resume tid => simp only [Eager.invoke, invoke, Eager.resumeThread, resumeThread, hclean]
  | getQuantums tid =>
      simp only [Eager.invoke, invoke, Eager.getThreadQuantums, getThreadQuantums, hclean]
  | block tid =>
      simp only [Eager.invoke, invoke, Eager.blockThread, blockThread, hclean,
        eager_preempt_eq _ (show PreemptReason.blocking ≠ .termination by decide)]
  | sleep n =>
      simp only [Eager.invoke, invoke, Eager.sleepThread, sleepThread, hclean,
        eager_preempt_eq _ (show PreemptReason.blocking ≠ .termination by decide)]
  | tick =>
      simp only [Eager.invoke, invoke, Eager.timerHandler, timerHandler, hclean,
        eager_preempt_eq _ (show PreemptReason.quantumExpiration ≠ .termination by decide)]

/-- A second cleanup has nothing left to do. -/
theorem Scheduler.Inv.deleteTerminatedThread_idem (h : s.Inv) :
    s.deleteTerminatedThread.deleteTerminatedThread = s.deleteTerminatedThread :=
  h.deleteTerminatedThread.deleteTerminatedThread_of_none h.deleteTerminatedThread_tidToTerminate

/-- Every method but the two getters starts with the cleanup. -/
theorem invoke_cleanup (h : s.Inv) {call : Call}
    (hget : call ≠ .getTid ∧ call ≠ .getTotalQuantums) :
    invoke s.deleteTerminatedThread call = invoke s call := by
  have hidem := h.deleteTerminatedThread_idem
  cases call with
  | getTid => exact absurd rfl hget.1
  | getTotalQuantums => exact absurd rfl hget.2
  | spawn entryPoint => simp only [invoke, spawnThread, hidem]
  | terminate tid => simp only [invoke, terminateThread, hidem]
  | block tid => simp only [invoke, blockThread, hidem]
  | resume tid => simp only [invoke, resumeThread, hidem]
  | sleep n => simp only [invoke, sleepThread, hidem]
  | getQuantums tid => simp only [invoke, getThreadQuantums, hidem]
  | tick => simp only [invoke, timerHandler, hidem, ne_eq, not_true_eq_false, if_false]

/-- No transition but a termination leaves a deletion pending. -/
theorem Transition.tidToTerminate {t : Scheduler} {call : Call} {r : Reply}
    (htr : Transition p call r t) (hterm : ∀ tid, call ≠ .terminate tid) :
    t.tidToTerminate = p.tidToTerminate := by
  cases htr with
  | terminateSelf _ _ => exact absurd rfl (hterm _)
  | terminateSleeper _ => exact absurd rfl (hterm _)
  | terminateBlocked _ => exact absurd rfl (hterm _)
  | terminateReady _ _ => exact absurd rfl (hterm _)
  | _ => rfl

/-- A thread that terminates itself is erased at once by the reference. -/
theorem eager_preempt_termination (hnone : s.tidToTerminate = -1) {nextTid : Int}
    {rest : List Int} (hqueue : s.readyQueue = nextTid :: rest) (hnext : nextTid ∈ s.threads)
    (hcurrent : s.currentRunningThread ∈ s.threads) (hne : s.currentRunningThread ≠ nextTid)
    (hid : (s.threads.getD nextTid).tid = nextTid) :
    Eager.preempt s .termination = .ok (.gone, Scheduler.deleteTerminatedThread
      { s.dispatched nextTid rest with tidToTerminate := s.currentRunningThread }) := by
  have hn : nextTid ∈ s.threads.modify nextTid Thread.incrementNumOfQuantum :=
    (ThreadMap.mem_modify hnext _ _).mpr hnext
  have hc : s.currentRunningThread ∈ s.threads.modify nextTid Thread.incrementNumOfQuantum :=
    (ThreadMap.mem_modify hnext _ _).mpr hcurrent
  simp [Eager.preempt, hqueue, hne, Eager.applySigJmp, ThreadMap.touch_of_mem hn, hid,
    Scheduler.deleteTerminatedThread, dispatched, hc, hnone]

/-- Erasing a thread at once is noting its tid and cleaning up. -/
theorem eager_terminateOtherThread (hnone : p.tidToTerminate = -1) {tid : Int}
    (hthread : tid ∈ p.threads) :
    Eager.terminateOtherThread p tid = (p.terminateOtherThread tid).deleteTerminatedThread := by
  unfold Eager.terminateOtherThread terminateOtherThread isTidSleeping
  by_cases hasleep : p.sleepThreads.any (·.1 == tid)
  · simp only [hasleep, if_true, eraseSleeper, Scheduler.deleteTerminatedThread, hthread, hnone]
  · by_cases hblocked : tid ∈ p.blockedThreads
    · simp only [hasleep, hblocked, Bool.false_eq_true, if_true, if_false,
        Scheduler.deleteTerminatedThread, hthread, hnone]
    · simp only [hasleep, hblocked, Bool.false_eq_true, if_false, deleteReadyThread,
        Scheduler.deleteTerminatedThread, hthread, if_true, hnone]

/-- Termination in the reference is termination followed by the cleanup. -/
theorem eager_terminateThread (h : p.Inv) (hnone : p.tidToTerminate = -1) (tid : Int) :
    Eager.terminateThread p tid =
      (p.terminateThread tid).map (Prod.map id Scheduler.deleteTerminatedThread) := by
  have hclean := h.deleteTerminatedThread_of_none hnone
  unfold Eager.terminateThread terminateThread
  rw [hclean]
  by_cases hmain : tid = 0
  · simp [hmain, Except.map]
  · by_cases hthread : tid ∈ p.threads
    · by_cases hself : tid = p.currentRunningThread
      · subst hself
        obtain ⟨nextTid, rest, hqueue⟩ := h.exists_front hmain
        obtain ⟨hnext, hid, hne⟩ := h.front_facts hqueue
        simp [hmain, isThreadExist, hthread, preempt_termination hqueue hnext hne hid,
          eager_preempt_termination hnone hqueue hnext hthread hne hid]
        rfl
      · simp [hmain, isThreadExist, hthread, hself, eager_terminateOtherThread hnone hthread,
          Except.map]
    · simp [hmain, isThreadExist, hthread, Except.map, hclean]

/-- **Simulation.**  A call of the reference on the cleaned-up state gives the
same reply as the scheduler, and the cleaned-up result. -/
theorem eager_invoke (h : s.Inv) (call : Call) :
    Eager.invoke s.deleteTerminatedThread call =
      (invoke s call).map (Prod.map id Scheduler.deleteTerminatedThread) := by
  have hidem := h.deleteTerminatedThread_idem
  have hp := h.deleteTerminatedThread
  have hnone := h.deleteTerminatedThread_tidToTerminate
  by_cases hget : call = .getTid ∨ call = .getTotalQuantums
  · rcases hget with rfl | rfl <;>
      simp [Eager.invoke, invoke, getTid, getTotalQuantums, Except.map]
  · rw [not_or] at hget
    rw [← invoke_cleanup h hget]
    generalize s.deleteTerminatedThread = p at hidem hp hnone ⊢
    by_cases hterm : ∃ tid, call = .terminate tid
    · obtain ⟨tid, rfl⟩ := hterm
      exact eager_terminateThread hp hnone tid
    · have hterm' : ∀ tid, call ≠ .terminate tid := fun tid heq => hterm ⟨tid, heq⟩
      obtain ⟨r, t, hrun, hcase⟩ := invoke_transition hp call (hterm' 0)
      have ht : t.deleteTerminatedThread = t := by
        rcases hcase with ⟨_, rfl⟩ | htr
        · exact hidem
        · rw [hidem] at htr
          exact (htr.inv hp hnone).deleteTerminatedThread_of_none
            ((htr.tidToTerminate hterm').trans hnone)
      rw [eager_invoke_eq hidem hterm', hrun]
      simp [Except.map, ht]

/-- A step of the reference is the scheduler's step, cleaned up. -/
theorem eager_next (h : s.Inv) (call : Call) :
    Eager.next s.deleteTerminatedThread call =
      (next s call).map Scheduler.deleteTerminatedThread := by
  unfold Eager.next next
  rw [eager_invoke h]
  cases invoke s call with
  | error e => rfl
  | ok v => rfl

/-- By induction on the calls, a run of the reference is the scheduler's run,
cleaned up. -/
theorem eager_run (h : s.Inv) (calls : List Call) :
    run Eager.next s.deleteTerminatedThread calls =
      (run next s calls).map Scheduler.deleteTerminatedThread := by
  induction calls generalizing s with
  | nil => rfl
  | cons call rest ih =>
      rw [run_cons, run_cons, eager_next h]
      cases hm : next s call with
      | none => rfl
      | some m => exact ih (next_inv h hm)

/-! ## What a caller sees -/

/-- The replies to a list of calls, each with the thread that runs after it;
the list ends where the process does. -/
def trace (invoke : Scheduler → Call → Outcome) :
    Scheduler → List Call → List (Except Halt (Reply × Int))
  | _, [] => []
  | s, call :: rest =>
      match invoke s call with
      | .error halt => [.error halt]
      | .ok (reply, t) => .ok (reply, t.currentRunningThread) :: trace invoke t rest

/-- By induction on the calls, the callers of both see the same replies and
the same running thread. -/
theorem eager_trace (h : s.Inv) (calls : List Call) :
    trace Eager.invoke s.deleteTerminatedThread calls = trace invoke s calls := by
  induction calls generalizing s with
  | nil => rfl
  | cons call rest ih =>
      unfold trace
      rw [eager_invoke h]
      cases hcall : invoke s call with
      | error e => rfl
      | ok v =>
          obtain ⟨r, t⟩ := v
          have hnext : next s call = some t := by simp [next, hcall]
          simp [Except.map, ih (next_inv h hnext)]

/-- A transition that answers `-1` changes nothing. -/
theorem Transition.failed_unchanged {t : Scheduler} {call : Call} {r : Reply}
    (htr : Transition p call r t) (hfail : r.value = some exitFail) : t = p := by
  cases htr with
  | rejected _ => rfl
  | quantums _ => rfl
  | blockAgain _ => rfl
  | resumeIdle _ _ => rfl
  | spawn _ _ _ _ _ =>
      simp only [Reply.value, exitFail, Option.some.injEq] at hfail
      omega
  | _ => simp [Reply.value, exitFail, exitSuccess] at hfail

/-- **Deferred deletion is unobservable.**  From `uthread_init` the scheduler
and the reference give the same replies and the same running thread at every
call of every sequence, and a call of the reference that answers `-1` leaves
its state as it was. -/
theorem deferred_deletion_unobservable {quantumUsecs : Int} {s₀ : Scheduler}
    (hinit : uthreadInit quantumUsecs = (.returned exitSuccess, some s₀)) (calls : List Call) :
    trace invoke s₀ calls = trace Eager.invoke s₀ calls ∧
      ∀ r call reply r', run Eager.next s₀ calls = some r →
        Eager.invoke r call = .ok (reply, r') → reply.value = some exitFail → r' = r := by
  have h : s₀.Inv := Reachable.inv ⟨quantumUsecs, s₀, hinit, Reaches.refl _⟩
  have hclean : s₀.deleteTerminatedThread = s₀ := by
    obtain rfl := eq_create_of_uthreadInit hinit
    exact h.deleteTerminatedThread_of_none rfl
  refine ⟨?_, ?_⟩
  · have htrace := eager_trace h calls
    rw [hclean] at htrace
    exact htrace.symm
  · intro r call reply r' hrun hcall hfail
    have hrun' := eager_run h calls
    rw [hclean, hrun] at hrun'
    obtain ⟨s, hs, rfl⟩ := Option.map_eq_some_iff.mp hrun'.symm
    have hinv : s.Inv := Reachable.inv ⟨quantumUsecs, s₀, hinit, calls, hs⟩
    rw [eager_invoke hinv] at hcall
    cases hinvoke : invoke s call with
    | error e => simp [hinvoke, Except.map] at hcall
    | ok result =>
        obtain ⟨reply', t⟩ := result
        obtain ⟨rfl, rfl⟩ : reply' = reply ∧ t.deleteTerminatedThread = r' := by
          simpa [hinvoke, Except.map] using hcall
        rcases invoke_cases hinv hinvoke with ⟨_, rfl⟩ | htr
        · rfl
        · rw [htr.failed_unchanged hfail, hinv.deleteTerminatedThread_idem]

/-- A self-termination followed by a tick, a spawn that reuses the id, and a
second termination. -/
theorem deferred_deletion_unobservable_reuse :
    trace invoke (Scheduler.create 1)
        [.spawn (some 1), .tick, .terminate 1, .tick, .spawn (some 2), .terminate 7] =
      trace Eager.invoke (Scheduler.create 1)
        [.spawn (some 1), .tick, .terminate 1, .tick, .spawn (some 2), .terminate 7] :=
  (@deferred_deletion_unobservable 1 (Scheduler.create 1) rfl
    [.spawn (some 1), .tick, .terminate 1, .tick, .spawn (some 2), .terminate 7]).1

end Uthreads
