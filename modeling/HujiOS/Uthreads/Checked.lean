import HujiOS.Uthreads.Partition

/-!
# The unchecked lookups

The code evaluates `threads_[tid]` and `readyQueue_.front()` without looking
first whether there is a thread or a ready tid; `operator[]` would make a
`Thread` with id 0 and no stack.  `Checked` is the code once more with these
assumptions as assertions: a lookup fails when the key is missing, and
`_preempt` fails when the queue is empty, when the object of the tid it takes
has another id, and when that tid is the running one, except at a timer tick
that finds no other ready thread.

In a reachable state no assertion fails, so the checked call is the call.
-/

namespace Uthreads

open MachineInt Scheduler

/-- What a checked call can fail with. -/
inductive Fault
  | halt (reason : Halt)
  /-- `threads_[tid]` without an element of that key -/
  | missingThread (tid : Int)
  /-- the object under `tid` has another id -/
  | foreignId (tid : Int)
  /-- the running thread was taken from the queue although others are ready -/
  | redispatched (tid : Int)
  deriving DecidableEq, Repr

namespace Checked

/-- What a checked call leads to. -/
abbrev Outcome := Except Fault (Reply × Scheduler)

/-- `threads_[tid]` for a key that is there. -/
def find (m : ThreadMap) (tid : Int) : Except Fault Thread :=
  match m.lookup tid with
  | some thread => .ok thread
  | none => .error (.missingThread tid)

/-- `_applySigJmp`, whose two lookups are asserted to find a thread. -/
def applySigJmp (s : Scheduler) (preemptReason : PreemptReason) (nextTid : Int) :
    Except Fault (Control × Scheduler) := do
  let preemptedThreadId := s.currentRunningThread
  let nextThread ← find s.threads nextTid
  let s := { s with currentRunningThread := nextThread.tid }
  match preemptReason with
  | .termination => .ok (.gone, { s with tidToTerminate := preemptedThreadId })
  | .quantumExpiration | .blocking =>
      let _ ← find s.threads preemptedThreadId
      .ok (.back, s)

/-- `_preempt`, with every assertion on the thread that it takes from the
queue. -/
def preempt (s : Scheduler) (preemptReason : PreemptReason) :
    Except Fault (Control × Scheduler) :=
  match s.readyQueue with
  | [] => .error (.halt .emptyReadyQueue)
  | nextTid :: rest => do
      let nextThread ← find s.threads nextTid
      if nextThread.tid ≠ nextTid then .error (.foreignId nextTid)
      else if s.currentRunningThread = nextTid ∧
          ¬ (preemptReason = .quantumExpiration ∧ rest = []) then .error (.redispatched nextTid)
      else
        let s := { s with
          readyQueue := rest
          totalQuantum := toInt32 (s.totalQuantum + 1)
          threads := s.threads.insert nextTid nextThread.incrementNumOfQuantum }
        if s.currentRunningThread = nextTid then .ok (.back, s)
        else applySigJmp s preemptReason nextTid

/-- `timerHandler`, over the checked `_preempt`. -/
def timerHandler (s : Scheduler) (signo : Int) : Outcome :=
  if signo ≠ sigvtalrm then
    .ok (uthreadException "Not the virtual timer signal. SIGVTALRM is required.", s)
  else do
    let s := s.deleteTerminatedThread
    let s := s.sleepToReady
    let s := { s with readyQueue := s.readyQueue ++ [s.currentRunningThread] }
    let (_, s) ← preempt s .quantumExpiration
    .ok (.returned exitSuccess, s)

/-- `terminateThread`, over the checked `_preempt`. -/
def terminateThread (s : Scheduler) (tid : Int) : Outcome :=
  let s := s.deleteTerminatedThread
  if tid = 0 then .error (.halt (.exit exitSuccess))
  else if ¬ s.isThreadExist tid then
    .ok (uthreadException "Don't terminate a non existent thread", s)
  else if tid = s.currentRunningThread then do
    let (control, s) ← preempt s .termination
    match control with
    | .gone => .ok (.gone, s)
    | .back => .ok (.returned exitSuccess, s)
  else .ok (.returned exitSuccess, s.terminateOtherThread tid)

/-- `getThreadQuantums`, whose lookup is asserted to find a thread. -/
def getThreadQuantums (s : Scheduler) (tid : Int) : Outcome :=
  let s := s.deleteTerminatedThread
  if s.isThreadExist tid ∧ tid ≠ s.tidToTerminate then do
    let thread ← find s.threads tid
    .ok (.returned thread.numOfQuantum, s)
  else .ok (uthreadException "Can't get quantums of non existent thread", s)

/-- `blockThread`, over the checked `_preempt`. -/
def blockThread (s : Scheduler) (tid : Int) : Outcome :=
  let s := s.deleteTerminatedThread
  if tid = 0 then .ok (uthreadException "Can't block main thread", s)
  else if ¬ s.isThreadExist tid then
    .ok (uthreadException "Don't block non existent thread", s)
  else if tid ∈ s.blockedThreads then .ok (.returned exitSuccess, s)
  else if s.currentRunningThread = tid then do
    let s := { s with blockedThreads := insert tid s.blockedThreads }
    let (_, s) ← preempt s .blocking
    .ok (.returned exitSuccess, s)
  else .ok (.returned exitSuccess, s.blockOtherThread tid)

/-- `resumeThread`, whose lookup is asserted to find a thread. -/
def resumeThread (s : Scheduler) (tid : Int) : Outcome :=
  let s := s.deleteTerminatedThread
  if ¬ s.isThreadExist tid then
    .ok (uthreadException "Can't resume non existent thread", s)
  else if tid ∉ s.blockedThreads then .ok (.returned exitSuccess, s)
  else do
    let s := { s with blockedThreads := s.blockedThreads.erase tid }
    let thread ← find s.threads tid
    let sleepUntil := thread.sleepUntil
    if sleepUntil ≠ -1 then
      if s.isTidSleeping tid then .ok (.returned exitSuccess, s)
      else .ok (.returned exitSuccess,
        { s with sleepThreads := insertSleeper (tid, sleepUntil) s.sleepThreads })
    else .ok (.returned exitSuccess, { s with readyQueue := s.readyQueue ++ [tid] })

/-- `sleepThread`, whose two lookups of the running thread are asserted. -/
def sleepThread (s : Scheduler) (numQuantums : Int) : Outcome :=
  let s := s.deleteTerminatedThread
  if s.currentRunningThread = 0 then
    .ok (uthreadException "main current_thread can't sleep", s)
  else if numQuantums ≤ 0 then
    .ok (uthreadException "can't sleep for a non-positive number of quantums", s)
  else do
    let current := s.currentRunningThread
    let thread ← find s.threads current
    let currentThread := thread.setSleepUntil (toInt32 (s.totalQuantum + numQuantums))
    let s := { s with threads := s.threads.insert current currentThread }
    let s := { s with
      sleepThreads := insertSleeper (current, currentThread.sleepUntil) s.sleepThreads }
    let (_, s) ← preempt s .blocking
    .ok (.returned exitSuccess, s)

/-- A call whose lookups are checked.  Spawning and the two plain getters have
none. -/
def invoke (s : Scheduler) : Call → Outcome
  | .spawn entryPoint => (s.spawnThread entryPoint).mapError Fault.halt
  | .terminate tid => terminateThread s tid
  | .block tid => blockThread s tid
  | .resume tid => resumeThread s tid
  | .sleep numQuantums => sleepThread s numQuantums
  | .getTid => s.getTid.mapError Fault.halt
  | .getTotalQuantums => s.getTotalQuantums.mapError Fault.halt
  | .getQuantums tid => getThreadQuantums s tid
  | .tick => timerHandler s sigvtalrm

/-! ## When the assertions hold -/

/-- The lookup of a thread that is there does not fail. -/
theorem find_of_mem {m : ThreadMap} {tid : Int} (h : tid ∈ m) : find m tid = .ok (m.getD tid) := by
  obtain ⟨thread, hthread⟩ := Option.isSome_iff_exists.mp (AList.lookup_isSome.mpr h)
  unfold find ThreadMap.getD
  rw [hthread]
  rfl

/-- Renaming the errors of a sequence renames those of its two parts. -/
theorem mapError_bind {α β : Type} (x : Except Halt α) (f : α → Except Halt β) :
    (x >>= f).mapError Fault.halt =
      x.mapError Fault.halt >>= fun a => (f a).mapError Fault.halt := by
  cases x <;> rfl

variable {s : Scheduler}

/-- Where both threads have objects, the switch passes its assertions. -/
theorem applySigJmp_eq (reason : PreemptReason) {nextTid : Int} (hnext : nextTid ∈ s.threads)
    (hcurrent : s.currentRunningThread ∈ s.threads) :
    applySigJmp s reason nextTid = .ok (s.applySigJmp reason nextTid) := by
  unfold applySigJmp Scheduler.applySigJmp
  rw [find_of_mem hnext, ThreadMap.touch_of_mem hnext]
  cases reason with
  | termination => rfl
  | quantumExpiration =>
      simp [bind, Except.bind, find_of_mem hcurrent, ThreadMap.touch_of_mem hcurrent]
  | blocking =>
      simp [bind, Except.bind, find_of_mem hcurrent, ThreadMap.touch_of_mem hcurrent]

/-- `_preempt` meets its assertions when the front of the queue is a thread of
the table under its own id, and not the running one, unless the tick found
nothing else to run. -/
theorem preempt_eq (reason : PreemptReason) {nextTid : Int} {rest : List Int}
    (hqueue : s.readyQueue = nextTid :: rest) (hnext : nextTid ∈ s.threads)
    (hid : (s.threads.getD nextTid).tid = nextTid) (hcurrent : s.currentRunningThread ∈ s.threads)
    (hother : s.currentRunningThread = nextTid → reason = .quantumExpiration ∧ rest = []) :
    preempt s reason = (s.preempt reason).mapError Fault.halt := by
  have hfind := find_of_mem hnext
  have hkeys := ThreadMap.mem_modify hnext Thread.incrementNumOfQuantum
  unfold preempt Scheduler.preempt
  rw [hqueue]
  by_cases hsame : s.currentRunningThread = nextTid
  · simp [bind, Except.bind, hfind, hid, hsame, hother hsame, ThreadMap.modify, Except.mapError]
  · have hjump := applySigJmp_eq (s := { s with
        readyQueue := rest
        totalQuantum := toInt32 (s.totalQuantum + 1)
        threads := s.threads.modify nextTid Thread.incrementNumOfQuantum })
      reason ((hkeys _).mpr hnext) ((hkeys _).mpr hcurrent)
    unfold ThreadMap.modify at hjump ⊢
    simp [bind, Except.bind, hfind, hid, hsame, hjump, Except.mapError]

/-! ## The methods -/

/-- A tick takes the running thread from the queue only if it is alone there. -/
theorem eq_nil_of_expired_head (h : s.Inv) {nextTid : Int} {rest : List Int}
    (hqueue : s.expired.readyQueue = nextTid :: rest) (hsame : s.currentRunningThread = nextTid) :
    rest = [] := by
  have hnodup : (nextTid :: rest).Nodup := by
    have hoff := Multiset.nodup_add.mp (h.expired.nodup)
    rw [← hqueue]
    exact Multiset.coe_nodup.mp (Multiset.nodup_add.mp hoff.1).1
  have hqueue' : s.sleepToReady.readyQueue ++ [s.currentRunningThread] = nextTid :: rest := hqueue
  cases hothers : s.sleepToReady.readyQueue with
  | nil =>
      rw [hothers] at hqueue'
      exact (List.cons.inj hqueue').2.symm
  | cons first others =>
      rw [hothers] at hqueue'
      have hrest := (List.cons.inj hqueue').2
      exact absurd (by simp [← hrest, hsame]) (List.nodup_cons.mp hnodup).1

/-- The tick passes its assertions. -/
theorem timerHandler_eq (h : s.Inv) :
    timerHandler s sigvtalrm = (s.timerHandler sigvtalrm).mapError Fault.halt := by
  have hp := h.deleteTerminatedThread
  unfold timerHandler Scheduler.timerHandler
  generalize s.deleteTerminatedThread = p at hp ⊢
  cases hqueue : p.expired.readyQueue with
  | nil => simp [expired] at hqueue
  | cons nextTid rest =>
      have hmem := hp.mem_threads_of_roster
        (mem_expired_readyQueue (s := p) nextTid (by simp [hqueue]))
      have hpre := preempt_eq .quantumExpiration hqueue hmem (hp.ids _ hmem) hp.current_mem
        fun hsame => ⟨rfl, eq_nil_of_expired_head hp hqueue hsame⟩
      simp only [ne_eq, not_true_eq_false, if_false, mapError_bind]
      exact congrArg (fun x => x >>= fun y => .ok (Reply.returned exitSuccess, y.2)) hpre

/-- `terminateThread` passes its assertions. -/
theorem terminateThread_eq (h : s.Inv) (tid : Int) :
    terminateThread s tid = (s.terminateThread tid).mapError Fault.halt := by
  have hp := h.deleteTerminatedThread
  unfold terminateThread Scheduler.terminateThread
  generalize s.deleteTerminatedThread = p at hp ⊢
  by_cases hmain : tid = 0
  · simp [hmain, Except.mapError]
  · by_cases hself : tid = p.currentRunningThread
    · subst hself
      obtain ⟨nextTid, rest, hqueue⟩ := hp.exists_front hmain
      obtain ⟨hnext, hid, hne⟩ := hp.front_facts hqueue
      have hpre := preempt_eq .termination hqueue hnext hid hp.current_mem
        fun hsame => absurd hsame hne
      rw [preempt_termination hqueue hnext hne hid] at hpre
      simp [hmain, isThreadExist, hp.current_mem, hpre,
        preempt_termination hqueue hnext hne hid, bind, Except.bind, Except.mapError]
    · by_cases hthread : tid ∈ p.threads
      · simp [hmain, isThreadExist, hthread, hself, Except.mapError]
      · simp [hmain, isThreadExist, hthread, Except.mapError]

/-- `getThreadQuantums` passes its assertion in any state: it looks only after
it checked. -/
theorem getThreadQuantums_eq (s : Scheduler) (tid : Int) :
    getThreadQuantums s tid = (s.getThreadQuantums tid).mapError Fault.halt := by
  unfold getThreadQuantums Scheduler.getThreadQuantums
  generalize s.deleteTerminatedThread = p
  by_cases hthread : p.isThreadExist tid = true ∧ tid ≠ p.tidToTerminate
  · have hmem : tid ∈ p.threads := by simpa [isThreadExist] using hthread.1
    simp [hthread, find_of_mem hmem, ThreadMap.touch_of_mem hmem, bind, Except.bind,
      Except.mapError]
  · simp [hthread, Except.mapError]

/-- `blockThread` passes its assertions. -/
theorem blockThread_eq (h : s.Inv) (tid : Int) :
    blockThread s tid = (s.blockThread tid).mapError Fault.halt := by
  have hp := h.deleteTerminatedThread
  unfold blockThread Scheduler.blockThread
  generalize s.deleteTerminatedThread = p at hp ⊢
  by_cases hmain : tid = 0
  · simp [hmain, Except.mapError]
  · by_cases hthread : tid ∈ p.threads
    · by_cases hblocked : tid ∈ p.blockedThreads
      · simp [hmain, isThreadExist, hthread, hblocked, Except.mapError]
      · by_cases hself : p.currentRunningThread = tid
        · subst hself
          obtain ⟨nextTid, rest, hqueue⟩ := hp.exists_front hmain
          obtain ⟨hnext, hid, hne⟩ := hp.front_facts hqueue
          have hpre := preempt_eq (s := p.blocked p.currentRunningThread) .blocking hqueue hnext
            hid hp.current_mem fun hsame => absurd hsame hne
          simp only [hmain, if_false, isThreadExist, hthread, decide_true, not_true_eq_false,
            hblocked, if_true, mapError_bind]
          exact congrArg (fun x => x >>= fun y => .ok (Reply.returned exitSuccess, y.2)) hpre
        · simp [hmain, isThreadExist, hthread, hblocked, hself, Except.mapError]
    · simp [hmain, isThreadExist, hthread, Except.mapError]

/-- `resumeThread` passes its assertion in any state: it looks only after it
checked. -/
theorem resumeThread_eq (s : Scheduler) (tid : Int) :
    resumeThread s tid = (s.resumeThread tid).mapError Fault.halt := by
  unfold resumeThread Scheduler.resumeThread
  generalize s.deleteTerminatedThread = p
  by_cases hthread : tid ∈ p.threads
  · by_cases hblocked : tid ∈ p.blockedThreads
    · simp only [isThreadExist, hthread, decide_true, not_true_eq_false, if_false, hblocked,
        find_of_mem hthread, ThreadMap.touch_of_mem hthread, bind, Except.bind]
      split
      · split <;> rfl
      · rfl
    · simp [isThreadExist, hthread, hblocked, Except.mapError]
  · simp [isThreadExist, hthread, Except.mapError]

/-- `sleepThread` passes its assertions. -/
theorem sleepThread_eq (h : s.Inv) (n : Int) :
    sleepThread s n = (s.sleepThread n).mapError Fault.halt := by
  have hp := h.deleteTerminatedThread
  unfold sleepThread Scheduler.sleepThread
  generalize s.deleteTerminatedThread = p at hp ⊢
  by_cases hmain : p.currentRunningThread = 0
  · simp [hmain, Except.mapError]
  · by_cases hn : n ≤ 0
    · simp [hmain, hn, Except.mapError]
    · have hasleep := hp.fellAsleep hmain n
      have hkeys := hp.mem_threads_fellAsleep n
      obtain ⟨nextTid, rest, hqueue⟩ := hp.exists_front hmain
      obtain ⟨hnext, hid, hne⟩ := hp.front_facts hqueue
      have hpre := preempt_eq (s := p.fellAsleep n) .blocking hqueue ((hkeys _).mpr hnext)
        (hasleep.ids _ ((hkeys _).mpr hnext)) ((hkeys _).mpr hp.current_mem)
        fun hsame => absurd hsame hne
      simp only [hmain, hn, if_false, find_of_mem hp.current_mem, mapError_bind,
        ThreadMap.getD_modify_self]
      exact congrArg (fun x => x >>= fun y => .ok (Reply.returned exitSuccess, y.2)) hpre

/-- **The assertions cost nothing.**  From a state that satisfies the invariant
a checked call does what the call does. -/
theorem invoke_eq (h : s.Inv) (call : Call) :
    invoke s call = (Uthreads.invoke s call).mapError Fault.halt := by
  cases call with
  | spawn entryPoint => rfl
  | getTid => rfl
  | getTotalQuantums => rfl
  | terminate tid => exact terminateThread_eq h tid
  | block tid => exact blockThread_eq h tid
  | resume tid => exact resumeThread_eq s tid
  | sleep n => exact sleepThread_eq h n
  | getQuantums tid => exact getThreadQuantums_eq s tid
  | tick => exact timerHandler_eq h

end Checked

/-- **No lookup misses.**  In every reachable state every call but terminating
the main thread, and every tick, keeps all assertions: each `threads_[tid]`
finds its key, and each dispatch takes a thread of the table, under its own
id, that is not the running one unless a tick finds no other ready thread. -/
theorem checked_call_ok {s : Scheduler} (hreach : Reachable s) {call : Call}
    (hexit : call ≠ .terminate 0) :
    ∃ r t, Checked.invoke s call = .ok (r, t) ∧ invoke s call = .ok (r, t) := by
  obtain ⟨r, t, hcall, _⟩ := invoke_transition hreach.inv call hexit
  refine ⟨r, t, ?_, hcall⟩
  rw [Checked.invoke_eq hreach.inv, hcall]
  rfl

/-- Thread 1 terminates itself while thread 2 sleeps. -/
theorem checked_call_ok_zombie :
    ∃ s, Runs.run next (Scheduler.create 1)
        [.spawn (some 1), .spawn (some 2), .tick, .tick, .sleep 2, .tick] = some s ∧
      s.currentRunningThread = 1 ∧ s.sleepers = [2] ∧
      ∃ r t, Checked.invoke s (.terminate 1) = .ok (r, t) := by
  let calls : List Call := [.spawn (some 1), .spawn (some 2), .tick, .tick, .sleep 2, .tick]
  obtain ⟨s, hrun⟩ : ∃ s, Runs.run next (Scheduler.create 1) calls = some s := ⟨_, rfl⟩
  have hexit : Call.terminate 1 ≠ .terminate 0 := by decide
  obtain ⟨r, t, hchecked, _⟩ := checked_call_ok ⟨1, _, rfl, calls, hrun⟩ hexit
  refine ⟨s, hrun, ?_, ?_, r, t, hchecked⟩
  · obtain rfl := Option.some.inj hrun
    decide
  · obtain rfl := Option.some.inj hrun
    decide

end Uthreads
