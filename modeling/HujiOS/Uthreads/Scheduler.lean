import HujiOS.MachineInt
import HujiOS.Runs
import Mathlib.Data.List.AList
import Mathlib.Data.List.Sort
import Mathlib.Data.Finset.Insert
import Mathlib.Data.Finset.Erase

/-!
# The user-level thread scheduler

`Scheduler` holds the fields of the C++ class that decide what runs next: the
thread table, the ready deque, the blocked set, the sleepers ordered by
deadline, the running thread and the slot for deferred deletion.  Every method
is one function on it.  A library call runs with `SIGVTALRM` masked, so a call
or a timer tick is one atomic step; `siglongjmp` is the change of
`currentRunningThread`, and the saved contexts (`env_`, `stack_`) and the timer
itself are not represented.

Two things end a run: `std::exit` when the main thread is terminated, and
`front()` on an empty ready deque, which is undefined in C++ and is a `Halt`
of its own here.
-/

namespace Uthreads

open MachineInt

/-- `MAX_THREAD_NUM`, the main thread included. -/
def maxThreadNum : Nat := 100

/-- `EXIT_SUCCESS`: what a call returns that has no value to give. -/
def exitSuccess : Int := 0

/-- `EXIT_FAIL`: what a failed call returns. -/
def exitFail : Int := -1

/-- The number of `SIGVTALRM`. -/
def sigvtalrm : Int := 26

/-- A `Thread` object without its execution context. -/
structure Thread where
  tid : Int
  numOfQuantum : Int
  sleepUntil : Int
  deriving DecidableEq, Repr

/-- `Thread::Thread()`, meant for the main thread only. -/
def Thread.default : Thread := { tid := 0, numOfQuantum := 0, sleepUntil := -1 }

/-- `Thread::Thread(int id, void (*f)())`. -/
def Thread.create (id : Int) : Thread := { tid := id, numOfQuantum := 0, sleepUntil := -1 }

/-- `incrementNumOfQuantum`, with the wrap of an `int`. -/
def Thread.incrementNumOfQuantum (t : Thread) : Thread :=
  { t with numOfQuantum := toInt32 (t.numOfQuantum + 1) }

/-- `setSleepUntil`: the quantum up to which the thread sleeps. -/
def Thread.setSleepUntil (t : Thread) (sleepUntil : Int) : Thread :=
  { t with sleepUntil := sleepUntil }

/-- `std::unordered_map<int, Thread>`. -/
abbrev ThreadMap := AList (fun _ : Int => Thread)

namespace ThreadMap

/-- The object that `threads_[tid]` refers to: `operator[]` makes a default
`Thread` when the key is missing. -/
def getD (m : ThreadMap) (tid : Int) : Thread := (m.lookup tid).getD Thread.default

/-- The map after `threads_[tid]` was evaluated. -/
def touch (m : ThreadMap) (tid : Int) : ThreadMap :=
  if tid ∈ m then m else m.insert tid Thread.default

/-- The map after `threads_[tid]` was changed in place. -/
def modify (m : ThreadMap) (tid : Int) (f : Thread → Thread) : ThreadMap :=
  m.insert tid (f (m.getD tid))

/-- `emplace`, which keeps an existing element. -/
def emplace (m : ThreadMap) (tid : Int) (t : Thread) : ThreadMap :=
  if tid ∈ m then m else m.insert tid t

/-- `threads_.size()`. -/
def size (m : ThreadMap) : Nat := m.keys.length

end ThreadMap

/-- A sleeping tid and the quantum up to which it sleeps. -/
abbrev TidToSleepTime := Int × Int

/-- Sleepers are ordered by deadline only. -/
abbrev sleepTimeCmp (a b : TidToSleepTime) : Prop := a.2 < b.2

/-- `std::multiset::insert`: behind the elements that compare equal. -/
def insertSleeper (e : TidToSleepTime) (sleepers : List TidToSleepTime) : List TidToSleepTime :=
  sleepers.orderedInsert sleepTimeCmp e

/-- Why the running thread is preempted. -/
inductive PreemptReason
  | termination
  | quantumExpiration
  | blocking
  deriving DecidableEq, Repr

/-- The members of `Scheduler` in the source's order: the thread objects, the
ready deque, the blocked tids, the sleepers by deadline, who runs, who waits
for deletion (`-1` for nobody), and the quantums started so far. -/
structure Scheduler where
  threads : ThreadMap
  readyQueue : List Int
  blockedThreads : Finset Int
  sleepThreads : List TidToSleepTime
  currentRunningThread : Int
  tidToTerminate : Int
  totalQuantum : Int
  threadQuantum : Int

/-- Why a run of the process stops. -/
inductive Halt
  /-- `std::exit` -/
  | exit (status : Int)
  /-- `front()` of an empty deque -/
  | emptyReadyQueue
  deriving DecidableEq, Repr

/-- Whether control comes back to the thread that was preempted (now, or when
it is next dispatched) or that thread has been left for good. -/
inductive Control
  | back
  | gone
  deriving DecidableEq, Repr

/-- What a caller of the library gets. -/
inductive Reply
  | returned (value : Int)
  /-- `uthreadException`: the message on `cerr` and the value `-1` -/
  | failed (message : String)
  /-- the call never returns to its caller -/
  | gone
  deriving DecidableEq, Repr

/-- The number that the caller receives, if control comes back to it. -/
def Reply.value : Reply → Option Int
  | .returned value => some value
  | .failed _ => some exitFail
  | .gone => none

/-- A library error: its message, with `-1` for the caller. -/
def uthreadException (message : String) : Reply := .failed message

/-- What a call leads to: a reply and the next state, or the end of the
process. -/
abbrev Outcome := Except Halt (Reply × Scheduler)

/-- `nullptr` or the address of an entry point. -/
abbrev ThreadEntryPoint := Option Nat

namespace Scheduler

/-- The constructor: the main thread runs its first quantum. -/
def create (quantumUsecs : Int) : Scheduler :=
  { threads := ThreadMap.modify ((∅ : ThreadMap).emplace 0 Thread.default) 0
      Thread.incrementNumOfQuantum
    readyQueue := []
    blockedThreads := ∅
    sleepThreads := []
    currentRunningThread := 0
    tidToTerminate := -1
    totalQuantum := 1
    threadQuantum := quantumUsecs }

/-- The search of `_getLowestAvailableId` with `fuel` candidates left. -/
def lowestTidFrom (threads : ThreadMap) : Nat → Nat → Nat
  | 0, lowestTid => lowestTid
  | fuel + 1, lowestTid =>
      if (lowestTid : Int) ∈ threads then lowestTidFrom threads fuel (lowestTid + 1)
      else lowestTid

/-- `_getLowestAvailableId`: the least tid from 1 on that no thread has, or
`-1` when there are too many. -/
def getLowestAvailableId (s : Scheduler) : Int :=
  let lowestTid := lowestTidFrom s.threads (maxThreadNum - 1) 1
  if lowestTid = maxThreadNum then exitFail else lowestTid

/-- `_isThreadExist`: whether the map has a thread of this tid. -/
def isThreadExist (s : Scheduler) (tid : Int) : Bool := tid ∈ s.threads

/-- The switch itself.  `_setTimerSignal` and the two jumps leave the fields
alone. -/
def applySigJmp (s : Scheduler) (preemptReason : PreemptReason) (nextTid : Int) :
    Control × Scheduler :=
  let preemptedThreadId := s.currentRunningThread
  let s := { s with threads := s.threads.touch nextTid }
  let s := { s with currentRunningThread := (s.threads.getD nextTid).tid }
  match preemptReason with
  | .termination => (.gone, { s with tidToTerminate := preemptedThreadId })
  | .quantumExpiration | .blocking =>
      (.back, { s with threads := s.threads.touch preemptedThreadId })

/-- `_preempt`: the front of the ready deque starts a quantum.  Where that is
the running thread itself, there is no jump. -/
def preempt (s : Scheduler) (preemptReason : PreemptReason) :
    Except Halt (Control × Scheduler) :=
  match s.readyQueue with
  | [] => .error .emptyReadyQueue
  | nextTid :: rest =>
      let s := { s with
        readyQueue := rest
        totalQuantum := toInt32 (s.totalQuantum + 1)
        threads := s.threads.modify nextTid Thread.incrementNumOfQuantum }
      if s.currentRunningThread = nextTid then .ok (.back, s)
      else .ok (s.applySigJmp preemptReason nextTid)

/-- `_deleteReadyThread`: every occurrence leaves the ready deque. -/
def deleteReadyThread (s : Scheduler) (tid : Int) : Scheduler :=
  { s with readyQueue := s.readyQueue.filter (· ≠ tid) }

/-- `_deleteTerminatedThread`: the object of the last thread that terminated
is freed only by a later call, which no longer runs on its stack. -/
def deleteTerminatedThread (s : Scheduler) : Scheduler :=
  if s.tidToTerminate ∈ s.threads then
    { s with threads := s.threads.erase s.tidToTerminate, tidToTerminate := -1 }
  else s

/-- `_isTidSleeping`: whether `find_if` finds an entry of `tid`. -/
def isTidSleeping (s : Scheduler) (tid : Int) : Bool :=
  s.sleepThreads.any (·.1 == tid)

/-- `sleepThreads_.erase(it)` for the entry that `_isTidSleeping` found. -/
def eraseSleeper (s : Scheduler) (tid : Int) : Scheduler :=
  { s with sleepThreads := s.sleepThreads.eraseP (·.1 == tid) }

/-- `_blockOtherThread`: a sleeper keeps its deadline only in its `Thread`. -/
def blockOtherThread (s : Scheduler) (tid : Int) : Scheduler :=
  if s.isTidSleeping tid then
    { s.eraseSleeper tid with blockedThreads := insert tid s.blockedThreads }
  else
    { s.deleteReadyThread tid with blockedThreads := insert tid s.blockedThreads }

/-- Whether an entry is before `lower_bound({0, total_quantum_ + 1})`. -/
def isDue (s : Scheduler) (e : TidToSleepTime) : Bool :=
  decide (sleepTimeCmp e (0, toInt32 (s.totalQuantum + 1)))

/-- `_sleepToReady`: the due sleepers go to the end of the ready deque, in the
order of their deadlines. -/
def sleepToReady (s : Scheduler) : Scheduler :=
  { s with
    readyQueue := s.readyQueue ++ (s.sleepThreads.takeWhile s.isDue).map Prod.fst
    sleepThreads := s.sleepThreads.dropWhile s.isDue }

/-- `_getSpawnedThreadReady`: a new object, at the end of the ready deque. -/
def getSpawnedThreadReady (s : Scheduler) (nextTid : Int) : Int × Scheduler :=
  (nextTid, { s with
    readyQueue := s.readyQueue ++ [nextTid]
    threads := s.threads.emplace nextTid (Thread.create nextTid) })

/-- `_terminateOtherThread`: the tid leaves its queue at once, its object
waits for the next call. -/
def terminateOtherThread (s : Scheduler) (tid : Int) : Scheduler :=
  let s := { s with tidToTerminate := tid }
  if s.isTidSleeping tid then s.eraseSleeper tid
  else if tid ∈ s.blockedThreads then
    { s with blockedThreads := s.blockedThreads.erase tid }
  else s.deleteReadyThread tid

/-! ## The API methods -/

/-- `timerHandler`: the tick, the only place that wakes sleepers. -/
def timerHandler (s : Scheduler) (signo : Int) : Outcome :=
  if signo ≠ sigvtalrm then
    .ok (uthreadException "Not the virtual timer signal. SIGVTALRM is required.", s)
  else do
    let s := s.deleteTerminatedThread
    let s := s.sleepToReady
    let s := { s with readyQueue := s.readyQueue ++ [s.currentRunningThread] }
    let (_, s) ← s.preempt .quantumExpiration
    .ok (.returned exitSuccess, s)

/-- `spawnThread`. -/
def spawnThread (s : Scheduler) (function : ThreadEntryPoint) : Outcome :=
  let s := s.deleteTerminatedThread
  if function = none then
    .ok (uthreadException "Can't spawn thread with nullptr function", s)
  else if s.threads.size = maxThreadNum then
    .ok (uthreadException "Maximum thread count was reached", s)
  else
    let nextTid := s.getLowestAvailableId
    if nextTid = exitFail then .ok (.returned exitFail, s)
    else
      let (tid, s) := s.getSpawnedThreadReady nextTid
      .ok (.returned tid, s)

/-- `terminateThread`: tid 0 ends the process, the running thread's own tid
does not come back. -/
def terminateThread (s : Scheduler) (tid : Int) : Outcome :=
  let s := s.deleteTerminatedThread
  if tid = 0 then .error (.exit exitSuccess)
  else if ¬ s.isThreadExist tid then
    .ok (uthreadException "Don't terminate a non existent thread", s)
  else if tid = s.currentRunningThread then do
    let (control, s) ← s.preempt .termination
    match control with
    | .gone => .ok (.gone, s)
    | .back => .ok (.returned exitSuccess, s)
  else .ok (.returned exitSuccess, s.terminateOtherThread tid)

/-- `getTid`. -/
def getTid (s : Scheduler) : Outcome := .ok (.returned s.currentRunningThread, s)

/-- `getTotalQuantums`. -/
def getTotalQuantums (s : Scheduler) : Outcome := .ok (.returned s.totalQuantum, s)

/-- `getThreadQuantums`. -/
def getThreadQuantums (s : Scheduler) (tid : Int) : Outcome :=
  let s := s.deleteTerminatedThread
  if s.isThreadExist tid ∧ tid ≠ s.tidToTerminate then
    .ok (.returned (s.threads.getD tid).numOfQuantum,
      { s with threads := s.threads.touch tid })
  else .ok (uthreadException "Can't get quantums of non existent thread", s)

/-- `blockThread`: blocking oneself starts the next thread's quantum. -/
def blockThread (s : Scheduler) (tid : Int) : Outcome :=
  let s := s.deleteTerminatedThread
  if tid = 0 then .ok (uthreadException "Can't block main thread", s)
  else if ¬ s.isThreadExist tid then
    .ok (uthreadException "Don't block non existent thread", s)
  else if tid ∈ s.blockedThreads then .ok (.returned exitSuccess, s)
  else if s.currentRunningThread = tid then do
    let s := { s with blockedThreads := insert tid s.blockedThreads }
    let (_, s) ← s.preempt .blocking
    .ok (.returned exitSuccess, s)
  else .ok (.returned exitSuccess, s.blockOtherThread tid)

/-- `resumeThread`: where `sleepUntil` is not `-1` the thread is taken for a
sleeper, whether or not it has woken since. -/
def resumeThread (s : Scheduler) (tid : Int) : Outcome :=
  let s := s.deleteTerminatedThread
  if ¬ s.isThreadExist tid then
    .ok (uthreadException "Can't resume non existent thread", s)
  else if tid ∉ s.blockedThreads then .ok (.returned exitSuccess, s)
  else
    let s := { s with blockedThreads := s.blockedThreads.erase tid }
    let sleepUntil := (s.threads.getD tid).sleepUntil
    let s := { s with threads := s.threads.touch tid }
    if sleepUntil ≠ -1 then
      if s.isTidSleeping tid then .ok (.returned exitSuccess, s)
      else .ok (.returned exitSuccess,
        { s with sleepThreads := insertSleeper (tid, sleepUntil) s.sleepThreads })
    else .ok (.returned exitSuccess, { s with readyQueue := s.readyQueue ++ [tid] })

/-- `sleepThread`: the deadline is an `int` sum, which may wrap. -/
def sleepThread (s : Scheduler) (numQuantums : Int) : Outcome :=
  let s := s.deleteTerminatedThread
  if s.currentRunningThread = 0 then
    .ok (uthreadException "main current_thread can't sleep", s)
  else if numQuantums ≤ 0 then
    .ok (uthreadException "can't sleep for a non-positive number of quantums", s)
  else do
    let current := s.currentRunningThread
    let sleepUntil := toInt32 (s.totalQuantum + numQuantums)
    let s := { s with threads := s.threads.modify current (·.setSleepUntil sleepUntil) }
    let s := { s with
      sleepThreads :=
        insertSleeper (current, (s.threads.getD current).sleepUntil) s.sleepThreads }
    let (_, s) ← s.preempt .blocking
    .ok (.returned exitSuccess, s)

end Scheduler

/-- `uthread_init`. -/
def uthreadInit (quantumUsecs : Int) : Reply × Option Scheduler :=
  if quantumUsecs < 1 then (uthreadException "Quantum must be positive", none)
  else (.returned exitSuccess, some (Scheduler.create quantumUsecs))

/-- What can happen to the scheduler: a library call by the running thread or
a tick of the virtual timer. -/
inductive Call
  | spawn (entryPoint : ThreadEntryPoint)
  | terminate (tid : Int)
  | block (tid : Int)
  | resume (tid : Int)
  | sleep (numQuantums : Int)
  | getTid
  | getTotalQuantums
  | getQuantums (tid : Int)
  | tick
  deriving DecidableEq, Repr

/-- The `uthread_*` wrappers and `timerHandlerGlobal`. -/
def invoke (s : Scheduler) : Call → Outcome
  | .spawn entryPoint => s.spawnThread entryPoint
  | .terminate tid => s.terminateThread tid
  | .block tid => s.blockThread tid
  | .resume tid => s.resumeThread tid
  | .sleep numQuantums => s.sleepThread numQuantums
  | .getTid => s.getTid
  | .getTotalQuantums => s.getTotalQuantums
  | .getQuantums tid => s.getThreadQuantums tid
  | .tick => s.timerHandler sigvtalrm

/-- The state after a call, if the process is still running. -/
def next (s : Scheduler) (call : Call) : Option Scheduler :=
  match invoke s call with
  | .ok (_, t) => some t
  | .error _ => none

/-- States that a process which called `uthread_init` can be in. -/
def Reachable (s : Scheduler) : Prop :=
  ∃ quantumUsecs s₀, uthreadInit quantumUsecs = (.returned exitSuccess, some s₀) ∧
    Runs.Reaches next s₀ s

/-- Two threads spawned, one falls asleep for a quantum and the other blocks. -/
example : ((Runs.run next (Scheduler.create 1)
      [.spawn (some 1), .spawn (some 2), .tick, .sleep 1, .block 2]).map fun s =>
    (s.currentRunningThread, s.readyQueue, s.sleepThreads, s.totalQuantum)) =
      some (0, [], [(1, 3)], 4) := by decide

end Uthreads
