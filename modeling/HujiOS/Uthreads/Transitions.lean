import HujiOS.StableQueue
import HujiOS.Uthreads.Scheduler
import Mathlib.Algebra.Order.Group.Unbundled.Int
import Mathlib.Data.Multiset.AddSub

/-!
# What a call can do to the scheduler

Every method first drops the thread whose deletion was deferred, so a call is
described from the state after that cleanup.  `Transition` lists what can
happen from there, with the guard of each branch, and `invoke_transition`
proves the list complete for states that satisfy the invariant `Inv`.  All
later results about the scheduler are case analyses of `Transition`; none
unfolds a method again.

The invariant is about the **roster**: the running tid, the ready tids, the
blocked tids and the sleeping tids as one multiset.  It has no duplicate, and
it consists of the live tids, so no thread is lost or held twice.
-/

namespace Uthreads

open MachineInt

/-! ## The thread table -/

namespace ThreadMap

/-- Looking up a thread that is there makes none. -/
theorem touch_of_mem {m : ThreadMap} {tid : Int} (h : tid ∈ m) : m.touch tid = m := by
  simp [touch, h]

/-- Emplacing a new tid inserts its thread. -/
theorem emplace_of_notMem {m : ThreadMap} {tid : Int} (h : tid ∉ m) (t : Thread) :
    m.emplace tid t = m.insert tid t := by
  simp [emplace, h]

/-- The thread just inserted is found. -/
@[simp] theorem getD_insert_self (m : ThreadMap) (tid : Int) (t : Thread) :
    getD (m.insert tid t) tid = t := by
  simp [getD]

/-- An insertion leaves the other threads as they are. -/
theorem getD_insert_ne {m : ThreadMap} {a tid : Int} (h : a ≠ tid) (t : Thread) :
    getD (m.insert tid t) a = m.getD a := by
  simp [getD, AList.lookup_insert_ne h]

/-- An erasure leaves the other threads as they are. -/
theorem getD_erase_ne {m : ThreadMap} {a tid : Int} (h : a ≠ tid) :
    getD (m.erase tid) a = m.getD a := by
  simp [getD, AList.lookup_erase_ne h]

/-- The thread just changed is found changed. -/
@[simp] theorem getD_modify_self (m : ThreadMap) (tid : Int) (f : Thread → Thread) :
    (m.modify tid f).getD tid = f (m.getD tid) := by
  simp [modify]

/-- A change leaves the other threads as they are. -/
theorem getD_modify_ne {m : ThreadMap} {a tid : Int} (h : a ≠ tid) (f : Thread → Thread) :
    (m.modify tid f).getD a = m.getD a := getD_insert_ne h _

/-- A change of a thread that is there adds no thread. -/
theorem mem_modify {m : ThreadMap} {tid : Int} (h : tid ∈ m) (f : Thread → Thread) (a : Int) :
    a ∈ m.modify tid f ↔ a ∈ m := by
  simp only [modify, AList.mem_insert, or_iff_right_iff_imp]
  rintro rfl
  exact h

/-- A change that keeps a field keeps it for every thread of the table. -/
theorem getD_modify_field {β : Type} (proj : Thread → β) (f : Thread → Thread)
    (hf : ∀ t, proj (f t) = proj t) (m : ThreadMap) (tid a : Int) :
    proj ((m.modify tid f).getD a) = proj (m.getD a) := by
  by_cases h : a = tid
  · subst h; simp [hf]
  · rw [getD_modify_ne h]

end ThreadMap

@[simp] theorem Thread.incrementNumOfQuantum_tid (t : Thread) :
    t.incrementNumOfQuantum.tid = t.tid := rfl

@[simp] theorem Thread.incrementNumOfQuantum_sleepUntil (t : Thread) :
    t.incrementNumOfQuantum.sleepUntil = t.sleepUntil := rfl

/-- Counting a quantum keeps every id. -/
theorem ThreadMap.getD_incremented_tid (m : ThreadMap) (tid a : Int) :
    ((m.modify tid Thread.incrementNumOfQuantum).getD a).tid = (m.getD a).tid :=
  getD_modify_field Thread.tid Thread.incrementNumOfQuantum (fun _ => rfl) m tid a

/-- Counting a quantum keeps every deadline. -/
theorem ThreadMap.getD_incremented_sleepUntil (m : ThreadMap) (tid a : Int) :
    ((m.modify tid Thread.incrementNumOfQuantum).getD a).sleepUntil = (m.getD a).sleepUntil :=
  getD_modify_field Thread.sleepUntil Thread.incrementNumOfQuantum (fun _ => rfl) m tid a

@[simp] theorem Thread.setSleepUntil_tid (t : Thread) (d : Int) :
    (t.setSleepUntil d).tid = t.tid := rfl

@[simp] theorem Thread.setSleepUntil_sleepUntil (t : Thread) (d : Int) :
    (t.setSleepUntil d).sleepUntil = d := rfl

/-! ## Sleepers ordered by deadline -/

/-- The order in which the multiset keeps its entries. -/
def SleepSorted (sleepers : List TidToSleepTime) : Prop :=
  sleepers.Pairwise fun a b => a.2 ≤ b.2

/-- `std::multiset::insert` is the insertion of a stable queue, keyed by
deadline. -/
theorem insertSleeper_eq (e : TidToSleepTime) (sleepers : List TidToSleepTime) :
    insertSleeper e sleepers = StableQueue.insert Prod.snd e sleepers := rfl

/-- Inserting a sleeper only adds its entry. -/
theorem insertSleeper_perm (e : TidToSleepTime) (sleepers : List TidToSleepTime) :
    (insertSleeper e sleepers).Perm (e :: sleepers) :=
  StableQueue.insert_perm e sleepers

/-- The sleepers after an insertion are the new one and the old ones. -/
theorem mem_insertSleeper {e x : TidToSleepTime} {sleepers : List TidToSleepTime} :
    x ∈ insertSleeper e sleepers ↔ x = e ∨ x ∈ sleepers :=
  StableQueue.mem_insert

/-- Sorted sleepers stay sorted when one is inserted. -/
theorem insertSleeper_sorted {sleepers : List TidToSleepTime} (h : SleepSorted sleepers)
    (e : TidToSleepTime) : SleepSorted (insertSleeper e sleepers) := by
  rw [insertSleeper_eq]
  exact StableQueue.pairwise_insert h h (fun _ _ hle => hle) fun _ _ hlt => Int.le_of_lt hlt

namespace Scheduler

/-- The tids that have an entry among the sleepers. -/
def sleepers (s : Scheduler) : List Int := s.sleepThreads.map Prod.fst

/-- `_isTidSleeping` holds of the tids that have an entry. -/
theorem isTidSleeping_iff {s : Scheduler} {tid : Int} :
    s.isTidSleeping tid = true ↔ tid ∈ s.sleepers := by
  simp [isTidSleeping, sleepers]

/-- Erasing the entry of a sleeping tid takes exactly that tid away. -/
theorem sleepers_eraseSleeper (s : Scheduler) (tid : Int) :
    (s.eraseSleeper tid).sleepers = s.sleepers.erase tid := by
  unfold sleepers eraseSleeper
  induction s.sleepThreads with
  | nil => rfl
  | cons e rest ih =>
      by_cases h : e.1 = tid
      · simp [h]
      · simp [h] at ih ⊢
        exact ih

/-- Erasing an entry adds none. -/
theorem eraseSleeper_subset {s : Scheduler} {tid : Int} {e : TidToSleepTime}
    (h : e ∈ (s.eraseSleeper tid).sleepThreads) : e ∈ s.sleepThreads :=
  List.mem_of_mem_eraseP h

/-! ## The roster and the invariant -/

/-- Every tid held by a container. -/
def offCpu (s : Scheduler) : Multiset Int :=
  (s.readyQueue : Multiset Int) + s.blockedThreads.val + (s.sleepers : Multiset Int)

/-- The running tid and every tid held by a container. -/
def roster (s : Scheduler) : Multiset Int := s.currentRunningThread ::ₘ s.offCpu

/-- The invariant of the scheduler between two calls. -/
structure Inv (s : Scheduler) : Prop where
  nodup : s.roster.Nodup
  live : ∀ tid, tid ∈ s.roster ↔ tid ∈ s.threads ∧ tid ≠ s.tidToTerminate
  ids : ∀ tid ∈ s.threads, (s.threads.getD tid).tid = tid
  range : ∀ tid ∈ s.threads, 0 ≤ tid ∧ tid < (maxThreadNum : Int)
  main : s.currentRunningThread = 0 ∨ 0 ∈ s.readyQueue
  pending : s.tidToTerminate = -1 ∨ s.tidToTerminate ∈ s.threads
  sorted : SleepSorted s.sleepThreads
  deadline : ∀ e ∈ s.sleepThreads, (s.threads.getD e.1).sleepUntil = e.2

/-- A tid is off the CPU when it is ready, blocked or asleep. -/
theorem mem_offCpu {s : Scheduler} {tid : Int} :
    tid ∈ s.offCpu ↔ tid ∈ s.readyQueue ∨ tid ∈ s.blockedThreads ∨ tid ∈ s.sleepers := by
  simp [offCpu, or_assoc]

/-- The roster is the running thread and those off the CPU. -/
theorem mem_roster {s : Scheduler} {tid : Int} :
    tid ∈ s.roster ↔ tid = s.currentRunningThread ∨ tid ∈ s.offCpu :=
  Multiset.mem_cons

namespace Inv

variable {s : Scheduler}

/-- The running thread waits in no queue. -/
theorem current_notMem_offCpu (h : s.Inv) : s.currentRunningThread ∉ s.offCpu :=
  (Multiset.nodup_cons.mp h.nodup).1

/-- No tid waits in two queues, or twice in one. -/
theorem offCpu_nodup (h : s.Inv) : s.offCpu.Nodup :=
  (Multiset.nodup_cons.mp h.nodup).2

/-- No tid is ready twice. -/
theorem ready_nodup (h : s.Inv) : s.readyQueue.Nodup := by
  have hsum := (Multiset.nodup_add.mp h.offCpu_nodup).1
  exact Multiset.coe_nodup.mp (Multiset.nodup_add.mp hsum).1

/-- No tid has two deadlines. -/
theorem sleepers_nodup (h : s.Inv) : s.sleepers.Nodup :=
  Multiset.coe_nodup.mp (Multiset.nodup_add.mp h.offCpu_nodup).2.1

/-- A ready thread is not blocked. -/
theorem ready_notMem_blocked (h : s.Inv) {tid : Int} (htid : tid ∈ s.readyQueue) :
    tid ∉ s.blockedThreads := by
  have hsum := (Multiset.nodup_add.mp h.offCpu_nodup).1
  have hdisj := (Multiset.nodup_add.mp hsum).2.2
  exact fun hb => Multiset.disjoint_left.mp hdisj (Multiset.mem_coe.mpr htid) hb

/-- A sleeper is neither ready nor blocked. -/
theorem sleepers_notMem_others (h : s.Inv) {tid : Int} (htid : tid ∈ s.sleepers) :
    tid ∉ s.readyQueue ∧ tid ∉ s.blockedThreads := by
  have hdisj := (Multiset.nodup_add.mp h.offCpu_nodup).2.2
  constructor
  · intro hr
    exact Multiset.disjoint_left.mp hdisj
      (Multiset.mem_add.mpr (Or.inl (Multiset.mem_coe.mpr hr))) (Multiset.mem_coe.mpr htid)
  · intro hb
    exact Multiset.disjoint_left.mp hdisj
      (Multiset.mem_add.mpr (Or.inr hb)) (Multiset.mem_coe.mpr htid)

/-- Every tid of the roster has a thread object. -/
theorem mem_threads_of_roster (h : s.Inv) {tid : Int} (htid : tid ∈ s.roster) :
    tid ∈ s.threads := ((h.live tid).mp htid).1

/-- The running thread has a thread object. -/
theorem current_mem (h : s.Inv) : s.currentRunningThread ∈ s.threads :=
  h.mem_threads_of_roster (Multiset.mem_cons_self _ _)

/-- A ready thread has a thread object. -/
theorem ready_mem (h : s.Inv) {tid : Int} (htid : tid ∈ s.readyQueue) : tid ∈ s.threads :=
  h.mem_threads_of_roster (mem_roster.mpr (Or.inr (mem_offCpu.mpr (Or.inl htid))))

/-- `-1`, which stands for nobody, is no thread's tid. -/
theorem neg_one_notMem (h : s.Inv) : (-1 : Int) ∉ s.threads := by
  intro hm
  have := (h.range _ hm).1
  omega

/-- The main thread's object is always there. -/
theorem zero_mem (h : s.Inv) : (0 : Int) ∈ s.threads := by
  rcases h.main with hc | hr
  · rw [← hc]; exact h.current_mem
  · exact h.ready_mem hr

end Inv

/-! ## Cleanup -/

section Cleanup

variable (s : Scheduler)

@[simp] theorem deleteTerminatedThread_readyQueue :
    s.deleteTerminatedThread.readyQueue = s.readyQueue := by
  unfold deleteTerminatedThread; split <;> rfl

@[simp] theorem deleteTerminatedThread_blockedThreads :
    s.deleteTerminatedThread.blockedThreads = s.blockedThreads := by
  unfold deleteTerminatedThread; split <;> rfl

@[simp] theorem deleteTerminatedThread_sleepThreads :
    s.deleteTerminatedThread.sleepThreads = s.sleepThreads := by
  unfold deleteTerminatedThread; split <;> rfl

@[simp] theorem deleteTerminatedThread_currentRunningThread :
    s.deleteTerminatedThread.currentRunningThread = s.currentRunningThread := by
  unfold deleteTerminatedThread; split <;> rfl

@[simp] theorem deleteTerminatedThread_totalQuantum :
    s.deleteTerminatedThread.totalQuantum = s.totalQuantum := by
  unfold deleteTerminatedThread; split <;> rfl

end Cleanup

variable {s : Scheduler}

/-- Nothing is pending after the cleanup. -/
theorem Inv.deleteTerminatedThread_tidToTerminate (h : s.Inv) :
    s.deleteTerminatedThread.tidToTerminate = -1 := by
  unfold deleteTerminatedThread
  split
  · rfl
  · rename_i hnot
    exact h.pending.resolve_right hnot

/-- Where nobody waits for deletion the cleanup does nothing. -/
theorem Inv.deleteTerminatedThread_of_none (h : s.Inv) (hnone : s.tidToTerminate = -1) :
    s.deleteTerminatedThread = s := by
  have hnot : s.tidToTerminate ∉ s.threads := hnone ▸ h.neg_one_notMem
  simp [deleteTerminatedThread, hnot]

/-- The cleanup removes the object of the thread that waits for it, and no
other. -/
theorem mem_deleteTerminatedThread (tid : Int) :
    tid ∈ s.deleteTerminatedThread.threads ↔ tid ∈ s.threads ∧ tid ≠ s.tidToTerminate := by
  unfold deleteTerminatedThread
  split
  · simp [AList.mem_erase, and_comm]
  · rename_i hnot
    constructor
    · intro hm
      exact ⟨hm, fun heq => hnot (heq ▸ hm)⟩
    · exact fun hm => hm.1

/-- The cleanup leaves the other threads' objects as they are. -/
theorem getD_deleteTerminatedThread {tid : Int} (hne : tid ≠ s.tidToTerminate) :
    s.deleteTerminatedThread.threads.getD tid = s.threads.getD tid := by
  unfold deleteTerminatedThread
  split
  · exact ThreadMap.getD_erase_ne hne
  · rfl

/-- The cleanup moves nobody. -/
theorem roster_deleteTerminatedThread : s.deleteTerminatedThread.roster = s.roster := by
  simp [roster, offCpu, sleepers]

/-- The cleanup keeps the invariant. -/
theorem Inv.deleteTerminatedThread (h : s.Inv) : s.deleteTerminatedThread.Inv := by
  have hnone := h.deleteTerminatedThread_tidToTerminate
  refine ⟨?_, ?_, ?_, ?_, ?_, Or.inl hnone, ?_, ?_⟩
  · rw [roster_deleteTerminatedThread]; exact h.nodup
  · intro tid
    rw [roster_deleteTerminatedThread, h.live, mem_deleteTerminatedThread, hnone]
    constructor
    · intro hm
      refine ⟨hm, ?_⟩
      rintro rfl
      exact h.neg_one_notMem hm.1
    · exact fun hm => hm.1
  · intro tid hm
    obtain ⟨hm, hne⟩ := (mem_deleteTerminatedThread tid).mp hm
    rw [getD_deleteTerminatedThread hne]
    exact h.ids tid hm
  · intro tid hm
    exact h.range tid ((mem_deleteTerminatedThread tid).mp hm).1
  · simpa using h.main
  · simpa using h.sorted
  · intro e he
    rw [deleteTerminatedThread_sleepThreads] at he
    have hroster : e.1 ∈ s.roster :=
      mem_roster.mpr (Or.inr (mem_offCpu.mpr (Or.inr (Or.inr (List.mem_map_of_mem he)))))
    rw [getD_deleteTerminatedThread ((h.live _).mp hroster).2]
    exact h.deadline e he

/-! ## Dispatching the front of the ready queue -/

/-- The state when a new quantum starts with `nextTid` running. -/
def dispatched (s : Scheduler) (nextTid : Int) (rest : List Int) : Scheduler :=
  { s with
    readyQueue := rest
    totalQuantum := toInt32 (s.totalQuantum + 1)
    threads := s.threads.modify nextTid Thread.incrementNumOfQuantum
    currentRunningThread := nextTid }

/-- `_preempt` for a thread that stays alive: whether or not it switches, the
front of the queue runs the next quantum. -/
theorem preempt_eq (reason : PreemptReason) {nextTid : Int} {rest : List Int}
    (hreason : reason ≠ .termination) (hqueue : s.readyQueue = nextTid :: rest)
    (hnext : nextTid ∈ s.threads) (hcurrent : s.currentRunningThread ∈ s.threads)
    (hid : (s.threads.getD nextTid).tid = nextTid) :
    s.preempt reason = .ok (.back, s.dispatched nextTid rest) := by
  by_cases heq : s.currentRunningThread = nextTid
  · simp [preempt, hqueue, dispatched, heq]
  · have hn : nextTid ∈ s.threads.modify nextTid Thread.incrementNumOfQuantum :=
      (ThreadMap.mem_modify hnext _ _).mpr hnext
    have hc : s.currentRunningThread ∈ s.threads.modify nextTid Thread.incrementNumOfQuantum :=
      (ThreadMap.mem_modify hnext _ _).mpr hcurrent
    cases reason with
    | termination => exact absurd rfl hreason
    | quantumExpiration =>
        simp [preempt, hqueue, heq, applySigJmp, ThreadMap.touch_of_mem hn,
          ThreadMap.touch_of_mem hc, hid, dispatched]
    | blocking =>
        simp [preempt, hqueue, heq, applySigJmp, ThreadMap.touch_of_mem hn,
          ThreadMap.touch_of_mem hc, hid, dispatched]

/-- `_preempt` for a thread that terminates itself. -/
theorem preempt_termination {nextTid : Int} {rest : List Int}
    (hqueue : s.readyQueue = nextTid :: rest) (hnext : nextTid ∈ s.threads)
    (hne : s.currentRunningThread ≠ nextTid)
    (hid : (s.threads.getD nextTid).tid = nextTid) :
    s.preempt .termination = .ok (.gone,
      { s.dispatched nextTid rest with tidToTerminate := s.currentRunningThread }) := by
  have hn : nextTid ∈ s.threads.modify nextTid Thread.incrementNumOfQuantum :=
    (ThreadMap.mem_modify hnext _ _).mpr hnext
  simp [preempt, hqueue, hne, applySigJmp, ThreadMap.touch_of_mem hn, hid, dispatched]

/-- The state after `_getSpawnedThreadReady`. -/
def spawned (s : Scheduler) (tid : Int) : Scheduler :=
  { s with
    readyQueue := s.readyQueue ++ [tid]
    threads := s.threads.insert tid (Thread.create tid) }

/-- The state in which a timer tick calls `_preempt`. -/
def expired (s : Scheduler) : Scheduler :=
  { s.sleepToReady with
    readyQueue := s.sleepToReady.readyQueue ++ [s.currentRunningThread] }

/-- The state in which a thread that falls asleep calls `_preempt`. -/
def fellAsleep (s : Scheduler) (numQuantums : Int) : Scheduler :=
  { s with
    threads := s.threads.modify s.currentRunningThread
      (·.setSleepUntil (toInt32 (s.totalQuantum + numQuantums)))
    sleepThreads := insertSleeper
      (s.currentRunningThread, toInt32 (s.totalQuantum + numQuantums)) s.sleepThreads }

/-- The state after a tid was put into the blocked set. -/
def blocked (s : Scheduler) (tid : Int) : Scheduler :=
  { s with blockedThreads := insert tid s.blockedThreads }

/-- The state after a tid was taken out of the blocked set. -/
def unblocked (s : Scheduler) (tid : Int) : Scheduler :=
  { s with blockedThreads := s.blockedThreads.erase tid }

end Scheduler

/-- The calls that end in `uthreadException`, with their messages. -/
inductive Rejects (p : Scheduler) : Call → String → Prop
  | spawnNull : Rejects p (.spawn none) "Can't spawn thread with nullptr function"
  | spawnFull {entry : Nat} (hfull : p.threads.size = maxThreadNum) :
      Rejects p (.spawn (some entry)) "Maximum thread count was reached"
  | terminateMissing {tid : Int} (hmissing : tid ∉ p.threads) :
      Rejects p (.terminate tid) "Don't terminate a non existent thread"
  | blockMain : Rejects p (.block 0) "Can't block main thread"
  | blockMissing {tid : Int} (hmissing : tid ∉ p.threads) :
      Rejects p (.block tid) "Don't block non existent thread"
  | resumeMissing {tid : Int} (hmissing : tid ∉ p.threads) :
      Rejects p (.resume tid) "Can't resume non existent thread"
  | sleepMain {n : Int} (hmain : p.currentRunningThread = 0) :
      Rejects p (.sleep n) "main current_thread can't sleep"
  | sleepNonPositive {n : Int} (hn : n ≤ 0) :
      Rejects p (.sleep n) "can't sleep for a non-positive number of quantums"
  | quantumsMissing {tid : Int} (hmissing : tid ∉ p.threads) :
      Rejects p (.getQuantums tid) "Can't get quantums of non existent thread"

/-- Everything a call can do to a scheduler in which no deletion is pending. -/
inductive Transition (p : Scheduler) : Call → Reply → Scheduler → Prop
  | rejected {call : Call} {message : String} (hreject : Rejects p call message) :
      Transition p call (.failed message) p
  | quantums {tid : Int} (hthread : tid ∈ p.threads) :
      Transition p (.getQuantums tid) (.returned (p.threads.getD tid).numOfQuantum) p
  | spawn {entry tid : Nat} (hlo : 1 ≤ tid) (hhi : tid < maxThreadNum)
      (hfree : (tid : Int) ∉ p.threads)
      (hleast : ∀ u, 1 ≤ u → u < tid → (u : Int) ∈ p.threads)
      (hroom : p.threads.size ≠ maxThreadNum) :
      Transition p (.spawn (some entry)) (.returned tid) (p.spawned tid)
  | tick {nextTid : Int} {rest : List Int} (hqueue : p.expired.readyQueue = nextTid :: rest) :
      Transition p .tick (.returned exitSuccess) (p.expired.dispatched nextTid rest)
  | blockAgain {tid : Int} (hblocked : tid ∈ p.blockedThreads) :
      Transition p (.block tid) (.returned exitSuccess) p
  | blockSelf {nextTid : Int} {rest : List Int} (hmain : p.currentRunningThread ≠ 0)
      (hqueue : p.readyQueue = nextTid :: rest) :
      Transition p (.block p.currentRunningThread) (.returned exitSuccess)
        ((p.blocked p.currentRunningThread).dispatched nextTid rest)
  | blockSleeper {tid : Int} (hasleep : tid ∈ p.sleepers) :
      Transition p (.block tid) (.returned exitSuccess) ((p.eraseSleeper tid).blocked tid)
  | blockReady {tid : Int} (hmain : tid ≠ 0) (hready : tid ∈ p.readyQueue) :
      Transition p (.block tid) (.returned exitSuccess) ((p.deleteReadyThread tid).blocked tid)
  | resumeIdle {tid : Int} (hthread : tid ∈ p.threads) (hnot : tid ∉ p.blockedThreads) :
      Transition p (.resume tid) (.returned exitSuccess) p
  | resumeSleeper {tid : Int} (hblocked : tid ∈ p.blockedThreads)
      (hdeadline : (p.threads.getD tid).sleepUntil ≠ -1) :
      Transition p (.resume tid) (.returned exitSuccess)
        { p.unblocked tid with
          sleepThreads := insertSleeper (tid, (p.threads.getD tid).sleepUntil) p.sleepThreads }
  | resumeReady {tid : Int} (hblocked : tid ∈ p.blockedThreads)
      (hdeadline : (p.threads.getD tid).sleepUntil = -1) :
      Transition p (.resume tid) (.returned exitSuccess)
        { p.unblocked tid with readyQueue := p.readyQueue ++ [tid] }
  | sleep {n nextTid : Int} {rest : List Int} (hmain : p.currentRunningThread ≠ 0)
      (hn : 0 < n) (hqueue : p.readyQueue = nextTid :: rest) :
      Transition p (.sleep n) (.returned exitSuccess)
        ((p.fellAsleep n).dispatched nextTid rest)
  | terminateSelf {nextTid : Int} {rest : List Int} (hmain : p.currentRunningThread ≠ 0)
      (hqueue : p.readyQueue = nextTid :: rest) :
      Transition p (.terminate p.currentRunningThread) .gone
        { p.dispatched nextTid rest with tidToTerminate := p.currentRunningThread }
  | terminateSleeper {tid : Int} (hasleep : tid ∈ p.sleepers) :
      Transition p (.terminate tid) (.returned exitSuccess)
        { p.eraseSleeper tid with tidToTerminate := tid }
  | terminateBlocked {tid : Int} (hblocked : tid ∈ p.blockedThreads) :
      Transition p (.terminate tid) (.returned exitSuccess)
        { p.unblocked tid with tidToTerminate := tid }
  | terminateReady {tid : Int} (hmain : tid ≠ 0) (hready : tid ∈ p.readyQueue) :
      Transition p (.terminate tid) (.returned exitSuccess)
        { p.deleteReadyThread tid with tidToTerminate := tid }

namespace Scheduler

variable {s : Scheduler}

/-! ## Completeness of the list -/

/-- The search stays in its range, passes only tids in use, and stops at a
free one if it stops before its end. -/
theorem lowestTidFrom_spec (threads : ThreadMap) (fuel start : Nat) :
    start ≤ lowestTidFrom threads fuel start ∧
      lowestTidFrom threads fuel start ≤ start + fuel ∧
      (∀ u, start ≤ u → u < lowestTidFrom threads fuel start → (u : Int) ∈ threads) ∧
      (lowestTidFrom threads fuel start < start + fuel →
        (lowestTidFrom threads fuel start : Int) ∉ threads) := by
  induction fuel generalizing start with
  | zero =>
      refine ⟨Nat.le_refl _, Nat.le_refl _, ?_, ?_⟩
      · intro u hlo hhi
        simp only [lowestTidFrom] at hhi
        omega
      · intro hlt
        simp [lowestTidFrom] at hlt
  | succ fuel ih =>
      by_cases hmem : (start : Int) ∈ threads
      · have heq : lowestTidFrom threads (fuel + 1) start =
            lowestTidFrom threads fuel (start + 1) := by simp [lowestTidFrom, hmem]
        obtain ⟨hlo, hhi, hbelow, hfree⟩ := ih (start + 1)
        rw [heq]
        refine ⟨by omega, by omega, ?_, fun hlt => hfree (by omega)⟩
        intro u hu hlt
        by_cases h : u = start
        · exact h ▸ hmem
        · exact hbelow u (by omega) hlt
      · have heq : lowestTidFrom threads (fuel + 1) start = start := by
          simp [lowestTidFrom, hmem]
        rw [heq]
        refine ⟨Nat.le_refl _, by omega, fun u hlo hhi => by omega, fun _ => hmem⟩

/-- While the table is not full the search finds a free tid. -/
theorem Inv.lowestTid_lt (h : s.Inv) (hroom : s.threads.size ≠ maxThreadNum) :
    lowestTidFrom s.threads (maxThreadNum - 1) 1 < maxThreadNum := by
  obtain ⟨_, hle, hbelow, _⟩ := lowestTidFrom_spec s.threads (maxThreadNum - 1) 1
  have hne : lowestTidFrom s.threads (maxThreadNum - 1) 1 ≠ maxThreadNum := by
    intro heq
    apply hroom
    let all : List Int := (List.range maxThreadNum).map Int.ofNat
    have hsub : all ⊆ s.threads.keys := by
      intro tid htid
      obtain ⟨u, hu, rfl⟩ := List.mem_map.mp htid
      have hu := List.mem_range.mp hu
      refine AList.mem_keys.mp ?_
      by_cases h0 : u = 0
      · subst h0; exact h.zero_mem
      · exact hbelow u (by omega) (by omega)
    have hsup : s.threads.keys ⊆ all := by
      intro tid htid
      have hr := h.range tid (AList.mem_keys.mpr htid)
      exact List.mem_map.mpr ⟨tid.toNat, List.mem_range.mpr (by omega), by simp; omega⟩
    have hall : all.Nodup :=
      List.nodup_range.map (fun a b hab => Int.ofNat.inj hab)
    have h1 := (hall.subperm hsub).length_le
    have h2 := (s.threads.keys_nodup.subperm hsup).length_le
    simp only [all, List.length_map, List.length_range] at h1 h2
    unfold ThreadMap.size
    omega
  unfold maxThreadNum at hle hne ⊢
  omega

/-- The front of the ready deque has an object under its own tid, and is not
the running thread. -/
theorem Inv.front_facts (h : s.Inv) {nextTid : Int} {rest : List Int}
    (hqueue : s.readyQueue = nextTid :: rest) :
    nextTid ∈ s.threads ∧ (s.threads.getD nextTid).tid = nextTid ∧
      s.currentRunningThread ≠ nextTid := by
  have hmem : nextTid ∈ s.readyQueue := by simp [hqueue]
  refine ⟨h.ready_mem hmem, h.ids _ (h.ready_mem hmem), ?_⟩
  intro heq
  exact h.current_notMem_offCpu (mem_offCpu.mpr (Or.inl (heq ▸ hmem)))

/-- Unless the main thread runs, it is in the ready queue. -/
theorem Inv.exists_front (h : s.Inv) (hmain : s.currentRunningThread ≠ 0) :
    ∃ nextTid rest, s.readyQueue = nextTid :: rest := by
  have hmem := h.main.resolve_left hmain
  cases hq : s.readyQueue with
  | nil => simp [hq] at hmem
  | cons nextTid rest => exact ⟨nextTid, rest, rfl⟩

/-- A live thread that neither runs nor is blocked is asleep or ready. -/
theorem Inv.other_cases (h : s.Inv) (hnone : s.tidToTerminate = -1) {tid : Int}
    (hthread : tid ∈ s.threads) (hrun : s.currentRunningThread ≠ tid)
    (hblocked : tid ∉ s.blockedThreads) : tid ∈ s.sleepers ∨ tid ∈ s.readyQueue := by
  have hne : tid ≠ s.tidToTerminate := by
    intro heq
    rw [heq, hnone] at hthread
    exact h.neg_one_notMem hthread
  rcases mem_roster.mp ((h.live tid).mpr ⟨hthread, hne⟩) with heq | hoff
  · exact absurd heq.symm hrun
  · rcases mem_offCpu.mp hoff with hr | hb | hs
    · exact Or.inr hr
    · exact absurd hb hblocked
    · exact Or.inl hs

/-- `spawnThread` returns, and its effect is one that `Transition` lists. -/
theorem spawnThread_transition (h : s.Inv) (entryPoint : ThreadEntryPoint) :
    ∃ r t, s.spawnThread entryPoint = .ok (r, t) ∧
      Transition s.deleteTerminatedThread (.spawn entryPoint) r t := by
  have hp := h.deleteTerminatedThread
  unfold spawnThread
  generalize s.deleteTerminatedThread = p at hp ⊢
  cases entryPoint with
  | none => exact ⟨_, p, by simp [uthreadException], .rejected .spawnNull⟩
  | some entry =>
      by_cases hfull : p.threads.size = maxThreadNum
      · exact ⟨_, p, by simp [hfull, uthreadException], .rejected (.spawnFull hfull)⟩
      · have hlt := hp.lowestTid_lt hfull
        obtain ⟨hlo, hle, hbelow, hfree⟩ := lowestTidFrom_spec p.threads (maxThreadNum - 1) 1
        have hid : p.getLowestAvailableId =
            (lowestTidFrom p.threads (maxThreadNum - 1) 1 : Int) := by
          simp [getLowestAvailableId, Nat.ne_of_lt hlt]
        generalize lowestTidFrom p.threads (maxThreadNum - 1) 1 = tid at *
        have hnotfail : (tid : Int) ≠ exitFail := by unfold exitFail; omega
        have hnot : (tid : Int) ∉ p.threads := hfree (by unfold maxThreadNum at *; omega)
        refine ⟨.returned tid, p.spawned tid, ?_, .spawn hlo hlt hnot hbelow hfull⟩
        simp [hfull, hid, hnotfail, getSpawnedThreadReady, spawned,
          ThreadMap.emplace_of_notMem hnot]

/-- `terminateThread` of another tid than 0 ends in a listed transition, also
where it does not come back to its caller. -/
theorem terminateThread_transition (h : s.Inv) (tid : Int) (hmain : tid ≠ 0) :
    ∃ r t, s.terminateThread tid = .ok (r, t) ∧
      Transition s.deleteTerminatedThread (.terminate tid) r t := by
  have hp := h.deleteTerminatedThread
  have hnone := h.deleteTerminatedThread_tidToTerminate
  unfold terminateThread
  generalize s.deleteTerminatedThread = p at hp hnone ⊢
  by_cases hthread : tid ∈ p.threads
  · by_cases hself : tid = p.currentRunningThread
    · subst hself
      obtain ⟨nextTid, rest, hqueue⟩ := hp.exists_front hmain
      obtain ⟨hnext, hid, hne⟩ := hp.front_facts hqueue
      refine ⟨.gone, _, ?_, .terminateSelf hmain hqueue⟩
      simp [hmain, isThreadExist, hthread, preempt_termination hqueue hnext hne hid]
      rfl
    · by_cases hasleep : tid ∈ p.sleepers
      · refine ⟨_, _, ?_, .terminateSleeper hasleep⟩
        have hfound : isTidSleeping { p with tidToTerminate := tid } tid = true :=
          isTidSleeping_iff.mpr hasleep
        simp [hmain, isThreadExist, hthread, hself, terminateOtherThread, hfound, eraseSleeper]
      · have hmissed : isTidSleeping { p with tidToTerminate := tid } tid = false := by
          rw [Bool.eq_false_iff]
          exact fun hf => hasleep (isTidSleeping_iff.mp hf)
        by_cases hblocked : tid ∈ p.blockedThreads
        · refine ⟨_, _, ?_, .terminateBlocked hblocked⟩
          simp [hmain, isThreadExist, hthread, hself, terminateOtherThread, hmissed, hblocked,
            unblocked]
        · have hready : tid ∈ p.readyQueue :=
            (hp.other_cases hnone hthread (Ne.symm hself) hblocked).resolve_left hasleep
          refine ⟨_, _, ?_, .terminateReady hmain hready⟩
          simp [hmain, isThreadExist, hthread, hself, terminateOtherThread, hmissed, hblocked,
            deleteReadyThread]
  · exact ⟨_, p, by simp [hmain, isThreadExist, hthread, uthreadException],
      .rejected (.terminateMissing hthread)⟩

/-- `blockThread` returns, and its effect is one that `Transition` lists. -/
theorem blockThread_transition (h : s.Inv) (tid : Int) :
    ∃ r t, s.blockThread tid = .ok (r, t) ∧
      Transition s.deleteTerminatedThread (.block tid) r t := by
  have hp := h.deleteTerminatedThread
  have hnone := h.deleteTerminatedThread_tidToTerminate
  unfold blockThread
  generalize s.deleteTerminatedThread = p at hp hnone ⊢
  by_cases hmain : tid = 0
  · subst hmain
    exact ⟨_, p, by simp [uthreadException], .rejected .blockMain⟩
  · by_cases hthread : tid ∈ p.threads
    · by_cases hblocked : tid ∈ p.blockedThreads
      · exact ⟨_, p, by simp [hmain, isThreadExist, hthread, hblocked], .blockAgain hblocked⟩
      · by_cases hself : p.currentRunningThread = tid
        · subst hself
          obtain ⟨nextTid, rest, hqueue⟩ := hp.exists_front hmain
          obtain ⟨hnext, hid, _⟩ := hp.front_facts hqueue
          have hpre := preempt_eq (s := p.blocked p.currentRunningThread)
            .blocking (by decide) hqueue hnext hp.current_mem hid
          refine ⟨_, _, ?_, .blockSelf hmain hqueue⟩
          unfold blocked at hpre
          simp [hmain, isThreadExist, hthread, hblocked, hpre]
          rfl
        · rcases hp.other_cases hnone hthread hself hblocked with hasleep | hready
          · refine ⟨_, _, ?_, .blockSleeper hasleep⟩
            simp [hmain, isThreadExist, hthread, hblocked, hself, blockOtherThread,
              isTidSleeping_iff.mpr hasleep, blocked, eraseSleeper]
          · have hmissed : p.isTidSleeping tid = false := by
              rw [Bool.eq_false_iff]
              exact fun hf => (hp.sleepers_notMem_others (isTidSleeping_iff.mp hf)).1 hready
            refine ⟨_, _, ?_, .blockReady hmain hready⟩
            simp [hmain, isThreadExist, hthread, hblocked, hself, blockOtherThread, hmissed,
              blocked, deleteReadyThread]
    · exact ⟨_, p, by simp [hmain, isThreadExist, hthread, uthreadException],
        .rejected (.blockMissing hthread)⟩

/-- A blocked thread has an object and no deadline among the sleepers. -/
theorem Inv.blocked_mem (h : s.Inv) {tid : Int} (hblocked : tid ∈ s.blockedThreads) :
    tid ∈ s.threads ∧ tid ∉ s.sleepers := by
  have hoff : tid ∈ s.offCpu := mem_offCpu.mpr (Or.inr (Or.inl hblocked))
  exact ⟨h.mem_threads_of_roster (mem_roster.mpr (Or.inr hoff)),
    fun hs => (h.sleepers_notMem_others hs).2 hblocked⟩

/-- `resumeThread` returns, and its effect is one that `Transition` lists. -/
theorem resumeThread_transition (h : s.Inv) (tid : Int) :
    ∃ r t, s.resumeThread tid = .ok (r, t) ∧
      Transition s.deleteTerminatedThread (.resume tid) r t := by
  have hp := h.deleteTerminatedThread
  unfold resumeThread
  generalize s.deleteTerminatedThread = p at hp ⊢
  by_cases hthread : tid ∈ p.threads
  · by_cases hblocked : tid ∈ p.blockedThreads
    · have hmissed : p.isTidSleeping tid = false := by
        rw [Bool.eq_false_iff]
        exact fun hf => (hp.blocked_mem hblocked).2 (isTidSleeping_iff.mp hf)
      by_cases hdeadline : (p.threads.getD tid).sleepUntil = -1
      · refine ⟨_, _, ?_, .resumeReady hblocked hdeadline⟩
        simp [isThreadExist, hthread, hblocked, hdeadline, ThreadMap.touch_of_mem hthread,
          unblocked]
      · refine ⟨_, _, ?_, .resumeSleeper hblocked hdeadline⟩
        unfold isTidSleeping at hmissed
        simp [isThreadExist, hthread, hblocked, hdeadline, ThreadMap.touch_of_mem hthread,
          isTidSleeping, hmissed, unblocked]
    · exact ⟨_, p, by simp [isThreadExist, hthread, hblocked], .resumeIdle hthread hblocked⟩
  · exact ⟨_, p, by simp [isThreadExist, hthread, uthreadException],
      .rejected (.resumeMissing hthread)⟩

/-- `sleepThread` returns, and its effect is one that `Transition` lists. -/
theorem sleepThread_transition (h : s.Inv) (n : Int) :
    ∃ r t, s.sleepThread n = .ok (r, t) ∧
      Transition s.deleteTerminatedThread (.sleep n) r t := by
  have hp := h.deleteTerminatedThread
  unfold sleepThread
  generalize s.deleteTerminatedThread = p at hp ⊢
  by_cases hmain : p.currentRunningThread = 0
  · exact ⟨_, p, by simp [hmain, uthreadException], .rejected (.sleepMain hmain)⟩
  · by_cases hn : n ≤ 0
    · exact ⟨_, p, by simp [hmain, hn, uthreadException], .rejected (.sleepNonPositive hn)⟩
    · obtain ⟨nextTid, rest, hqueue⟩ := hp.exists_front hmain
      obtain ⟨hnext, hid, _⟩ := hp.front_facts hqueue
      have hpre := preempt_eq (s := p.fellAsleep n) .blocking (by decide) hqueue
        ((ThreadMap.mem_modify hp.current_mem _ _).mpr hnext)
        ((ThreadMap.mem_modify hp.current_mem _ _).mpr hp.current_mem)
        ((ThreadMap.getD_modify_field Thread.tid
          (·.setSleepUntil (toInt32 (p.totalQuantum + n))) (fun _ => rfl) _ _ _).trans hid)
      refine ⟨_, _, ?_, .sleep hmain (by omega) hqueue⟩
      unfold fellAsleep at hpre
      simp [hmain, hn, hpre]
      rfl

/-- `getThreadQuantums` returns, and changes nothing but the cleanup. -/
theorem getThreadQuantums_transition (h : s.Inv) (tid : Int) :
    ∃ r t, s.getThreadQuantums tid = .ok (r, t) ∧
      Transition s.deleteTerminatedThread (.getQuantums tid) r t := by
  have hp := h.deleteTerminatedThread
  have hnone := h.deleteTerminatedThread_tidToTerminate
  unfold getThreadQuantums
  generalize s.deleteTerminatedThread = p at hp hnone ⊢
  by_cases hthread : tid ∈ p.threads
  · have hne : tid ≠ p.tidToTerminate := by
      intro heq
      rw [heq, hnone] at hthread
      exact hp.neg_one_notMem hthread
    exact ⟨_, p, by simp [isThreadExist, hthread, hne, ThreadMap.touch_of_mem hthread],
      .quantums hthread⟩
  · exact ⟨_, p, by simp [isThreadExist, hthread, uthreadException],
      .rejected (.quantumsMissing hthread)⟩

/-- Whoever is ready after the quantum expired was in the roster before. -/
theorem mem_expired_readyQueue (tid : Int) (htid : tid ∈ s.expired.readyQueue) :
    tid ∈ s.roster := by
  simp only [expired, sleepToReady, List.mem_append, List.mem_singleton] at htid
  rcases htid with (hr | hw) | hc
  · exact mem_roster.mpr (Or.inr (mem_offCpu.mpr (Or.inl hr)))
  · have hs : tid ∈ s.sleepers :=
      List.map_subset _ (List.takeWhile_subset _) hw
    exact mem_roster.mpr (Or.inr (mem_offCpu.mpr (Or.inr (Or.inr hs))))
  · exact mem_roster.mpr (Or.inl hc)

/-- `timerHandler` returns, and its effect is the tick that `Transition`
lists. -/
theorem timerHandler_transition (h : s.Inv) :
    ∃ r t, s.timerHandler sigvtalrm = .ok (r, t) ∧
      Transition s.deleteTerminatedThread .tick r t := by
  have hp := h.deleteTerminatedThread
  unfold timerHandler
  generalize s.deleteTerminatedThread = p at hp ⊢
  cases hqueue : p.expired.readyQueue with
  | nil => simp [expired] at hqueue
  | cons nextTid rest =>
      have hmem := hp.mem_threads_of_roster
        (mem_expired_readyQueue (s := p) nextTid (by simp [hqueue]))
      have hpre := preempt_eq (s := p.expired) .quantumExpiration (by decide)
        hqueue hmem hp.current_mem (hp.ids _ hmem)
      refine ⟨_, _, ?_, .tick hqueue⟩
      unfold expired at hpre
      simp only [ne_eq, not_true_eq_false, if_false]
      exact congrArg (fun x => x >>= fun y => Except.ok (Reply.returned exitSuccess, y.2)) hpre

end Scheduler

/-- **Completeness of the transition list.**  Every call other than terminating
the main thread goes through, and what it does is a `Transition` of the
cleaned-up state (the two getters only look). -/
theorem invoke_transition {s : Scheduler} (h : s.Inv) (call : Call)
    (hexit : call ≠ .terminate 0) :
    ∃ r t, invoke s call = .ok (r, t) ∧
      ((call = .getTid ∨ call = .getTotalQuantums) ∧ t = s ∨
        Transition s.deleteTerminatedThread call r t) := by
  cases call with
  | getTid => exact ⟨_, s, rfl, Or.inl ⟨Or.inl rfl, rfl⟩⟩
  | getTotalQuantums => exact ⟨_, s, rfl, Or.inl ⟨Or.inr rfl, rfl⟩⟩
  | spawn entryPoint =>
      obtain ⟨r, t, hrun, htr⟩ := Scheduler.spawnThread_transition h entryPoint
      exact ⟨r, t, hrun, Or.inr htr⟩
  | terminate tid =>
      obtain ⟨r, t, hrun, htr⟩ :=
        Scheduler.terminateThread_transition h tid (fun h0 => hexit (h0 ▸ rfl))
      exact ⟨r, t, hrun, Or.inr htr⟩
  | block tid =>
      obtain ⟨r, t, hrun, htr⟩ := Scheduler.blockThread_transition h tid
      exact ⟨r, t, hrun, Or.inr htr⟩
  | resume tid =>
      obtain ⟨r, t, hrun, htr⟩ := Scheduler.resumeThread_transition h tid
      exact ⟨r, t, hrun, Or.inr htr⟩
  | sleep n =>
      obtain ⟨r, t, hrun, htr⟩ := Scheduler.sleepThread_transition h n
      exact ⟨r, t, hrun, Or.inr htr⟩
  | getQuantums tid =>
      obtain ⟨r, t, hrun, htr⟩ := Scheduler.getThreadQuantums_transition h tid
      exact ⟨r, t, hrun, Or.inr htr⟩
  | tick =>
      obtain ⟨r, t, hrun, htr⟩ := Scheduler.timerHandler_transition h
      exact ⟨r, t, hrun, Or.inr htr⟩

/-- Terminating the main thread ends the process. -/
theorem invoke_terminate_main (s : Scheduler) :
    invoke s (.terminate 0) = .error (.exit exitSuccess) := by
  simp [invoke, Scheduler.terminateThread]

/-- An answered call, as a transition. -/
theorem invoke_cases {s t : Scheduler} {r : Reply} (h : s.Inv) {call : Call}
    (hcall : invoke s call = .ok (r, t)) :
    ((call = .getTid ∨ call = .getTotalQuantums) ∧ t = s) ∨
      Transition s.deleteTerminatedThread call r t := by
  by_cases hexit : call = .terminate 0
  · simp [hexit, invoke_terminate_main] at hcall
  · obtain ⟨r', t', hrun, hcase⟩ := invoke_transition h call hexit
    obtain ⟨rfl, rfl⟩ : r' = r ∧ t' = t := by simpa [hrun] using hcall
    exact hcase

/-- A call that goes on has a reply. -/
theorem invoke_of_next {s t : Scheduler} {call : Call} (hnext : next s call = some t) :
    ∃ r, invoke s call = .ok (r, t) := by
  unfold next at hnext
  cases hcall : invoke s call with
  | error e => simp [hcall] at hnext
  | ok result =>
      obtain rfl : result.2 = t := by simpa [hcall] using hnext
      exact ⟨result.1, rfl⟩

/-- A successful step, as a transition. -/
theorem next_cases {s t : Scheduler} (h : s.Inv) {call : Call} (hnext : next s call = some t) :
    ((call = .getTid ∨ call = .getTotalQuantums) ∧ t = s) ∨
      ∃ r, Transition s.deleteTerminatedThread call r t := by
  obtain ⟨r, hcall⟩ := invoke_of_next hnext
  exact (invoke_cases h hcall).imp_right fun htr => ⟨r, htr⟩

end Uthreads
