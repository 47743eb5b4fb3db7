import HujiOS.Uthreads.SleepDuration
import HujiOS.Uthreads.SpawnOrder

/-!
# What a timer tick does

The sleepers are kept by deadline, and those with equal deadlines in the order
in which `sleepThread` and `resumeThread` inserted them.  `arrivals` reads that
order off the run, and `asleep_stablyOrdered` carries it through every call.
A tick cuts the sleepers at the quantum count: those up to it line up behind
the ready threads, the running thread goes behind them, and the front of the
queue runs.

The counters are `int`s.  The transition is exact as long as the quantum count
is below `INT_MAX`; one past it the count wraps.
-/

namespace Uthreads

open MachineInt Scheduler Runs StableQueue

/-! ## The order of insertion -/

/-- The entries of the sleepers in the order in which they were inserted, at
the end of a run from `s`. -/
def arrivals (past : List TidToSleepTime) : Scheduler → List Call → List TidToSleepTime
  | _, [] => past
  | s, call :: rest =>
      match next s call with
      | none => past
      | some t => arrivals (arrived past t.sleepThreads) t rest

/-- A call takes sleepers out, or it inserts one. -/
theorem Transition.sleepThreads_cases {p t : Scheduler} {call : Call} {r : Reply} (h : p.Inv)
    (htr : Transition p call r t) :
    t.sleepThreads.Sublist p.sleepThreads ∨
      ∃ e, e ∉ p.sleepThreads ∧ t.sleepThreads = insertSleeper e p.sleepThreads := by
  cases htr with
  | tick _ => exact Or.inl (List.dropWhile_sublist _)
  | blockSleeper _ => exact Or.inl List.eraseP_sublist
  | terminateSleeper _ => exact Or.inl List.eraseP_sublist
  | resumeSleeper hblocked _ =>
      exact Or.inr ⟨_, fun hm => (h.blocked_mem hblocked).2 (List.mem_map_of_mem hm), rfl⟩
  | sleep _ _ _ =>
      exact Or.inr ⟨_, fun hm => h.current_notMem_sleepers (List.mem_map_of_mem hm), rfl⟩
  | _ => exact Or.inl (List.Sublist.refl _)

/-- **Run lemma.**  The sleepers are ordered by deadline, then by insertion. -/
theorem asleep_stablyOrdered {s t : Scheduler} {calls : List Call} {past : List TidToSleepTime}
    (h : s.Inv) (hpast : StablyOrdered Prod.snd past s.sleepThreads)
    (hrun : run next s calls = some t) :
    StablyOrdered Prod.snd (arrivals past s calls) t.sleepThreads := by
  induction calls generalizing s past with
  | nil =>
      have heq : s = t := Option.some.inj hrun
      exact heq ▸ hpast
  | cons call rest ih =>
      obtain ⟨m, hm, hrest⟩ := run_cons_some hrun
      have hstep : StablyOrdered Prod.snd (arrived past m.sleepThreads) m.sleepThreads := by
        rcases next_cases h hm with ⟨_, rfl⟩ | ⟨r, htr⟩
        · exact hpast.leave (List.Sublist.refl _)
        · rcases htr.sleepThreads_cases h.deleteTerminatedThread with hleft | ⟨e, hnew, heq⟩
          · rw [deleteTerminatedThread_sleepThreads] at hleft
            exact hpast.leave hleft
          · rw [deleteTerminatedThread_sleepThreads] at hnew heq
            rw [heq, insertSleeper_eq]
            exact hpast.enter hnew
      simp only [arrivals, hm]
      exact ih (next_inv h hm) hstep hrest

/-! ## The tick -/

/-- The sleepers that are due when the quantum count is `total`, by deadline
and then by insertion. -/
structure DueInOrder (past : List TidToSleepTime) (s : Scheduler) (due : List TidToSleepTime) :
    Prop where
  nodup : due.Nodup
  mem : ∀ e, e ∈ due ↔ e ∈ s.sleepThreads ∧ e.2 ≤ s.totalQuantum
  ordered : due.Pairwise (Ahead Prod.snd past)

/-- What a tick makes of `s` when `due` are the sleepers that are due. -/
structure TimerTick (s : Scheduler) (due : List TidToSleepTime) (t : Scheduler) : Prop where
  queue : t.currentRunningThread :: t.readyQueue =
    s.readyQueue ++ due.map Prod.fst ++ [s.currentRunningThread]
  asleep : t.sleepThreads = s.sleepThreads.filter fun e => decide (s.totalQuantum < e.2)
  blocked : t.blockedThreads = s.blockedThreads
  total : t.totalQuantum = s.totalQuantum + 1
  counted : (s.threads.getD t.currentRunningThread).numOfQuantum < intMax →
    (t.threads.getD t.currentRunningThread).numOfQuantum =
      (s.threads.getD t.currentRunningThread).numOfQuantum + 1
  others : ∀ a ∈ s.liveTids, a ≠ t.currentRunningThread →
    t.threads.lookup a = s.threads.lookup a
  live : t.liveTids = s.liveTids
  cleaned : s.tidToTerminate ∉ t.threads

/-- Below `INT_MAX` the cut of the sleepers is at the quantum count. -/
theorem isDue_eq {s : Scheduler} (hlo : intMin ≤ s.totalQuantum) (hhi : s.totalQuantum < intMax) :
    s.isDue = fun e => decide (e.2 ≤ s.totalQuantum) := by
  funext e
  unfold isDue
  rw [toInt32_of_range (by omega) (by omega)]
  simp only [sleepTimeCmp, Int.lt_add_one_iff]

/-- The due sleepers in order are the entries up to the quantum count, as the
multiset has them. -/
theorem dueInOrder_iff {s : Scheduler} {past due : List TidToSleepTime}
    (hpast : StablyOrdered Prod.snd past s.sleepThreads) :
    DueInOrder past s due ↔
      due = s.sleepThreads.filter fun e => decide (e.2 ≤ s.totalQuantum) := by
  have hcut : DueInOrder past s (s.sleepThreads.filter fun e => decide (e.2 ≤ s.totalQuantum)) :=
    { nodup := hpast.queue_nodup.filter _
      mem := by simp
      ordered := hpast.ordered.filter _ }
  constructor
  · intro hdue
    exact eq_of_ahead hpast.nodup hdue.nodup hcut.nodup
      (fun e => (hdue.mem e).trans (hcut.mem e).symm) hdue.ordered hcut.ordered
  · intro heq
    exact heq ▸ hcut

/-- The tick as a transition of the cleaned-up state. -/
theorem tick_dispatched {s : Scheduler} (h : s.Inv) :
    ∃ nextTid rest, s.deleteTerminatedThread.expired.readyQueue = nextTid :: rest ∧
      invoke s .tick = .ok (.returned exitSuccess,
        s.deleteTerminatedThread.expired.dispatched nextTid rest) := by
  obtain ⟨r, t, hcall, hcase⟩ := invoke_transition h .tick (by simp)
  rcases hcase with ⟨hgetter, _⟩ | htr
  · simp at hgetter
  · cases htr with
    | rejected hreject => cases hreject
    | tick hqueue => exact ⟨_, _, hqueue, hcall⟩

/-- The queue and the sleepers when a tick calls `_preempt`. -/
theorem expired_eq {p : Scheduler} (hsorted : SleepSorted p.sleepThreads)
    (hlo : intMin ≤ p.totalQuantum) (hbelow : p.totalQuantum < intMax) :
    p.expired.readyQueue = p.readyQueue ++
        (p.sleepThreads.filter fun e => decide (e.2 ≤ p.totalQuantum)).map Prod.fst ++
        [p.currentRunningThread] ∧
      p.expired.sleepThreads = p.sleepThreads.filter fun e => decide (p.totalQuantum < e.2) := by
  have hcut := isDue_eq hlo hbelow
  have hkeys : p.sleepThreads.Pairwise fun x y => Prod.snd x ≤ Prod.snd y := hsorted
  have htake := takeWhile_le_eq_filter p.totalQuantum hkeys
  have hdrop := dropWhile_le_eq_filter p.totalQuantum hkeys
  unfold expired sleepToReady
  rw [hcut, htake, hdrop]
  exact ⟨rfl, rfl⟩

/-- A tick that dispatches the front is the specified tick, with the due
sleepers picked by their deadlines in the order in which they wait. -/
theorem timerTick_of_filter {s : Scheduler} (hreach : Reachable s)
    (hbelow : s.totalQuantum < intMax) {nextTid : Int} {rest : List Int}
    (hqueue : s.deleteTerminatedThread.expired.readyQueue = nextTid :: rest) :
    TimerTick s (s.sleepThreads.filter fun e => decide (e.2 ≤ s.totalQuantum))
      (s.deleteTerminatedThread.expired.dispatched nextTid rest) := by
  have h := hreach.inv
  have hp := h.deleteTerminatedThread
  have hlo := hreach.inRange.total.1
  have hsame := sameThreads_cleanup h
  obtain ⟨hready, hasleep⟩ := expired_eq hp.sorted (by rwa [hsame.total]) (by rwa [hsame.total])
  rw [hsame.asleep, hsame.total, hsame.ready, hsame.running] at hready
  rw [hsame.asleep, hsame.total] at hasleep
  have hfront : nextTid ∈ s.deleteTerminatedThread.threads := by
    apply hp.mem_threads_of_roster
    exact mem_expired_readyQueue nextTid (by simp [hqueue])
  have hlive := (mem_deleteTerminatedThread nextTid).mp hfront
  have hkeys := mem_threads_dispatched (s := s.deleteTerminatedThread.expired) hfront rest
  exact
    { queue := hqueue.symm.trans hready
      asleep := hasleep
      blocked := hsame.blocked
      total := by
        have htotal : s.deleteTerminatedThread.expired.totalQuantum = s.totalQuantum := hsame.total
        simp only [dispatched, htotal]
        exact toInt32_of_range (by omega) (by omega)
      counted := fun hcount => by
        have hrange : intMin ≤ (s.threads.getD nextTid).numOfQuantum :=
          hreach.forall_threads (P := fun thread => intMin ≤ thread.numOfQuantum)
            (fun _ => show intMin ≤ 0 by decide) (fun _ _ => intMin_le_toInt32 _)
            (fun _ _ hthread => hthread) nextTid
        have hobject : s.deleteTerminatedThread.expired.threads.getD nextTid =
            s.threads.getD nextTid := getD_deleteTerminatedThread hlive.2
        simp only [dispatched] at hcount ⊢
        rw [ThreadMap.getD_modify_self, hobject]
        exact toInt32_of_range (by omega) (by omega)
      others := fun a ha hne => (AList.lookup_insert_ne hne).trans (hsame.threads a ha)
      live := (liveTids_of_keys hkeys rfl).trans hsame.live
      cleaned := fun hm => ((mem_deleteTerminatedThread _).mp ((hkeys _).mp hm)).2 rfl }

/-- **The timer tick.**  In every state of every run from `uthread_init` whose
quantum count is below `INT_MAX`: the sleepers that are due, by deadline and
then by insertion, and the running thread line up behind the ready threads,
and the front of that queue runs the next quantum; nothing else changes but
the counters and the pending deletion. -/
theorem timer_tick {quantumUsecs : Int} {s₀ s : Scheduler} {calls : List Call}
    (hinit : uthreadInit quantumUsecs = (.returned exitSuccess, some s₀))
    (hrun : run next s₀ calls = some s) (hbelow : s.totalQuantum < intMax) :
    ∃ t, invoke s .tick = .ok (.returned exitSuccess, t) ∧
      (∃ due, DueInOrder (arrivals [] s₀ calls) s due) ∧
      ∀ due, DueInOrder (arrivals [] s₀ calls) s due → TimerTick s due t := by
  have hreach : Reachable s := ⟨quantumUsecs, s₀, hinit, calls, hrun⟩
  obtain rfl := eq_create_of_uthreadInit hinit
  have hpast : StablyOrdered Prod.snd (arrivals [] (Scheduler.create quantumUsecs) calls)
      s.sleepThreads := by
    apply asleep_stablyOrdered (create_inv quantumUsecs) _ hrun
    exact ⟨List.nodup_nil, fun _ => Iff.rfl, List.Pairwise.nil⟩
  obtain ⟨nextTid, rest, hqueue, hcall⟩ := tick_dispatched hreach.inv
  refine ⟨_, hcall, ⟨_, (dueInOrder_iff hpast).mpr rfl⟩, fun due hdue => ?_⟩
  rw [(dueInOrder_iff hpast).mp hdue]
  exact timerTick_of_filter hreach hbelow hqueue

/-- Threads 1 and 2 fall asleep one after the other up to the fifth quantum; the
tick that ends it wakes them in that order. -/
theorem timer_tick_equal_deadlines :
    ∃ s t, run next (Scheduler.create 1)
        [.spawn (some 1), .spawn (some 2), .tick, .sleep 3, .sleep 2, .tick] = some s ∧
      s.totalQuantum = 5 ∧ invoke s .tick = .ok (.returned exitSuccess, t) ∧
      TimerTick s [(1, 5), (2, 5)] t := by
  let calls : List Call :=
    [.spawn (some 1), .spawn (some 2), .tick, .sleep 3, .sleep 2, .tick]
  obtain ⟨s, hrun⟩ : ∃ s, run next (Scheduler.create 1) calls = some s := ⟨_, rfl⟩
  have hstate : s.totalQuantum = 5 ∧ s.sleepThreads = [(1, 5), (2, 5)] := by
    obtain rfl := Option.some.inj hrun
    decide
  have hpast : arrivals [] (Scheduler.create 1) calls = [(1, 5), (2, 5)] := by decide
  obtain ⟨t, hcall, -, htick⟩ := @timer_tick 1 (Scheduler.create 1) s calls rfl hrun
    (by rw [hstate.1]; decide)
  refine ⟨s, t, hrun, hstate.1, hcall, htick _ ⟨by decide, ?_, ?_⟩⟩
  · intro e
    rw [hstate.1, hstate.2]
    constructor
    · intro he
      exact ⟨he, by revert e; decide⟩
    · exact fun he => he.1
  · rw [hpast]
    apply List.pairwise_pair.mpr
    exact Or.inr ⟨rfl, List.Sublist.refl _⟩

/-- Ticks alone let the main thread run on, one quantum a tick. -/
theorem run_ticks (quantumUsecs : Int) (n : Nat) (hn : (n : Int) < intMax) :
    ∃ s, run next (Scheduler.create quantumUsecs) (List.replicate n .tick) = some s ∧
      s.Inv ∧ s.totalQuantum = n + 1 := by
  induction n with
  | zero => exact ⟨_, rfl, create_inv quantumUsecs, rfl⟩
  | succ n ih =>
      obtain ⟨s, hrun, h, htotal⟩ := ih (by omega)
      obtain ⟨nextTid, rest, _, hcall⟩ := tick_dispatched h
      have hnext : next s .tick =
          some (s.deleteTerminatedThread.expired.dispatched nextTid rest) := by
        unfold next
        rw [hcall]
      refine ⟨_, ?_, next_inv h hnext, ?_⟩
      · rw [List.replicate_succ']
        exact run_snoc hrun hnext
      · have hold : s.deleteTerminatedThread.expired.totalQuantum = n + 1 :=
          (deleteTerminatedThread_totalQuantum s).trans htotal
        have hmin : intMin ≤ 0 := by decide
        simp only [dispatched, hold]
        rw [toInt32_of_range (by omega) (by omega)]
        omega

/-- After 2147483646 ticks the quantum count is `INT_MAX`, and the next tick
makes it `INT_MIN`. -/
theorem timer_tick_wraps :
    ∃ s t, run next (Scheduler.create 1) (List.replicate 2147483646 .tick) = some s ∧
      s.totalQuantum = intMax ∧ invoke s .tick = .ok (.returned exitSuccess, t) ∧
      t.totalQuantum = intMin ∧ ∀ due, ¬ TimerTick s due t := by
  obtain ⟨s, hrun, h, htotal⟩ := run_ticks 1 2147483646 (by decide)
  have hmax : s.totalQuantum = intMax := htotal
  obtain ⟨nextTid, rest, _, hcall⟩ := tick_dispatched h
  have hwrap : (s.deleteTerminatedThread.expired.dispatched nextTid rest).totalQuantum =
      intMin := by
    have hold : s.deleteTerminatedThread.expired.totalQuantum = intMax :=
      (deleteTerminatedThread_totalQuantum s).trans hmax
    simp only [dispatched, hold]
    exact toInt32_intMax_succ
  refine ⟨s, _, hrun, hmax, hcall, hwrap, fun due htick => ?_⟩
  have htotal' := htick.total
  rw [hwrap, hmax] at htotal'
  exact absurd htotal' (by decide)

end Uthreads
