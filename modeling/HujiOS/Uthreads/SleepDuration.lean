import HujiOS.Uthreads.Wakeups

/-!
# Which sleeps last

`sleepThread` accepts every positive `int` and stores the sum of the quantum
count and the duration as an `int`.  While the sum fits, the thread stays
asleep over every tick before its deadline.  A sum beyond `INT_MAX` wraps to a
negative deadline, which the next tick takes for one that has passed.
-/

namespace Uthreads

open MachineInt Scheduler Runs

/-- The running thread of `s` fell asleep for `n` quantums, which led to `t`,
and will sleep up to `d` as asked: the deadline is the exact sum, and no tick
before it, at any later time, wakes the thread. -/
structure SleepHonoured (s : Scheduler) (n d : Int) (t : Scheduler) : Prop where
  stored : (t.threads.getD s.currentRunningThread).sleepUntil = d
  asleep : (s.currentRunningThread, d) ∈ t.sleepThreads
  exact : d = s.totalQuantum + n
  later : s.totalQuantum < d
  marked : d ≠ -1
  kept : ∀ m u, Reaches next t m → (s.currentRunningThread, d) ∈ m.sleepThreads →
    m.totalQuantum < d → next m .tick = some u →
    (s.currentRunningThread, d) ∈ u.sleepThreads ∧ s.currentRunningThread ∉ u.readyQueue ∧
      s.currentRunningThread ≠ u.currentRunningThread

/-- What a call that falls asleep does. -/
theorem sleep_accepted {s : Scheduler} (h : s.Inv) (hmain : s.currentRunningThread ≠ 0) {n : Int}
    (hpos : 0 < n) :
    ∃ t, invoke s (.sleep n) = .ok (.returned exitSuccess, t) ∧
      (t.threads.getD s.currentRunningThread).sleepUntil = toInt32 (s.totalQuantum + n) ∧
      (s.currentRunningThread, toInt32 (s.totalQuantum + n)) ∈ t.sleepThreads := by
  obtain ⟨r, t, hcall, hcase⟩ := invoke_transition h (.sleep n) (by simp)
  rcases hcase with ⟨hgetter, _⟩ | htr
  · simp at hgetter
  · cases htr with
    | rejected hreject =>
        cases hreject with
        | sleepMain hzero => exact absurd (by simpa using hzero) hmain
        | sleepNonPositive hn => omega
    | @sleep _ nextTid rest _ _ hqueue =>
        have hentry : (s.currentRunningThread, toInt32 (s.totalQuantum + n)) ∈
            (s.deleteTerminatedThread.fellAsleep n).sleepThreads := by
          apply mem_insertSleeper.mpr
          left
          simp
        have hinv := (h.deleteTerminatedThread.fellAsleep (by simpa using hmain) n).dispatched
          hqueue
        exact ⟨_, hcall, hinv.deadline _ hentry, hentry⟩

/-- A tick before the deadline of a sleeper leaves it asleep. -/
theorem asleep_after_tick {m u : Scheduler} (h : m.Inv) (hrange : InRange m) {tid d : Int}
    (hentry : (tid, d) ∈ m.sleepThreads) (hbefore : m.totalQuantum < d) (hfit : d ≤ intMax)
    (htick : next m .tick = some u) :
    (tid, d) ∈ u.sleepThreads ∧ tid ∉ u.readyQueue ∧ tid ≠ u.currentRunningThread := by
  have hp := h.deleteTerminatedThread
  have hkept : (tid, d) ∈ u.sleepThreads := by
    rcases next_cases h htick with ⟨hgetter, _⟩ | ⟨r, htr⟩
    · simp at hgetter
    · cases htr with
      | rejected hreject => cases hreject
      | tick _ =>
          have hnotdue : m.deleteTerminatedThread.isDue (tid, d) = false := by
            have hlo := hrange.total.1
            unfold isDue
            rw [decide_eq_false_iff_not, deleteTerminatedThread_totalQuantum,
              toInt32_of_range (by omega) (by omega)]
            simp only [sleepTimeCmp]
            omega
          have hmem : (tid, d) ∈ m.deleteTerminatedThread.sleepThreads := by simpa using hentry
          rw [← List.takeWhile_append_dropWhile (p := m.deleteTerminatedThread.isDue)
            (l := m.deleteTerminatedThread.sleepThreads), List.mem_append] at hmem
          apply hmem.resolve_left
          intro htaken
          rw [List.mem_takeWhile_imp htaken] at hnotdue
          cases hnotdue
  have hasleep : tid ∈ u.sleepers := List.mem_map_of_mem hkept
  have hu := next_inv h htick
  refine ⟨hkept, (hu.sleepers_notMem_others hasleep).1, ?_⟩
  intro hrun
  exact hu.current_notMem_sleepers (hrun ▸ hasleep)

/-- **The sleeps that last.**  In every reachable state, an accepted sleep is
honoured exactly when its end is an `int`. -/
theorem sleep_honoured_iff {s : Scheduler} (hreach : Reachable s)
    (hmain : s.currentRunningThread ≠ 0) (hstarted : 1 ≤ s.totalQuantum) {n : Int} (hpos : 0 < n) :
    ∃ t, invoke s (.sleep n) = .ok (.returned exitSuccess, t) ∧
      ((∃ d, SleepHonoured s n d t) ↔ s.totalQuantum + n ≤ intMax) := by
  have h := hreach.inv
  obtain ⟨t, hcall, hstored, hasleep⟩ := sleep_accepted h hmain hpos
  refine ⟨t, hcall, ?_⟩
  constructor
  · intro hhonoured
    obtain ⟨d, hd⟩ := hhonoured
    have hstore := hd.stored
    rw [hstored] at hstore
    have hle := toInt32_le (s.totalQuantum + n)
    rw [hstore, hd.exact] at hle
    exact hle
  · intro hfit
    have hexact : toInt32 (s.totalQuantum + n) = s.totalQuantum + n := by
      have hmin : intMin ≤ 0 := by decide
      exact toInt32_of_range (by omega) hfit
    rw [hexact] at hstored hasleep
    have hnext : next s (.sleep n) = some t := by
      unfold next
      rw [hcall]
    refine ⟨s.totalQuantum + n, hstored, hasleep, rfl, by omega, by omega, ?_⟩
    intro m u hlater hentry hbefore htick
    have hm : Reachable m := by
      obtain ⟨quantumUsecs, s₀, hinit, calls, hrun⟩ := hreach
      obtain ⟨after, hafter⟩ := hlater
      exact ⟨quantumUsecs, s₀, hinit, _, run_join (run_snoc hrun hnext) hafter⟩
    exact asleep_after_tick hm.inv hm.inRange hentry hbefore hfit htick

/-- The main thread spawned thread 1 and a tick started it. -/
def firstThreadRuns : List Call := [.spawn (some 1), .tick]

/-- Thread 1, in the second quantum, sleeps up to the last quantum an `int`
can count. -/
theorem sleep_honoured_longest :
    ∃ s t, run next (Scheduler.create 1) firstThreadRuns = some s ∧
      invoke s (.sleep (intMax - 2)) = .ok (.returned exitSuccess, t) ∧
      SleepHonoured s (intMax - 2) intMax t := by
  obtain ⟨s, hrun⟩ : ∃ s, run next (Scheduler.create 1) firstThreadRuns = some s := ⟨_, rfl⟩
  have hstate : s.currentRunningThread = 1 ∧ s.totalQuantum = 2 := by
    obtain rfl := Option.some.inj hrun
    decide
  obtain ⟨t, hcall, hiff⟩ := sleep_honoured_iff (n := intMax - 2) ⟨1, _, rfl, _, hrun⟩
    (by rw [hstate.1]; decide) (by rw [hstate.2]; decide) (by decide)
  obtain ⟨d, hd⟩ := hiff.mpr (by rw [hstate.2]; decide)
  have hlast : d = intMax := by
    rw [hd.exact, hstate.2]
    decide
  exact ⟨s, t, hrun, hcall, hlast ▸ hd⟩

/-- Thread 1 sleeps for `INT_MAX` quantums there.  Its deadline is
-2147483647, and the next tick wakes and dispatches it. -/
theorem sleep_intMax_wakes :
    ∃ s t u, run next (Scheduler.create 1) firstThreadRuns = some s ∧
      s.currentRunningThread = 1 ∧ s.totalQuantum = 2 ∧
      invoke s (.sleep intMax) = .ok (.returned exitSuccess, t) ∧
      t.sleepThreads = [(1, -2147483647)] ∧
      next t .tick = some u ∧ u.currentRunningThread = 1 ∧ u.sleepThreads = [] ∧
      ¬ ∃ d, SleepHonoured s intMax d t := by
  refine ⟨_, _, _, rfl, by decide, by decide, rfl, by decide, rfl, by decide, by decide, ?_⟩
  intro hhonoured
  obtain ⟨d, hd⟩ := hhonoured
  have hstored : (-2147483647 : Int) = d := hd.stored
  have hsum : d = 2 + intMax := hd.exact
  unfold intMax at hsum
  omega

end Uthreads
