import HujiOS.Uthreads.Dormancy

/-!
# Which quantum starts wake the sleepers

`_sleepToReady` runs in the timer handler only.  A quantum that starts because
the running thread blocks, falls asleep or terminates itself moves the count
on without looking at the sleepers, so a thread whose deadline has passed can
be left asleep.  `wakesSleepers_iff` says exactly when that does not happen and
every thread whose sleep is over is ready or runs, for every step of every run.
-/

namespace Uthreads

open MachineInt Scheduler Runs

/-- No entry of the sleepers has a deadline before the current quantum. -/
def NoOverdue (s : Scheduler) : Prop := ∀ e ∈ s.sleepThreads, ¬ e.2 < s.totalQuantum

instance (s : Scheduler) : Decidable (NoOverdue s) :=
  inferInstanceAs (Decidable (∀ e ∈ s.sleepThreads, ¬ e.2 < s.totalQuantum))

/-- The `int` argument of a call is in the range of `int`. -/
def Call.IsInt : Call → Prop
  | .sleep n => intMin ≤ n ∧ n ≤ intMax
  | .terminate tid | .block tid | .resume tid | .getQuantums tid => intMin ≤ tid ∧ tid ≤ intMax
  | .spawn _ | .getTid | .getTotalQuantums | .tick => True

/-- What a quantum that starts after `s` owes the sleepers.  Its number is
`s.totalQuantum + 1` as an integer, also where the `int` that counts the
quantums wraps. -/
structure SleepersWoken (s t : Scheduler) : Prop where
  noOverdue : NoOverdue t
  /-- whoever has slept long enough was moved to the ready queue, or runs -/
  woken : ∀ e ∈ s.sleepThreads, e.2 < s.totalQuantum + 1 →
    e.1 ∉ t.sleepers ∧ (e.1 ∈ t.readyQueue ∨ e.1 = t.currentRunningThread)

/-- The step is a timer tick before the count is exhausted, or no sleeper is due
yet and the deadline of a new one fits an `int` (or wraps with the count). -/
def WakesSleepers (s : Scheduler) (call : Call) : Prop :=
  call = .tick ∧ s.totalQuantum < intMax ∨
    (∀ e ∈ s.sleepThreads, s.totalQuantum < e.2) ∧
      ∀ n, call = .sleep n → s.totalQuantum = intMax ∨ s.totalQuantum + n ≤ intMax

/-- `call` is a step of the run `calls` that takes `s` to `t` and starts a new
quantum. -/
def QuantumStart (s₀ : Scheduler) (calls : List Call) (s : Scheduler) (call : Call)
    (t : Scheduler) : Prop :=
  (∃ before after, calls = before ++ call :: after ∧ run next s₀ before = some s) ∧
    next s call = some t ∧ t.totalQuantum ≠ s.totalQuantum

/-! ## Ranges -/

/-- The quantum count and the deadlines are values of `int`. -/
structure InRange (s : Scheduler) : Prop where
  total : intMin ≤ s.totalQuantum ∧ s.totalQuantum ≤ intMax
  deadlines : ∀ tid, intMin ≤ (s.threads.getD tid).sleepUntil

/-- The quantum count stays a value of `int`, as it wraps. -/
theorem Transition.total_inRange {p t : Scheduler} {call : Call} {r : Reply}
    (h : intMin ≤ p.totalQuantum ∧ p.totalQuantum ≤ intMax) (htr : Transition p call r t) :
    intMin ≤ t.totalQuantum ∧ t.totalQuantum ≤ intMax := by
  have hnew : intMin ≤ toInt32 (p.totalQuantum + 1) ∧ toInt32 (p.totalQuantum + 1) ≤ intMax :=
    ⟨intMin_le_toInt32 _, toInt32_le _⟩
  cases htr with
  | tick _ => exact hnew
  | blockSelf _ _ => exact hnew
  | terminateSelf _ _ => exact hnew
  | sleep _ _ _ => exact hnew
  | _ => exact h

/-- In every reachable state the count and the deadlines are values of
`int`. -/
theorem Reachable.inRange {s : Scheduler} (h : Reachable s) : InRange s := by
  refine ⟨?_, ?_⟩
  · obtain ⟨q, s₀, hinit, hreach⟩ := h
    obtain rfl := eq_create_of_uthreadInit hinit
    have hstart : (Scheduler.create q).Inv ∧ intMin ≤ (1 : Int) ∧ (1 : Int) ≤ intMax :=
      ⟨create_inv q, by decide⟩
    refine (hreach.invariant
      (fun s => s.Inv ∧ intMin ≤ s.totalQuantum ∧ s.totalQuantum ≤ intMax) ?_ hstart).2
    intro s call t hs hnext
    refine ⟨next_inv hs.1 hnext, ?_⟩
    rcases next_cases hs.1 hnext with ⟨_, rfl⟩ | ⟨r, htr⟩
    · exact hs.2
    · exact htr.total_inRange (by simpa using hs.2)
  · exact h.forall_threads (P := fun thread => intMin ≤ thread.sleepUntil)
      (fun _ => show intMin ≤ -1 by decide) (fun _ hthread => hthread)
      (fun _ _ _ => intMin_le_toInt32 _)

/-! ## The exact condition -/

/-- Behind the cut of a list ordered by wake-up time nobody is due. -/
theorem le_of_mem_dropWhile_isDue {p : Scheduler} {l : List TidToSleepTime} (hl : SleepSorted l)
    {x : TidToSleepTime} (hx : x ∈ l.dropWhile p.isDue) :
    toInt32 (p.totalQuantum + 1) ≤ x.2 := by
  induction l with
  | nil => cases hx
  | cons y l ih =>
      obtain ⟨hy, hrest⟩ := List.pairwise_cons.mp hl
      by_cases hdue : p.isDue y = true
      · rw [List.dropWhile_cons_of_pos hdue] at hx
        exact ih hrest hx
      · rw [List.dropWhile_cons_of_neg hdue] at hx
        simp only [isDue, decide_eq_true_eq, Int.not_lt] at hdue
        rcases List.mem_cons.mp hx with rfl | hx
        · exact hdue
        · exact Int.le_trans hdue (hy x hx)

/-- A timer tick leaves no overdue sleeper. -/
theorem noOverdue_tick {p : Scheduler} (h : p.Inv) (nextTid : Int) (rest : List Int) :
    NoOverdue (p.expired.dispatched nextTid rest) :=
  fun _ he => Int.not_lt.mpr (le_of_mem_dropWhile_isDue h.sorted he)

/-- A step that starts a quantum without a tick keeps the old sleepers, and
adds the caller of `sleepThread`. -/
theorem Transition.sleepThreads_of_start {p t : Scheduler} {call : Call} {r : Reply}
    (htr : Transition p call r t) (hstart : t.totalQuantum ≠ p.totalQuantum)
    (htick : call ≠ .tick) :
    t.totalQuantum = toInt32 (p.totalQuantum + 1) ∧
      ((∀ n, call ≠ .sleep n) ∧ t.sleepThreads = p.sleepThreads ∨
        ∃ n, call = .sleep n ∧ 0 < n ∧ t.sleepThreads = insertSleeper
          (p.currentRunningThread, toInt32 (p.totalQuantum + n)) p.sleepThreads) := by
  cases htr with
  | tick _ => exact absurd rfl htick
  | blockSelf _ _ => exact ⟨rfl, Or.inl ⟨by simp, rfl⟩⟩
  | terminateSelf _ _ => exact ⟨rfl, Or.inl ⟨by simp, rfl⟩⟩
  | sleep _ hn _ => exact ⟨rfl, Or.inr ⟨_, rfl, hn, rfl⟩⟩
  | _ => exact absurd rfl hstart

/-- A new deadline lies before the next quantum exactly when it wrapped around. -/
theorem not_deadline_lt_iff {total n : Int} (hlo : intMin ≤ total) (hlt : total + 1 ≤ intMax)
    (hn : 0 < n) (hnmax : n ≤ intMax) :
    ¬ toInt32 (total + n) < total + 1 ↔ total + n ≤ intMax := by
  unfold toInt32
  rw [Int.bmod_def]
  unfold intMax intMin at *
  omega

/-- No sleeper is overdue after an insertion exactly when the old ones and the
new one are not. -/
theorem noOverdue_insertSleeper {t : Scheduler} {e : TidToSleepTime} {l : List TidToSleepTime}
    (hins : t.sleepThreads = insertSleeper e l) :
    NoOverdue t ↔ ¬ e.2 < t.totalQuantum ∧ ∀ x ∈ l, ¬ x.2 < t.totalQuantum := by
  unfold NoOverdue
  rw [hins]
  constructor
  · exact fun h => ⟨h e (mem_insertSleeper.mpr (Or.inl rfl)),
      fun x hx => h x (mem_insertSleeper.mpr (Or.inr hx))⟩
  · rintro ⟨hnew, hold⟩ x hx
    rcases mem_insertSleeper.mp hx with rfl | hx
    · exact hnew
    · exact hold x hx

/-- Where the count still fits an `int`, a tick takes every sleeper that is due
to the ready queue or lets it run. -/
theorem woken_tick {p : Scheduler} (h : p.Inv) (hlo : intMin ≤ p.totalQuantum)
    (hlt : p.totalQuantum < intMax) {nextTid : Int} {rest : List Int}
    (hqueue : p.expired.readyQueue = nextTid :: rest) {e : TidToSleepTime}
    (he : e ∈ p.sleepThreads) (hover : e.2 < p.totalQuantum + 1) :
    e.1 ∈ rest ∨ e.1 = nextTid := by
  have hexact : toInt32 (p.totalQuantum + 1) = p.totalQuantum + 1 :=
    toInt32_of_range (by omega) (by omega)
  have htaken : e ∈ p.sleepThreads.takeWhile p.isDue := by
    rw [← List.takeWhile_append_dropWhile (p := p.isDue) (l := p.sleepThreads)] at he
    refine (List.mem_append.mp he).resolve_right fun hkept => ?_
    have hahead := le_of_mem_dropWhile_isDue h.sorted hkept
    omega
  have hready : e.1 ∈ p.expired.readyQueue := by
    simp only [expired, sleepToReady, List.mem_append]
    exact Or.inl (Or.inr (List.mem_map_of_mem htaken))
  rw [hqueue] at hready
  exact (List.mem_cons.mp hready).symm

/-- When the count wraps, a tick takes nobody for due. -/
theorem sleepThreads_tick_of_wrap {p : Scheduler} (hwrap : p.totalQuantum = intMax)
    (hdeadlines : ∀ e ∈ p.sleepThreads, intMin ≤ e.2) (nextTid : Int) (rest : List Int) :
    (p.expired.dispatched nextTid rest).sleepThreads = p.sleepThreads := by
  have hnone : ∀ e ∈ p.sleepThreads, p.isDue e = false := by
    intro e he
    unfold isDue
    rw [hwrap, toInt32_intMax_succ, decide_eq_false_iff_not]
    exact Int.not_lt.mpr (hdeadlines e he)
  show p.sleepThreads.dropWhile p.isDue = p.sleepThreads
  cases hlist : p.sleepThreads with
  | nil => rfl
  | cons e l => exact List.dropWhile_cons_of_neg (by simp [hnone e (by simp [hlist])])

/-- A step that takes nobody out of the sleepers owes them nothing exactly if none
of them is due. -/
theorem sleepersWoken_iff_of_kept {s t : Scheduler}
    (hkept : ∀ e ∈ s.sleepThreads, e ∈ t.sleepThreads) :
    SleepersWoken s t ↔ NoOverdue t ∧ ∀ e ∈ s.sleepThreads, s.totalQuantum < e.2 := by
  constructor
  · intro hall
    refine ⟨hall.noOverdue, fun e he => ?_⟩
    by_contra hover
    exact (hall.woken e he (by omega)).1 (List.mem_map_of_mem (hkept e he))
  · intro hall
    refine ⟨hall.1, fun e he hover => ?_⟩
    have := hall.2 e he
    omega

/-- **Step lemma for ticks.** -/
theorem sleepersWoken_tick_iff {s t : Scheduler} (hreach : Reachable s)
    (hnext : next s .tick = some t) : SleepersWoken s t ↔ WakesSleepers s .tick := by
  have h := hreach.inv
  have hr := hreach.inRange
  have hp := h.deleteTerminatedThread
  rcases next_cases h hnext with ⟨hgetter, _⟩ | ⟨r, htr⟩
  · simp at hgetter
  have ht := next_inv h hnext
  cases htr with
  | rejected hreject => cases hreject
  | @tick nextTid rest hqueue =>
      have hover := noOverdue_tick hp nextTid rest
      by_cases hwrap : s.totalQuantum = intMax
      · have hsame := sleepThreads_tick_of_wrap (p := s.deleteTerminatedThread)
          (by simpa using hwrap)
          (fun e he => h.deadline e (by simpa using he) ▸ hr.deadlines e.1) nextTid rest
        rw [deleteTerminatedThread_sleepThreads] at hsame
        rw [sleepersWoken_iff_of_kept fun e he => hsame.symm ▸ he]
        constructor
        · intro hall
          exact Or.inr ⟨hall.2, fun _ heq => Call.noConfusion heq⟩
        · intro hcond
          rcases hcond with ⟨_, hlt⟩ | ⟨hahead, _⟩
          · omega
          · exact ⟨hover, hahead⟩
      · have hlt : s.totalQuantum < intMax := by have := hr.total.2; omega
        refine iff_of_true ⟨hover, ?_⟩ (Or.inl ⟨rfl, hlt⟩)
        intro e he hdue
        have hmoved := woken_tick hp (by simpa using hr.total.1) (by simpa using hlt) hqueue
          (by simpa using he) (by simpa using hdue)
        refine ⟨fun hasleep => ?_, hmoved⟩
        rcases hmoved with hready | hruns
        · exact (ht.sleepers_notMem_others hasleep).1 hready
        · exact ht.current_notMem_sleepers (hruns ▸ hasleep)

/-- **Step lemma for the other ways to start a quantum.** -/
theorem sleepersWoken_start_iff {s t : Scheduler} {call : Call} (hreach : Reachable s)
    (hint : call.IsInt) (hnext : next s call = some t)
    (hstart : t.totalQuantum ≠ s.totalQuantum) (htick : call ≠ .tick) :
    SleepersWoken s t ↔ WakesSleepers s call := by
  have h := hreach.inv
  have hr := hreach.inRange
  have ht := next_inv h hnext
  rcases next_cases h hnext with ⟨_, rfl⟩ | ⟨r, htr⟩
  · exact absurd rfl hstart
  have hstart' : t.totalQuantum ≠ s.deleteTerminatedThread.totalQuantum := by simpa using hstart
  obtain ⟨htotal, hsleep⟩ := htr.sleepThreads_of_start hstart' htick
  simp only [deleteTerminatedThread_totalQuantum, deleteTerminatedThread_sleepThreads,
    deleteTerminatedThread_currentRunningThread] at htotal hsleep
  have hkept : ∀ e ∈ s.sleepThreads, e ∈ t.sleepThreads := by
    intro e he
    rcases hsleep with ⟨_, hsame⟩ | ⟨n, _, _, hins⟩
    · exact hsame.symm ▸ he
    · exact hins.symm ▸ mem_insertSleeper.mpr (Or.inr he)
  have hmin : ∀ e ∈ t.sleepThreads, intMin ≤ e.2 := by
    have hlater : Reachable t := by
      obtain ⟨q, s₀, hinit, hreach⟩ := hreach
      exact ⟨q, s₀, hinit, hreach.snoc hnext⟩
    exact fun e he => (ht.deadline e he) ▸ hlater.inRange.deadlines e.1
  rw [sleepersWoken_iff_of_kept hkept]
  unfold WakesSleepers
  simp only [htick, false_and, false_or]
  by_cases hwrap : s.totalQuantum = intMax
  · -- the count is at `INT_MIN` now, below every deadline
    have hover : NoOverdue t := by
      intro e he
      rw [htotal, hwrap, toInt32_intMax_succ]
      exact Int.not_lt.mpr (hmin e he)
    simp only [hover, hwrap, true_and, true_or, implies_true, and_true]
  · have hlt : s.totalQuantum + 1 ≤ intMax := by have := hr.total.2; omega
    have hlo := hr.total.1
    rw [toInt32_of_range (by omega) hlt] at htotal
    simp only [hwrap, false_or]
    rcases hsleep with ⟨hnot, hsame⟩ | ⟨n, rfl, hn, hins⟩
    · unfold NoOverdue
      rw [hsame, htotal]
      constructor
      · exact fun hall => ⟨hall.2, fun n heq => absurd heq (hnot n)⟩
      · exact fun hcond => ⟨fun e he => by have := hcond.1 e he; omega, hcond.1⟩
    · rw [noOverdue_insertSleeper hins, htotal, not_deadline_lt_iff hlo hlt hn hint.2]
      constructor
      · rintro ⟨⟨hfit, _⟩, hahead⟩
        refine ⟨hahead, fun n' heq => ?_⟩
        obtain rfl : n = n' := by simpa using heq
        exact hfit
      · rintro ⟨hahead, hfit⟩
        exact ⟨⟨hfit n rfl, fun e he => by have := hahead e he; omega⟩, hahead⟩

/-- **Sleepers over whole runs.**  At every quantum start of every run from
`uthread_init`, nobody is left asleep beyond the deadline, and whoever has slept
long enough is ready or runs, exactly when the start was a timer tick with the
count below `INT_MAX`, or no sleeper was due before it and the deadline of a new
sleeper fits an `int` (or wraps together with the count). -/
theorem wakesSleepers_iff {quantumUsecs : Int} {s₀ s t : Scheduler} {calls : List Call}
    {call : Call} (hinit : uthreadInit quantumUsecs = (.returned exitSuccess, some s₀))
    (hint : ∀ c ∈ calls, c.IsInt) (hstart : QuantumStart s₀ calls s call t) :
    SleepersWoken s t ↔ WakesSleepers s call := by
  obtain ⟨⟨before, after, hsplit, hbefore⟩, hnext, hne⟩ := hstart
  have hcall : call ∈ calls := by simp [hsplit]
  have hreach : Reachable s := ⟨quantumUsecs, s₀, hinit, before, hbefore⟩
  by_cases htick : call = .tick
  · subst htick
    exact sleepersWoken_tick_iff hreach hnext
  · exact sleepersWoken_start_iff hreach (hint call hcall) hnext hne htick

/-- The calls of two threads: thread 1 sleeps for one quantum, thread 2 blocks
itself in the next one. -/
def sleepThenBlock : List Call :=
  [.spawn (some 1), .spawn (some 2), .tick, .sleep 1, .block 2]

/-- A sleeper is left overdue when the next quantum starts by a block. -/
theorem sleepThenBlock_overdue :
    uthreadInit 1 = (.returned exitSuccess, some (Scheduler.create 1)) ∧
    ∃ s t, QuantumStart (Scheduler.create 1) sleepThenBlock s (.block 2) t ∧
      t.sleepThreads = [(1, 3)] ∧ t.totalQuantum = 4 ∧ ¬ NoOverdue t ∧ ¬ SleepersWoken s t := by
  have hover : ∃ s t, QuantumStart (Scheduler.create 1) sleepThenBlock s (.block 2) t ∧
      t.sleepThreads = [(1, 3)] ∧ t.totalQuantum = 4 ∧ ¬ NoOverdue t :=
    ⟨_, _, ⟨⟨[.spawn (some 1), .spawn (some 2), .tick, .sleep 1], [], rfl, rfl⟩, rfl, by decide⟩,
      by decide, by decide, by decide⟩
  obtain ⟨s, t, hstart, hsleepers, htotal, hnot⟩ := hover
  exact ⟨rfl, s, t, hstart, hsleepers, htotal, hnot, fun hwoken => hnot hwoken.noOverdue⟩

/-- When the second quantum starts by a tick instead, the sleeper is awake. -/
theorem sleepThenTick_wakes :
    ∃ s t, run next (Scheduler.create 1)
        [.spawn (some 1), .spawn (some 2), .tick, .sleep 1] = some s ∧
      next s .tick = some t ∧ s.sleepThreads = [(1, 3)] ∧ SleepersWoken s t :=
  ⟨_, _, rfl, rfl, by decide, (@wakesSleepers_iff 1 (Scheduler.create 1) _ _
    [.spawn (some 1), .spawn (some 2), .tick, .sleep 1, .tick] .tick rfl
    (by simp [Call.IsInt, intMin, intMax])
    ⟨⟨[.spawn (some 1), .spawn (some 2), .tick, .sleep 1], [], rfl, rfl⟩, rfl, by decide⟩).mpr
    (Or.inl ⟨rfl, by decide⟩)⟩

end Uthreads
