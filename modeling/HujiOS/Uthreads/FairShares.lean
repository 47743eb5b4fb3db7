import HujiOS.Uthreads.RoundRobin
import Mathlib.Data.Int.Interval

/-!
# Fair shares of the processor

A ready thread moves up by one place with each quantum that starts, so that it runs
after at most as many quanta as there were threads in front of it.  And since a thread
that has run lines up behind all others, of two threads that are never blocked, asleep
or terminated neither gets two quanta while the other waits: the one ahead is one
quantum ahead at most, then the other is ahead.
-/

namespace Uthreads

open MachineInt Scheduler Runs Fifo

/-- The threads that a run dispatches, one for each quantum that it starts. -/
def dispatches (s : Scheduler) (calls : List Call) : List Int :=
  observed next (fun s _ t => (dispatch s t).toList) s calls

/-- Throughout the run `tid` is running or ready. -/
def StaysRunnable (s : Scheduler) (calls : List Call) (tid : Int) : Prop :=
  ∀ before after m, calls = before ++ after → run next s before = some m →
    tid = m.currentRunningThread ∨ tid ∈ m.readyQueue

/-- How many quantums the library has counted for `tid`. -/
def Scheduler.quantumsOf (s : Scheduler) (tid : Int) : Int := (s.threads.getD tid).numOfQuantum

variable {s t m p : Scheduler} {call : Call} {calls rest : List Call} {a b tid : Int}

/-- A thread that stays runnable is so at the start. -/
theorem StaysRunnable.start (h : StaysRunnable s calls tid) :
    tid = s.currentRunningThread ∨ tid ∈ s.readyQueue :=
  h [] calls s rfl rfl

/-- A thread that stays runnable does so over the rest of the run. -/
theorem StaysRunnable.tail (h : StaysRunnable s (call :: rest) tid)
    (hm : next s call = some m) : StaysRunnable m rest tid := by
  intro before after x hsplit hrun
  refine h (call :: before) after x (by rw [hsplit, List.cons_append]) ?_
  rw [run_cons, hm]
  exact hrun

/-- The same, checked along the run. -/
def runnableThroughout : Scheduler → List Call → Int → Bool
  | s, [], tid => tid = s.currentRunningThread ∨ tid ∈ s.readyQueue
  | s, call :: rest, tid => (tid = s.currentRunningThread ∨ tid ∈ s.readyQueue) ∧
      (next s call).all fun m => runnableThroughout m rest tid

/-- The computed test decides whether a thread stays runnable. -/
theorem staysRunnable_iff : StaysRunnable s calls tid ↔ runnableThroughout s calls tid = true := by
  induction calls generalizing s with
  | nil =>
      rw [runnableThroughout, decide_eq_true_iff]
      constructor
      · exact StaysRunnable.start
      · intro h before after m hsplit hrun
        obtain ⟨rfl, _⟩ := List.append_eq_nil_iff.mp hsplit.symm
        obtain rfl : s = m := Option.some.inj hrun
        exact h
  | cons call rest ih =>
      rw [runnableThroughout, decide_eq_true_iff, Option.all_eq_true]
      constructor
      · intro h
        exact ⟨h.start, fun m hm => ih.mp (h.tail hm)⟩
      · intro h before after x hsplit hrun
        cases before with
        | nil =>
            obtain rfl : s = x := Option.some.inj hrun
            exact h.1
        | cons first before =>
            rw [List.cons_append] at hsplit
            obtain ⟨rfl, hafter⟩ := List.cons.inj hsplit
            obtain ⟨m, hm, hlater⟩ := run_cons_some hrun
            exact ih.mpr (h.2 m hm) before after x hafter hlater

instance : Decidable (StaysRunnable s calls tid) := decidable_of_iff _ staysRunnable_iff.symm

/-- The dispatches of a run are that of its first step, then the rest. -/
theorem dispatches_cons (hm : next s call = some m) :
    dispatches s (call :: rest) = (dispatch s m).toList ++ dispatches m rest :=
  observed_cons hm

/-- The running thread does not wait. -/
theorem Scheduler.Inv.current_notMem_ready (h : s.Inv) : s.currentRunningThread ∉ s.readyQueue :=
  fun hready => h.current_notMem_offCpu (mem_offCpu.mpr (Or.inl hready))

/-- A waiting thread that stays runnable and is not dispatched goes on waiting. -/
theorem StaysRunnable.waits (hstay : StaysRunnable m rest tid) (h : s.Inv)
    (hserve : ServesFront s m) (hready : tid ∈ s.readyQueue)
    (hnot : dispatch s m ≠ some tid) : tid ∈ m.readyQueue := by
  refine hstay.start.resolve_left fun heq => ?_
  rw [hserve.current] at heq
  cases hserved : dispatch s m with
  | none =>
      rw [hserved, Option.getD_none] at heq
      exact h.current_notMem_ready (heq ▸ hready)
  | some x =>
      rw [hserved, Option.getD_some] at heq
      exact hnot (hserved.trans (congrArg some heq.symm))

/-! ## Bounded waiting -/

/-- **Run lemma.**  With each quantum that goes to another thread a waiting one moves
up. -/
theorem dispatched_by_position (h : s.Inv) (hready : a ∈ s.readyQueue)
    (hstay : StaysRunnable s calls a) (hrun : run next s calls = some t)
    (hmany : s.readyQueue.idxOf a < (dispatches s calls).length) :
    ∃ i ≤ s.readyQueue.idxOf a, (dispatches s calls)[i]? = some a := by
  induction calls generalizing s with
  | nil => cases hmany
  | cons call rest ih =>
      obtain ⟨m, hm, hrest⟩ := run_cons_some hrun
      have hserve := next_servesFront h hm
      rw [dispatches_cons hm] at hmany ⊢
      by_cases hserved : dispatch s m = some a
      · refine ⟨0, Nat.zero_le _, ?_⟩
        rw [hserved]
        rfl
      · have hwaits := (hstay.tail hm).waits h hserve hready hserved
        have hup := hserve.queue.idxOf_le h.ready_nodup hready hwaits
        rw [List.length_append] at hmany
        obtain ⟨i, hi, hget⟩ := ih (next_inv h hm) hwaits (hstay.tail hm) hrest (by omega)
        refine ⟨(dispatch s m).toList.length + i, by omega, ?_⟩
        rw [List.getElem?_append_right (Nat.le_add_right _ _), Nat.add_sub_cancel_left]
        exact hget

/-- A timer tick always starts a quantum. -/
theorem dispatch_tick (h : s.Inv) (hm : next s .tick = some m) : ∃ x, dispatch s m = some x := by
  rcases next_cases h hm with ⟨hgetter, _⟩ | ⟨r, htr⟩
  · simp at hgetter
  · cases htr with
    | rejected hreject => cases hreject
    | @tick nextTid rest _ =>
        refine ⟨_, if_neg ?_⟩
        simpa [dispatched, expired, sleepToReady] using toInt32_succ_ne s.totalQuantum

/-- Every tick dispatches a thread, so there are at least as many
dispatches. -/
theorem count_tick_le (h : s.Inv) (hrun : run next s calls = some t) :
    calls.count .tick ≤ (dispatches s calls).length := by
  induction calls generalizing s with
  | nil => exact Nat.zero_le _
  | cons call rest ih =>
      obtain ⟨m, hm, hrest⟩ := run_cons_some hrun
      have hlater := ih (next_inv h hm) hrest
      rw [dispatches_cons hm, List.length_append, List.count_cons]
      by_cases htick : call = .tick
      · subst htick
        obtain ⟨x, hx⟩ := dispatch_tick h hm
        rw [hx, Option.toList_some, List.length_singleton, if_pos (by simp)]
        omega
      · rw [if_neg (by simpa using htick)]
        omega

/-- The threads that wait are fewer than the ids. -/
theorem Scheduler.Inv.length_readyQueue_lt (h : s.Inv) : s.readyQueue.length < maxThreadNum := by
  have hnodup : (s.currentRunningThread :: s.readyQueue).Nodup :=
    List.nodup_cons.mpr ⟨h.current_notMem_ready, h.ready_nodup⟩
  have hrange : (s.currentRunningThread :: s.readyQueue).toFinset ⊆
      Finset.Ico 0 (maxThreadNum : Int) := by
    intro x hx
    rw [List.mem_toFinset, List.mem_cons] at hx
    have hroster : x ∈ s.roster := by
      rw [mem_roster, mem_offCpu]
      exact hx.imp_right Or.inl
    have hbounds := h.range x ((h.live x).mp hroster).1
    exact Finset.mem_Ico.mpr hbounds
  have hcard := Finset.card_le_card hrange
  rw [List.toFinset_card_of_nodup hnodup, Int.card_Ico, List.length_cons] at hcard
  omega

/-- **Bounded waiting.**  A thread that waits behind `k` others and stays runnable is
among the next `k + 1` threads that are dispatched, so it runs before `k + 1` timer
ticks are over, and `k` is at most `MAX_THREAD_NUM - 2`. -/
theorem bounded_waiting (hs : Reachable s) (hready : a ∈ s.readyQueue)
    (hstay : StaysRunnable s calls a) (hrun : run next s calls = some t) :
    s.readyQueue.idxOf a + 2 ≤ maxThreadNum ∧
    calls.count .tick ≤ (dispatches s calls).length ∧
    (s.readyQueue.idxOf a < (dispatches s calls).length →
      a ∈ (dispatches s calls).take (s.readyQueue.idxOf a + 1)) := by
  have h := hs.inv
  refine ⟨?_, count_tick_le h hrun, fun hmany => ?_⟩
  · have hlt := List.idxOf_lt_length_of_mem hready
    have hle := h.length_readyQueue_lt
    omega
  · obtain ⟨i, hi, hget⟩ := dispatched_by_position h hready hstay hrun hmany
    apply List.mem_of_getElem? (i := i)
    rw [List.getElem?_take_of_lt (by omega)]
    exact hget

/-- Threads 1 and 2 are spawned; the second tick dispatches thread 2. -/
theorem bounded_waiting_two_threads :
    ∃ s, run next (Scheduler.create 1) [.spawn (some 1), .spawn (some 2)] = some s ∧
      2 ∈ (dispatches s [.tick, .tick]).take 2 := by
  refine ⟨_, rfl, ?_⟩
  exact (bounded_waiting ⟨1, Scheduler.create 1, rfl, [.spawn (some 1), .spawn (some 2)], rfl⟩
    (by decide) (by decide) rfl).2.2 (by decide)

/-! ## Fair shares -/

/-- **Run lemma.**  The thread ahead gets as many quanta as the other, or one more. -/
theorem count_dispatches_of_ahead (h : s.Inv) (hne : a ≠ b) (hahead : Ahead a b s.readyQueue)
    (ha : StaysRunnable s calls a) (hb : StaysRunnable s calls b)
    (hrun : run next s calls = some t) :
    (dispatches s calls).count b ≤ (dispatches s calls).count a ∧
      (dispatches s calls).count a ≤ (dispatches s calls).count b + 1 := by
  induction calls generalizing s a b with
  | nil => exact ⟨le_rfl, Nat.zero_le _⟩
  | cons call rest ih =>
      obtain ⟨m, hm, hrest⟩ := run_cons_some hrun
      have hserve := next_servesFront h hm
      have hnext := next_inv h hm
      have hnot := hserve.queue.not_served h.ready_nodup hne hahead
      rw [dispatches_cons hm, List.count_append, List.count_append]
      by_cases hserved : dispatch s m = some a
      · -- `a` runs and lines up behind `b` at best
        have hcur : m.currentRunningThread = a := by
          rw [hserve.current, hserved, Option.getD_some]
        have hbready : b ∈ m.readyQueue := by
          refine (hb.tail hm).start.resolve_left fun heq => hne ?_
          exact (heq.trans hcur).symm
        have hbehind : Ahead b a m.readyQueue :=
          ⟨hbready, fun hmem => absurd (hcur ▸ hmem) hnext.current_notMem_ready⟩
        obtain ⟨hle, hge⟩ := ih hnext hne.symm hbehind (hb.tail hm) (ha.tail hm) hrest
        rw [hserved, Option.toList_some, List.count_singleton_self,
          List.count_singleton, if_neg (by simpa using hne)]
        omega
      · have hwaits := (ha.tail hm).waits h hserve hahead.1 hserved
        obtain ⟨hle, hge⟩ := ih hnext hne (hserve.queue.ahead h.ready_nodup hahead hwaits)
          (ha.tail hm) (hb.tail hm) hrest
        have hzero : ∀ x, dispatch s m ≠ some x → (dispatch s m).toList.count x = 0 := by
          intro x hx
          rw [List.count_eq_zero, Option.mem_toList]
          exact hx
        rw [hzero a hserved, hzero b hnot]
        omega

/-- Of two threads that are runnable one is ahead. -/
theorem ahead_of_runnable (h : s.Inv) (hne : a ≠ b)
    (ha : a = s.currentRunningThread ∨ a ∈ s.readyQueue)
    (hb : b = s.currentRunningThread ∨ b ∈ s.readyQueue) :
    Ahead a b s.readyQueue ∨ Ahead b a s.readyQueue := by
  rcases ha with rfl | ha
  · have hb : b ∈ s.readyQueue := hb.resolve_left hne.symm
    exact Or.inr ⟨hb, fun hmem => absurd hmem h.current_notMem_ready⟩
  · rcases hb with rfl | hb
    · exact Or.inl ⟨ha, fun hmem => absurd hmem h.current_notMem_ready⟩
    · exact ahead_total ha hb hne

/-! ## The counters of the threads -/

/-- `_preempt` counts the quantum for the thread it dispatches. -/
theorem quantumsOf_dispatched {q : Scheduler} {nextTid : Int} {rest : List Int}
    (htotal : q.totalQuantum = p.totalQuantum) (hsame : q.quantumsOf tid = p.quantumsOf tid) :
    (q.dispatched nextTid rest).quantumsOf tid =
      if dispatch p (q.dispatched nextTid rest) = some tid then toInt32 (p.quantumsOf tid + 1)
      else p.quantumsOf tid := by
  have hne : toInt32 (q.totalQuantum + 1) ≠ p.totalQuantum := htotal ▸ toInt32_succ_ne _
  have hserved : dispatch p (q.dispatched nextTid rest) = some nextTid := if_neg hne
  rw [hserved]
  by_cases heq : nextTid = tid
  · subst heq
    rw [if_pos rfl, ← hsame]
    simp [quantumsOf, dispatched, Thread.incrementNumOfQuantum]
  · rw [if_neg (by simpa using heq), ← hsame]
    simp [quantumsOf, dispatched, ThreadMap.getD_modify_ne (Ne.symm heq)]

/-- **Step lemma.**  The counter of a live thread counts the quanta it is given. -/
theorem Transition.quantumsOf_eq {r : Reply} (htr : Transition p call r t)
    (hmem : tid ∈ p.threads) :
    t.quantumsOf tid =
      if dispatch p t = some tid then toInt32 (p.quantumsOf tid + 1) else p.quantumsOf tid := by
  have hquiet : ∀ {q : Scheduler}, q.totalQuantum = p.totalQuantum →
      q.quantumsOf tid = p.quantumsOf tid →
      q.quantumsOf tid =
        if dispatch p q = some tid then toInt32 (p.quantumsOf tid + 1) else p.quantumsOf tid := by
    intro q htotal hsame
    have hnone : dispatch p q = none := if_pos htotal
    rw [hnone, if_neg (by simp), hsame]
  cases htr with
  | @spawn _ new _ _ hfree _ _ =>
      have hne : tid ≠ new := fun heq => hfree (heq ▸ hmem)
      exact hquiet rfl (by simp [quantumsOf, spawned, ThreadMap.getD_insert_ne hne])
  | tick _ => exact quantumsOf_dispatched rfl rfl
  | blockSelf _ _ => exact quantumsOf_dispatched rfl rfl
  | @sleep n _ _ _ _ _ =>
      exact quantumsOf_dispatched rfl (ThreadMap.getD_modify_field Thread.numOfQuantum
        (·.setSleepUntil (toInt32 (p.totalQuantum + n))) (fun _ => rfl) _ _ tid)
  | @terminateSelf nextTid rest _ _ =>
      exact @quantumsOf_dispatched p tid p nextTid rest rfl rfl
  | _ => exact hquiet rfl rfl

/-- A step counts one quantum for the thread that it dispatches, and none for
the others. -/
theorem next_quantumsOf (h : s.Inv) (hm : next s call = some m) (hlive : tid ∈ s.roster) :
    m.quantumsOf tid =
      if dispatch s m = some tid then toInt32 (s.quantumsOf tid + 1) else s.quantumsOf tid := by
  obtain ⟨hmem, hne⟩ := (h.live tid).mp hlive
  rcases next_cases h hm with ⟨_, rfl⟩ | ⟨r, htr⟩
  · rw [if_neg (by simp [dispatch])]
  · have hstep := htr.quantumsOf_eq ((mem_deleteTerminatedThread tid).mpr ⟨hmem, hne⟩)
    have hsame : s.deleteTerminatedThread.quantumsOf tid = s.quantumsOf tid := by
      unfold quantumsOf
      rw [getD_deleteTerminatedThread hne]
    rw [hsame] at hstep
    simpa [dispatch] using hstep

/-- **Run lemma.** -/
theorem quantumsOf_run (h : s.Inv) (hstay : StaysRunnable s calls a)
    (hrun : run next s calls = some t) :
    toInt32 (t.quantumsOf a) = toInt32 (s.quantumsOf a + (dispatches s calls).count a) := by
  induction calls generalizing s with
  | nil =>
      obtain rfl : s = t := Option.some.inj hrun
      simp [dispatches]
  | cons call rest ih =>
      obtain ⟨m, hm, hrest⟩ := run_cons_some hrun
      have hlive : a ∈ s.roster := by
        rw [mem_roster, mem_offCpu]
        exact hstay.start.imp_right Or.inl
      rw [ih (next_inv h hm) (hstay.tail hm) hrest, next_quantumsOf h hm hlive,
        dispatches_cons hm, List.count_append]
      by_cases hserved : dispatch s m = some a
      · rw [if_pos hserved, hserved, Option.toList_some, List.count_singleton_self]
        unfold toInt32
        rw [Int.bmod_add_bmod]
        congr 1
        push_cast
        omega
      · have hzero : (dispatch s m).toList.count a = 0 := by
          rw [List.count_eq_zero, Option.mem_toList]
          exact hserved
        rw [if_neg hserved, hzero, Nat.zero_add]

/-- The counters are `int`s. -/
theorem Reachable.toInt32_quantumsOf (hs : Reachable s) (tid : Int) :
    toInt32 (s.quantumsOf tid) = s.quantumsOf tid := by
  have hrange := hs.forall_threads (P := fun thread => intMin ≤ thread.numOfQuantum ∧
    thread.numOfQuantum ≤ intMax) (fun _ => show intMin ≤ 0 ∧ 0 ≤ intMax by decide)
    (fun _ _ => ⟨intMin_le_toInt32 _, toInt32_le _⟩) (fun _ _ h => h) tid
  exact toInt32_of_range hrange.1 hrange.2

/-- **Fair shares.**  Of two threads that stay running or ready throughout, neither
gets more than one quantum more than the other, and the one behind does not get more;
their counters, which `uthread_get_quantums` returns, have grown by exactly these
numbers. -/
theorem fair_shares (hs : Reachable s) (hne : a ≠ b) (ha : StaysRunnable s calls a)
    (hb : StaysRunnable s calls b) (hrun : run next s calls = some t) :
    (dispatches s calls).count a ≤ (dispatches s calls).count b + 1 ∧
    (Before a b s.readyQueue ∨ b = s.currentRunningThread →
      (dispatches s calls).count b ≤ (dispatches s calls).count a) ∧
    t.quantumsOf a = toInt32 (s.quantumsOf a + (dispatches s calls).count a) := by
  have h := hs.inv
  have ht : Reachable t := by
    obtain ⟨q, s₀, hinit, before, hbefore⟩ := hs
    exact ⟨q, s₀, hinit, before ++ calls, run_join hbefore hrun⟩
  refine ⟨?_, fun horder => ?_, ?_⟩
  · rcases ahead_of_runnable h hne ha.start hb.start with hahead | hahead
    · exact (count_dispatches_of_ahead h hne hahead ha hb hrun).2
    · exact (count_dispatches_of_ahead h hne.symm hahead hb ha hrun).1.trans (Nat.le_succ _)
  · have hahead : Ahead a b s.readyQueue := by
      rcases horder with hbefore | rfl
      · exact ⟨hbefore.mem_left, fun _ => hbefore⟩
      · exact ⟨ha.start.resolve_left hne, fun hmem => absurd hmem h.current_notMem_ready⟩
    exact (count_dispatches_of_ahead h hne hahead ha hb hrun).1
  · rw [← ht.toInt32_quantumsOf a]
    exact quantumsOf_run h ha hrun

/-- Of four quanta thread 1 and the main thread, which runs at first, get two each. -/
theorem fair_shares_two_threads :
    ∃ s t, run next (Scheduler.create 1) [.spawn (some 1)] = some s ∧
      run next s [.tick, .tick, .tick, .tick] = some t ∧ t.quantumsOf 1 = 2 := by
  refine ⟨_, _, rfl, rfl, ?_⟩
  exact (@fair_shares _ _ [.tick, .tick, .tick, .tick] 1 0
    ⟨1, Scheduler.create 1, rfl, [.spawn (some 1)], rfl⟩ (by decide) (by decide) (by decide)
    rfl).2.2.trans (by decide)

end Uthreads
