import HujiOS.Uthreads.Transitions
import Mathlib.Algebra.Order.Group.Multiset
import Mathlib.Tactic.Abel

/-!
# Every live thread is in exactly one place

Each transition rearranges the roster (a thread changes container), takes one
tid out of it (termination) or puts one in (spawn).  The roster therefore
stays free of duplicates and stays equal to the set of live tids, which is the
partition of the thread table into running, ready, blocked and sleeping
threads.

A transition that starts a quantum first moves the running thread into a
container; `Poised` is the invariant of that intermediate state, in which the
containers alone hold all live threads and the main thread is ready.
-/

namespace Uthreads

open MachineInt

namespace Scheduler

variable {s t : Scheduler}

/-! ## Rearranging the roster -/

/-- Falling asleep adds one tid to the sleepers. -/
theorem sleepers_insertSleeper (tid d : Int) (entries : List TidToSleepTime) :
    (((insertSleeper (tid, d) entries).map Prod.fst : List Int) : Multiset Int) =
      tid ::ₘ (entries.map Prod.fst : List Int) := by
  rw [Multiset.cons_coe, Multiset.coe_eq_coe]
  exact (insertSleeper_perm (tid, d) entries).map Prod.fst

/-- Taking a ready tid out of the queue. -/
theorem coe_deleteReadyThread (h : s.readyQueue.Nodup) (tid : Int) :
    ((s.deleteReadyThread tid).readyQueue : Multiset Int) =
      (s.readyQueue : Multiset Int).erase tid := by
  rw [Multiset.coe_erase, h.erase_eq_filter]
  congr 1
  simp [deleteReadyThread, bne]
  rfl

/-- Blocking puts one more tid off the CPU. -/
theorem offCpu_blocked (h : tid ∉ s.blockedThreads) :
    (s.blocked tid).offCpu = tid ::ₘ s.offCpu := by
  simp [offCpu, blocked, sleepers, Finset.insert_val_of_notMem h]

/-- Unblocking takes the tid away from those off the CPU. -/
theorem offCpu_unblocked {tid : Int} (h : tid ∈ s.blockedThreads) :
    tid ::ₘ (s.unblocked tid).offCpu = s.offCpu := by
  have hB : tid ::ₘ s.blockedThreads.val.erase tid = s.blockedThreads.val :=
    Multiset.cons_erase h
  simp only [offCpu, unblocked, sleepers, Finset.erase_val]
  rw [← Multiset.cons_add, ← Multiset.add_cons, hB]

/-- Waking early takes the tid away from those off the CPU. -/
theorem offCpu_eraseSleeper {tid : Int} (h : tid ∈ s.sleepers) :
    tid ::ₘ (s.eraseSleeper tid).offCpu = s.offCpu := by
  have hS : tid ::ₘ (s.sleepers : Multiset Int).erase tid = s.sleepers :=
    Multiset.cons_erase (Multiset.mem_coe.mpr h)
  have hready : (s.eraseSleeper tid).readyQueue = s.readyQueue := rfl
  have hblocked : (s.eraseSleeper tid).blockedThreads = s.blockedThreads := rfl
  simp only [offCpu, hready, hblocked, sleepers_eraseSleeper, ← Multiset.coe_erase]
  rw [← Multiset.add_cons, hS]

/-- Leaving the ready deque takes the tid away from those off the CPU. -/
theorem offCpu_deleteReadyThread {tid : Int} (hnd : s.readyQueue.Nodup)
    (h : tid ∈ s.readyQueue) : tid ::ₘ (s.deleteReadyThread tid).offCpu = s.offCpu := by
  have hR : tid ::ₘ (s.readyQueue : Multiset Int).erase tid = s.readyQueue :=
    Multiset.cons_erase (Multiset.mem_coe.mpr h)
  have hblocked : (s.deleteReadyThread tid).blockedThreads = s.blockedThreads := rfl
  have hsleep : (s.deleteReadyThread tid).sleepers = s.sleepers := rfl
  simp only [offCpu, hblocked, hsleep, coe_deleteReadyThread hnd]
  rw [← Multiset.cons_add, ← Multiset.cons_add, hR]

/-- Waking the sleepers that are due only moves them. -/
theorem offCpu_sleepToReady (s : Scheduler) : s.sleepToReady.offCpu = s.offCpu := by
  have hsplit : (s.sleepers : Multiset Int) =
      ((s.sleepThreads.takeWhile s.isDue).map Prod.fst : List Int) +
        ((s.sleepThreads.dropWhile s.isDue).map Prod.fst : List Int) := by
    rw [Multiset.coe_add, ← List.map_append, List.takeWhile_append_dropWhile]
    rfl
  unfold offCpu
  rw [hsplit]
  simp only [sleepToReady, sleepers, ← Multiset.coe_add]
  abel

/-- The tick puts the running thread back into the queue. -/
theorem offCpu_expired (s : Scheduler) : s.expired.offCpu = s.roster := by
  have hoff := offCpu_sleepToReady s
  unfold roster
  rw [← hoff]
  simp only [offCpu, expired, sleepers, ← Multiset.coe_add, Multiset.coe_singleton]
  rw [← Multiset.singleton_add]
  abel

/-- When the running thread falls asleep, the whole roster is off the CPU. -/
theorem offCpu_fellAsleep (s : Scheduler) (n : Int) : (s.fellAsleep n).offCpu = s.roster := by
  simp only [roster, offCpu, fellAsleep, sleepers, sleepers_insertSleeper, Multiset.add_cons]

/-- A spawn adds the new tid to the roster. -/
theorem roster_spawned (s : Scheduler) (tid : Int) :
    (s.spawned tid).roster = tid ::ₘ s.roster := by
  simp only [roster, offCpu, spawned, sleepers, ← Multiset.coe_add, Multiset.coe_singleton,
    ← Multiset.singleton_add]
  abel

/-- After the switch the containers of the intermediate state are the roster. -/
theorem roster_dispatched {nextTid : Int} {rest : List Int}
    (hqueue : s.readyQueue = nextTid :: rest) :
    (s.dispatched nextTid rest).roster = s.offCpu := by
  simp only [roster, offCpu, dispatched, sleepers, hqueue, ← Multiset.cons_coe,
    Multiset.cons_add]

/-! ## Transitions that start a quantum -/

/-- The invariant of the state in which `_preempt` is called. -/
structure Poised (s : Scheduler) : Prop where
  nodup : s.offCpu.Nodup
  live : ∀ tid, tid ∈ s.offCpu ↔ tid ∈ s.threads ∧ tid ≠ s.tidToTerminate
  ids : ∀ tid ∈ s.threads, (s.threads.getD tid).tid = tid
  range : ∀ tid ∈ s.threads, 0 ≤ tid ∧ tid < (maxThreadNum : Int)
  main : 0 ∈ s.readyQueue
  pending : s.tidToTerminate = -1 ∨ s.tidToTerminate ∈ s.threads
  sorted : SleepSorted s.sleepThreads
  deadline : ∀ e ∈ s.sleepThreads, (s.threads.getD e.1).sleepUntil = e.2

/-- Dispatching a live thread does not change which tids exist. -/
theorem mem_threads_dispatched {nextTid : Int} (hnext : nextTid ∈ s.threads) (rest : List Int)
    (tid : Int) : tid ∈ (s.dispatched nextTid rest).threads ↔ tid ∈ s.threads :=
  ThreadMap.mem_modify hnext _ tid

/-- Falling asleep adds and removes no thread object. -/
theorem Inv.mem_threads_fellAsleep (h : s.Inv) (n tid : Int) :
    tid ∈ (s.fellAsleep n).threads ↔ tid ∈ s.threads :=
  ThreadMap.mem_modify h.current_mem _ tid

/-- Dispatching the front of the ready deque re-establishes the invariant. -/
theorem Poised.dispatched (h : s.Poised) {nextTid : Int} {rest : List Int}
    (hqueue : s.readyQueue = nextTid :: rest) : (s.dispatched nextTid rest).Inv := by
  have hoff : nextTid ∈ s.offCpu := mem_offCpu.mpr (Or.inl (by simp [hqueue]))
  have hmem : nextTid ∈ s.threads := ((h.live nextTid).mp hoff).1
  have hkeys := mem_threads_dispatched hmem rest
  refine ⟨?_, ?_, ?_, ?_, ?_, ?_, h.sorted, ?_⟩
  · rw [roster_dispatched hqueue]; exact h.nodup
  · intro tid
    rw [roster_dispatched hqueue, h.live, hkeys]
    rfl
  · intro tid htid
    exact (ThreadMap.getD_incremented_tid _ _ _).trans (h.ids tid ((hkeys tid).mp htid))
  · exact fun tid htid => h.range tid ((hkeys tid).mp htid)
  · have hmain := h.main
    rw [hqueue] at hmain
    exact (List.mem_cons.mp hmain).imp_left Eq.symm
  · exact h.pending.imp_right (hkeys _).mpr
  · intro e he
    exact (ThreadMap.getD_incremented_sleepUntil _ _ _).trans (h.deadline e he)

/-- A quantum that expired leaves the scheduler ready to dispatch. -/
theorem Inv.expired (h : s.Inv) : s.expired.Poised := by
  have hoff := offCpu_expired s
  refine ⟨hoff ▸ h.nodup, fun tid => hoff ▸ h.live tid, h.ids, h.range, ?_, h.pending, ?_, ?_⟩
  · simp only [Scheduler.expired, sleepToReady, List.mem_append, List.mem_singleton]
    rcases h.main with hc | hr
    · exact Or.inr hc.symm
    · exact Or.inl (Or.inl hr)
  · exact h.sorted.sublist (List.dropWhile_sublist _)
  · exact fun e he => h.deadline e ((List.dropWhile_sublist _).subset he)

/-- The running thread is not blocked. -/
theorem Inv.current_notMem_blocked (h : s.Inv) : s.currentRunningThread ∉ s.blockedThreads :=
  fun hb => h.current_notMem_offCpu (mem_offCpu.mpr (Or.inr (Or.inl hb)))

/-- The running thread is not asleep. -/
theorem Inv.current_notMem_sleepers (h : s.Inv) : s.currentRunningThread ∉ s.sleepers :=
  fun hs => h.current_notMem_offCpu (mem_offCpu.mpr (Or.inr (Or.inr hs)))

/-- A thread that blocked itself leaves the scheduler ready to dispatch. -/
theorem Inv.blockedSelf (h : s.Inv) (hmain : s.currentRunningThread ≠ 0) :
    (s.blocked s.currentRunningThread).Poised := by
  have hoff : (s.blocked s.currentRunningThread).offCpu = s.roster :=
    offCpu_blocked h.current_notMem_blocked
  exact ⟨hoff ▸ h.nodup, fun tid => hoff ▸ h.live tid, h.ids, h.range,
    h.main.resolve_left hmain, h.pending, h.sorted, h.deadline⟩

/-- A thread that fell asleep leaves the scheduler ready to dispatch. -/
theorem Inv.fellAsleep (h : s.Inv) (hmain : s.currentRunningThread ≠ 0) (n : Int) :
    (s.fellAsleep n).Poised := by
  have hoff := offCpu_fellAsleep s n
  have hkeys := h.mem_threads_fellAsleep n
  refine ⟨hoff ▸ h.nodup, ?_, ?_, ?_, h.main.resolve_left hmain, ?_, ?_, ?_⟩
  · intro tid
    rw [hoff, h.live, hkeys]
    rfl
  · intro tid htid
    exact (ThreadMap.getD_modify_field Thread.tid
        (·.setSleepUntil (toInt32 (s.totalQuantum + n))) (fun _ => rfl) _ _ _).trans
      (h.ids tid ((hkeys tid).mp htid))
  · exact fun tid htid => h.range tid ((hkeys tid).mp htid)
  · exact h.pending.imp_right (hkeys _).mpr
  · exact insertSleeper_sorted h.sorted _
  · intro e he
    rcases mem_insertSleeper.mp he with rfl | he
    · simp [Scheduler.fellAsleep]
    · have hne : e.1 ≠ s.currentRunningThread := by
        intro heq
        exact h.current_notMem_sleepers (heq ▸ List.mem_map_of_mem he)
      simp only [Scheduler.fellAsleep, ThreadMap.getD_modify_ne hne]
      exact h.deadline e he

/-- A thread that terminates itself leaves the scheduler ready to dispatch. -/
theorem Inv.terminatingSelf (h : s.Inv) (hnone : s.tidToTerminate = -1)
    (hmain : s.currentRunningThread ≠ 0) :
    Poised { s with tidToTerminate := s.currentRunningThread } := by
  refine ⟨h.offCpu_nodup, ?_, h.ids, h.range, h.main.resolve_left hmain,
    Or.inr h.current_mem, h.sorted, h.deadline⟩
  intro tid
  constructor
  · intro hoff
    have hroster : tid ∈ s.roster := mem_roster.mpr (Or.inr hoff)
    refine ⟨h.mem_threads_of_roster hroster, ?_⟩
    rintro rfl
    exact h.current_notMem_offCpu hoff
  · rintro ⟨hthread, hne⟩
    have hne' : tid ≠ s.tidToTerminate := by
      intro heq
      rw [heq, hnone] at hthread
      exact h.neg_one_notMem hthread
    exact (mem_roster.mp ((h.live tid).mpr ⟨hthread, hne'⟩)).resolve_left hne

/-! ## Transitions inside a quantum -/

/-- A thread changes container. -/
theorem Inv.moved (h : s.Inv) (hroster : t.roster = s.roster) (hthreads : t.threads = s.threads)
    (hpending : t.tidToTerminate = s.tidToTerminate)
    (hmain : t.currentRunningThread = 0 ∨ 0 ∈ t.readyQueue)
    (hsorted : SleepSorted t.sleepThreads)
    (hdeadline : ∀ e ∈ t.sleepThreads, (s.threads.getD e.1).sleepUntil = e.2) : t.Inv := by
  refine ⟨hroster ▸ h.nodup, ?_, hthreads ▸ h.ids, hthreads ▸ h.range, hmain, ?_, hsorted, ?_⟩
  · rw [hroster, hthreads, hpending]; exact h.live
  · rw [hthreads, hpending]; exact h.pending
  · rw [hthreads]; exact hdeadline

/-- A thread other than the running one is terminated. -/
theorem Inv.removed (h : s.Inv) (hnone : s.tidToTerminate = -1) {tid : Int}
    (hcons : tid ::ₘ t.roster = s.roster) (hthreads : t.threads = s.threads)
    (hpending : t.tidToTerminate = tid)
    (hmain : t.currentRunningThread = 0 ∨ 0 ∈ t.readyQueue)
    (hsorted : SleepSorted t.sleepThreads)
    (hdeadline : ∀ e ∈ t.sleepThreads, e ∈ s.sleepThreads) : t.Inv := by
  have hnd : (tid ::ₘ t.roster).Nodup := hcons ▸ h.nodup
  obtain ⟨hnot, hrest⟩ := Multiset.nodup_cons.mp hnd
  have hlive : ∀ a, a ∈ tid ::ₘ t.roster ↔ a ∈ s.threads := by
    intro a
    rw [hcons, h.live, hnone]
    constructor
    · exact fun ha => ha.1
    · intro ha
      refine ⟨ha, ?_⟩
      rintro rfl
      exact h.neg_one_notMem ha
  refine ⟨hrest, ?_, hthreads ▸ h.ids, hthreads ▸ h.range, hmain, ?_, hsorted, ?_⟩
  · intro a
    rw [hthreads, hpending, ← hlive, Multiset.mem_cons]
    constructor
    · intro ha
      exact ⟨Or.inr ha, fun heq => hnot (heq ▸ ha)⟩
    · rintro ⟨heq | ha, hne⟩
      · exact absurd heq hne
      · exact ha
  · right
    rw [hthreads, hpending]
    exact (hlive tid).mp (Multiset.mem_cons_self _ _)
  · rw [hthreads]
    exact fun e he => h.deadline e (hdeadline e he)

/-- The main thread runs or stays ready when another leaves the deque. -/
theorem Inv.main_deleteReadyThread (h : s.Inv) {tid : Int} (hmain : tid ≠ 0) :
    s.currentRunningThread = 0 ∨ 0 ∈ (s.deleteReadyThread tid).readyQueue := by
  refine h.main.imp_right fun hr => ?_
  simp only [deleteReadyThread, List.mem_filter, decide_eq_true_eq]
  exact ⟨hr, Ne.symm hmain⟩

/-- The roster depends only on who runs and who is off the CPU. -/
theorem roster_congr (hoff : t.offCpu = s.offCpu)
    (hcurrent : t.currentRunningThread = s.currentRunningThread) : t.roster = s.roster := by
  unfold roster
  rw [hoff, hcurrent]

/-- A tid that joins those off the CPU joins the roster. -/
theorem cons_roster {tid : Int} (hoff : tid ::ₘ t.offCpu = s.offCpu)
    (hcurrent : t.currentRunningThread = s.currentRunningThread) : tid ::ₘ t.roster = s.roster := by
  unfold roster
  rw [Multiset.cons_swap, hoff, hcurrent]

/-- A spawn of a free tid keeps the invariant. -/
theorem Inv.spawned (h : s.Inv) (hnone : s.tidToTerminate = -1) {tid : Nat}
    (hhi : tid < maxThreadNum) (hfree : (tid : Int) ∉ s.threads) : (s.spawned tid).Inv := by
  have hnot : (tid : Int) ∉ s.roster := fun hm => hfree (h.mem_threads_of_roster hm)
  refine ⟨?_, ?_, ?_, ?_, ?_, Or.inl hnone, h.sorted, ?_⟩
  · rw [roster_spawned]
    exact Multiset.nodup_cons.mpr ⟨hnot, h.nodup⟩
  · intro a
    rw [roster_spawned, Multiset.mem_cons, h.live]
    simp only [Scheduler.spawned, AList.mem_insert]
    constructor
    · rintro (heq | ⟨ha, hne⟩)
      · exact ⟨Or.inl heq, by rw [hnone]; omega⟩
      · exact ⟨Or.inr ha, hne⟩
    · rintro ⟨heq | ha, hne⟩
      · exact Or.inl heq
      · exact Or.inr ⟨ha, hne⟩
  · intro a ha
    by_cases heq : a = (tid : Int)
    · subst heq; simp [Scheduler.spawned, Thread.create]
    · simp only [Scheduler.spawned, AList.mem_insert] at ha
      simp only [Scheduler.spawned, ThreadMap.getD_insert_ne heq]
      exact h.ids a (ha.resolve_left heq)
  · intro a ha
    simp only [Scheduler.spawned, AList.mem_insert] at ha
    rcases ha with rfl | ha
    · omega
    · exact h.range a ha
  · refine h.main.imp_right fun hr => ?_
    simp only [Scheduler.spawned, List.mem_append]
    exact Or.inl hr
  · intro e he
    have hroster : e.1 ∈ s.roster :=
      mem_roster.mpr (Or.inr (mem_offCpu.mpr (Or.inr (Or.inr (List.mem_map_of_mem he)))))
    have hne : e.1 ≠ (tid : Int) := fun heq => hnot (heq ▸ hroster)
    simp only [Scheduler.spawned, ThreadMap.getD_insert_ne hne]
    exact h.deadline e he

end Scheduler

open Scheduler

/-- **Step lemma.**  Every transition keeps the invariant. -/
theorem Transition.inv {p t : Scheduler} {call : Call} {r : Reply} (h : p.Inv)
    (hnone : p.tidToTerminate = -1) (htr : Transition p call r t) : t.Inv := by
  cases htr with
  | rejected _ => exact h
  | quantums _ => exact h
  | blockAgain _ => exact h
  | resumeIdle _ _ => exact h
  | spawn _ hhi hfree _ _ => exact h.spawned hnone hhi hfree
  | tick hqueue => exact h.expired.dispatched hqueue
  | blockSelf hmain hqueue => exact (h.blockedSelf hmain).dispatched hqueue
  | sleep hmain _ hqueue => exact (h.fellAsleep hmain _).dispatched hqueue
  | terminateSelf hmain hqueue => exact (h.terminatingSelf hnone hmain).dispatched hqueue
  | @blockSleeper tid hasleep =>
      have hnot : tid ∉ (p.eraseSleeper tid).blockedThreads :=
        (h.sleepers_notMem_others hasleep).2
      refine h.moved ?_ rfl rfl h.main
        (h.sorted.sublist List.eraseP_sublist)
        (fun e he => h.deadline e (eraseSleeper_subset he))
      exact roster_congr ((offCpu_blocked hnot).trans (offCpu_eraseSleeper hasleep)) rfl
  | @blockReady tid hmain hready =>
      have hnot : tid ∉ (p.deleteReadyThread tid).blockedThreads := h.ready_notMem_blocked hready
      refine h.moved ?_ rfl rfl (h.main_deleteReadyThread hmain) h.sorted h.deadline
      exact roster_congr
        ((offCpu_blocked hnot).trans (offCpu_deleteReadyThread h.ready_nodup hready)) rfl
  | @resumeSleeper tid hblocked _ =>
      refine h.moved ?_ rfl rfl h.main (insertSleeper_sorted h.sorted _) ?_
      · refine roster_congr (Eq.trans ?_ (offCpu_unblocked hblocked)) rfl
        simp only [offCpu, unblocked, sleepers, sleepers_insertSleeper, Multiset.add_cons]
      · intro e he
        rcases mem_insertSleeper.mp he with rfl | he
        · rfl
        · exact h.deadline e he
  | @resumeReady tid hblocked _ =>
      refine h.moved ?_ rfl rfl ?_ h.sorted h.deadline
      · refine roster_congr (Eq.trans ?_ (offCpu_unblocked hblocked)) rfl
        simp only [offCpu, unblocked, sleepers, ← Multiset.coe_add, Multiset.coe_singleton,
          ← Multiset.singleton_add]
        abel
      · exact h.main.imp_right fun hr => List.mem_append_left _ hr
  | @terminateSleeper tid hasleep =>
      have hcons : tid ::ₘ roster { p.eraseSleeper tid with tidToTerminate := tid } = p.roster :=
        cons_roster (offCpu_eraseSleeper hasleep) rfl
      exact h.removed hnone hcons rfl rfl h.main (h.sorted.sublist List.eraseP_sublist)
        (fun e he => eraseSleeper_subset he)
  | @terminateBlocked tid hblocked =>
      have hcons : tid ::ₘ roster { p.unblocked tid with tidToTerminate := tid } = p.roster :=
        cons_roster (offCpu_unblocked hblocked) rfl
      exact h.removed hnone hcons rfl rfl h.main h.sorted (fun e he => he)
  | @terminateReady tid hmain hready =>
      have hcons : tid ::ₘ roster { p.deleteReadyThread tid with tidToTerminate := tid } =
          p.roster := cons_roster (offCpu_deleteReadyThread h.ready_nodup hready) rfl
      exact h.removed hnone hcons rfl rfl (h.main_deleteReadyThread hmain) h.sorted (fun e he => he)

/-- Only a spawn that returns a tid adds it to the table. -/
theorem Transition.mem_threads {p t : Scheduler} {call : Call} {r : Reply} (h : p.Inv)
    (htr : Transition p call r t) {tid : Int} (hmem : tid ∈ t.threads) :
    tid ∈ p.threads ∨ (∃ entryPoint, call = .spawn entryPoint) ∧ r = .returned tid := by
  cases htr with
  | @spawn entry new _ _ _ _ _ =>
      simp only [spawned, AList.mem_insert] at hmem
      rcases hmem with rfl | hmem
      · exact Or.inr ⟨⟨some entry, rfl⟩, rfl⟩
      · exact Or.inl hmem
  | @tick nextTid rest hqueue =>
      have hfront : nextTid ∈ p.threads :=
        h.mem_threads_of_roster (mem_expired_readyQueue (s := p) nextTid (by simp [hqueue]))
      exact Or.inl ((mem_threads_dispatched (s := p.expired) hfront rest tid).mp hmem)
  | @blockSelf nextTid rest _ hqueue =>
      have hfront := (h.front_facts hqueue).1
      exact Or.inl ((mem_threads_dispatched (s := p) hfront rest tid).mp hmem)
  | @sleep n nextTid rest _ _ hqueue =>
      have hfront := (h.mem_threads_fellAsleep n nextTid).mpr (h.front_facts hqueue).1
      have hasleep := (mem_threads_dispatched hfront rest tid).mp hmem
      exact Or.inl ((h.mem_threads_fellAsleep n tid).mp hasleep)
  | @terminateSelf nextTid rest _ hqueue =>
      have hfront := (h.front_facts hqueue).1
      exact Or.inl ((mem_threads_dispatched (s := p) hfront rest tid).mp hmem)
  | _ => exact Or.inl hmem

/-- Every step keeps the invariant. -/
theorem next_inv {s t : Scheduler} {call : Call} (h : s.Inv) (hnext : next s call = some t) :
    t.Inv := by
  rcases next_cases h hnext with ⟨_, rfl⟩ | ⟨r, htr⟩
  · exact h
  · exact htr.inv h.deleteTerminatedThread h.deleteTerminatedThread_tidToTerminate

/-- A fresh scheduler has the main thread only. -/
theorem mem_threads_create (quantumUsecs tid : Int) :
    tid ∈ (Scheduler.create quantumUsecs).threads ↔ tid = 0 := by
  rw [AList.mem_keys]
  simp [Scheduler.create, ThreadMap.modify, ThreadMap.emplace]

/-- A fresh scheduler satisfies the invariant. -/
theorem create_inv (quantumUsecs : Int) : (Scheduler.create quantumUsecs).Inv := by
  have hkeys := mem_threads_create quantumUsecs
  refine ⟨?_, ?_, ?_, ?_, Or.inl rfl, Or.inl rfl, List.Pairwise.nil, ?_⟩
  · simp [Scheduler.create, roster, offCpu, sleepers]
  · intro tid
    rw [hkeys]
    simp only [Scheduler.create, roster, offCpu, sleepers]
    constructor
    · intro hm
      have h0 : tid = 0 := by simpa using hm
      exact ⟨h0, by omega⟩
    · rintro ⟨rfl, _⟩
      simp
  · intro tid htid
    rw [hkeys] at htid
    subst htid
    rfl
  · intro tid htid
    rw [hkeys] at htid
    subst htid
    exact ⟨Int.le_refl 0, by decide⟩
  · intro e he
    cases he

/-- `uthread_init` that succeeds returns the scheduler of the constructor. -/
theorem eq_create_of_uthreadInit {quantumUsecs : Int} {s₀ : Scheduler}
    (hinit : uthreadInit quantumUsecs = (.returned exitSuccess, some s₀)) :
    s₀ = Scheduler.create quantumUsecs := by
  unfold uthreadInit at hinit
  split at hinit
  · simp [uthreadException] at hinit
  · simpa using hinit.symm

/-- **Run lemma.**  Every reachable state satisfies the invariant. -/
theorem Reachable.inv {s : Scheduler} (h : Reachable s) : s.Inv := by
  obtain ⟨q, s₀, hinit, hreach⟩ := h
  obtain rfl := eq_create_of_uthreadInit hinit
  exact hreach.invariant _ (fun s call t hs hnext => next_inv hs hnext) (create_inv q)

/-! ## What holds of every thread object -/

section ThreadObjects

variable {P : Thread → Prop}

/-- What holds of every thread object and is kept by a change holds after it. -/
theorem ThreadMap.forall_modify {m : ThreadMap} (h : ∀ tid, P (m.getD tid)) {f : Thread → Thread}
    (hf : ∀ thread, P thread → P (f thread)) (a tid : Int) : P ((m.modify a f).getD tid) := by
  by_cases heq : tid = a
  · subst heq
    rw [getD_modify_self]
    exact hf _ (h tid)
  · rw [getD_modify_ne heq]
    exact h tid

/-- What holds of every object, and of fresh ones, holds after the cleanup. -/
theorem Scheduler.forall_deleteTerminatedThread {s : Scheduler}
    (hfresh : ∀ tid, P (Thread.create tid)) (h : ∀ tid, P (s.threads.getD tid)) (tid : Int) :
    P (s.deleteTerminatedThread.threads.getD tid) := by
  by_cases hne : tid = s.tidToTerminate
  · unfold deleteTerminatedThread
    split
    · subst hne
      have hnone : ThreadMap.getD (s.threads.erase s.tidToTerminate) s.tidToTerminate =
          Thread.create 0 := by
        simp [ThreadMap.getD, Thread.default, Thread.create]
      exact hnone ▸ hfresh 0
    · exact h tid
  · rw [getD_deleteTerminatedThread hne]
    exact h tid

variable (hfresh : ∀ tid, P (Thread.create tid))
  (hcount : ∀ thread, P thread → P thread.incrementNumOfQuantum)
  (hset : ∀ thread x, P thread → P (thread.setSleepUntil (toInt32 x)))

include hfresh hcount hset

/-- A call makes fresh objects, counts quantums and sets deadlines only. -/
theorem Transition.forall_threads {p t : Scheduler} {call : Call} {r : Reply}
    (htr : Transition p call r t) (h : ∀ tid, P (p.threads.getD tid)) (tid : Int) :
    P (t.threads.getD tid) := by
  cases htr with
  | @spawn _ new _ _ _ _ _ =>
      by_cases heq : tid = (new : Int)
      · subst heq
        simpa [spawned] using hfresh _
      · simpa [spawned, ThreadMap.getD_insert_ne heq] using h tid
  | tick _ => exact ThreadMap.forall_modify h hcount _ tid
  | blockSelf _ _ => exact ThreadMap.forall_modify h hcount _ tid
  | terminateSelf _ _ => exact ThreadMap.forall_modify h hcount _ tid
  | @sleep n _ _ _ _ _ =>
      have hasleep := ThreadMap.forall_modify h
        (fun thread => hset thread (p.totalQuantum + n)) p.currentRunningThread
      exact ThreadMap.forall_modify hasleep hcount _ tid
  | _ => exact h tid

/-- **Object rule.**  What holds of a fresh object and is kept by counting a
quantum and by setting a deadline holds of every object at any time. -/
theorem Reachable.forall_threads {s : Scheduler} (h : Reachable s) (tid : Int) :
    P (s.threads.getD tid) := by
  obtain ⟨q, s₀, hinit, hreach⟩ := h
  have hs₀ : s₀.Inv ∧ ∀ tid, P (s₀.threads.getD tid) := by
    obtain rfl := eq_create_of_uthreadInit hinit
    refine ⟨create_inv q, ThreadMap.forall_modify (fun tid => ?_) hcount 0⟩
    rw [ThreadMap.emplace_of_notMem (AList.notMem_empty _)]
    by_cases h0 : tid = 0
    · subst h0
      rw [ThreadMap.getD_insert_self]
      exact hfresh 0
    · rw [ThreadMap.getD_insert_ne h0]
      exact hfresh 0
  refine (hreach.invariant (fun s => s.Inv ∧ ∀ tid, P (s.threads.getD tid)) ?_ hs₀).2 tid
  intro s call t hs hnext
  refine ⟨next_inv hs.1 hnext, ?_⟩
  rcases next_cases hs.1 hnext with ⟨_, rfl⟩ | ⟨r, htr⟩
  · exact hs.2
  · exact htr.forall_threads hfresh hcount hset (forall_deleteTerminatedThread hfresh hs.2)

end ThreadObjects

/-- The running, ready, blocked and sleeping tids partition the live threads. -/
structure ThreadPartition (s : Scheduler) : Prop where
  live : ∀ tid, (tid ∈ s.threads ∧ tid ≠ s.tidToTerminate) ↔
    (tid = s.currentRunningThread ∨ tid ∈ s.readyQueue ∨ tid ∈ s.blockedThreads ∨
      tid ∈ s.sleepers)
  running : s.currentRunningThread ∉ s.readyQueue ∧ s.currentRunningThread ∉ s.blockedThreads ∧
    s.currentRunningThread ∉ s.sleepers
  ready : ∀ tid ∈ s.readyQueue, tid ∉ s.blockedThreads ∧ tid ∉ s.sleepers
  blocked : ∀ tid ∈ s.blockedThreads, tid ∉ s.sleepers
  readyOnce : s.readyQueue.Nodup
  asleepOnce : s.sleepers.Nodup
  range : ∀ tid ∈ s.threads, 0 ≤ tid ∧ tid ≤ (maxThreadNum : Int) - 1
  main : 0 ∈ s.threads ∧ 0 ∉ s.blockedThreads ∧ 0 ∉ s.sleepers
  pending : s.tidToTerminate ≠ -1 → s.tidToTerminate ∈ s.threads ∧
    s.tidToTerminate ≠ s.currentRunningThread ∧ s.tidToTerminate ∉ s.readyQueue ∧
    s.tidToTerminate ∉ s.blockedThreads ∧ s.tidToTerminate ∉ s.sleepers

/-- The main thread is neither blocked nor asleep. -/
theorem Scheduler.Inv.main_awake {s : Scheduler} (h : s.Inv) :
    0 ∉ s.blockedThreads ∧ 0 ∉ s.sleepers := by
  rcases h.main with hc | hr
  · exact ⟨hc ▸ h.current_notMem_blocked, hc ▸ h.current_notMem_sleepers⟩
  · exact ⟨h.ready_notMem_blocked hr, fun hs => (h.sleepers_notMem_others hs).1 hr⟩

/-- **Partition of the thread table**, in every state that library calls and
timer ticks can reach. -/
theorem reachable_partition {s : Scheduler} (hreach : Reachable s) : ThreadPartition s := by
  have h := hreach.inv
  refine ⟨?_, ?_, ?_, ?_, h.ready_nodup, h.sleepers_nodup, ?_, ?_, ?_⟩
  · intro tid
    rw [← h.live, mem_roster, mem_offCpu]
  · exact ⟨fun hr => h.current_notMem_offCpu (mem_offCpu.mpr (Or.inl hr)),
      h.current_notMem_blocked, h.current_notMem_sleepers⟩
  · exact fun tid hr => ⟨h.ready_notMem_blocked hr,
      fun hs => (h.sleepers_notMem_others hs).1 hr⟩
  · exact fun tid hb => (h.blocked_mem hb).2
  · intro tid htid
    have := h.range tid htid
    omega
  · exact ⟨h.zero_mem, h.main_awake⟩
  · intro hne
    have hnot : s.tidToTerminate ∉ s.roster := fun hm => ((h.live _).mp hm).2 rfl
    refine ⟨h.pending.resolve_left hne, ?_, ?_, ?_, ?_⟩
    · exact fun heq => hnot (mem_roster.mpr (Or.inl heq))
    · exact fun hr => hnot (mem_roster.mpr (Or.inr (mem_offCpu.mpr (Or.inl hr))))
    · exact fun hb => hnot (mem_roster.mpr (Or.inr (mem_offCpu.mpr (Or.inr (Or.inl hb)))))
    · exact fun hs => hnot (mem_roster.mpr (Or.inr (mem_offCpu.mpr (Or.inr (Or.inr hs)))))

/-- The partition after a thread that spawned another has terminated it. -/
theorem reachable_partition_after_terminate :
    ∃ s, Runs.run next (Scheduler.create 1) [.spawn (some 1), .terminate 1] = some s ∧
      s.tidToTerminate = 1 ∧ ThreadPartition s :=
  ⟨_, rfl, by decide, reachable_partition ⟨1, _, rfl, [.spawn (some 1), .terminate 1], rfl⟩⟩

/-- No call of a reachable scheduler runs into an empty ready queue: only
terminating the main thread ends the run. -/
theorem reachable_enabled {s : Scheduler} (hreach : Reachable s) {call : Call}
    (hexit : call ≠ .terminate 0) : (next s call).isSome := by
  obtain ⟨r, t, hrun, _⟩ := invoke_transition hreach.inv call hexit
  simp [next, hrun]

end Uthreads
