import HujiOS.Fifo
import HujiOS.Uthreads.Partition

/-!
# The ready queue is served in order of arrival

Every step is a step of a first-in first-out queue: a thread that is blocked
or terminated leaves the queue from where it stands, a spawned, resumed, woken
or preempted thread lines up at the end, and only the front is dispatched.
Since the roster has no duplicates, a thread that lines up is not in the queue
already.

Over a whole run it follows that a ready thread `b` is not dispatched before
a thread `a` that waits in front of it, unless `a` leaves the queue by being
blocked or terminated.
-/

namespace Uthreads

open MachineInt Scheduler Runs

/-- The thread that a step from `s` to `t` dispatches, if it starts a quantum. -/
def dispatch (s t : Scheduler) : Option Int :=
  if t.totalQuantum = s.totalQuantum then none else some t.currentRunningThread

/-- The step from `s` to `t` treats the ready queue as a first-in first-out
queue, and the thread that runs afterwards is the one it dispatched, if any. -/
structure ServesFront (s t : Scheduler) : Prop where
  queue : Fifo.Step s.readyQueue (dispatch s t) t.readyQueue
  current : t.currentRunningThread = (dispatch s t).getD s.currentRunningThread

/-- A step that starts no quantum dispatches nobody. -/
theorem ServesFront.of_same {s t : Scheduler} (hqueue : Fifo.Step s.readyQueue none t.readyQueue)
    (htotal : t.totalQuantum = s.totalQuantum)
    (hcur : t.currentRunningThread = s.currentRunningThread) : ServesFront s t := by
  have hnone : dispatch s t = none := if_pos htotal
  exact ⟨by rwa [hnone], by rwa [hnone]⟩

/-- A step that starts a quantum dispatches the thread that runs after it. -/
theorem ServesFront.of_start {s t : Scheduler}
    (hqueue : Fifo.Step s.readyQueue (some t.currentRunningThread) t.readyQueue)
    (htotal : t.totalQuantum = toInt32 (s.totalQuantum + 1)) : ServesFront s t := by
  have hne : t.totalQuantum ≠ s.totalQuantum := htotal ▸ toInt32_succ_ne s.totalQuantum
  have hsome : dispatch s t = some t.currentRunningThread := if_neg hne
  exact ⟨by rwa [hsome], by rw [hsome]; rfl⟩

/-- A step that changes nothing serves nobody. -/
theorem ServesFront.refl (s : Scheduler) : ServesFront s s :=
  ServesFront.of_same (Fifo.Step.refl _) rfl rfl

/-- The woken sleepers and the preempted thread were not in the queue. -/
theorem expired_newcomers {p : Scheduler} (h : p.Inv) :
    ∀ tid ∈ (p.sleepThreads.takeWhile p.isDue).map Prod.fst ++ [p.currentRunningThread],
      tid ∉ p.readyQueue := by
  intro tid htid hready
  rcases List.mem_append.mp htid with hwoken | hself
  · have hasleep : tid ∈ p.sleepers := List.map_subset _ (List.takeWhile_subset _) hwoken
    exact (h.sleepers_notMem_others hasleep).1 hready
  · have heq : tid = p.currentRunningThread := List.mem_singleton.mp hself
    exact h.current_notMem_offCpu (mem_offCpu.mpr (Or.inl (heq ▸ hready)))

/-- **Step lemma.**  Every transition serves the ready queue in order. -/
theorem Transition.servesFront {p t : Scheduler} {call : Call} {r : Reply} (h : p.Inv)
    (htr : Transition p call r t) : ServesFront p t := by
  have hfilter : ∀ tid, Fifo.Step p.readyQueue none (p.deleteReadyThread tid).readyQueue :=
    fun tid => Fifo.Step.drop List.filter_sublist
  cases htr with
  | rejected _ => exact ServesFront.refl _
  | quantums _ => exact ServesFront.refl _
  | blockAgain _ => exact ServesFront.refl _
  | resumeIdle _ _ => exact ServesFront.refl _
  | @spawn _ new _ _ hfree _ _ =>
      have hnew : ∀ y ∈ [(new : Int)], y ∉ p.readyQueue := by
        intro y hy hready
        exact hfree (List.mem_singleton.mp hy ▸ h.ready_mem hready)
      exact ServesFront.of_same (Fifo.Step.arrive hnew) rfl rfl
  | tick hqueue =>
      refine ServesFront.of_start (Fifo.Step.serve (expired_newcomers h) ?_) rfl
      rw [← List.append_assoc]
      exact hqueue
  | blockSelf _ hqueue => exact ServesFront.of_start (Fifo.Step.pop hqueue) rfl
  | blockSleeper _ => exact ServesFront.of_same (Fifo.Step.refl _) rfl rfl
  | blockReady _ _ => exact ServesFront.of_same (hfilter _) rfl rfl
  | resumeSleeper _ _ => exact ServesFront.of_same (Fifo.Step.refl _) rfl rfl
  | @resumeReady tid hblocked _ =>
      have hnew : ∀ y ∈ [tid], y ∉ p.readyQueue := by
        intro y hy hready
        exact h.ready_notMem_blocked hready (List.mem_singleton.mp hy ▸ hblocked)
      exact ServesFront.of_same (Fifo.Step.arrive hnew) rfl rfl
  | sleep _ _ hqueue => exact ServesFront.of_start (Fifo.Step.pop hqueue) rfl
  | terminateSelf _ hqueue => exact ServesFront.of_start (Fifo.Step.pop hqueue) rfl
  | terminateSleeper _ => exact ServesFront.of_same (Fifo.Step.refl _) rfl rfl
  | terminateBlocked _ => exact ServesFront.of_same (Fifo.Step.refl _) rfl rfl
  | terminateReady _ _ => exact ServesFront.of_same (hfilter _) rfl rfl

/-- How a thread can leave the ready queue. -/
theorem Transition.leaves_queue {p t : Scheduler} {call : Call} {r : Reply} {tid : Int}
    (htr : Transition p call r t) (hready : tid ∈ p.readyQueue) (hleft : tid ∉ t.readyQueue) :
    t.currentRunningThread = tid ∨ tid ∈ t.blockedThreads ∨ t.tidToTerminate = tid := by
  have hfront : ∀ {q : List Int} {front : Int} {rest : List Int}, tid ∈ q → q = front :: rest →
      tid ∉ rest → front = tid := by
    intro q front rest hmem hq hnot
    exact ((List.mem_cons.mp (hq ▸ hmem)).resolve_right hnot).symm
  have hfilter : ∀ {a : Int}, tid ∉ p.readyQueue.filter (· ≠ a) → a = tid := by
    intro a hnot
    by_contra hne
    exact hnot (List.mem_filter.mpr ⟨hready, by simpa using Ne.symm hne⟩)
  cases htr with
  | spawn _ _ _ _ _ => exact absurd (List.mem_append_left _ hready) hleft
  | tick hqueue =>
      have hmem : tid ∈ p.expired.readyQueue :=
        List.mem_append_left _ (List.mem_append_left _ hready)
      exact Or.inl (hfront hmem hqueue hleft)
  | blockSelf _ hqueue => exact Or.inl (hfront hready hqueue hleft)
  | blockReady _ _ =>
      obtain rfl := hfilter hleft
      exact Or.inr (Or.inl (Finset.mem_insert_self _ _))
  | resumeReady _ _ => exact absurd (List.mem_append_left _ hready) hleft
  | sleep _ _ hqueue => exact Or.inl (hfront hready hqueue hleft)
  | terminateSelf _ hqueue => exact Or.inl (hfront hready hqueue hleft)
  | terminateReady _ _ => exact Or.inr (Or.inr (hfilter hleft))
  | _ => exact absurd hready hleft

/-- The step lemma for a call, from the state in which it is made. -/
theorem next_servesFront {s t : Scheduler} {call : Call} (h : s.Inv)
    (hnext : next s call = some t) : ServesFront s t := by
  rcases next_cases h hnext with ⟨_, rfl⟩ | ⟨r, htr⟩
  · exact ServesFront.refl _
  · obtain ⟨hqueue, hcur⟩ := htr.servesFront h.deleteTerminatedThread
    exact ⟨by simpa [dispatch] using hqueue, by simpa [dispatch] using hcur⟩

/-- A thread leaves the ready deque only by being dispatched, blocked or
terminated. -/
theorem next_leaves_queue {s t : Scheduler} {call : Call} {tid : Int} (h : s.Inv)
    (hnext : next s call = some t) (hready : tid ∈ s.readyQueue) (hleft : tid ∉ t.readyQueue) :
    t.currentRunningThread = tid ∨ tid ∈ t.blockedThreads ∨ t.tidToTerminate = tid := by
  rcases next_cases h hnext with ⟨_, rfl⟩ | ⟨r, htr⟩
  · exact absurd hready hleft
  · exact htr.leaves_queue (by simpa using hready) hleft

/-- `a` was dispatched, blocked or terminated in the state that a proper
prefix of the run `calls` from `s` ends in. -/
def LeftBefore (s : Scheduler) (calls : List Call) (a : Int) : Prop :=
  ∃ before after m, calls = before ++ after ∧ after ≠ [] ∧ run next s before = some m ∧
    (m.currentRunningThread = a ∨ a ∈ m.blockedThreads ∨ m.tidToTerminate = a)

/-- A step in front of a run does not change who left in it. -/
theorem LeftBefore.cons {s m : Scheduler} {call : Call} {rest : List Call} {a : Int}
    (hm : next s call = some m) (h : LeftBefore m rest a) : LeftBefore s (call :: rest) a := by
  obtain ⟨before, after, x, hsplit, hafter, hrun, hout⟩ := h
  refine ⟨call :: before, after, x, by rw [hsplit, List.cons_append], hafter, ?_, hout⟩
  simp [hm, hrun]

/-- **Run lemma.**  While `b` is not ahead of the waiting `a`, it is dispatched
only after `a` has left the queue. -/
theorem leftBefore_of_ahead {s t : Scheduler} {calls : List Call} {a b : Int} (h : s.Inv)
    (hne : a ≠ b) (hahead : Fifo.Ahead a b s.readyQueue) (hb : s.currentRunningThread ≠ b)
    (hrun : run next s calls = some t) (ht : t.currentRunningThread = b) :
    LeftBefore s calls a := by
  induction calls generalizing s with
  | nil =>
      have heq : s = t := Option.some.inj hrun
      exact absurd (heq ▸ ht) hb
  | cons call rest ih =>
      obtain ⟨m, hm, hrest⟩ := run_cons_some hrun
      obtain ⟨hstep, hcur⟩ := next_servesFront h hm
      have hmb : m.currentRunningThread ≠ b := by
        have hnot := hstep.not_served h.ready_nodup hne hahead
        cases hserved : dispatch s m with
        | none => simpa [hcur, hserved] using hb
        | some tid =>
            intro heq
            rw [hcur, hserved, Option.getD_some] at heq
            exact hnot (by rw [hserved, heq])
      by_cases hstay : a ∈ m.readyQueue
      · exact (ih (next_inv h hm) (hstep.ahead h.ready_nodup hahead hstay) hmb hrest).cons hm
      · have hout := next_leaves_queue h hm hahead.1 hstay
        refine ⟨[call], rest, m, rfl, ?_, run_singleton hm, hout⟩
        rintro rfl
        have heq : m = t := Option.some.inj hrest
        exact hmb (heq ▸ ht)

/-- **Round robin without overtaking.**  Every step keeps the order of the
threads that stay ready, lets threads line up only at the end and dispatches
only the front; so in every continuation, a thread that waits in front of
another one is dispatched, blocked or terminated before the other one runs. -/
theorem round_robin {s : Scheduler} (hs : Reachable s) :
    (∀ call t, next s call = some t →
      ServesFront s t ∧
        ∀ a b, Fifo.Before a b s.readyQueue → a ∈ t.readyQueue → b ∈ t.readyQueue →
          Fifo.Before a b t.readyQueue) ∧
    ∀ a b calls t, Fifo.Before a b s.readyQueue → run next s calls = some t →
      t.currentRunningThread = b → LeftBefore s calls a := by
  have h := hs.inv
  refine ⟨fun call t hnext => ?_, fun a b calls t hab hrun ht => ?_⟩
  · have hserve := next_servesFront h hnext
    exact ⟨hserve, fun a b hab => hserve.queue.before h.ready_nodup hab⟩
  · have hpair : [a, b].Nodup := h.ready_nodup.sublist hab
    have hrunning : s.currentRunningThread ≠ b := by
      intro heq
      exact h.current_notMem_offCpu (mem_offCpu.mpr (Or.inl (heq ▸ hab.mem_right)))
    exact leftBefore_of_ahead h (by simpa using hpair) ⟨hab.mem_left, fun _ => hab⟩
      hrunning hrun ht

/-- Threads 1 and 2 are spawned; thread 1 blocks itself before thread 2 runs. -/
theorem round_robin_two_threads :
    ∃ s t, run next (Scheduler.create 1) [.spawn (some 1), .spawn (some 2)] = some s ∧
      run next s [.tick, .block 1] = some t ∧ t.currentRunningThread = 2 ∧
      LeftBefore s [.tick, .block 1] 1 :=
  ⟨_, _, rfl, rfl, by decide,
    (@round_robin _ ⟨1, Scheduler.create 1, rfl, [.spawn (some 1), .spawn (some 2)], rfl⟩).2
      1 2 [.tick, .block 1] _ (List.Sublist.refl [1, 2]) rfl (by decide)⟩

end Uthreads
