import HujiOS.Uthreads.Partition

/-!
# When a resumed thread becomes ready

`resumeThread` sends a blocked thread back to the sleepers unless its
`sleepUntil_` field is -1.  The field is -1 in a fresh thread and is set by
`sleepThread`; no code sets it back when the thread wakes up.  So the decision
does not rest on whether the thread is inside a sleeping period but on whether
it has ever slept, which `resume_ready_iff` states for every run.

The deadline of the last sleep is read off the calls of the run.
-/

namespace Uthreads

open MachineInt Scheduler Runs

/-! ## The last deadline of each thread -/

/-- What a call does to the deadlines: a sleep sets that of the running thread
and a spawn starts without one. -/
def recordSleep (s : Scheduler) (past : Int → Option Int) : Call → Reply → Int → Option Int
  | .sleep n, .returned _ =>
      Function.update past s.currentRunningThread (some (toInt32 (s.totalQuantum + n)))
  | .spawn _, .returned tid => Function.update past tid none
  | _, _ => past

/-- The deadlines after a run from `s`. -/
def sleepHistory (past : Int → Option Int) : Scheduler → List Call → Int → Option Int
  | _, [] => past
  | s, call :: rest =>
      match invoke s call with
      | .error _ => past
      | .ok (r, t) => sleepHistory (recordSleep s past call r) t rest

/-- The deadline of the last sleep of `tid` in a run from `uthread_init`, if it
has called `sleepThread` since it was spawned. -/
def lastDeadline (s₀ : Scheduler) (calls : List Call) (tid : Int) : Option Int :=
  sleepHistory (fun _ => none) s₀ calls tid

@[simp] theorem recordSleep_cleanup (s : Scheduler) (past : Int → Option Int) (call : Call)
    (r : Reply) : recordSleep s.deleteTerminatedThread past call r = recordSleep s past call r := by
  unfold recordSleep
  simp

/-- The field `sleepUntil_` of every thread is its last deadline, or -1. -/
def Recorded (s : Scheduler) (past : Int → Option Int) : Prop :=
  ∀ tid ∈ s.threads, (s.threads.getD tid).sleepUntil = (past tid).getD (-1)

/-- The cleanup forgets no live thread's deadline. -/
theorem Recorded.cleanup {s : Scheduler} {past : Int → Option Int} (h : Recorded s past) :
    Recorded s.deleteTerminatedThread past := by
  intro tid htid
  obtain ⟨hthread, hne⟩ := (mem_deleteTerminatedThread tid).mp htid
  rw [getD_deleteTerminatedThread hne]
  exact h tid hthread

/-- A dispatch changes no deadline. -/
theorem Recorded.dispatched {q : Scheduler} {past : Int → Option Int} (h : Recorded q past)
    {nextTid : Int} (hnext : nextTid ∈ q.threads) (rest : List Int) :
    Recorded (q.dispatched nextTid rest) past := by
  intro tid htid
  have hthread := (mem_threads_dispatched hnext rest tid).mp htid
  exact (ThreadMap.getD_incremented_sleepUntil _ _ _).trans (h tid hthread)

/-- **Step lemma.**  A transition changes the deadlines as recorded. -/
theorem Transition.recorded {p t : Scheduler} {call : Call} {r : Reply}
    {past : Int → Option Int} (h : p.Inv) (htr : Transition p call r t)
    (hrec : Recorded p past) : Recorded t (recordSleep p past call r) := by
  cases htr with
  | rejected hreject =>
      cases hreject <;> exact hrec
  | @spawn entry new _ _ _ _ _ =>
      intro tid htid
      by_cases heq : tid = (new : Int)
      · subst heq
        simp [recordSleep, spawned, Thread.create]
      · have hold : tid ∈ p.threads := (AList.mem_insert _).mp htid |>.resolve_left heq
        simp only [recordSleep, spawned, Function.update_of_ne heq, ThreadMap.getD_insert_ne heq]
        exact hrec tid hold
  | @tick nextTid rest hqueue =>
      have hmem := h.mem_threads_of_roster
        (mem_expired_readyQueue (s := p) nextTid (by simp [hqueue]))
      exact Recorded.dispatched (q := p.expired) hrec hmem rest
  | @blockSelf nextTid rest _ hqueue =>
      have hmem := (h.front_facts hqueue).1
      exact Recorded.dispatched (q := p.blocked p.currentRunningThread) hrec hmem rest
  | @sleep n nextTid rest _ _ hqueue =>
      have hmem := (h.mem_threads_fellAsleep n nextTid).mpr (h.front_facts hqueue).1
      refine Recorded.dispatched (fun tid htid => ?_) hmem rest
      by_cases heq : tid = p.currentRunningThread
      · subst heq
        simp [recordSleep, fellAsleep]
      · have hold := (h.mem_threads_fellAsleep n tid).mp htid
        simp only [recordSleep, fellAsleep, Function.update_of_ne heq,
          ThreadMap.getD_modify_ne heq]
        exact hrec tid hold
  | @terminateSelf nextTid rest _ hqueue =>
      have hmem := (h.front_facts hqueue).1
      exact hrec.dispatched hmem rest
  | _ => exact hrec

/-- **Run lemma.**  The deadlines in the thread table are those of the run. -/
theorem recorded_run {s t : Scheduler} {calls : List Call} {past : Int → Option Int} (h : s.Inv)
    (hrec : Recorded s past) (hrun : run next s calls = some t) :
    Recorded t (sleepHistory past s calls) := by
  induction calls generalizing s past with
  | nil =>
      have heq : s = t := Option.some.inj hrun
      exact heq ▸ hrec
  | cons call rest ih =>
      obtain ⟨m, hm, hrest⟩ := run_cons_some hrun
      obtain ⟨r, hcall⟩ := invoke_of_next hm
      simp only [sleepHistory, hcall]
      refine ih (next_inv h hm) ?_ hrest
      rcases invoke_cases h hcall with ⟨hgetter, rfl⟩ | htr
      · rcases hgetter with rfl | rfl <;> exact hrec
      · simpa using htr.recorded h.deleteTerminatedThread hrec.cleanup

/-- The main thread starts without a deadline. -/
theorem create_recorded (quantumUsecs : Int) :
    Recorded (Scheduler.create quantumUsecs) (fun _ => none) := by
  intro tid htid
  obtain rfl := (mem_threads_create quantumUsecs tid).mp htid
  rfl

/-- After every run the field `sleepUntil_` is the deadline of the thread's
last sleep. -/
theorem recorded_lastDeadline {quantumUsecs : Int} {s₀ s : Scheduler} {calls : List Call}
    (hinit : uthreadInit quantumUsecs = (.returned exitSuccess, some s₀))
    (hrun : run next s₀ calls = some s) {tid : Int} (htid : tid ∈ s.threads) :
    (s.threads.getD tid).sleepUntil = (lastDeadline s₀ calls tid).getD (-1) := by
  obtain rfl := eq_create_of_uthreadInit hinit
  exact recorded_run (create_inv quantumUsecs) (create_recorded quantumUsecs) hrun tid htid

/-! ## The decision of `resumeThread` -/

/-- `resumeThread(tid)` has made `tid` ready and left all else alone. -/
structure MadeReady (s : Scheduler) (tid : Int) (t : Scheduler) : Prop where
  ready : t.readyQueue = s.readyQueue ++ [tid]
  blocked : t.blockedThreads = s.blockedThreads.erase tid
  asleep : tid ∉ t.sleepers ∧ t.sleepThreads = s.sleepThreads
  running : t.currentRunningThread = s.currentRunningThread
  total : t.totalQuantum = s.totalQuantum
  threads : ∀ a, a ≠ s.tidToTerminate → t.threads.lookup a = s.threads.lookup a

/-- The sleeping period of `tid` is over: its last deadline, if it has one, is
before the current quantum. -/
def NotSleeping (s₀ : Scheduler) (calls : List Call) (s : Scheduler) (tid : Int) : Prop :=
  ∀ d, lastDeadline s₀ calls tid = some d → d < s.totalQuantum

/-- The cleanup leaves the other threads' objects as they are. -/
theorem lookup_deleteTerminatedThread {s : Scheduler} {a : Int} (hne : a ≠ s.tidToTerminate) :
    s.deleteTerminatedThread.threads.lookup a = s.threads.lookup a := by
  unfold deleteTerminatedThread
  split
  · exact AList.lookup_erase_ne hne
  · rfl

/-- What `resumeThread` does with a blocked thread, by its field. -/
theorem resume_blocked {s : Scheduler} {tid : Int} (h : s.Inv) (hb : tid ∈ s.blockedThreads) :
    ∃ t, invoke s (.resume tid) = .ok (.returned exitSuccess, t) ∧
      ((s.threads.getD tid).sleepUntil = -1 ∧ MadeReady s tid t ∨
        (s.threads.getD tid).sleepUntil ≠ -1 ∧ tid ∈ t.sleepers) := by
  have hoff : tid ∈ s.offCpu := mem_offCpu.mpr (Or.inr (Or.inl hb))
  have hlive := (h.live tid).mp (mem_roster.mpr (Or.inr hoff))
  have hp := h.deleteTerminatedThread
  have hpb : tid ∈ s.deleteTerminatedThread.blockedThreads := by simpa using hb
  have hdeadline := congrArg Thread.sleepUntil (getD_deleteTerminatedThread hlive.2)
  obtain ⟨r, t, hcall, hcase⟩ := invoke_transition h (.resume tid) (by simp)
  rcases hcase with ⟨hgetter, _⟩ | htr
  · simp at hgetter
  · rw [hcall]
    cases htr with
    | rejected hreject =>
        cases hreject with
        | resumeMissing hmissing => exact absurd (hp.blocked_mem hpb).1 hmissing
    | resumeIdle _ hnot => exact absurd hpb hnot
    | resumeSleeper _ hset =>
        refine ⟨_, rfl, Or.inr ⟨hdeadline ▸ hset, ?_⟩⟩
        exact List.mem_map_of_mem (mem_insertSleeper.mpr (Or.inl rfl))
    | resumeReady _ hunset =>
        refine ⟨_, rfl, Or.inl ⟨hdeadline ▸ hunset, ?_⟩⟩
        have hawake : tid ∉ s.sleepers := (h.blocked_mem hb).2
        exact
          { ready := by simp
            blocked := by simp [unblocked]
            asleep := by simpa [sleepers, unblocked] using hawake
            running := by simp [unblocked]
            total := by simp [unblocked]
            threads := fun a hne => lookup_deleteTerminatedThread hne }

/-- **What decides whether a resumed thread becomes ready.**  In every state
of every run from `uthread_init`: outside a sleeping period a blocked thread is
made ready exactly when it has not slept before, because a deadline that has
passed sends it to the sleepers all the same. -/
theorem resume_ready_iff {quantumUsecs : Int} {s₀ s : Scheduler} {calls : List Call} {tid : Int}
    (hinit : uthreadInit quantumUsecs = (.returned exitSuccess, some s₀))
    (hrun : run next s₀ calls = some s) (hb : tid ∈ s.blockedThreads) :
    (NotSleeping s₀ calls s tid →
      ∃ t, invoke s (.resume tid) = .ok (.returned exitSuccess, t) ∧ MadeReady s tid t) ↔
      ∀ d, lastDeadline s₀ calls tid = some d → d = -1 ∨ s.totalQuantum ≤ d := by
  have h : s.Inv := Reachable.inv ⟨quantumUsecs, s₀, hinit, calls, hrun⟩
  have hfield := recorded_lastDeadline hinit hrun (h.blocked_mem hb).1
  obtain ⟨t, hcall, hcase⟩ := resume_blocked h hb
  constructor
  · intro hcontract d hd
    rw [hd, Option.getD_some] at hfield
    by_contra hstale
    rw [not_or, Int.not_le] at hstale
    have hover : NotSleeping s₀ calls s tid := by
      intro d' hd'
      obtain rfl : d = d' := Option.some.inj (hd.symm.trans hd')
      exact hstale.2
    obtain ⟨t', hcall', hready⟩ := hcontract hover
    obtain rfl : t = t' := by simpa [hcall] using hcall'
    rcases hcase with ⟨hunset, _⟩ | ⟨_, hasleep⟩
    · exact hstale.1 (hfield.symm.trans hunset)
    · exact hready.asleep.1 hasleep
  · intro hcond hover
    rcases hcase with ⟨_, hready⟩ | ⟨hset, _⟩
    · exact ⟨t, hcall, hready⟩
    · -- the field is a deadline, which is over and must be -1
      cases hlast : lastDeadline s₀ calls tid with
      | none => exact absurd (by rw [hfield, hlast]; rfl) hset
      | some d =>
          rw [hlast, Option.getD_some] at hfield
          have hneg := (hcond d hlast).resolve_right (Int.not_le.mpr (hover d hlast))
          exact absurd (hfield.trans hneg) hset

/-- A thread that was blocked before it ever slept becomes ready. -/
theorem resume_ready_iff_fresh :
    ∃ s, run next (Scheduler.create 1) [.spawn (some 1), .block 1] = some s ∧
      (NotSleeping (Scheduler.create 1) [.spawn (some 1), .block 1] s 1 →
        ∃ t, invoke s (.resume 1) = .ok (.returned exitSuccess, t) ∧ MadeReady s 1 t) :=
  ⟨_, rfl, (@resume_ready_iff 1 (Scheduler.create 1) _ [.spawn (some 1), .block 1] 1 rfl rfl
    (by decide)).mpr (by
      intro d hd
      have hnone : lastDeadline (Scheduler.create 1) [.spawn (some 1), .block 1] 1 = none := by
        decide
      simp [hnone] at hd)⟩

/-- Thread 1 sleeps for one quantum, wakes up, runs and blocks itself. -/
def sleepWakeBlock : List Call :=
  [.spawn (some 1), .tick, .sleep 1, .tick, .block 1]

/-- Resuming it then puts it back to sleep, although its deadline is over. -/
theorem sleepWakeBlock_resume :
    uthreadInit 1 = (.returned exitSuccess, some (Scheduler.create 1)) ∧
    ∃ s t, run next (Scheduler.create 1) sleepWakeBlock = some s ∧ 1 ∈ s.blockedThreads ∧
      lastDeadline (Scheduler.create 1) sleepWakeBlock 1 = some 3 ∧ s.totalQuantum = 5 ∧
      NotSleeping (Scheduler.create 1) sleepWakeBlock s 1 ∧
      invoke s (.resume 1) = .ok (.returned exitSuccess, t) ∧ 1 ∈ t.sleepers ∧
      ¬ MadeReady s 1 t := by
  have hlast : lastDeadline (Scheduler.create 1) sleepWakeBlock 1 = some 3 := by decide +kernel
  obtain ⟨s, hrun, hb, htotal, hfield⟩ :
      ∃ s, run next (Scheduler.create 1) sleepWakeBlock = some s ∧
      1 ∈ s.blockedThreads ∧ s.totalQuantum = 5 ∧ (s.threads.getD 1).sleepUntil = 3 :=
    ⟨_, rfl, by decide, by decide, by decide⟩
  have h : s.Inv := Reachable.inv ⟨1, _, rfl, sleepWakeBlock, hrun⟩
  have hover : NotSleeping (Scheduler.create 1) sleepWakeBlock s 1 := by
    intro d hd
    have hd3 : 3 = d := Option.some.inj (hlast.symm.trans hd)
    omega
  obtain ⟨t, hcall, hcase⟩ := resume_blocked h hb
  have hasleep : 1 ∈ t.sleepers := by
    rcases hcase with ⟨hunset, _⟩ | ⟨_, hasleep⟩
    · omega
    · exact hasleep
  exact ⟨rfl, s, t, hrun, hb, hlast, htotal, hover, hcall, hasleep,
    fun hready => hready.asleep.1 hasleep⟩

end Uthreads
