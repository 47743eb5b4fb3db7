import HujiOS.Ledger
import HujiOS.Uthreads.Partition
import Mathlib.Algebra.BigOperators.Ring.Finset

/-!
# Every quantum is counted once

The history of a run is a ledger: a spawn opens an account, a quantum that
starts credits the thread it dispatches, a termination closes the account.
The history is read off the calls, their replies and the running thread; it
does not look at the two counters of the code.  A quantum starts when the timer
ticks or when a call changes the running thread.

`Accounts` ties the counters to the ledger.  The deferred deletion and the
reuse of a tid are then the two facts that a closed account is not live and
that an opened one starts from zero.
-/

namespace Uthreads

open MachineInt Scheduler Runs

/-- The tids in the thread table, without the one whose deletion is pending. -/
def Scheduler.liveTids (s : Scheduler) : Finset Int :=
  s.threads.keys.toFinset.erase s.tidToTerminate

/-- The live tids are those with an object that does not wait for deletion. -/
theorem Scheduler.mem_liveTids {s : Scheduler} {tid : Int} :
    tid ∈ s.liveTids ↔ tid ∈ s.threads ∧ tid ≠ s.tidToTerminate := by
  simp [liveTids, AList.mem_keys, and_comm]

/-! ## The history of a run -/

/-- Whether the step from `s` to `t` starts a quantum. -/
def startsQuantum (s : Scheduler) (call : Call) (t : Scheduler) : Bool :=
  call = .tick ∨ t.currentRunningThread ≠ s.currentRunningThread

/-- How many steps of a run start a quantum. -/
def startedQuantums : Scheduler → List Call → Nat
  | _, [] => 0
  | s, call :: rest =>
      match next s call with
      | none => 0
      | some t => (if startsQuantum s call t then 1 else 0) + startedQuantums t rest

/-- The account that a call opens or closes, by its reply. -/
def membership : Call → Reply → List (Ledger.Entry Int)
  | .spawn _, .returned tid => if tid = exitFail then [] else [.opened tid]
  | .terminate tid, r => if r.value = some exitFail then [] else [.closed tid]
  | _, _ => []

/-- The entries of one step, newest first. -/
def entries (s : Scheduler) (call : Call) (r : Reply) (t : Scheduler) :
    List (Ledger.Entry Int) :=
  (if startsQuantum s call t then [.credited t.currentRunningThread] else []) ++
    membership call r

/-- The log that a run from `s` turns `past` into. -/
def history (past : List (Ledger.Entry Int)) : Scheduler → List Call → List (Ledger.Entry Int)
  | _, [] => past
  | s, call :: rest =>
      match invoke s call with
      | .error _ => past
      | .ok (r, t) => history (entries s call r t ++ past) t rest

/-- `uthread_init` makes the main thread and starts its first quantum. -/
def initialHistory : List (Ledger.Entry Int) := [.credited 0, .opened 0]

/-- A step that neither ticks nor changes who runs starts no quantum. -/
theorem entries_of_quiet {s t : Scheduler} {call : Call} (htick : call ≠ .tick)
    (hcur : t.currentRunningThread = s.currentRunningThread) (r : Reply) :
    entries s call r t = membership call r := by
  simp [entries, startsQuantum, htick, hcur]

/-- A step that starts a quantum credits the thread it dispatches. -/
theorem entries_of_start {s t : Scheduler} {call : Call} (h : startsQuantum s call t = true)
    (r : Reply) :
    entries s call r t = .credited t.currentRunningThread :: membership call r := by
  simp [entries, h]

/-- Only a quantum start adds a credit. -/
theorem credits_entries (s : Scheduler) (call : Call) (r : Reply) (t : Scheduler)
    (log : List (Ledger.Entry Int)) : Ledger.credits (entries s call r t ++ log) =
      Ledger.credits log + if startsQuantum s call t then 1 else 0 := by
  have hmembership : Ledger.credits (membership call r ++ log) = Ledger.credits log := by
    unfold membership
    split
    · split <;> rfl
    · split <;> rfl
    · rfl
  unfold entries
  by_cases hstart : startsQuantum s call t = true
  · rw [if_pos hstart, if_pos hstart]
    exact congrArg Nat.succ hmembership
  · rw [if_neg hstart, if_neg hstart]
    exact hmembership

@[simp] theorem startsQuantum_cleanup (s : Scheduler) (call : Call) (t : Scheduler) :
    startsQuantum s.deleteTerminatedThread call t = startsQuantum s call t := by
  simp [startsQuantum]

@[simp] theorem entries_cleanup (s : Scheduler) (call : Call) (r : Reply) (t : Scheduler) :
    entries s.deleteTerminatedThread call r t = entries s call r t := by
  simp [entries]

/-! ## Counters and ledger -/

/-- The counters of the code agree with the log. -/
structure Accounts (live : Finset Int) (threads : ThreadMap) (totalQuantum : Int)
    (log : List (Ledger.Entry Int)) : Prop where
  valid : Ledger.Valid log live
  quantums : ∀ tid ∈ live, (threads.getD tid).numOfQuantum = Ledger.balance tid log
  total : totalQuantum = Ledger.credits log

namespace Accounts

variable {live : Finset Int} {threads : ThreadMap} {totalQuantum : Int}
  {log : List (Ledger.Entry Int)} {tid : Int}

/-- The account depends only on the counters of the live threads. -/
theorem congr (h : Accounts live threads totalQuantum log) {threads' : ThreadMap}
    (hsame : ∀ a ∈ live, (threads'.getD a).numOfQuantum = (threads.getD a).numOfQuantum) :
    Accounts live threads' totalQuantum log :=
  ⟨h.valid, fun a ha => (hsame a ha).trans (h.quantums a ha), h.total⟩

/-- `_preempt` counts the quantum for the process and for the thread. -/
theorem credit (h : Accounts live threads totalQuantum log) (hmem : tid ∈ live)
    (hfit : (Ledger.credits log : Int) + 1 ≤ intMax) :
    Accounts live (threads.modify tid Thread.incrementNumOfQuantum)
      (toInt32 (totalQuantum + 1)) (.credited tid :: log) := by
  have hmin : intMin ≤ 0 := by decide
  refine ⟨h.valid.credited hmem, fun a ha => ?_, ?_⟩
  · by_cases heq : a = tid
    · have hle := Ledger.balance_le_credits tid log
      subst heq
      rw [ThreadMap.getD_modify_self, Ledger.balance_credited_self]
      simp only [Thread.incrementNumOfQuantum, h.quantums a ha]
      rw [toInt32_of_range (by omega) (by omega)]
      rfl
    · rw [ThreadMap.getD_modify_ne heq, Ledger.balance_credited_ne (Ne.symm heq)]
      exact h.quantums a ha
  · rw [h.total, toInt32_of_range (by omega) (by omega)]
    rfl

/-- A thread that is no longer live is closed with its balance. -/
theorem close (h : Accounts live threads totalQuantum log) (hmem : tid ∈ live) :
    Accounts (live.erase tid) threads totalQuantum (.closed tid :: log) :=
  ⟨h.valid.closed hmem, fun a ha => h.quantums a (Finset.mem_of_mem_erase ha), h.total⟩

/-- A new thread is opened with a counter of zero. -/
theorem openNew (h : Accounts live threads totalQuantum log) (hnot : tid ∉ live) :
    Accounts (insert tid live) (threads.insert tid (Thread.create tid)) totalQuantum
      (.opened tid :: log) := by
  refine ⟨h.valid.opened hnot, fun a ha => ?_, h.total⟩
  by_cases heq : a = tid
  · subst heq
    rw [ThreadMap.getD_insert_self, Ledger.balance_opened_self]
    rfl
  · rw [ThreadMap.getD_insert_ne heq, Ledger.balance_opened_ne (Ne.symm heq)]
    exact h.quantums a ((Finset.mem_insert.mp ha).resolve_left heq)

end Accounts

/-! ## One step -/

/-- The live tids depend only on the keys and on who waits for deletion. -/
theorem liveTids_of_keys {p t : Scheduler} (hkeys : ∀ tid, tid ∈ t.threads ↔ tid ∈ p.threads)
    (hpending : t.tidToTerminate = p.tidToTerminate) : t.liveTids = p.liveTids := by
  ext tid
  rw [mem_liveTids, mem_liveTids, hkeys, hpending]

/-- A termination takes the thread out of the live ones although it is still
in the table. -/
theorem liveTids_of_pending {p t : Scheduler} {tid : Int} (h : p.Inv)
    (hnone : p.tidToTerminate = -1) (hkeys : ∀ a, a ∈ t.threads ↔ a ∈ p.threads)
    (hpending : t.tidToTerminate = tid) : t.liveTids = p.liveTids.erase tid := by
  ext a
  rw [Finset.mem_erase, mem_liveTids, mem_liveTids, hkeys, hpending, hnone]
  have hne : a ∈ p.threads → a ≠ -1 := fun ha heq => h.neg_one_notMem (heq ▸ ha)
  tauto

/-- A spawn adds one live tid. -/
theorem liveTids_spawned {p : Scheduler} (hnone : p.tidToTerminate = -1) (tid : Nat) :
    (p.spawned tid).liveTids = insert (tid : Int) p.liveTids := by
  ext a
  by_cases heq : a = (tid : Int)
  · simp [mem_liveTids, spawned, hnone, heq]
  · simp [mem_liveTids, spawned, heq]

/-- A dispatch changes nobody's being live. -/
theorem liveTids_dispatched {q : Scheduler} {nextTid : Int} {rest : List Int}
    (hmem : nextTid ∈ q.threads) : (q.dispatched nextTid rest).liveTids = q.liveTids :=
  liveTids_of_keys (fun a => mem_threads_dispatched hmem rest a) rfl

/-- The log after a step agrees with the counters after it. -/
def Booked (p : Scheduler) (call : Call) (r : Reply) (t : Scheduler)
    (log : List (Ledger.Entry Int)) : Prop :=
  Accounts t.liveTids t.threads t.totalQuantum (entries p call r t ++ log)

section Booked

variable {p t : Scheduler} {call : Call} {r : Reply} {log : List (Ledger.Entry Int)}

/-- A step that starts no quantum and keeps the thread table. -/
theorem booked_quiet (hacc : Accounts p.liveTids p.threads p.totalQuantum log)
    (hent : entries p call r t = []) (hthreads : t.threads = p.threads)
    (hpending : t.tidToTerminate = p.tidToTerminate) (htotal : t.totalQuantum = p.totalQuantum) :
    Booked p call r t log := by
  have hlive : t.liveTids = p.liveTids := liveTids_of_keys (by simp [hthreads]) hpending
  unfold Booked
  rw [hent, hlive, hthreads, htotal]
  exact hacc

/-- A thread other than the running one is terminated. -/
theorem booked_closed (h : p.Inv) (hnone : p.tidToTerminate = -1)
    (hacc : Accounts p.liveTids p.threads p.totalQuantum log) {tid : Int}
    (hmem : tid ∈ p.offCpu) (hent : entries p call r t = [.closed tid])
    (hthreads : t.threads = p.threads) (hpending : t.tidToTerminate = tid)
    (htotal : t.totalQuantum = p.totalQuantum) : Booked p call r t log := by
  have hlive : t.liveTids = p.liveTids.erase tid :=
    liveTids_of_pending h hnone (by simp [hthreads]) hpending
  have hopen : tid ∈ p.liveTids :=
    mem_liveTids.mpr ((h.live tid).mp (mem_roster.mpr (Or.inr hmem)))
  unfold Booked
  rw [hent, hlive, hthreads, htotal]
  exact hacc.close hopen

/-- `_preempt` is called in a state `q` with the same threads and counters. -/
theorem booked_start {q : Scheduler} {nextTid : Int} {rest : List Int}
    (hacc : Accounts p.liveTids p.threads p.totalQuantum log)
    (hkeys : ∀ tid, tid ∈ q.threads ↔ tid ∈ p.threads)
    (hpending : q.tidToTerminate = p.tidToTerminate) (htotal : q.totalQuantum = p.totalQuantum)
    (hsame : ∀ tid, (q.threads.getD tid).numOfQuantum = (p.threads.getD tid).numOfQuantum)
    (hnext : nextTid ∈ p.liveTids) (hfit : (Ledger.credits log : Int) + 1 ≤ intMax)
    (hent : entries p call r (q.dispatched nextTid rest) = [.credited nextTid]) :
    Booked p call r (q.dispatched nextTid rest) log := by
  have hmem : nextTid ∈ q.threads := (hkeys _).mpr (mem_liveTids.mp hnext).1
  have hlive : (q.dispatched nextTid rest).liveTids = p.liveTids :=
    (liveTids_dispatched hmem).trans (liveTids_of_keys hkeys hpending)
  have hq : Accounts p.liveTids q.threads q.totalQuantum log :=
    htotal ▸ hacc.congr fun tid _ => hsame tid
  unfold Booked
  rw [hent, hlive]
  exact hq.credit hnext hfit

end Booked

/-- **Step lemma.**  A transition changes the counters as its entries say. -/
theorem Transition.booked {p t : Scheduler} {call : Call} {r : Reply}
    {log : List (Ledger.Entry Int)} (h : p.Inv) (hnone : p.tidToTerminate = -1)
    (htr : Transition p call r t) (hacc : Accounts p.liveTids p.threads p.totalQuantum log)
    (hfit : startsQuantum p call t = true → (Ledger.credits log : Int) + 1 ≤ intMax) :
    Booked p call r t log := by
  have hlive : ∀ {tid}, tid ∈ p.roster → tid ∈ p.liveTids :=
    fun hm => mem_liveTids.mpr ((h.live _).mp hm)
  have hfront : ∀ {nextTid rest}, p.readyQueue = nextTid :: rest →
      nextTid ∈ p.liveTids ∧ nextTid ≠ p.currentRunningThread := by
    intro nextTid rest hqueue
    refine ⟨hlive ?_, Ne.symm (h.front_facts hqueue).2.2⟩
    exact mem_roster.mpr (Or.inr (mem_offCpu.mpr (Or.inl (by simp [hqueue]))))
  cases htr with
  | rejected hreject =>
      refine booked_quiet hacc ?_ rfl rfl rfl
      cases hreject <;> simp [entries, startsQuantum, membership, Reply.value]
  | quantums _ => exact booked_quiet hacc (entries_of_quiet (by simp) rfl _) rfl rfl rfl
  | blockAgain _ => exact booked_quiet hacc (entries_of_quiet (by simp) rfl _) rfl rfl rfl
  | resumeIdle _ _ => exact booked_quiet hacc (entries_of_quiet (by simp) rfl _) rfl rfl rfl
  | blockSleeper _ => exact booked_quiet hacc (entries_of_quiet (by simp) rfl _) rfl rfl rfl
  | blockReady _ _ => exact booked_quiet hacc (entries_of_quiet (by simp) rfl _) rfl rfl rfl
  | resumeSleeper _ _ => exact booked_quiet hacc (entries_of_quiet (by simp) rfl _) rfl rfl rfl
  | resumeReady _ _ => exact booked_quiet hacc (entries_of_quiet (by simp) rfl _) rfl rfl rfl
  | @spawn entry new hlo _ hfree _ _ =>
      have hnot : (new : Int) ∉ p.liveTids := fun hm => hfree (mem_liveTids.mp hm).1
      have hfail : (new : Int) ≠ exitFail := by unfold exitFail; omega
      have hent : entries p (.spawn (some entry)) (.returned new) (p.spawned new) =
          [.opened (new : Int)] := by
        simp [entries, startsQuantum, spawned, membership, hfail]
      unfold Booked
      rw [hent, liveTids_spawned hnone]
      exact hacc.openNew hnot
  | @tick nextTid rest hqueue =>
      have hstart : startsQuantum p .tick (p.expired.dispatched nextTid rest) = true := rfl
      refine booked_start hacc (fun _ => Iff.rfl) rfl rfl (fun _ => rfl) ?_ (hfit hstart)
        (entries_of_start hstart _)
      exact hlive (mem_expired_readyQueue (s := p) nextTid (by simp [hqueue]))
  | @blockSelf nextTid rest _ hqueue =>
      obtain ⟨hmem, hne⟩ := hfront hqueue
      have hstart : startsQuantum p (.block p.currentRunningThread)
          ((p.blocked p.currentRunningThread).dispatched nextTid rest) = true := by
        simp [startsQuantum, dispatched, hne]
      exact booked_start hacc (fun _ => Iff.rfl) rfl rfl (fun _ => rfl) hmem (hfit hstart)
        (entries_of_start hstart _)
  | @sleep n nextTid rest _ _ hqueue =>
      obtain ⟨hmem, hne⟩ := hfront hqueue
      have hstart : startsQuantum p (.sleep n) ((p.fellAsleep n).dispatched nextTid rest) =
          true := by
        simp [startsQuantum, dispatched, hne]
      refine booked_start hacc (h.mem_threads_fellAsleep n) rfl rfl ?_ hmem (hfit hstart)
        (entries_of_start hstart _)
      exact fun tid => ThreadMap.getD_modify_field Thread.numOfQuantum
        (·.setSleepUntil (toInt32 (p.totalQuantum + n))) (fun _ => rfl) _ _ tid
  | @terminateSelf nextTid rest _ hqueue =>
      obtain ⟨hmem, hne⟩ := hfront hqueue
      have hself : p.currentRunningThread ∈ p.liveTids := hlive (mem_roster.mpr (Or.inl rfl))
      have hfrontMem : nextTid ∈ p.threads := (h.front_facts hqueue).1
      have hstart : startsQuantum p (.terminate p.currentRunningThread)
          { p.dispatched nextTid rest with tidToTerminate := p.currentRunningThread } = true := by
        simp [startsQuantum, dispatched, hne]
      have hgone : Scheduler.liveTids
          { p.dispatched nextTid rest with tidToTerminate := p.currentRunningThread } =
            p.liveTids.erase p.currentRunningThread :=
        liveTids_of_pending h hnone (mem_threads_dispatched hfrontMem rest) rfl
      unfold Booked
      rw [entries_of_start hstart, hgone]
      exact (hacc.close hself).credit (Finset.mem_erase.mpr ⟨hne, hmem⟩) (hfit hstart)
  | terminateSleeper hasleep =>
      exact booked_closed h hnone hacc (mem_offCpu.mpr (Or.inr (Or.inr hasleep)))
        (entries_of_quiet (by simp) rfl _) rfl rfl rfl
  | terminateBlocked hblocked =>
      exact booked_closed h hnone hacc (mem_offCpu.mpr (Or.inr (Or.inl hblocked)))
        (entries_of_quiet (by simp) rfl _) rfl rfl rfl
  | terminateReady _ hready =>
      exact booked_closed h hnone hacc (mem_offCpu.mpr (Or.inl hready))
        (entries_of_quiet (by simp) rfl _) rfl rfl rfl

/-- The cleanup frees an object that was not live. -/
theorem liveTids_cleanup {s : Scheduler} (h : s.Inv) :
    s.deleteTerminatedThread.liveTids = s.liveTids := by
  ext tid
  rw [mem_liveTids, ← h.deleteTerminatedThread.live, roster_deleteTerminatedThread, h.live,
    mem_liveTids]

/-- The step lemma for a call, from the state in which it is made. -/
theorem next_booked {s t : Scheduler} {call : Call} {log : List (Ledger.Entry Int)} (h : s.Inv)
    (hacc : Accounts s.liveTids s.threads s.totalQuantum log) (hnext : next s call = some t)
    (hfit : startsQuantum s call t = true → (Ledger.credits log : Int) + 1 ≤ intMax) :
    ∃ r, invoke s call = .ok (r, t) ∧ Booked s call r t log := by
  obtain ⟨r, hcall⟩ := invoke_of_next hnext
  refine ⟨r, hcall, ?_⟩
  rcases invoke_cases h hcall with ⟨hgetter, rfl⟩ | htr
  · refine booked_quiet hacc ?_ rfl rfl rfl
    rcases hgetter with rfl | rfl <;> simp [entries, startsQuantum, membership]
  · have hacc' : Accounts s.deleteTerminatedThread.liveTids s.deleteTerminatedThread.threads
        s.deleteTerminatedThread.totalQuantum log := by
      rw [liveTids_cleanup h, deleteTerminatedThread_totalQuantum]
      refine hacc.congr fun tid htid => ?_
      rw [getD_deleteTerminatedThread (mem_liveTids.mp htid).2]
    have hstep := htr.booked h.deleteTerminatedThread h.deleteTerminatedThread_tidToTerminate
      hacc' (by simpa using hfit)
    simpa [Booked] using hstep

/-! ## Whole runs -/

/-- **Run lemma.**  The counters at the end of a run agree with its history. -/
theorem accounts_run {s t : Scheduler} {calls : List Call} {log : List (Ledger.Entry Int)}
    (h : s.Inv) (hacc : Accounts s.liveTids s.threads s.totalQuantum log)
    (hrun : run next s calls = some t)
    (hfit : ((Ledger.credits log + startedQuantums s calls : Nat) : Int) ≤ intMax) :
    Accounts t.liveTids t.threads t.totalQuantum (history log s calls) ∧
      Ledger.credits (history log s calls) = Ledger.credits log + startedQuantums s calls := by
  induction calls generalizing s log with
  | nil =>
      have heq : s = t := Option.some.inj hrun
      exact heq ▸ ⟨hacc, rfl⟩
  | cons call rest ih =>
      obtain ⟨m, hm, hrest⟩ := run_cons_some hrun
      simp only [startedQuantums, hm, ← Nat.add_assoc] at hfit ⊢
      obtain ⟨r, hcall, hbooked⟩ := next_booked h hacc hm (fun hstart => by
        rw [if_pos hstart] at hfit
        omega)
      simp only [history, hcall]
      rw [← credits_entries s call r m log] at hfit ⊢
      exact ih (next_inv h hm) hbooked hrest hfit

/-- The first quantum of the main thread is in the first account. -/
theorem create_accounts (quantumUsecs : Int) :
    Accounts (Scheduler.create quantumUsecs).liveTids (Scheduler.create quantumUsecs).threads
      (Scheduler.create quantumUsecs).totalQuantum initialHistory := by
  have hlive : (Scheduler.create quantumUsecs).liveTids = insert 0 ∅ := rfl
  rw [hlive]
  refine ⟨(Ledger.Valid.nil.opened (by simp)).credited (by simp), fun tid htid => ?_, rfl⟩
  obtain rfl : tid = 0 := by simpa using htid
  rfl

/-- **Quantum accounting.**  For every run from `uthread_init` whose quantums
an `int` can count: the total is one more than the quantums started, the count
of a live thread is what the history credits to it since its spawn, and the
total is spread over the live threads and the final counts of the terminated
ones. -/
theorem quantum_accounting {quantumUsecs : Int} {s₀ s : Scheduler} {calls : List Call}
    (hinit : uthreadInit quantumUsecs = (.returned exitSuccess, some s₀))
    (hrun : run next s₀ calls = some s)
    (hfit : 1 + (startedQuantums s₀ calls : Int) ≤ intMax) :
    s.totalQuantum = 1 + startedQuantums s₀ calls ∧
    (∀ tid, tid ∈ s.threads → tid ≠ s.tidToTerminate →
      ∃ t, invoke s (.getQuantums tid) =
        .ok (.returned (Ledger.balance tid (history initialHistory s₀ calls)), t)) ∧
    s.totalQuantum = ∑ tid ∈ s.liveTids,
        (Ledger.balance tid (history initialHistory s₀ calls) : Int) +
      Ledger.settled (history initialHistory s₀ calls) := by
  have h : s.Inv := Reachable.inv ⟨quantumUsecs, s₀, hinit, calls, hrun⟩
  obtain rfl := eq_create_of_uthreadInit hinit
  obtain ⟨hacc, hcredits⟩ := accounts_run (create_inv quantumUsecs)
    (create_accounts quantumUsecs) hrun (by
      simp only [initialHistory, Ledger.credits]
      omega)
  refine ⟨?_, fun tid hthread hne => ?_, ?_⟩
  · rw [hacc.total, hcredits]
    simp [initialHistory, Ledger.credits]
  · have hcount := hacc.quantums tid (mem_liveTids.mpr ⟨hthread, hne⟩)
    obtain ⟨r, t, hcall, hcase⟩ := invoke_transition h (.getQuantums tid) (by simp)
    refine ⟨t, ?_⟩
    rcases hcase with ⟨hgetter, _⟩ | htr
    · simp at hgetter
    · have hmem : tid ∈ s.deleteTerminatedThread.threads :=
        (mem_deleteTerminatedThread tid).mpr ⟨hthread, hne⟩
      rw [hcall]
      cases htr with
      | rejected hreject =>
          cases hreject with
          | quantumsMissing hmissing => exact absurd hmem hmissing
      | quantums _ => rw [getD_deleteTerminatedThread hne, hcount]
  · rw [hacc.total, hacc.valid.balanced, Nat.cast_add, Nat.cast_sum]

/-- Thread 1 runs, is terminated by the main thread, and its tid is used again. -/
theorem quantum_accounting_reuse :
    ∃ s, run next (Scheduler.create 1)
        [.spawn (some 1), .tick, .tick, .terminate 1, .spawn (some 2), .tick, .tick, .tick] =
          some s ∧
      s.totalQuantum = 1 + startedQuantums (Scheduler.create 1)
        [.spawn (some 1), .tick, .tick, .terminate 1, .spawn (some 2), .tick, .tick, .tick] :=
  ⟨_, rfl, (@quantum_accounting 1 (Scheduler.create 1) _
    [.spawn (some 1), .tick, .tick, .terminate 1, .spawn (some 2), .tick, .tick, .tick]
    rfl rfl (by decide)).1⟩

end Uthreads
