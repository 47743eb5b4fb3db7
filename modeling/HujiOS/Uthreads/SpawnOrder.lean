import HujiOS.Uthreads.Accounting
import HujiOS.Uthreads.Resume
import Mathlib.Order.Bounds.Basic

/-!
# Which id a spawned thread gets

The ids in use are those that `uthread_spawn` has returned and that no
`uthread_terminate` has taken back since, with 0 for the main thread.  They
are read off the replies alone, and they are the live tids of the scheduler:
the object of a thread that terminated itself is still in the table at that
time, but the cleanup before the search drops it.

So a spawn hands out the least id that is not in use, whatever gaps the
history has left, and fails exactly when all `maxThreadNum` ids are in use.
-/

namespace Uthreads

open Scheduler Runs

/-! ## The ids in use -/

/-- The ids in use after a call, by its reply. -/
def idsAfter (ids : Finset Int) : Call → Reply → Finset Int
  | .spawn _, .returned tid => if tid = exitFail then ids else insert tid ids
  | .terminate tid, r => if r.value = some exitFail then ids else ids.erase tid
  | _, _ => ids

/-- The ids in use after a run, by its replies. -/
def idsInUse (ids : Finset Int) : Scheduler → List Call → Finset Int
  | _, [] => ids
  | s, call :: rest =>
      match invoke s call with
      | .error _ => ids
      | .ok (r, t) => idsInUse (idsAfter ids call r) t rest

/-- **Step lemma.**  A transition changes the live tids as its reply says. -/
theorem Transition.liveTids {p t : Scheduler} {call : Call} {r : Reply} (h : p.Inv)
    (hnone : p.tidToTerminate = -1) (htr : Transition p call r t) :
    t.liveTids = idsAfter p.liveTids call r := by
  cases htr with
  | rejected hreject => cases hreject <;> simp [idsAfter, Reply.value]
  | @spawn entry tid hlo _ _ _ _ =>
      have hfail : (tid : Int) ≠ exitFail := by unfold exitFail; omega
      rw [liveTids_spawned hnone tid]
      simp [idsAfter, hfail]
  | @tick nextTid rest hqueue =>
      have hmem := h.mem_threads_of_roster
        (mem_expired_readyQueue (s := p) nextTid (by simp [hqueue]))
      exact liveTids_dispatched (q := p.expired) hmem
  | blockSelf _ hqueue =>
      exact liveTids_dispatched (q := p.blocked p.currentRunningThread) (h.front_facts hqueue).1
  | @sleep n nextTid rest _ _ hqueue =>
      have hkeys := h.mem_threads_fellAsleep n
      have hasleep : (p.fellAsleep n).liveTids = p.liveTids := liveTids_of_keys hkeys rfl
      rw [liveTids_dispatched ((hkeys nextTid).mpr (h.front_facts hqueue).1), hasleep]
      rfl
  | @terminateSelf nextTid rest _ hqueue =>
      exact liveTids_of_pending h hnone
        (fun a => mem_threads_dispatched (h.front_facts hqueue).1 rest a) rfl
  | terminateSleeper _ => exact liveTids_of_pending h hnone (fun a => Iff.rfl) rfl
  | terminateBlocked _ => exact liveTids_of_pending h hnone (fun a => Iff.rfl) rfl
  | terminateReady _ _ => exact liveTids_of_pending h hnone (fun a => Iff.rfl) rfl
  | _ => rfl

/-- **Run lemma.**  The live tids are the ids in use. -/
theorem liveTids_run {s t : Scheduler} {calls : List Call} (h : s.Inv)
    (hrun : run next s calls = some t) : t.liveTids = idsInUse s.liveTids s calls := by
  induction calls generalizing s with
  | nil =>
      have heq : s = t := Option.some.inj hrun
      exact heq ▸ rfl
  | cons call rest ih =>
      obtain ⟨m, hm, hrest⟩ := run_cons_some hrun
      obtain ⟨r, hcall⟩ := invoke_of_next hm
      have hstep : m.liveTids = idsAfter s.liveTids call r := by
        rcases invoke_cases h hcall with ⟨hgetter, rfl⟩ | htr
        · rcases hgetter with rfl | rfl <;> rfl
        · rw [htr.liveTids h.deleteTerminatedThread h.deleteTerminatedThread_tidToTerminate,
            liveTids_cleanup h]
      rw [ih (next_inv h hm) hrest, hstep]
      simp only [idsInUse, hcall]

/-! ## What a spawn does -/

/-- Nothing that the scheduler holds about a live thread has changed. -/
structure SameThreads (s t : Scheduler) : Prop where
  live : t.liveTids = s.liveTids
  threads : ∀ a ∈ s.liveTids, t.threads.lookup a = s.threads.lookup a
  ready : t.readyQueue = s.readyQueue
  blocked : t.blockedThreads = s.blockedThreads
  asleep : t.sleepThreads = s.sleepThreads
  running : t.currentRunningThread = s.currentRunningThread
  total : t.totalQuantum = s.totalQuantum

/-- The thread `tid` is new and last in the ready queue; the others are as
they were. -/
structure SpawnedLast (s : Scheduler) (tid : Int) (t : Scheduler) : Prop where
  live : t.liveTids = insert tid s.liveTids
  fresh : t.threads.lookup tid = some { tid := tid, numOfQuantum := 0, sleepUntil := -1 }
  threads : ∀ a ∈ s.liveTids, t.threads.lookup a = s.threads.lookup a
  ready : t.readyQueue = s.readyQueue ++ [tid]
  blocked : t.blockedThreads = s.blockedThreads
  asleep : t.sleepThreads = s.sleepThreads
  running : t.currentRunningThread = s.currentRunningThread
  total : t.totalQuantum = s.totalQuantum

/-- The cleanup changes nothing about a live thread. -/
theorem sameThreads_cleanup {s : Scheduler} (h : s.Inv) :
    SameThreads s s.deleteTerminatedThread :=
  { live := liveTids_cleanup h
    threads := fun _ ha => lookup_deleteTerminatedThread (mem_liveTids.mp ha).2
    ready := by simp
    blocked := by simp
    asleep := by simp
    running := by simp
    total := by simp }

/-- What a spawn adds after the cleanup, it adds to the state before it. -/
theorem SameThreads.spawned {s p : Scheduler} (hsame : SameThreads s p)
    (hnone : p.tidToTerminate = -1) {tid : Nat} (hfree : (tid : Int) ∉ p.liveTids) :
    SpawnedLast s tid (p.spawned tid) :=
  { live := by rw [liveTids_spawned hnone, hsame.live]
    fresh := AList.lookup_insert _
    threads := fun a ha => by
      have hne : a ≠ (tid : Int) := fun heq => hfree (heq ▸ hsame.live.symm ▸ ha)
      exact (AList.lookup_insert_ne hne).trans (hsame.threads a ha)
    ready := by simp [Scheduler.spawned, hsame.ready]
    blocked := hsame.blocked
    asleep := hsame.asleep
    running := hsame.running
    total := hsame.total }

/-- With nothing pending the table holds the live threads only. -/
theorem card_liveTids {p : Scheduler} (h : p.Inv) (hnone : p.tidToTerminate = -1) :
    p.liveTids.card = p.threads.size := by
  have hnot : (-1 : Int) ∉ p.threads.keys.toFinset := by
    rw [List.mem_toFinset]
    exact fun hm => h.neg_one_notMem (AList.mem_keys.mpr hm)
  unfold Scheduler.liveTids ThreadMap.size
  rw [hnone, Finset.erase_eq_of_notMem hnot]
  exact List.toFinset_card_of_nodup p.threads.keys_nodup

/-- What `spawnThread` does with an entry point, by the number of live
threads. -/
theorem spawn_cases {s : Scheduler} (h : s.Inv) (entry : Nat) :
    ∃ r t, invoke s (.spawn (some entry)) = .ok (r, t) ∧
      ((s.liveTids.card = maxThreadNum ∧ r.value = some exitFail ∧ SameThreads s t) ∨
        (s.liveTids.card ≠ maxThreadNum ∧ ∃ tid : Nat, r = .returned tid ∧
          IsLeast {u : Nat | 1 ≤ u ∧ u < maxThreadNum ∧ (u : Int) ∉ s.liveTids} tid ∧
          SpawnedLast s tid t)) := by
  have hp := h.deleteTerminatedThread
  have hnone := h.deleteTerminatedThread_tidToTerminate
  have hsame := sameThreads_cleanup h
  have hcard := card_liveTids hp hnone
  have hlive : ∀ a, a ∈ s.liveTids ↔ a ∈ s.deleteTerminatedThread.threads := fun a =>
    mem_liveTids.trans (mem_deleteTerminatedThread a).symm
  rw [hsame.live] at hcard
  obtain ⟨r, t, hcall, hcase⟩ := invoke_transition h (.spawn (some entry)) (by simp)
  refine ⟨r, t, hcall, ?_⟩
  rcases hcase with ⟨hgetter, _⟩ | htr
  · simp at hgetter
  · cases htr with
    | rejected hreject =>
        cases hreject with
        | spawnFull hfull => exact Or.inl ⟨hcard.trans hfull, rfl, hsame⟩
    | @spawn _ tid hlo hhi hfree hleast hroom =>
        right
        refine ⟨hcard ▸ hroom, tid, rfl, ⟨⟨hlo, hhi, ?_⟩, ?_⟩, ?_⟩
        · exact fun hm => hfree ((hlive tid).mp hm)
        · intro u hu
          by_contra hlt
          exact hu.2.2 ((hlive u).mpr (hleast u hu.1 (not_le.mp hlt)))
        · apply hsame.spawned hnone
          exact fun hm => hfree ((mem_liveTids.mp hm).1)

/-- **Spawn returns the least free id.**  In every state of every run from
`uthread_init` and for every entry point: the ids in use are the live tids;
the reply is `-1` exactly when there are `maxThreadNum` of them, and then no
live thread changes; otherwise it is the least id from 1 on that is not in use,
and the new thread is ready behind all others. -/
theorem spawn_least_free {quantumUsecs : Int} {s₀ s : Scheduler} {calls : List Call}
    (hinit : uthreadInit quantumUsecs = (.returned exitSuccess, some s₀))
    (hrun : run next s₀ calls = some s) (entry : Nat) :
    s.liveTids = idsInUse {0} s₀ calls ∧
    ∃ r t, invoke s (.spawn (some entry)) = .ok (r, t) ∧
      (r.value = some exitFail ↔ s.liveTids.card = maxThreadNum) ∧
      (s.liveTids.card = maxThreadNum → SameThreads s t) ∧
      (s.liveTids.card ≠ maxThreadNum → ∃ tid : Nat, r = .returned tid ∧
        IsLeast {u : Nat | 1 ≤ u ∧ u < maxThreadNum ∧ (u : Int) ∉ s.liveTids} tid ∧
        SpawnedLast s tid t) := by
  have h : s.Inv := Reachable.inv ⟨quantumUsecs, s₀, hinit, calls, hrun⟩
  obtain rfl := eq_create_of_uthreadInit hinit
  refine ⟨liveTids_run (create_inv quantumUsecs) hrun, ?_⟩
  obtain ⟨r, t, hcall, hcase⟩ := spawn_cases h entry
  refine ⟨r, t, hcall, ?_⟩
  rcases hcase with ⟨hfull, hfail, hsame⟩ | ⟨hroom, tid, hr, hleast, hspawned⟩
  · exact ⟨iff_of_true hfail hfull, fun _ => hsame, fun hroom => absurd hfull hroom⟩
  · have hok : r.value ≠ some exitFail := by
      simp [hr, Reply.value, exitFail]
    exact ⟨iff_of_false hok hroom, fun hfull => absurd hfull hroom,
      fun _ => ⟨tid, hr, hleast, hspawned⟩⟩

/-- Threads 1, 2 and 3 are spawned; 2 is terminated by the main thread and 1,
which runs next, by itself.  Its object is still in the table when the main
thread spawns again. -/
theorem spawn_least_free_gap :
    ∃ s, run next (Scheduler.create 1) [.spawn (some 1), .spawn (some 2), .spawn (some 3),
        .terminate 2, .tick, .terminate 1] = some s ∧
      (1 : Int) ∈ s.threads ∧ s.liveTids = {0, 3} ∧ ∃ t, SpawnedLast s 1 t := by
  let calls : List Call := [.spawn (some 1), .spawn (some 2), .spawn (some 3), .terminate 2,
    .tick, .terminate 1]
  obtain ⟨s, hrun⟩ : ∃ s, run next (Scheduler.create 1) calls = some s := ⟨_, rfl⟩
  obtain ⟨hids, r, t, -, -, -, hspawned⟩ :=
    @spawn_least_free 1 (Scheduler.create 1) s calls rfl hrun 4
  have hlive : s.liveTids = {0, 3} := by
    rw [hids]
    decide
  have hmem : (1 : Int) ∈ s.threads := by
    obtain rfl := Option.some.inj hrun
    decide
  obtain ⟨tid, -, hleast, hlast⟩ := hspawned (by rw [hlive]; decide)
  have hle : tid ≤ 1 := hleast.2 ⟨le_rfl, by decide, by rw [hlive]; decide⟩
  obtain rfl : tid = 1 := le_antisymm hle hleast.1.1
  exact ⟨s, hrun, hmem, hlive, t, hlast⟩

end Uthreads
