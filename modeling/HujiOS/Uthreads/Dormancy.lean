import HujiOS.Uthreads.Partition
import Mathlib.Data.List.TakeWhile

/-!
# Blocked, sleeping and dead threads do not run

Three properties of a thread `tid` survive every step except the calls that
are meant to end them: being blocked (ended by `resume tid`), sleeping until a
deadline (ended by the deadline), and not being live (ended by a spawn that
returns `tid`).  Each has a step lemma over `Transition` and a run lemma, and
each excludes that `tid` is the running thread because the roster has no
duplicates.

Quantums are counted mathematically: `quantumStarts` is the number of steps of
a run that start one, so the quantum reached by a run from `uthread_init` is
one more.  `total_quantum_` is that number as long as it fits an `int`.
-/

namespace Uthreads

open MachineInt Scheduler Runs

/-! ## Counting quantums -/

/-- How many steps of a run start a new quantum. -/
def quantumStarts : Scheduler → List Call → Nat
  | _, [] => 0
  | s, call :: rest =>
      match next s call with
      | none => 0
      | some t => (if t.totalQuantum = s.totalQuantum then 0 else 1) + quantumStarts t rest

/-- A transition keeps the quantum count or starts the next quantum. -/
theorem Transition.totalQuantum {p t : Scheduler} {call : Call} {r : Reply}
    (htr : Transition p call r t) :
    t.totalQuantum = p.totalQuantum ∨ t.totalQuantum = toInt32 (p.totalQuantum + 1) := by
  cases htr with
  | tick _ => exact Or.inr rfl
  | blockSelf _ _ => exact Or.inr rfl
  | sleep _ _ _ => exact Or.inr rfl
  | terminateSelf _ _ => exact Or.inr rfl
  | _ => exact Or.inl rfl

/-- A step starts at most one quantum. -/
theorem next_totalQuantum {s t : Scheduler} {call : Call} (h : s.Inv)
    (hnext : next s call = some t) :
    t.totalQuantum = s.totalQuantum ∨ t.totalQuantum = toInt32 (s.totalQuantum + 1) := by
  rcases next_cases h hnext with ⟨_, rfl⟩ | ⟨r, htr⟩
  · exact Or.inl rfl
  · simpa using htr.totalQuantum

/-- While the count fits an `int`, it grows by the quantums started. -/
theorem totalQuantum_run {s t : Scheduler} {calls : List Call} (h : s.Inv)
    (hlo : intMin ≤ s.totalQuantum)
    (hrun : run next s calls = some t)
    (hfit : s.totalQuantum + quantumStarts s calls ≤ intMax) :
    t.totalQuantum = s.totalQuantum + quantumStarts s calls := by
  induction calls generalizing s with
  | nil =>
      have heq : s = t := Option.some.inj hrun
      simp [quantumStarts, heq]
  | cons call rest ih =>
      obtain ⟨m, hm, hrest⟩ := run_cons_some hrun
      simp only [quantumStarts, hm, Nat.cast_add] at hfit ⊢
      by_cases hsame : m.totalQuantum = s.totalQuantum
      · rw [if_pos hsame] at hfit ⊢
        have := ih (next_inv h hm) (by omega) hrest (by omega)
        omega
      · rw [if_neg hsame] at hfit ⊢
        have hstep := (next_totalQuantum h hm).resolve_left hsame
        rw [toInt32_of_range (by omega) (by omega)] at hstep
        have := ih (next_inv h hm) (by omega) hrest (by omega)
        omega

/-! ## Blocked threads -/

/-- Only resuming or terminating a blocked thread takes it out of the set. -/
theorem Transition.blocked_mem {p t : Scheduler} {call : Call} {r : Reply} {tid : Int}
    (htr : Transition p call r t) (hb : tid ∈ p.blockedThreads)
    (hresume : call ≠ .resume tid) (hterm : call ≠ .terminate tid) :
    tid ∈ t.blockedThreads := by
  cases htr with
  | blockSelf _ _ => exact Finset.mem_insert_of_mem hb
  | blockSleeper _ => exact Finset.mem_insert_of_mem hb
  | blockReady _ _ => exact Finset.mem_insert_of_mem hb
  | resumeSleeper _ _ =>
      exact Finset.mem_erase.mpr ⟨fun heq => hresume (heq ▸ rfl), hb⟩
  | resumeReady _ _ =>
      exact Finset.mem_erase.mpr ⟨fun heq => hresume (heq ▸ rfl), hb⟩
  | terminateBlocked _ =>
      exact Finset.mem_erase.mpr ⟨fun heq => hterm (heq ▸ rfl), hb⟩
  | _ => exact hb

/-- A blocked thread stays blocked over every run in which nobody resumes or
terminates it. -/
theorem blocked_run {s t : Scheduler} {calls : List Call} {tid : Int} (h : s.Inv)
    (hb : tid ∈ s.blockedThreads) (hrun : run next s calls = some t)
    (hresume : .resume tid ∉ calls) (hterm : .terminate tid ∉ calls) :
    t.Inv ∧ tid ∈ t.blockedThreads := by
  refine run_invariant (fun m => m.Inv ∧ tid ∈ m.blockedThreads)
    (fun call => call ≠ .resume tid ∧ call ≠ .terminate tid) ?_ ?_ ⟨h, hb⟩ hrun
  · intro m call m' hok hm hnext
    refine ⟨next_inv hm.1 hnext, ?_⟩
    rcases next_cases hm.1 hnext with ⟨_, rfl⟩ | ⟨r, htr⟩
    · exact hm.2
    · exact htr.blocked_mem (by simpa using hm.2) hok.1 hok.2
  · exact fun call hcall =>
      ⟨fun heq => hresume (heq ▸ hcall), fun heq => hterm (heq ▸ hcall)⟩

/-- An accepted block leaves the thread in the blocked set. -/
theorem block_accepted {s t : Scheduler} {tid : Int} (h : s.Inv)
    (hcall : invoke s (.block tid) = .ok (.returned exitSuccess, t)) :
    tid ∈ t.blockedThreads := by
  rcases invoke_cases h hcall with ⟨hget, _⟩ | htr
  · simp at hget
  · cases htr with
    | blockAgain hb => exact hb
    | blockSelf _ _ => exact Finset.mem_insert_self _ _
    | blockSleeper _ => exact Finset.mem_insert_self _ _
    | blockReady _ _ => exact Finset.mem_insert_self _ _

/-! ## Sleeping threads -/

/-- `tid` sleeps until quantum `d`, blocked meanwhile or not. -/
structure Dormant (s : Scheduler) (tid d : Int) : Prop where
  deadline : (s.threads.getD tid).sleepUntil = d
  place : tid ∈ s.blockedThreads ∨ tid ∈ s.sleepers

/-- A dormant thread is off the CPU. -/
theorem Dormant.mem_offCpu {s : Scheduler} {tid d : Int} (hd : Dormant s tid d) :
    tid ∈ s.offCpu :=
  Scheduler.mem_offCpu.mpr (Or.inr hd.place)

/-- A dormant thread does not run. -/
theorem Dormant.ne_current {s : Scheduler} {tid d : Int} (h : s.Inv) (hd : Dormant s tid d) :
    s.currentRunningThread ≠ tid := by
  rintro rfl
  exact h.current_notMem_offCpu hd.mem_offCpu

/-- A dormant thread is live. -/
theorem Dormant.mem_threads {s : Scheduler} {tid d : Int} (h : s.Inv) (hd : Dormant s tid d) :
    tid ∈ s.threads ∧ tid ≠ s.tidToTerminate :=
  (h.live tid).mp (mem_roster.mpr (Or.inr hd.mem_offCpu))

/-- The cleanup leaves a dormant thread as it is. -/
theorem Dormant.cleanup {s : Scheduler} {tid d : Int} (h : s.Inv) (hd : Dormant s tid d) :
    Dormant s.deleteTerminatedThread tid d := by
  refine ⟨?_, ?_⟩
  · rw [getD_deleteTerminatedThread (hd.mem_threads h).2]
    exact hd.deadline
  · simpa [sleepers] using hd.place

/-- The tick does not wake an entry whose deadline is still ahead. -/
theorem mem_sleepers_sleepToReady {p : Scheduler} {tid : Int} (h : p.Inv)
    (hasleep : tid ∈ p.sleepers)
    (hahead : toInt32 (p.totalQuantum + 1) ≤ (p.threads.getD tid).sleepUntil) :
    tid ∈ p.sleepToReady.sleepers := by
  obtain ⟨e, he, rfl⟩ := List.mem_map.mp hasleep
  rw [h.deadline e he] at hahead
  rw [← List.takeWhile_append_dropWhile (p := p.isDue) (l := p.sleepThreads)] at he
  rcases List.mem_append.mp he with hdue | hkept
  · have := List.mem_takeWhile_imp hdue
    simp [isDue] at this
    omega
  · exact List.mem_map_of_mem hkept

/-- After an insertion the new sleeper and the old ones sleep. -/
theorem mem_sleepers_insertSleeper {tid : Int} {e : TidToSleepTime}
    {entries : List TidToSleepTime} (h : tid = e.1 ∨ tid ∈ entries.map Prod.fst) :
    tid ∈ (insertSleeper e entries).map Prod.fst := by
  have hperm := (insertSleeper_perm e entries).map Prod.fst
  rw [hperm.mem_iff, List.map_cons, List.mem_cons]
  exact h

/-- Waking one sleeper early leaves the others asleep. -/
theorem mem_sleepers_eraseSleeper {p : Scheduler} {tid a : Int} (hne : tid ≠ a)
    (hasleep : tid ∈ p.sleepers) : tid ∈ (p.eraseSleeper a).sleepers := by
  rw [sleepers_eraseSleeper]
  exact (List.mem_erase_of_ne hne).mpr hasleep

/-- **Step lemma for sleepers.**  As long as the next quantum is not past the
deadline, a step that does not terminate the thread leaves it dormant. -/
theorem Transition.dormant {p t : Scheduler} {call : Call} {r : Reply} {tid d : Int}
    (h : p.Inv) (htr : Transition p call r t) (hd : Dormant p tid d) (hd1 : d ≠ -1)
    (hterm : call ≠ .terminate tid)
    (hahead : t.totalQuantum ≠ p.totalQuantum → toInt32 (p.totalQuantum + 1) ≤ d) :
    Dormant t tid d := by
  have hcur := hd.ne_current h
  have hrest := hd.place
  have hbump := fun (m : ThreadMap) (a : Int) => m.getD_incremented_sleepUntil a tid
  cases htr with
  | rejected _ => exact hd
  | quantums _ => exact hd
  | blockAgain _ => exact hd
  | resumeIdle _ _ => exact hd
  | @spawn _ new _ _ hfree _ _ =>
      have hne : tid ≠ (new : Int) := fun heq => hfree (heq ▸ (hd.mem_threads h).1)
      exact ⟨(congrArg _ (ThreadMap.getD_insert_ne hne _)).trans hd.deadline, hrest⟩
  | @tick nextTid rest hqueue =>
      refine ⟨(hbump _ _).trans hd.deadline, hrest.imp_right fun hs => ?_⟩
      refine mem_sleepers_sleepToReady h hs ?_
      rw [hd.deadline]
      apply hahead
      intro heq
      exact absurd heq (toInt32_succ_ne p.totalQuantum)
  | blockSelf _ _ =>
      exact ⟨(hbump _ _).trans hd.deadline, hrest.imp_left Finset.mem_insert_of_mem⟩
  | @blockSleeper a hasleep =>
      refine ⟨hd.deadline, ?_⟩
      by_cases heq : tid = a
      · subst heq; exact Or.inl (Finset.mem_insert_self _ _)
      · exact hrest.imp Finset.mem_insert_of_mem (mem_sleepers_eraseSleeper heq)
  | blockReady _ _ =>
      exact ⟨hd.deadline, hrest.imp_left Finset.mem_insert_of_mem⟩
  | @resumeSleeper a _ _ =>
      refine ⟨hd.deadline, ?_⟩
      by_cases heq : tid = a
      · exact Or.inr (mem_sleepers_insertSleeper (Or.inl heq))
      · exact hrest.imp (fun hb => Finset.mem_erase.mpr ⟨heq, hb⟩)
          (fun hs => mem_sleepers_insertSleeper (Or.inr hs))
  | @resumeReady a _ hnever =>
      refine ⟨hd.deadline, hrest.imp_left fun hb => ?_⟩
      refine Finset.mem_erase.mpr ⟨?_, hb⟩
      rintro rfl
      exact hd1 (hd.deadline.symm.trans hnever)
  | @sleep n nextTid rest _ _ _ =>
      refine ⟨(hbump _ _).trans ?_,
        hrest.imp_right fun hs => mem_sleepers_insertSleeper (Or.inr hs)⟩
      show (ThreadMap.getD (p.threads.modify p.currentRunningThread _) tid).sleepUntil = d
      rw [ThreadMap.getD_modify_ne (Ne.symm hcur)]
      exact hd.deadline
  | terminateSelf _ _ => exact ⟨(hbump _ _).trans hd.deadline, hrest⟩
  | @terminateSleeper a _ =>
      have hne : tid ≠ a := fun heq => hterm (heq ▸ rfl)
      exact ⟨hd.deadline, hrest.imp_right (mem_sleepers_eraseSleeper hne)⟩
  | @terminateBlocked a _ =>
      have hne : tid ≠ a := fun heq => hterm (heq ▸ rfl)
      exact ⟨hd.deadline, hrest.imp_left fun hb => Finset.mem_erase.mpr ⟨hne, hb⟩⟩
  | terminateReady _ _ => exact ⟨hd.deadline, hrest⟩

/-- **Run lemma for sleepers.**  A thread stays dormant through every run that
does not terminate it and does not start a quantum past its deadline. -/
theorem dormant_run {s t : Scheduler} {calls : List Call} {tid d : Int} (h : s.Inv)
    (hd : Dormant s tid d) (hd1 : d ≠ -1) (hlo : intMin ≤ s.totalQuantum) (hhi : d ≤ intMax)
    (hterm : .terminate tid ∉ calls) (hrun : run next s calls = some t)
    (hbound : s.totalQuantum + quantumStarts s calls ≤ d) : t.Inv ∧ Dormant t tid d := by
  induction calls generalizing s with
  | nil =>
      have heq : s = t := Option.some.inj hrun
      exact heq ▸ ⟨h, hd⟩
  | cons call rest ih =>
      obtain ⟨m, hm, hrest⟩ := run_cons_some hrun
      have hcall : call ≠ .terminate tid := fun heq => hterm (heq ▸ List.mem_cons_self)
      have hterm' : .terminate tid ∉ rest := fun hmem => hterm (List.mem_cons_of_mem _ hmem)
      simp only [quantumStarts, hm, Nat.cast_add] at hbound
      have hstep : Dormant m tid d ∧ intMin ≤ m.totalQuantum ∧
          m.totalQuantum + quantumStarts m rest ≤ d := by
        rcases next_cases h hm with ⟨_, rfl⟩ | ⟨r, htr⟩
        · rw [if_pos rfl] at hbound
          exact ⟨hd, hlo, by omega⟩
        · by_cases hsame : m.totalQuantum = s.totalQuantum
          · rw [if_pos hsame] at hbound
            refine ⟨htr.dormant h.deleteTerminatedThread (hd.cleanup h) hd1 hcall ?_,
              by omega, by omega⟩
            intro hne
            exact absurd (by simpa using hsame) hne
          · rw [if_neg hsame] at hbound
            have hnextQ := (next_totalQuantum h hm).resolve_left hsame
            rw [toInt32_of_range (by omega) (by omega)] at hnextQ
            refine ⟨htr.dormant h.deleteTerminatedThread (hd.cleanup h) hd1 hcall ?_,
              by omega, by omega⟩
            intro _
            rw [deleteTerminatedThread_totalQuantum, toInt32_of_range (by omega) (by omega)]
            omega
      exact ih (next_inv h hm) hstep.1 hstep.2.1 hterm' hrest hstep.2.2

/-- Falling asleep in quantum `q` for `n` quantums makes the caller dormant
until `q + n`. -/
theorem sleep_dormant {s t : Scheduler} {n : Int} (h : s.Inv)
    (hmain : s.currentRunningThread ≠ 0) (hn : 1 ≤ n)
    (hnext : next s (.sleep n) = some t) :
    Dormant t s.currentRunningThread (toInt32 (s.totalQuantum + n)) ∧
      t.totalQuantum = toInt32 (s.totalQuantum + 1) := by
  rcases next_cases h hnext with ⟨hget, _⟩ | ⟨r, htr⟩
  · simp at hget
  · generalize hp : s.deleteTerminatedThread = p at htr
    have hcur : s.currentRunningThread = p.currentRunningThread := by simp [← hp]
    have htot : s.totalQuantum = p.totalQuantum := by simp [← hp]
    rw [hcur, htot]
    cases htr with
    | rejected hreject =>
        cases hreject with
        | sleepMain h0 => exact absurd (hcur.trans h0) hmain
        | sleepNonPositive hle => omega
    | sleep _ _ _ =>
        refine ⟨⟨?_, Or.inr (mem_sleepers_insertSleeper (Or.inl rfl))⟩, rfl⟩
        refine (ThreadMap.getD_incremented_sleepUntil _ _ _).trans ?_
        simp [fellAsleep]

/-! ## Dead threads -/

/-- A tid that is not live becomes live only when a spawn returns it. -/
theorem Transition.dead {p t : Scheduler} {call : Call} {r : Reply} {tid : Int}
    (h : p.Inv) (hnone : p.tidToTerminate = -1) (htr : Transition p call r t)
    (hdead : tid ∉ p.roster)
    (hspawn : ∀ entryPoint, call = .spawn entryPoint → r ≠ .returned tid) :
    tid ∉ t.roster := by
  have ht := htr.inv h hnone
  have hlive : ∀ a, a ∈ p.roster ↔ a ∈ p.threads := by
    intro a
    rw [h.live, hnone]
    refine ⟨fun ha => ha.1, fun ha => ⟨ha, ?_⟩⟩
    rintro rfl
    exact h.neg_one_notMem ha
  have hfree : tid ∉ p.threads := fun hm => hdead ((hlive tid).mpr hm)
  intro hm
  rcases htr.mem_threads h (ht.mem_threads_of_roster hm) with hold | ⟨⟨entryPoint, hcall⟩, hr⟩
  · exact hfree hold
  · exact hspawn entryPoint hcall hr

/-- Some spawn of the run returns `tid`. -/
def Respawns (s : Scheduler) (calls : List Call) (tid : Int) : Prop :=
  ∃ before entryPoint after m m', calls = before ++ .spawn entryPoint :: after ∧
    run next s before = some m ∧ invoke m (.spawn entryPoint) = .ok (.returned tid, m')

/-- A tid that has no thread has none over every run that does not spawn it
again. -/
theorem dead_run {s t : Scheduler} {calls : List Call} {tid : Int} (h : s.Inv)
    (hdead : tid ∉ s.roster) (hrun : run next s calls = some t)
    (hno : ¬ Respawns s calls tid) : t.Inv ∧ tid ∉ t.roster := by
  induction calls generalizing s with
  | nil =>
      have heq : s = t := Option.some.inj hrun
      exact heq ▸ ⟨h, hdead⟩
  | cons call rest ih =>
      obtain ⟨m, hm, hrest⟩ := run_cons_some hrun
      have hno' : ¬ Respawns m rest tid := by
        rintro ⟨before, entryPoint, after, x, x', rfl, hbefore, hreply⟩
        exact hno ⟨call :: before, entryPoint, after, x, x', rfl, by simp [hm, hbefore], hreply⟩
      refine ih (next_inv h hm) ?_ hrest hno'
      obtain ⟨r, hcall⟩ := invoke_of_next hm
      rcases invoke_cases h hcall with ⟨_, rfl⟩ | htr
      · exact hdead
      · refine htr.dead h.deleteTerminatedThread h.deleteTerminatedThread_tidToTerminate
          (by rwa [roster_deleteTerminatedThread]) ?_
        rintro entryPoint rfl rfl
        exact hno ⟨[], entryPoint, rest, s, m, rfl, rfl, hcall⟩

/-- A successful termination leaves the thread dead. -/
theorem terminate_dead {s t : Scheduler} {r : Reply} {tid : Int} (h : s.Inv)
    (hcall : invoke s (.terminate tid) = .ok (r, t)) (hok : r.value ≠ some exitFail) :
    tid ∉ t.roster := by
  rcases invoke_cases h hcall with ⟨hget, _⟩ | htr
  · simp at hget
  · have ht := htr.inv h.deleteTerminatedThread h.deleteTerminatedThread_tidToTerminate
    have hpending : t.tidToTerminate = tid := by
      cases htr with
      | rejected _ => exact absurd rfl hok
      | terminateSelf _ _ => rfl
      | terminateSleeper _ => rfl
      | terminateBlocked _ => rfl
      | terminateReady _ _ => rfl
    exact fun hm => ((ht.live tid).mp hm).2 hpending.symm

/-- A spawned thread starts without a block, a deadline or a quantum, whatever
a former thread of the same tid had. -/
theorem spawn_fresh {s t : Scheduler} {entryPoint : ThreadEntryPoint} {tid : Int} (h : s.Inv)
    (hcall : invoke s (.spawn entryPoint) = .ok (.returned tid, t)) :
    tid ∉ t.blockedThreads ∧ tid ∉ t.sleepers ∧ t.threads.lookup tid =
      some { tid := tid, numOfQuantum := 0, sleepUntil := -1 } := by
  rcases invoke_cases h hcall with ⟨hget, _⟩ | htr
  · simp at hget
  · have hp := h.deleteTerminatedThread
    cases htr with
    | spawn _ _ hfree _ _ =>
        refine ⟨fun hb => hfree (hp.blocked_mem hb).1, fun hs => hfree ?_, ?_⟩
        · exact hp.mem_threads_of_roster
            (mem_roster.mpr (Or.inr (mem_offCpu.mpr (Or.inr (Or.inr hs)))))
        · simp [spawned, Thread.create]

/-! ## The three properties over whole runs -/

/-- The quantum that a run from `uthread_init` has reached. -/
def quantumNumber (s₀ : Scheduler) (calls : List Call) : Int := 1 + quantumStarts s₀ calls

/-- **No thread runs while it is blocked, asleep or dead.**  `s` is reached
from `uthread_init` by `past`, and `tid` is any thread but the main one. -/
theorem no_run_while_off {quantumUsecs : Int} {s₀ s : Scheduler} {past : List Call} {tid : Int}
    (hinit : uthreadInit quantumUsecs = (.returned exitSuccess, some s₀))
    (hpast : run next s₀ past = some s) (htid : tid ≠ 0) :
    (∀ s₁ calls t, invoke s (.block tid) = .ok (.returned exitSuccess, s₁) →
      run next s₁ calls = some t → .resume tid ∉ calls → .terminate tid ∉ calls →
      t.currentRunningThread ≠ tid) ∧
    (∀ n s₁ calls t, s.currentRunningThread = tid → 1 ≤ n →
      quantumNumber s₀ past + n ≤ intMax → next s (.sleep n) = some s₁ →
      run next s₁ calls = some t → .terminate tid ∉ calls →
      s.totalQuantum = quantumNumber s₀ past ∧
        (1 + (quantumStarts s₁ calls : Int) ≤ n → t.currentRunningThread ≠ tid)) ∧
    (∀ r s₁ calls t, invoke s (.terminate tid) = .ok (r, s₁) → r.value ≠ some exitFail →
      run next s₁ calls = some t → ¬ Respawns s₁ calls tid →
      t.currentRunningThread ≠ tid) ∧
    (∀ entryPoint s₁, invoke s (.spawn entryPoint) = .ok (.returned tid, s₁) →
      tid ∉ s₁.blockedThreads ∧ tid ∉ s₁.sleepers ∧ s₁.threads.lookup tid =
        some { tid := tid, numOfQuantum := 0, sleepUntil := -1 }) := by
  have h : s.Inv := Reachable.inv ⟨quantumUsecs, s₀, hinit, past, hpast⟩
  have hstep : ∀ {call r t}, invoke s call = .ok (r, t) → t.Inv := by
    intro call r t hcall
    have hnext : next s call = some t := by simp [next, hcall]
    exact next_inv h hnext
  refine ⟨?_, ?_, ?_, fun entryPoint s₁ => spawn_fresh h⟩
  · intro s₁ calls t hcall hrun hresume hterm heq
    obtain ⟨ht, hb⟩ := blocked_run (hstep hcall) (block_accepted h hcall) hrun hresume hterm
    exact ht.current_notMem_blocked (heq ▸ hb)
  · intro n s₁ calls t hcur hn hfit hnext hrun hterm
    have hs₀ : s₀.Inv ∧ s₀.totalQuantum = 1 := by
      have hinv : s₀.Inv := Reachable.inv ⟨quantumUsecs, s₀, hinit, [], rfl⟩
      obtain rfl := eq_create_of_uthreadInit hinit
      exact ⟨hinv, rfl⟩
    have htotal : s.totalQuantum = quantumNumber s₀ past := by
      have hlo : intMin ≤ s₀.totalQuantum := by rw [hs₀.2]; decide
      unfold quantumNumber at hfit ⊢
      rw [totalQuantum_run hs₀.1 hlo hpast (by omega), hs₀.2]
    refine ⟨htotal, fun hstarts heq => ?_⟩
    have hpos : 1 ≤ s.totalQuantum := by rw [htotal]; unfold quantumNumber; omega
    have hmin : intMin ≤ 0 := by decide
    obtain ⟨hd, hq⟩ := sleep_dormant h (by rwa [hcur]) hn hnext
    rw [hcur, toInt32_of_range (by omega) (by omega)] at hd
    rw [toInt32_of_range (by omega) (by omega)] at hq
    obtain ⟨ht, hd'⟩ := dormant_run (next_inv h hnext) hd (by omega) (by omega) (by omega)
      hterm hrun (by omega)
    exact hd'.ne_current ht heq
  · intro r s₁ calls t hcall hok hrun hno heq
    obtain ⟨ht, hdead⟩ := dead_run (hstep hcall) (terminate_dead h hcall hok) hrun hno
    exact hdead (heq ▸ mem_roster.mpr (Or.inl rfl))

/-- A thread that sleeps for two quantums, seen after the next one. -/
theorem no_run_while_off_two_quantums :
    ∃ s s₁ t, run next (Scheduler.create 1) [.spawn (some 1), .tick] = some s ∧
      s.currentRunningThread = 1 ∧ next s (.sleep 2) = some s₁ ∧
      run next s₁ [.block 1, .resume 1, .tick] = some t ∧ t.currentRunningThread ≠ 1 :=
  ⟨_, _, _, rfl, by decide, rfl, rfl,
    ((@no_run_while_off 1 (Scheduler.create 1) _ [.spawn (some 1), .tick] 1 rfl rfl
      (by decide)).2.1 2 _ [.block 1, .resume 1, .tick] _ (by decide) (by decide) (by decide)
      rfl rfl (by decide)).2 (by decide)⟩

end Uthreads
