import HujiOS.Runs
import Mathlib.Data.Finset.Card
import Mathlib.Data.Fintype.Card

/-!
# The reusable barrier

`Barrier::barrier` for `n` threads, each of which may call it any number of
times.  A step is what a thread does between two moments at which another may
run: taking the mutex, counting itself in and then waiting or broadcasting,
taking the mutex again after the broadcast, unlocking.

In every reachable state there is a round number such that the waiting threads
have arrived once more than that and all others exactly that often.  So the
count that the last arriver resets is always the number of waiting threads, also
while slow threads are still leaving the previous round.
-/

namespace MapReduce

open Runs

/-- Where a thread is in `Barrier::barrier`. -/
inductive BarrierPc
  | outside
  -- holds the mutex, about to count itself in
  | locked
  -- in `pthread_cond_wait`, without the mutex
  | waiting
  -- woken by the broadcast, has to take the mutex again
  | woken
  -- holds the mutex, about to unlock it and return
  | leaving
  deriving DecidableEq, Repr

/-- The barrier's fields, and for each thread how often it has counted itself in
and returned. -/
structure Barrier (n : Nat) where
  mutex : Option (Fin n)
  count : Nat
  pcs : Fin n → BarrierPc
  arrivals : Fin n → Nat
  returns : Fin n → Nat

namespace Barrier

variable {n : Nat}

/-- `Barrier::Barrier`: nobody has arrived. -/
def initial (n : Nat) : Barrier n where
  mutex := none
  count := 0
  pcs := fun _ => .outside
  arrivals := fun _ => 0
  returns := fun _ => 0

/-- `pthread_cond_broadcast`: every waiting thread wakes. -/
def wake : BarrierPc → BarrierPc
  | .waiting => .woken
  | pc => pc

/-- `pthread_mutex_lock`, also at the end of a wait: only when the mutex is free. -/
def lock (b : Barrier n) (w : Fin n) (pc : BarrierPc) : Option (Barrier n) :=
  if b.mutex = none then some { b with mutex := some w, pcs := Function.update b.pcs w pc }
  else none

/-- The body of `barrier` under the mutex: `++count < numThreads`. -/
def arrive (b : Barrier n) (w : Fin n) : Barrier n :=
  let arrivals := Function.update b.arrivals w (b.arrivals w + 1)
  if b.count + 1 < n then
    { b with
      mutex := none
      count := b.count + 1
      pcs := Function.update b.pcs w .waiting
      arrivals := arrivals }
  else
    { b with
      count := 0
      pcs := Function.update (wake ∘ b.pcs) w .leaving
      arrivals := arrivals }

/-- One step of thread `w`; a waiting thread has none until a broadcast. -/
def step (b : Barrier n) (w : Fin n) : Option (Barrier n) :=
  match b.pcs w with
  | .outside => b.lock w .locked
  | .locked => some (b.arrive w)
  | .waiting => none
  | .woken => b.lock w .leaving
  | .leaving =>
      some { b with
        mutex := none
        pcs := Function.update b.pcs w .outside
        returns := Function.update b.returns w (b.returns w + 1) }

section Fields

variable {b c : Barrier n} {w v : Fin n}

/-- Taking the mutex moves the thread and counts nobody in. -/
theorem lock_eq_some {pc : BarrierPc} (h : b.lock w pc = some c) :
    c.pcs = Function.update b.pcs w pc ∧ c.arrivals = b.arrivals := by
  unfold lock at h
  split at h
  · obtain rfl := Option.some.inj h
    exact ⟨rfl, rfl⟩
  · cases h

/-- Arriving counts the thread in, in either branch. -/
@[simp] theorem arrive_arrivals :
    (b.arrive w).arrivals = Function.update b.arrivals w (b.arrivals w + 1) := by
  unfold arrive
  split <;> rfl

/-- A thread that has arrived waits or is on its way out. -/
theorem arrive_pcs_self : (b.arrive w).pcs w = .waiting ∨ (b.arrive w).pcs w = .leaving := by
  unfold arrive
  split <;> simp

/-- An arrival moves no other thread, unless it wakes it. -/
theorem arrive_pcs_ne (hv : v ≠ w) :
    (b.arrive w).pcs v = b.pcs v ∨ (b.arrive w).pcs v = wake (b.pcs v) := by
  unfold arrive
  split <;> simp [hv]

end Fields

/-! ## The invariant -/

/-- The threads in `pthread_cond_wait`. -/
def waiters (b : Barrier n) : Finset (Fin n) := {v | b.pcs v = .waiting}

/-- The waiters are the threads in `pthread_cond_wait`. -/
theorem mem_waiters {b : Barrier n} {v : Fin n} : v ∈ b.waiters ↔ b.pcs v = .waiting := by
  simp [waiters]

/-- A thread that has counted itself in and has not returned. -/
def inside : BarrierPc → Nat
  | .outside | .locked => 0
  | .waiting | .woken | .leaving => 1

/-- The invariant at round `r`: who waits has arrived `r + 1` times, everybody
else `r` times. -/
structure Round (b : Barrier n) (r : Nat) : Prop where
  arrivals : ∀ v, b.arrivals v = r + if b.pcs v = .waiting then 1 else 0
  returns : ∀ v, b.arrivals v = b.returns v + inside (b.pcs v)
  count : b.count = b.waiters.card
  count_lt : b.count < n
  owner : ∀ v, b.pcs v = .locked ∨ b.pcs v = .leaving ↔ b.mutex = some v

/-- A new barrier is in round 0. -/
theorem Round.initial (hn : 0 < n) : (initial n).Round 0 where
  arrivals := by simp [Barrier.initial]
  returns := by simp [Barrier.initial, inside]
  count := by simp [Barrier.initial, waiters]
  count_lt := hn
  owner := by simp [Barrier.initial]

namespace Round

variable {b c : Barrier n} {r : Nat} {w : Fin n}

/-- Taking the mutex on the way in or out does not touch the round. -/
theorem lock {pc : BarrierPc} (h : b.Round r) (hpc : pc = .locked ∨ pc = .leaving)
    (hwait : b.pcs w ≠ .waiting) (hinside : inside pc = inside (b.pcs w))
    (hstep : b.lock w pc = some c) : c.Round r := by
  unfold Barrier.lock at hstep
  split at hstep
  case isFalse => cases hstep
  case isTrue hfree =>
      obtain rfl := Option.some.inj hstep
      have hpcWait : pc ≠ .waiting := by rcases hpc with rfl | rfl <;> decide
      have hsame : ∀ v, (Function.update b.pcs w pc v = .waiting) ↔ b.pcs v = .waiting := by
        intro v
        by_cases hv : v = w
        · subst hv
          simp [hpcWait, hwait]
        · simp [hv]
      constructor
      · intro v
        simp only [hsame]
        exact h.arrivals v
      · intro v
        by_cases hv : v = w
        · subst hv
          simpa [hinside] using h.returns v
        · simpa [hv] using h.returns v
      · rw [h.count]
        congr 1
        ext v
        simp only [mem_waiters, hsame]
      · exact h.count_lt
      · intro v
        by_cases hv : v = w
        · subst hv
          simpa using hpc
        · have hno : ¬ (b.pcs v = .locked ∨ b.pcs v = .leaving) := by
            rw [h.owner v, hfree]
            exact fun heq => by cases heq
          simpa [hv, Ne.symm hv] using hno

/-- An arrival that is not the last starts to wait. -/
theorem arrive_wait (h : b.Round r) (hpc : b.pcs w = .locked) (hlt : b.count + 1 < n) :
    (b.arrive w).Round r := by
  have hmutex : b.mutex = some w := (h.owner w).mp (Or.inl hpc)
  have hnot : w ∉ b.waiters := by simp [mem_waiters, hpc]
  unfold arrive
  rw [if_pos hlt]
  constructor
  · intro v
    by_cases hv : v = w
    · subst hv
      simp [h.arrivals v, hpc]
    · simpa [hv] using h.arrivals v
  · intro v
    by_cases hv : v = w
    · subst hv
      simp [h.returns v, hpc, inside]
    · simpa [hv] using h.returns v
  · have hwaiters : b.waiters.card + 1 = (insert w b.waiters).card :=
      (Finset.card_insert_of_notMem hnot).symm
    dsimp only
    rw [h.count, hwaiters]
    congr 1
    ext v
    by_cases hv : v = w
    · subst hv
      simp [mem_waiters]
    · simp [mem_waiters, hv]
  · exact hlt
  · intro v
    by_cases hv : v = w
    · subst hv
      simp
    · have howner := h.owner v
      rw [hmutex] at howner
      simpa [hv, Ne.symm hv] using howner

/-- When one more arrival completes the round everybody else waits. -/
theorem waiting_of_last (h : b.Round r) (hpc : b.pcs w = .locked) (hlast : ¬ b.count + 1 < n)
    {v : Fin n} (hv : v ≠ w) : b.pcs v = .waiting := by
  have hsub : b.waiters ⊆ Finset.univ.erase w := by
    intro u hu
    apply Finset.mem_erase.mpr
    refine ⟨fun heq => ?_, Finset.mem_univ u⟩
    simp [mem_waiters, heq, hpc] at hu
  have hcard : (Finset.univ.erase w).card ≤ b.waiters.card := by
    rw [Finset.card_erase_of_mem (Finset.mem_univ w), Finset.card_univ, Fintype.card_fin,
      ← h.count]
    omega
  rw [← mem_waiters, Finset.eq_of_subset_of_card_le hsub hcard]
  exact Finset.mem_erase.mpr ⟨hv, Finset.mem_univ v⟩

/-- The last arrival wakes all others and starts the next round. -/
theorem arrive_last (h : b.Round r) (hpc : b.pcs w = .locked) (hlast : ¬ b.count + 1 < n) :
    (b.arrive w).Round (r + 1) := by
  have hmutex : b.mutex = some w := (h.owner w).mp (Or.inl hpc)
  have hothers : ∀ v, v ≠ w → b.pcs v = .waiting := fun v => h.waiting_of_last hpc hlast
  unfold arrive
  rw [if_neg hlast]
  constructor
  · intro v
    by_cases hv : v = w
    · subst hv
      simp [h.arrivals v, hpc]
    · simp [hv, h.arrivals v, hothers v hv, wake]
  · intro v
    by_cases hv : v = w
    · subst hv
      simp [h.returns v, hpc, inside]
    · have hret := h.returns v
      rw [hothers v hv] at hret
      simpa [hv, hothers v hv, wake, inside] using hret
  · symm
    apply Finset.card_eq_zero.mpr
    apply Finset.eq_empty_of_forall_notMem
    intro v hmem
    by_cases hv : v = w
    · simp [mem_waiters, hv] at hmem
    · simp [mem_waiters, hv, hothers v hv, wake] at hmem
  · exact w.pos
  · intro v
    by_cases hv : v = w
    · subst hv
      simpa using hmutex
    · have hne : some w ≠ some v := fun heq => hv (Option.some.inj heq).symm
      simp [hv, hothers v hv, wake, hmutex, hne]

/-- Unlocking on return. -/
theorem leave (h : b.Round r) (hpc : b.pcs w = .leaving) :
    Round { b with
      mutex := none
      pcs := Function.update b.pcs w .outside
      returns := Function.update b.returns w (b.returns w + 1) } r := by
  have hmutex : b.mutex = some w := (h.owner w).mp (Or.inr hpc)
  constructor
  · intro v
    by_cases hv : v = w
    · subst hv
      simp [h.arrivals v, hpc]
    · simpa [hv] using h.arrivals v
  · intro v
    by_cases hv : v = w
    · subst hv
      simp [h.returns v, hpc, inside]
    · simpa [hv] using h.returns v
  · dsimp only
    rw [h.count]
    congr 1
    ext v
    by_cases hv : v = w
    · subst hv
      simp [mem_waiters, hpc]
    · simp [mem_waiters, hv]
  · exact h.count_lt
  · intro v
    by_cases hv : v = w
    · subst hv
      simp
    · have howner := h.owner v
      rw [hmutex] at howner
      simpa [hv, Ne.symm hv] using howner

/-- **One step keeps the round or completes it.** -/
theorem step (h : b.Round r) (hstep : b.step w = some c) : ∃ r', c.Round r' := by
  unfold Barrier.step at hstep
  cases hpc : b.pcs w with
  | outside =>
      rw [hpc] at hstep
      exact ⟨r, h.lock (Or.inl rfl) (by simp [hpc]) (by rw [hpc]; rfl) hstep⟩
  | locked =>
      rw [hpc] at hstep
      obtain rfl := Option.some.inj hstep
      by_cases hlt : b.count + 1 < n
      · exact ⟨r, h.arrive_wait hpc hlt⟩
      · exact ⟨r + 1, h.arrive_last hpc hlt⟩
  | waiting => simp [hpc] at hstep
  | woken =>
      rw [hpc] at hstep
      exact ⟨r, h.lock (Or.inr rfl) (by simp [hpc]) (by rw [hpc]; rfl) hstep⟩
  | leaving =>
      rw [hpc] at hstep
      obtain rfl := Option.some.inj hstep
      exact ⟨r, h.leave hpc⟩

/-- **Nobody leaves early.**  A thread that is not waiting has arrived no more
often than any other. -/
theorem arrivals_le (h : b.Round r) (hw : b.pcs w ≠ .waiting) (v : Fin n) :
    b.arrivals w ≤ b.arrivals v := by
  rw [h.arrivals w, h.arrivals v, if_neg hw]
  omega

/-- A waiting thread is ahead of one that does not wait. -/
theorem arrivals_of_waiting (h : b.Round r) {v : Fin n} (hw : b.pcs w = .waiting)
    (hv : b.pcs v ≠ .waiting) : b.arrivals w = b.arrivals v + 1 := by
  rw [h.arrivals w, h.arrivals v, if_pos hw, if_neg hv]

/-- Not everybody waits. -/
theorem exists_not_waiting (h : b.Round r) : ∃ v, b.pcs v ≠ .waiting := by
  by_contra hall
  push Not at hall
  have huniv : b.waiters = Finset.univ := Finset.eq_univ_of_forall fun v => mem_waiters.mpr (hall v)
  have hcard := h.count
  have hlt := h.count_lt
  rw [hcard, huniv, Finset.card_univ, Fintype.card_fin] at hlt
  exact Nat.lt_irrefl n hlt

end Round

end Barrier

end MapReduce
