import HujiOS.MapReduce.Locks

/-!
# The barrier when waits may return on their own

`pthread_cond_wait` may return without a broadcast.  `Barrier::barrier` does
not look again at what it waits for, so such a thread goes on to unlock and
return, while the count still includes it.

A run is safe exactly as long as nothing follows a spurious return: the thread
then holds the mutex, and the only step left is that it leaves the round early.
In the job this can put a worker into the reduce phase before the shuffle.
-/

namespace MapReduce

open Runs

/-- A step of the program, or a return from `pthread_cond_wait` without a
broadcast. -/
inductive OrSpurious (α : Type) (n : Nat)
  | step (a : α)
  | spurious (w : Fin n)

namespace OrSpurious

variable {α : Type} {n : Nat}

/-- Nothing follows a spurious return. -/
def OnlyLast : List (OrSpurious α n) → Prop
  | [] => True
  | .step _ :: rest => OnlyLast rest
  | .spurious _ :: rest => rest = []

/-- The first part of a list in which nothing follows a spurious return. -/
theorem OnlyLast.left {before after : List (OrSpurious α n)} (h : OnlyLast (before ++ after)) :
    OnlyLast before := by
  induction before with
  | nil => trivial
  | cons a rest ih =>
      cases a with
      | step a => exact ih h
      | spurious w => exact (List.append_eq_nil_iff.mp h).1

end OrSpurious

namespace Barrier

variable {n : Nat} {b c d : Barrier n} {r : Nat} {w : Fin n}

/-- A waiting thread gets the mutex back and has its wait behind it. -/
def spuriousReturn (b : Barrier n) (w : Fin n) : Option (Barrier n) :=
  if b.pcs w = .waiting then b.lock w .leaving else none

/-- One step of the barrier, or a spurious return from its wait. -/
def next (b : Barrier n) : OrSpurious (Fin n) n → Option (Barrier n)
  | .step w => b.step w
  | .spurious w => b.spuriousReturn w

/-- How many calls a thread has begun.  A call counts from the moment in which it
holds the mutex: a thread that waits in `pthread_mutex_lock` is still outside. -/
def entered (b : Barrier n) (v : Fin n) : Nat :=
  b.arrivals v + if b.pcs v = .locked then 1 else 0

/-- Nobody has returned from a call that another thread has yet to begin. -/
def Safe (b : Barrier n) : Prop := ∀ u v, b.returns u ≤ b.entered v

/-- Where nobody has returned before everybody arrived, nobody has before
everybody began. -/
theorem Safe.of_arrivals (h : ∀ u v, b.returns u ≤ b.arrivals v) : b.Safe :=
  fun u v => (h u v).trans (Nat.le_add_right _ _)

/-- What a spurious return does. -/
theorem spuriousReturn_eq_some (h : b.spuriousReturn w = some c) :
    b.pcs w = .waiting ∧ b.mutex = none ∧
      c = { b with mutex := some w, pcs := Function.update b.pcs w .leaving } := by
  unfold spuriousReturn lock at h
  simp only [Option.ite_none_right_eq_some, Option.some.injEq] at h
  exact ⟨h.1, h.2.1, h.2.2.symm⟩

namespace Round

/-- In a round, whoever has returned has done so after everybody arrived. -/
theorem returns_le (h : b.Round r) (u v : Fin n) : b.returns u ≤ b.arrivals v := by
  have hret := h.returns u
  rw [h.arrivals u] at hret
  have harr := h.arrivals v
  cases hpc : b.pcs u <;> simp [hpc, inside] at hret <;> omega

/-- A barrier that is in a round is safe. -/
theorem safe (h : b.Round r) : b.Safe := Safe.of_arrivals h.returns_le

/-- The spurious return itself changes neither side. -/
theorem safe_spuriousReturn (h : b.Round r) (hret : b.spuriousReturn w = some c) : c.Safe := by
  obtain ⟨_, _, rfl⟩ := spuriousReturn_eq_some hret
  exact Safe.of_arrivals h.returns_le

/-- After it, only the returning thread has a step. -/
theorem step_after_spurious (h : b.Round r) (hret : b.spuriousReturn w = some c)
    {a : OrSpurious (Fin n) n} (hnext : c.next a = some d) : a = .step w := by
  obtain ⟨_, hfree, rfl⟩ := spuriousReturn_eq_some hret
  cases a with
  | spurious v =>
      obtain ⟨_, htaken, _⟩ := spuriousReturn_eq_some hnext
      cases htaken
  | step v =>
      by_contra hne
      have hv : v ≠ w := fun heq => hne (heq ▸ rfl)
      have howner := h.owner v
      rw [hfree] at howner
      simp only [next, Barrier.step, Function.update_of_ne hv] at hnext
      cases hpc : b.pcs v with
      | outside => simp [hpc, Barrier.lock] at hnext
      | locked => simp [hpc] at howner
      | waiting => simp [hpc] at hnext
      | woken => simp [hpc, Barrier.lock] at hnext
      | leaving => simp [hpc] at howner

/-- **The early return.**  The step after a spurious return takes a thread out
of a call that some thread has not begun. -/
theorem unsafe_after_spurious (h : b.Round r) (hret : b.spuriousReturn w = some c)
    {a : OrSpurious (Fin n) n} (hnext : c.next a = some d) : ¬ d.Safe := by
  obtain rfl := h.step_after_spurious hret hnext
  obtain ⟨hwait, hfree, rfl⟩ := spuriousReturn_eq_some hret
  obtain ⟨v, hv⟩ := h.exists_not_waiting
  have hvw : v ≠ w := fun heq => hv (heq ▸ hwait)
  have hahead := h.arrivals_of_waiting hwait hv
  have hreturns := h.returns w
  have hnotLocked : b.pcs v ≠ .locked := by
    intro hpc
    have howner := (h.owner v).mp (Or.inl hpc)
    rw [hfree] at howner
    cases howner
  simp only [next, Barrier.step, Function.update_self, Option.some.injEq] at hnext
  subst hnext
  intro hsafe
  have hle := hsafe w v
  simp only [entered, Function.update_self, Function.update_of_ne hvw, hnotLocked, if_false] at hle
  rw [hwait] at hreturns
  simp only [inside] at hreturns
  omega

end Round

/-- **Runs that stay safe.** -/
theorem safe_of_run {acts : List (OrSpurious (Fin n) n)} (h : b.Round r)
    (hrun : run next b acts = some d) (hlast : OrSpurious.OnlyLast acts) : d.Safe := by
  induction acts generalizing b r with
  | nil =>
      have heq : b = d := Option.some.inj hrun
      exact heq ▸ h.safe
  | cons a rest ih =>
      obtain ⟨c, hc, hrest⟩ := run_cons_some hrun
      cases a with
      | step w =>
          obtain ⟨r', hround⟩ := h.step hc
          exact ih hround hrest hlast
      | spurious w =>
          obtain rfl : rest = [] := hlast
          have heq : c = d := Option.some.inj hrest
          exact heq ▸ h.safe_spuriousReturn hc

/-- Every state that the run `acts` passes through is safe. -/
def SafeRun (b : Barrier n) (acts : List (OrSpurious (Fin n) n)) : Prop :=
  ∀ before after m, acts = before ++ after → run next b before = some m → m.Safe

/-- The rest of a run that is safe all along is so too. -/
theorem SafeRun.tail {a : OrSpurious (Fin n) n} {rest : List (OrSpurious (Fin n) n)}
    (h : b.SafeRun (a :: rest)) (hc : b.next a = some c) : c.SafeRun rest := by
  intro before after m hsplit hrun
  exact h (a :: before) after m (by rw [hsplit, List.cons_append]) (by simp [hc, hrun])

/-- **Runs that are safe all along.** -/
theorem onlyLast_of_safeRun {acts : List (OrSpurious (Fin n) n)} (h : b.Round r)
    (hrun : run next b acts = some d) (hsafe : b.SafeRun acts) : OrSpurious.OnlyLast acts := by
  induction acts generalizing b r with
  | nil => trivial
  | cons a rest ih =>
      obtain ⟨c, hc, hrest⟩ := run_cons_some hrun
      cases a with
      | step w =>
          obtain ⟨r', hround⟩ := h.step hc
          exact ih hround hrest (hsafe.tail hc)
      | spurious w =>
          cases rest with
          | nil => rfl
          | cons a rest =>
              obtain ⟨m, hm, _⟩ := run_cons_some hrest
              have hearly := (hsafe.tail hc) [a] rest m rfl (run_singleton hm)
              exact absurd hearly (h.unsafe_after_spurious hc hm)

end Barrier

/-! ## The job -/

universe u

variable {K1 V1 K2 V2 K3 V3 : Type u} {j : Job K1 V1 K2 V2 K3 V3}

namespace LockedJob

/-- A step of the job, or a spurious return of a worker that waits at the
barrier. -/
def nextOrSpurious (s : LockedJob j) : OrSpurious (Actor j) j.numOfThreads → Option (LockedJob j)
  | .step a => s.next a
  | .spurious w => (s.threadsBarrier.spuriousReturn w).map fun barrier =>
      { s with threadsBarrier := barrier }

/-- Without spurious returns nothing is new. -/
theorem reachable_of_run {s t : LockedJob j} {acts : List (OrSpurious (Actor j) j.numOfThreads)}
    (h : s.Reachable) (hrun : run nextOrSpurious s acts = some t)
    (hnone : ∀ w, .spurious w ∉ acts) : t.Reachable := by
  induction acts generalizing s with
  | nil =>
      have heq : s = t := Option.some.inj hrun
      exact heq ▸ h
  | cons a rest ih =>
      obtain ⟨m, hm, hrest⟩ := run_cons_some hrun
      have hnone' : ∀ w, .spurious w ∉ rest := fun w hw => hnone w (List.mem_cons_of_mem a hw)
      cases a with
      | step a => exact ih (h.snoc hm) hrest hnone'
      | spurious w => exact absurd List.mem_cons_self (hnone w)

/-- **When nobody leaves the barrier early.**  For `n` threads that call
the barrier any number of times, a run passes through safe states only exactly
when no step follows a spurious return.  In a job without spurious returns, a
worker that has begun to reduce finds the shuffle finished. -/
theorem no_early_return (j : Job K1 V1 K2 V2 K3 V3) :
    (∀ (n : Nat) (acts : List (OrSpurious (Fin n) n)) (b : Barrier n), 0 < n →
      run Barrier.next (Barrier.initial n) acts = some b →
        ((Barrier.initial n).SafeRun acts ↔ OrSpurious.OnlyLast acts)) ∧
    ∀ (acts : List (OrSpurious (Actor j) j.numOfThreads)) (s : LockedJob j),
      run nextOrSpurious (initial j) acts = some s → (∀ w, .spurious w ∉ acts) →
        ∀ w, (s.job.threads w).pc.passed = 2 → (s.job.threads j.threadZero).pc.arrivals = 2 := by
  refine ⟨fun n acts b hn hrun => ?_, fun acts s hrun hnone w hw => ?_⟩
  · have hround := Barrier.Round.initial hn
    constructor
    · exact Barrier.onlyLast_of_safeRun hround hrun
    · intro hlast before after m hsplit hbefore
      exact Barrier.safe_of_run hround hbefore (OrSpurious.OnlyLast.left (hsplit ▸ hlast))
  · have hreach : s.Reachable := reachable_of_run ⟨[], rfl⟩ hrun hnone
    have hbarrier := hreach.job.inv.control.barrier w j.threadZero
    have hle := (s.job.threads j.threadZero).pc.arrivals_le_two
    omega

/-- The worker of `countValues` that does not shuffle. -/
def countOther : Fin countValues.numOfThreads := ⟨1, by decide⟩

/-- That worker maps the whole input and waits, its wait returns spuriously, and
it is the second to arrive at a barrier of two. -/
def countSpurious : List (OrSpurious (Actor countValues) countValues.numOfThreads) :=
  List.replicate 7 (.step .creator) ++ List.replicate 21 (.step (.worker countOther)) ++
    [.spurious countOther] ++ List.replicate 4 (.step (.worker countOther))

/-- Worker 1 is past both barriers while worker 0 has not begun a call. -/
theorem countSpurious_early : ((run nextOrSpurious (initial countValues) countSpurious).any fun s =>
    decide ((s.job.threads countOther).pc.passed = 2 ∧
      (s.job.threads countValues.threadZero).pc.arrivals = 0 ∧
      s.threadsBarrier.returns countOther = 2 ∧
      s.threadsBarrier.entered countValues.threadZero = 0)) = true := rfl

/-- It has begun to reduce while worker 0 has not called the barrier. -/
theorem reduce_before_shuffle :
    ∃ s : LockedJob countValues, run nextOrSpurious (initial countValues) countSpurious = some s ∧
      (s.job.threads countOther).pc.passed = 2 ∧
      (s.job.threads countValues.threadZero).pc.arrivals = 0 ∧ ¬ s.threadsBarrier.Safe := by
  obtain ⟨s, hrun, hs⟩ := (Option.any_eq_true _ _).mp countSpurious_early
  obtain ⟨hpassed, harrivals, hreturns, hentered⟩ := of_decide_eq_true hs
  refine ⟨s, hrun, hpassed, harrivals, fun hsafe => ?_⟩
  have hle := hsafe countOther countValues.threadZero
  omega

/-- Two threads go through the barrier once. -/
theorem no_early_return_two :
    (Barrier.initial 2).SafeRun
      [.step 0, .step 0, .step 1, .step 1, .step 1, .step 0, .step 0] := by
  obtain ⟨b, hrun⟩ : ∃ b, run Barrier.next (Barrier.initial 2)
      [.step 0, .step 0, .step 1, .step 1, .step 1, .step 0, .step 0] = some b := ⟨_, rfl⟩
  exact ((no_early_return countValues).1 2 _ b (by decide) hrun).mpr trivial

end LockedJob

end MapReduce
