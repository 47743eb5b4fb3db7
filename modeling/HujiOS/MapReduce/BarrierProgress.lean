import HujiOS.MapReduce.SpuriousWakeups
import Mathlib.Algebra.BigOperators.Fin
import Mathlib.Algebra.Order.BigOperators.Group.Finset

/-!
# The barrier lets everybody through

For threads that call `Barrier::barrier` as often as they like, without spurious
returns: the calls that have begun go on to a state in which every thread has
returned or waits for one that has called less often.  So no broadcast is missed,
and a round that all threads call is one that all return from.
-/

namespace MapReduce

open Runs

namespace Barrier

variable {n : Nat} {b c : Barrier n} {r : Nat} {w v : Fin n}

/-- A step that begins no call. -/
def inner (b : Barrier n) (w : Fin n) : Option (Barrier n) :=
  if b.pcs w = .outside then none else b.step w

/-- A step that begins no call is a step of a thread in a call. -/
theorem inner_eq_some (h : b.inner w = some c) : b.pcs w ≠ .outside ∧ b.step w = some c := by
  unfold inner at h
  split at h
  · cases h
  · next hpc => exact ⟨hpc, h⟩

/-- The steps that a thread has left in its call. -/
def stepsLeft : BarrierPc → Nat
  | .outside => 0
  | .leaving => 1
  | .woken => 2
  | .waiting => 3
  | .locked => 4

/-- A broadcast brings nobody further away from the end. -/
theorem stepsLeft_wake (pc : BarrierPc) : stepsLeft (wake pc) ≤ stepsLeft pc := by
  cases pc <;> decide

/-- **Step lemma.**  A step brings its thread nearer to the end and no other one
further away from it. -/
theorem stepsLeft_inner (h : b.inner w = some c) :
    stepsLeft (c.pcs w) < stepsLeft (b.pcs w) ∧
      ∀ v, v ≠ w → stepsLeft (c.pcs v) ≤ stepsLeft (b.pcs v) := by
  obtain ⟨hout, hstep⟩ := inner_eq_some h
  unfold step at hstep
  cases hpc : b.pcs w with
  | outside => exact absurd hpc hout
  | locked =>
      rw [hpc] at hstep
      obtain rfl := Option.some.inj hstep
      refine ⟨?_, fun v hv => ?_⟩
      · rcases b.arrive_pcs_self (w := w) with heq | heq
        · rw [heq]
          decide
        · rw [heq]
          decide
      · rcases b.arrive_pcs_ne hv with heq | heq
        · rw [heq]
        · rw [heq]
          exact stepsLeft_wake _
  | waiting => simp [hpc] at hstep
  | woken =>
      rw [hpc] at hstep
      rw [(lock_eq_some hstep).1]
      refine ⟨?_, fun v hv => ?_⟩
      · rw [Function.update_self]
        decide
      · rw [Function.update_of_ne hv]
  | leaving =>
      rw [hpc] at hstep
      obtain rfl := Option.some.inj hstep
      refine ⟨?_, fun v hv => ?_⟩
      · dsimp only
        rw [Function.update_self]
        decide
      · dsimp only
        rw [Function.update_of_ne hv]

/-- The steps that are left in all calls. -/
def totalLeft (b : Barrier n) : Nat := ∑ v, stepsLeft (b.pcs v)

/-- Every step that begins no call leaves fewer steps. -/
theorem totalLeft_inner (h : b.inner w = some c) : c.totalLeft < b.totalLeft := by
  obtain ⟨hlt, hle⟩ := stepsLeft_inner h
  refine Finset.sum_lt_sum (fun v _ => ?_) ⟨w, Finset.mem_univ w, hlt⟩
  by_cases hv : v = w
  · subst hv
    exact hlt.le
  · exact hle v hv

/-- A call has at most four steps left. -/
theorem totalLeft_le (b : Barrier n) : b.totalLeft ≤ 4 * n := by
  have hle : ∀ v ∈ Finset.univ, stepsLeft (b.pcs v) ≤ 4 := by
    intro v _
    cases b.pcs v <;> decide
  have hsum := Finset.sum_le_card_nsmul _ _ _ hle
  rw [Finset.card_univ, Fintype.card_fin, smul_eq_mul, Nat.mul_comm] at hsum
  exact hsum

/-- A call that has begun counts until the next one begins. -/
theorem entered_inner (h : b.inner w = some c) (v : Fin n) : c.entered v = b.entered v := by
  obtain ⟨hout, hstep⟩ := inner_eq_some h
  unfold step at hstep
  unfold entered
  cases hpc : b.pcs w with
  | outside => exact absurd hpc hout
  | locked =>
      rw [hpc] at hstep
      obtain rfl := Option.some.inj hstep
      rw [arrive_arrivals]
      by_cases hv : v = w
      · subst hv
        rw [Function.update_self, hpc, if_pos rfl]
        rcases b.arrive_pcs_self (w := v) with heq | heq
        · simp [heq]
        · simp [heq]
      · rw [Function.update_of_ne hv]
        rcases b.arrive_pcs_ne hv with heq | heq
        · rw [heq]
        · rw [heq]
          cases b.pcs v <;> rfl
  | waiting => simp [hpc] at hstep
  | woken =>
      rw [hpc] at hstep
      obtain ⟨hpcs, harrivals⟩ := lock_eq_some hstep
      rw [hpcs, harrivals]
      by_cases hv : v = w
      · subst hv
        simp [hpc]
      · rw [Function.update_of_ne hv]
  | leaving =>
      rw [hpc] at hstep
      obtain rfl := Option.some.inj hstep
      by_cases hv : v = w
      · subst hv
        simp [hpc]
      · simp [hv]

/-- **Where no call goes on.**  The mutex is free, and every thread is outside or
waits in the round after those that the threads outside have completed. -/
theorem Round.quiet (h : b.Round r) (hquiet : ∀ w, b.inner w = none) :
    b.mutex = none ∧ (∀ v, (b.pcs v = .outside ∧ b.arrivals v = r ∧ b.returns v = r) ∨
      (b.pcs v = .waiting ∧ b.arrivals v = r + 1 ∧ b.returns v = r)) ∧
      ∃ v, b.pcs v = .outside := by
  have hno : ∀ v, b.pcs v ≠ .locked ∧ b.pcs v ≠ .leaving := by
    intro v
    have hv := hquiet v
    unfold inner Barrier.step at hv
    constructor
    · intro hpc
      simp [hpc] at hv
    · intro hpc
      simp [hpc] at hv
  have hfree : b.mutex = none := by
    by_contra hheld
    obtain ⟨v, hv⟩ := Option.ne_none_iff_exists'.mp hheld
    rcases (h.owner v).mpr hv with hpc | hpc
    · exact (hno v).1 hpc
    · exact (hno v).2 hpc
  have hcases : ∀ v, b.pcs v = .outside ∨ b.pcs v = .waiting := by
    intro v
    cases hpc : b.pcs v with
    | outside => exact Or.inl rfl
    | waiting => exact Or.inr rfl
    | locked => exact absurd hpc (hno v).1
    | leaving => exact absurd hpc (hno v).2
    | woken =>
        -- it could take the mutex
        have hv := hquiet v
        unfold inner Barrier.step Barrier.lock at hv
        simp [hpc, hfree] at hv
  refine ⟨hfree, fun v => ?_, ?_⟩
  · have harrivals := h.arrivals v
    have hreturns := h.returns v
    refine (hcases v).imp (fun hpc => ?_) fun hpc => ?_
    · simp only [hpc, inside] at harrivals hreturns
      exact ⟨hpc, by simpa using harrivals, by simp at harrivals; omega⟩
    · simp only [hpc, inside] at harrivals hreturns
      exact ⟨hpc, by simpa using harrivals, by simp at harrivals; omega⟩
  · obtain ⟨v, hv⟩ := h.exists_not_waiting
    exact ⟨v, (hcases v).resolve_right hv⟩

/-- Every reachable barrier is in some round. -/
theorem exists_round (hn : 0 < n) (h : Reaches step (initial n) b) : ∃ r, b.Round r := by
  refine h.invariant (fun b => ∃ r, b.Round r) ?_ ⟨0, Round.initial hn⟩
  intro b w c hround hstep
  obtain ⟨r, hr⟩ := hround
  exact hr.step hstep

/-- The steps inside complete rounds and begin no calls. -/
theorem run_inner (h : b.Round r) {acts : List (Fin n)} (hrun : run inner b acts = some c) :
    (∃ r', c.Round r') ∧ ∀ v, c.entered v = b.entered v := by
  refine run_invariant (fun x : Barrier n => (∃ r', x.Round r') ∧ ∀ v, x.entered v = b.entered v)
    (fun _ => True) ?_ (fun _ _ => trivial) ⟨⟨r, h⟩, fun _ => rfl⟩ hrun
  intro x w y _ hx hstep
  obtain ⟨⟨r', hr⟩, hentered⟩ := hx
  exact ⟨hr.step (inner_eq_some hstep).2, fun v => (entered_inner hstep v).trans (hentered v)⟩

/-- **The barrier lets everybody through.**  From every reachable state the calls that
have begun take at most four steps for each thread.  Where none of them goes on, the
mutex is free, everyone inside waits for a thread that is outside, and has called it
once more often than that thread; and if every thread had begun its `k`-th call, every
thread has returned from it. -/
theorem lets_through (hn : 0 < n) (h : Reaches step (initial n) b) {acts : List (Fin n)}
    (hrun : run inner b acts = some c) :
    acts.length ≤ 4 * n ∧ ((∀ w, c.inner w = none) →
      c.mutex = none ∧
      (∃ r, (∃ v, c.pcs v = .outside) ∧
        ∀ v, (c.pcs v = .outside ∧ c.arrivals v = r ∧ c.returns v = r) ∨
          (c.pcs v = .waiting ∧ c.arrivals v = r + 1 ∧ c.returns v = r)) ∧
      ∀ k, (∀ v, k ≤ b.entered v) → ∀ v, k ≤ c.returns v) := by
  have hlength : acts.length + c.totalLeft ≤ b.totalLeft :=
    run_length_le totalLeft (fun _ _ _ _ _ => hn) (fun _ _ _ _ hstep => totalLeft_inner hstep)
      hn hrun
  have hbound := b.totalLeft_le
  obtain ⟨_, hstart⟩ := exists_round hn h
  obtain ⟨⟨r, hround⟩, hentered⟩ := run_inner hstart hrun
  refine ⟨by omega, fun hquiet => ?_⟩
  obtain ⟨hfree, hplaces, u, hu⟩ := hround.quiet hquiet
  refine ⟨hfree, ⟨r, ⟨u, hu⟩, hplaces⟩, fun k hk v => ?_⟩
  have hmany := hk u
  rw [← hentered u] at hmany
  -- a thread outside has returned from all its calls
  have hall : c.entered u = r := by
    unfold entered
    rcases hplaces u with hplace | hplace
    · rw [hplace.2.1, hu, if_neg BarrierPc.noConfusion, Nat.add_zero]
    · rw [hu] at hplace
      exact BarrierPc.noConfusion hplace.1
  rcases hplaces v with hplace | hplace
  · omega
  · omega

/-- Two threads, of which the first has begun one call and the second none. -/
theorem lets_through_two : ∃ b c : Barrier 2, run step (initial 2) [0, 0, 1] = some b ∧
    run inner b [1, 1, 0, 0] = some c ∧ ∀ v, 1 ≤ c.returns v := by
  refine ⟨_, _, rfl, rfl, ?_⟩
  have hthrough := @lets_through 2 _ _ (by decide) ⟨[0, 0, 1], rfl⟩ [1, 1, 0, 0] rfl
  exact (hthrough.2 (by decide)).2.2 1 (by decide)

end Barrier

end MapReduce
