import HujiOS.MapReduce.CallsReturn

/-!
# No data race

Two threads race when both have an access of the same memory as their next
step, at least one of them a write, and the memory is not atomic.  The workers
share the vectors, the queue and the output with each other and with the client,
who builds them, reads them in `getJobState` and deletes them.
-/

namespace MapReduce

open Grouping Runs

universe u

variable {K1 V1 K2 V2 K3 V3 : Type u} {j : Job K1 V1 K2 V2 K3 V3}

/-- The fields of the job and of its contexts that are not atomic. -/
inductive Location (j : Job K1 V1 K2 V2 K3 V3)
  | intermediateVec (v : Fin j.numOfThreads)
  | pthreadThread (i : Fin j.numOfThreads)
  -- the entry of `threadContexts_`
  | threadContext (i : Fin j.numOfThreads)
  | shuffledQueue
  | outputVec

/-- The constructor runs in the client's thread. -/
inductive Agent (j : Job K1 V1 K2 V2 K3 V3)
  | client
  | worker (w : Fin j.numOfThreads)

/-- Two reads never conflict. -/
inductive AccessKind
  | read
  | write

namespace JobHandle

/-- The next step of the thread accesses the location. -/
inductive Access (s : JobHandle j) : Agent j → Location j → AccessKind → Prop
  | emit2 {w : Fin j.numOfThreads} {p : K2 × V2} {pairs : List (K2 × V2)}
      (hpc : (s.locked.job.threads w).pc = .mapping (p :: pairs)) :
      Access s (.worker w) (.intermediateVec w) .write
  | sort {w : Fin j.numOfThreads} (hpc : (s.locked.job.threads w).pc = .sort) :
      Access s (.worker w) (.intermediateVec w) .write
  | copyContext {w i : Fin j.numOfThreads} {interVecs : List (List (K2 × V2))}
      (hpc : (s.locked.job.threads w).pc = .shuffleCopy interVecs)
      (hi : (i : Nat) = interVecs.length) : Access s (.worker w) (.threadContext i) .read
  | copyVec {w i : Fin j.numOfThreads} {interVecs : List (List (K2 × V2))}
      (hpc : (s.locked.job.threads w).pc = .shuffleCopy interVecs)
      (hi : (i : Nat) = interVecs.length) : Access s (.worker w) (.intermediateVec i) .read
  | pushGroup {w : Fin j.numOfThreads} {currMaxKey : K2} {newVec : List (K2 × V2)}
      {visited : List (List (K2 × V2))}
      (hpc : (s.locked.job.threads w).pc = .shuffleDrain currMaxKey newVec visited []) :
      Access s (.worker w) .shuffledQueue .write
  | copyQueue {w : Fin j.numOfThreads} (hpc : (s.locked.job.threads w).pc = .reduceCopy) :
      Access s (.worker w) .shuffledQueue .read
  -- the worker has `outputVecMutex_`
  | emit3 {w : Fin j.numOfThreads} {shuffleQueue : List (List (K2 × V2))}
      {ix : Fin shuffleQueue.length} {out : K3 × V3} {outs : List (K3 × V3)}
      (hpc : (s.locked.job.threads w).pc = .reducing shuffleQueue ix (out :: outs))
      (hmine : s.locked.sections .outputVec = some w) : Access s (.worker w) .outputVec .write
  -- the constructor of `ThreadContext`
  | createVec {i : Fin j.numOfThreads} (hc : s.locked.creator = .create i) :
      Access s .client (.intermediateVec i) .write
  | createThread {i : Fin j.numOfThreads} (hc : s.locked.creator = .create i) :
      Access s .client (.pthreadThread i) .write
  | assign {i : Fin j.numOfThreads} (hc : s.locked.creator = .assign i) :
      Access s .client (.threadContext i) .write
  | sumContext {i : Fin j.numOfThreads} {currJobState : JobState} {threadSize : Nat}
      (hc : s.client = .summing currJobState i threadSize) :
      Access s .client (.threadContext i) .read
  | sumVec {i : Fin j.numOfThreads} {currJobState : JobState} {threadSize : Nat}
      (hc : s.client = .summing currJobState i threadSize) :
      Access s .client (.intermediateVec i) .read
  | joinContext {i : Fin j.numOfThreads} {closing : Bool} (hc : s.client = .joining closing i) :
      Access s .client (.threadContext i) .read
  | joinThread {i : Fin j.numOfThreads} {closing : Bool} (hc : s.client = .joining closing i) :
      Access s .client (.pthreadThread i) .read
  | delete (hc : s.client = .deleting) (l : Location j) : Access s .client l .write

/-- Two threads are about to access the same memory and one of them writes. -/
def Race (s : JobHandle j) : Prop :=
  ∃ a b l kind, a ≠ b ∧ s.Access a l .write ∧ s.Access b l kind

variable {s : JobHandle j} {w u : Fin j.numOfThreads} {l : Location j} {kind : AccessKind}

/-- A finished worker accesses nothing. -/
theorem Access.unfinished (h : s.Access (.worker w) l kind) :
    (s.locked.job.threads w).pc.isFinished = false := by
  cases h with
  | emit2 hpc | sort hpc | copyContext hpc | copyVec hpc | pushGroup hpc | copyQueue hpc
  | emit3 hpc => rw [hpc]; rfl

/-- Who writes a vector is its worker, before it is sorted. -/
theorem Access.unsorted {v : Fin j.numOfThreads}
    (h : s.Access (.worker w) (.intermediateVec v) .write) :
    v = w ∧ (s.locked.job.threads w).pc.isSorted = false := by
  cases h with
  | emit2 hpc | sort hpc => rw [hpc]; exact ⟨rfl, rfl⟩

/-- Who reads another's vector finds all sorted. -/
theorem Access.sorted (h : s.Inv) {v : Fin j.numOfThreads}
    (hread : s.Access (.worker w) (.intermediateVec v) .read) (x : Fin j.numOfThreads) :
    (s.locked.job.threads x).pc.isSorted = true := by
  have hcontrol := h.locked.job.inv.control
  cases hread with
  | copyVec hpc =>
      obtain rfl := hcontrol.shuffler w (by rw [hpc]; rfl)
      exact hcontrol.sorted_of_zero (by rw [hpc]; exact le_rfl) x

/-- Two workers. -/
theorem Inv.no_race_workers (h : s.Inv) (hwrite : s.Access (.worker u) l .write)
    (hother : s.Access (.worker w) l kind) : u = w := by
  have hcontrol := h.locked.job.inv.control
  cases l with
  | intermediateVec v =>
      obtain ⟨rfl, hunsorted⟩ := hwrite.unsorted
      cases kind with
      | write => exact hother.unsorted.1
      | read =>
          rw [hother.sorted h] at hunsorted
          cases hunsorted
  | pthreadThread i => cases hwrite
  | threadContext i => cases hwrite
  | shuffledQueue =>
      cases hwrite with
      | pushGroup hpc =>
          have hzero := hcontrol.shuffler u (by rw [hpc]; rfl)
          cases hother with
          | pushGroup hpc' => exact hzero.trans (hcontrol.shuffler w (by rw [hpc']; rfl)).symm
          -- a worker that reduces is past the barrier that the shuffle has yet to reach
          | copyQueue hpc' =>
              have hbarrier := hcontrol.barrier w u
              rw [hpc, hpc'] at hbarrier
              exact absurd hbarrier (Nat.not_succ_le_self 1)
  | outputVec =>
      cases hwrite with
      | emit3 _ hmine =>
          cases hother with
          | emit3 _ hmine' => exact Option.some.inj (hmine.symm.trans hmine')

/-- While the constructor works nobody shuffles. -/
theorem Inv.not_holdsCreate (h : s.Inv) (hcreator : s.locked.creator.isLocked = true) :
    (s.locked.job.threads w).pc.holdsCreate = false := by
  have hmine := h.locked.inv.creating.mpr hcreator
  cases hholds : (s.locked.job.threads w).pc.holdsCreate with
  | false => rfl
  | true =>
      have hother := (h.locked.inv.holder w).mpr hholds
      rw [hmine] at hother
      cases hother

/-- The client and a worker that reach the same memory both read it. -/
theorem Inv.no_race_client (h : s.Inv) {kind' : AccessKind}
    (hworker : s.Access (.worker w) l kind) (hclient : s.Access .client l kind') :
    kind = .read ∧ kind' = .read := by
  cases hclient with
  | @createVec i hc =>
      have hlocked := h.not_holdsCreate (w := w) (by rw [hc]; rfl)
      have hunstarted := h.locked.inv.unstarted i (by rw [hc]; exact Nat.le_refl _)
      cases hworker with
      | emit2 hpc => rw [hpc] at hunstarted; cases hunstarted
      | sort hpc => rw [hpc] at hunstarted; cases hunstarted
      | copyVec hpc => rw [hpc] at hlocked; cases hlocked
  | createThread => cases hworker
  | assign hc =>
      have hlocked := h.not_holdsCreate (w := w) (by rw [hc]; rfl)
      cases hworker with
      | copyContext hpc => rw [hpc] at hlocked; cases hlocked
  | sumContext =>
      cases hworker with
      | copyContext => exact ⟨rfl, rfl⟩
  | sumVec hc =>
      have hcurrent := h.current
      rw [hc] at hcurrent
      obtain ⟨hstate, hstage, _⟩ := hcurrent
      have hsorted := h.locked.job.inv.sorted_of_stage (hstate ▸ hstage) w
      cases kind with
      | read => exact ⟨rfl, rfl⟩
      | write =>
          rw [hworker.unsorted.2] at hsorted
          cases hsorted
  | joinContext =>
      cases hworker with
      | copyContext => exact ⟨rfl, rfl⟩
  | joinThread => cases hworker
  | delete hc =>
      have hfin := h.finished_of_joined (h.joined (Or.inl hc)) w
      rw [hworker.unfinished] at hfin
      cases hfin

/-- **No data race.**  In no reachable state are two threads about to access the
same memory, one of them to write it: not two workers, not a worker and the
client in one of its calls, and not a worker and the constructor or the
destructor. -/
theorem no_data_race (h : s.Reachable) : ¬ s.Race := by
  intro hrace
  obtain ⟨a, b, l, kind, hne, hwrite, hother⟩ := hrace
  cases a with
  | client =>
      cases b with
      | client => exact hne rfl
      | worker w => cases (h.inv.no_race_client hother hwrite).2
  | worker u =>
      cases b with
      | client => cases (h.inv.no_race_client hwrite hother).1
      | worker w => exact hne (congrArg Agent.worker (h.inv.no_race_workers hwrite hother))

/-- The client sums the vectors up while the shuffle copies them. -/
def countSumming : List (HandleAction countValues) :=
  let first : Fin 2 := ⟨0, Nat.two_pos⟩
  let second : Fin 2 := ⟨1, Nat.one_lt_two⟩
  let blocks := [(first, 21), (second, 9), (first, 6)]
  List.replicate 7 (.actor .creator) ++
    (blocks.flatMap fun block => List.replicate block.2 (.actor (.worker block.1))) ++
    [.call .getJobState, .client, .client]

/-- A state of `countValues` in which a worker and the client read the same
vector, which is no race. -/
theorem no_data_race_countValues :
    ∃ s : JobHandle countValues, s.Access (.worker countValues.threadZero)
        (.intermediateVec countValues.threadZero) .read ∧
      s.Access .client (.intermediateVec countValues.threadZero) .read ∧ ¬ s.Race := by
  obtain ⟨s, hrun⟩ := Option.isSome_iff_exists.mp
    (show (run next (initial countValues) countSumming).isSome = true from rfl)
  have hpc : (run next (initial countValues) countSumming).map
      (fun s => (s.locked.job.threads countValues.threadZero).pc) = some (.shuffleCopy []) := rfl
  have hclient : (run next (initial countValues) countSumming).map JobHandle.client =
      some (.summing ⟨.shuffle, 0⟩ 0 0) := rfl
  rw [hrun] at hpc hclient
  exact ⟨s, .copyVec (Option.some.inj hpc) rfl, .sumVec (Option.some.inj hclient),
    no_data_race ⟨countSumming, hrun⟩⟩

end JobHandle

end MapReduce
