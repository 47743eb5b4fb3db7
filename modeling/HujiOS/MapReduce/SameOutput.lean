import HujiOS.MapReduce.Correctness

/-!
# The output does not depend on the threads

A finished job has called `reduce` on the classes of what `map` emitted, so two jobs
of one client on the same input pairs make the same calls: whatever their numbers of
threads, their sort routines, the order of the input and the interleavings.  They
differ in the order of the calls and of the pairs within a call.
-/

namespace MapReduce

open Grouping Runs

universe u

variable {K1 V1 K2 V2 K3 V3 : Type u} {j j' : Job K1 V1 K2 V2 K3 V3}

namespace Job

/-- The client's program without threads: `map` on all pairs in turn, then `reduce` on
one class after the other. -/
def sequential (j : Job K1 V1 K2 V2 K3 V3) : List (K3 × V3) :=
  (groupByKey j.order j.emitted).flatMap j.client.reduce

/-- `reduce` does not look at the order of its pairs. -/
def OrderFree (j : Job K1 V1 K2 V2 K3 V3) : Prop :=
  ∀ g g', g.Perm g' → (j.client.reduce g).Perm (j.client.reduce g')

/-- The same client on the same input in another order emits the same
pairs. -/
theorem emitted_perm (hclient : j'.client = j.client) (hinput : j.inputVec.Perm j'.inputVec) :
    j.emitted.Perm j'.emitted := by
  unfold emitted
  rw [hclient]
  exact hinput.flatMap_right _

end Job

namespace JobContext

/-- Any grouping of the emitted pairs leads to the same output. -/
theorem Correct.output_perm {s : JobContext j} (h : s.Correct) (hfree : j.OrderFree)
    {all : List (K2 × V2)} {groups : List (List (K2 × V2))} (hall : j.emitted.Perm all)
    (hgroups : GroupedByKey j.order all groups) :
    s.outputVec.Perm (groups.flatMap j.client.reduce) := by
  obtain ⟨matched, hperm, hforall⟩ := h.reduced.matching hgroups hall
  exact (h.output.trans (flatMap_perm_of_matching hfree hforall)).trans (hperm.flatMap_right _)

/-- **The output does not depend on the threads.**  Of two jobs with the same client,
order of keys and input pairs that have finished, the calls of `reduce` match, up to
their order and the order of the pairs in each.  If `reduce` does not look at that
order, the outputs are the same up to order, and the same as without threads. -/
theorem same_output (hclient : j'.client = j.client) (horder : j'.order = j.order)
    (hinput : j.inputVec.Perm j'.inputVec) {s : JobContext j} {s' : JobContext j'}
    (h : s.Reachable) (hfin : s.Finished) (h' : s'.Reachable) (hfin' : s'.Finished) :
    (∃ calls, calls.Perm s'.reduceCalls ∧ List.Forall₂ List.Perm s.reduceCalls calls) ∧
      (j.OrderFree → s.outputVec.Perm s'.outputVec ∧ s.outputVec.Perm j.sequential) := by
  have hcorrect := h.inv.correct hfin
  have hcorrect' := h'.inv.correct hfin'
  have hemitted := Job.emitted_perm hclient hinput
  have hreduced := hcorrect'.reduced
  rw [horder] at hreduced
  refine ⟨hcorrect.reduced.matching hreduced hemitted, fun hfree => ⟨?_, ?_⟩⟩
  · have houtput := hcorrect'.output
    rw [hclient] at houtput
    exact (hcorrect.output_perm hfree hemitted hreduced).trans houtput.symm
  · exact hcorrect.output_perm hfree (List.Perm.refl _) (groupedByKey_groupByKey _ _)

/-- The pairs of `countValues` from back to front, and one thread. -/
def countAlone : Job Nat Nat Nat Nat Nat Nat :=
  { countValues with
    inputVec := [(2, 7), (1, 5), (0, 7)]
    numOfThreads := 1
    numOfThreads_pos := Nat.one_pos }

/-- `countValues` with two threads and with one: both finish with the
sequential output. -/
theorem same_output_countAlone :
    ∃ (s : JobContext countValues) (s' : JobContext countAlone),
      s.outputVec.Perm s'.outputVec ∧ s.outputVec.Perm countValues.sequential := by
  obtain ⟨s, hrun, hs⟩ := (Option.any_eq_true _ _).mp countSchedule_finishes
  have halone : ((run next (initial countAlone)
      (List.replicate 51 (.worker ⟨0, Nat.one_pos⟩))).any fun s => decide s.Finished) = true := rfl
  obtain ⟨s', hrun', hs'⟩ := (Option.any_eq_true _ _).mp halone
  have hreach : s.Reachable := ⟨_, hrun⟩
  have hfin : s.Finished := (of_decide_eq_true hs).1
  have hreach' : s'.Reachable := ⟨_, hrun'⟩
  have hfin' : s'.Finished := of_decide_eq_true hs'
  have hclient : countAlone.client = countValues.client := rfl
  have horder : countAlone.order = countValues.order := rfl
  have hinput : countValues.inputVec.Perm countAlone.inputVec := by decide
  have hfree : countValues.OrderFree := by
    intro g g' hperm
    show [(g.length, 0)].Perm [(g'.length, 0)]
    rw [hperm.length_eq]
  exact ⟨s, s', (same_output hclient horder hinput hreach hfin hreach' hfin').2 hfree⟩

end JobContext

end MapReduce
