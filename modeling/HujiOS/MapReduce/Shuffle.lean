import HujiOS.MapReduce.Workers
import Mathlib.Algebra.Order.Group.Multiset
import Mathlib.Data.List.Induction

/-!
# The shuffle loop

The loop of `_invokeShufflePhase` takes the greatest key at the back of any
vector and drains the pairs with an equivalent key from the back of each vector
in turn.  All vectors are sorted, so these pairs are at the backs.

`AtMaxKey` holds when the loop looks for the next key and `Draining` while it
is inside the loop over the vectors.  There is one lemma for each move between
the two, in terms of the local data only.
-/

namespace MapReduce

open Grouping

universe u

variable {K2 V2 : Type u} {order : KeyOrder K2}

/-! ## `getMaxKey` -/

section MaxKey

variable (order) in
/-- The update of `maxKey` at one vector. -/
def visitBack (maxKey : Option K2) (v : List (K2 × V2)) : Option K2 :=
  v.getLast?.elim maxKey fun back =>
    maxKey.elim (some back.1) fun key => if order.lt key back.1 then some back.1 else some key

/-- `getMaxKey` visits the vectors in order. -/
theorem getMaxKey_eq (interVecs : List (List (K2 × V2))) :
    getMaxKey order interVecs = interVecs.foldl (visitBack order) none := rfl

@[simp] theorem visitBack_nil (maxKey : Option K2) :
    visitBack order maxKey ([] : List (K2 × V2)) = maxKey := rfl

@[simp] theorem visitBack_none_concat (init : List (K2 × V2)) (back : K2 × V2) :
    visitBack order none (init ++ [back]) = some back.1 := by
  simp [visitBack]

/-- The back of a vector replaces the key found so far only if it exceeds
it. -/
theorem visitBack_some_concat (key : K2) (init : List (K2 × V2)) (back : K2 × V2) :
    visitBack order (some key) (init ++ [back]) =
      if order.lt key back.1 then some back.1 else some key := by
  simp [visitBack]

/-- What `getMaxKey` has found after some of the vectors: nothing while all of
them are empty, else the key of a pair that no back exceeds. -/
def MaxBack (order : KeyOrder K2) (seen : List (List (K2 × V2))) (maxKey : Option K2) : Prop :=
  (maxKey = none → ∀ v ∈ seen, v = []) ∧
    ∀ key, maxKey = some key →
      (∃ v ∈ seen, ∃ p ∈ v, p.1 = key) ∧
        ∀ init back, init ++ [back] ∈ seen → order.lt key back.1 = false

/-- A key that no back exceeds, the new one included, is found after one more
vector. -/
theorem MaxBack.concat {seen : List (List (K2 × V2))} {init : List (K2 × V2)} {back : K2 × V2}
    {key : K2} (hfound : ∃ v ∈ seen ++ [init ++ [back]], ∃ p ∈ v, p.1 = key)
    (hseen : ∀ init' back', init' ++ [back'] ∈ seen → order.lt key back'.1 = false)
    (hback : order.lt key back.1 = false) :
    MaxBack order (seen ++ [init ++ [back]]) (some key) := by
  refine ⟨by simp, fun key' hkey => ?_⟩
  obtain rfl := Option.some.inj hkey
  refine ⟨hfound, fun init' back' hmem => ?_⟩
  rcases List.mem_append.mp hmem with hmem | hmem
  · exact hseen init' back' hmem
  · have heq := List.append_inj' (List.mem_singleton.mp hmem) rfl
    rw [List.singleton_inj.mp heq.2]
    exact hback

/-- Visiting one more vector keeps what `MaxBack` says. -/
theorem MaxBack.visit {seen : List (List (K2 × V2))} {maxKey : Option K2}
    (h : MaxBack order seen maxKey) (v : List (K2 × V2)) :
    MaxBack order (seen ++ [v]) (visitBack order maxKey v) := by
  obtain ⟨hnone, hsome⟩ := h
  induction v using List.reverseRecOn with
  | nil =>
      rw [visitBack_nil]
      refine ⟨fun hm v hv => ?_, fun key hkey => ?_⟩
      · rcases List.mem_append.mp hv with hv | hv
        · exact hnone hm v hv
        · exact List.mem_singleton.mp hv
      · obtain ⟨⟨v, hv, hp⟩, hmax⟩ := hsome key hkey
        refine ⟨⟨v, List.mem_append_left _ hv, hp⟩, fun init back hmem => ?_⟩
        exact hmax init back (by simpa using hmem)
  | append_singleton init back _ =>
      have hback : ∃ v ∈ seen ++ [init ++ [back]], ∃ p ∈ v, p.1 = back.1 :=
        ⟨init ++ [back], by simp, back, by simp, rfl⟩
      cases maxKey with
      | none =>
          rw [visitBack_none_concat]
          apply MaxBack.concat hback _ (order.irrefl back.1)
          intro init' back' hmem
          exact absurd (hnone rfl _ hmem) (by simp)
      | some old =>
          obtain ⟨⟨v, hv, hp⟩, hmax⟩ := hsome old rfl
          rw [visitBack_some_concat]
          split
          · rename_i hlt
            apply MaxBack.concat hback _ (order.irrefl back.1)
            intro init' back' hmem
            by_contra hgt
            have hge := order.trans _ _ _ hlt (by simpa using hgt)
            simp [hmax init' back' hmem] at hge
          · rename_i hlt
            exact MaxBack.concat ⟨v, List.mem_append_left _ hv, hp⟩ hmax (by simpa using hlt)

/-- By induction over the vectors, `getMaxKey` finds a key that no back
exceeds, or all of them are empty. -/
theorem getMaxKey_maxBack (interVecs : List (List (K2 × V2))) :
    MaxBack order interVecs (getMaxKey order interVecs) := by
  rw [getMaxKey_eq]
  induction interVecs using List.reverseRecOn with
  | nil => exact ⟨by simp, by simp⟩
  | append_singleton seen v ih =>
      rw [List.foldl_append, List.foldl_cons, List.foldl_nil]
      exact ih.visit v

end MaxKey

/-! ## The loop -/

variable {all : Multiset (K2 × V2)} {queue interVecs visited todo : List (List (K2 × V2))}
  {newVec v : List (K2 × V2)} {key : K2} {back : K2 × V2}

/-- The head of the loop: what is left is sorted and below every group. -/
structure AtMaxKey (order : KeyOrder K2) (all : Multiset (K2 × V2))
    (queue interVecs : List (List (K2 × V2))) : Prop where
  descending : Descending order queue
  perm : (queue.flatten : Multiset (K2 × V2)) + interVecs.flatten = all
  sorted : ∀ v ∈ interVecs, order.Sorted v
  below : ∀ g ∈ queue, ∀ p ∈ g, ∀ q ∈ interVecs.flatten, order.lt q.1 p.1 = true

/-- Inside the loop over the vectors: `newVec` has been drained, and a pair with
the key is in it or still to come. -/
structure Draining (order : KeyOrder K2) (all : Multiset (K2 × V2))
    (queue : List (List (K2 × V2))) (key : K2) (newVec : List (K2 × V2))
    (visited todo : List (List (K2 × V2))) : Prop where
  descending : Descending order queue
  perm : (queue.flatten : Multiset (K2 × V2)) + newVec + visited.flatten + todo.flatten = all
  sorted : ∀ v ∈ visited ++ todo, order.Sorted v
  below : ∀ g ∈ queue, ∀ p ∈ g, order.lt key p.1 = true
  drained : ∀ p ∈ newVec, order.equiv p.1 key = true
  visited_lt : ∀ q ∈ visited.flatten, order.lt q.1 key = true
  todo_le : ∀ q ∈ todo.flatten, order.lt key q.1 = false
  found : newVec ≠ [] ∨ ∃ q ∈ todo.flatten, order.equiv q.1 key = true

/-- The back of a sorted vector is not less than any of its pairs. -/
theorem Sorted.back_ge {init : List (K2 × V2)} (h : order.Sorted (init ++ [back])) {q : K2 × V2}
    (hq : q ∈ init ++ [back]) : order.lt back.1 q.1 = false := by
  rcases List.mem_append.mp hq with hq | hq
  · exact (List.pairwise_append.mp h).2.2 q hq back (List.mem_singleton_self back)
  · rw [List.mem_singleton.mp hq]
    exact order.irrefl back.1

/-- Before the loop nothing is shuffled yet. -/
theorem AtMaxKey.initial (hsorted : ∀ v ∈ interVecs, order.Sorted v) :
    AtMaxKey order interVecs.flatten [] interVecs :=
  ⟨Descending.nil, by simp, hsorted, by simp⟩

/-- A key that was found is that of a pair, and no pair that is left exceeds
it. -/
theorem AtMaxKey.start (h : AtMaxKey order all queue interVecs)
    (hkey : getMaxKey order interVecs = some key) :
    Draining order all queue key [] [] interVecs := by
  obtain ⟨⟨w, hw, p, hp, rfl⟩, hmax⟩ := (getMaxKey_maxBack interVecs).2 key hkey
  have hmem : p ∈ interVecs.flatten := List.mem_flatten_of_mem hw hp
  refine ⟨h.descending, by simpa using h.perm, by simpa using h.sorted,
    fun g hg q hq => h.below g hg q hq p hmem, by simp, by simp, fun q hq => ?_,
    Or.inr ⟨p, hmem, KeyOrder.equiv_refl p.1⟩⟩
  obtain ⟨u, hu, hq⟩ := List.mem_flatten.mp hq
  -- no pair exceeds the back of its own vector, and no back exceeds the key
  induction u using List.reverseRecOn with
  | nil => cases hq
  | append_singleton init last _ =>
      by_contra hlt
      rcases KeyOrder.lt_or_lt (by simpa using hlt) last.1 with hlt | hlt
      · simp [hmax init last hu] at hlt
      · simp [Sorted.back_ge (h.sorted _ hu) hq] at hlt

/-- Where no key is found, everything is in the groups. -/
theorem AtMaxKey.exhausted (h : AtMaxKey order all queue interVecs)
    (hkey : getMaxKey order interVecs = none) : (queue.flatten : Multiset (K2 × V2)) = all := by
  have hempty : interVecs.flatten = [] := by
    apply List.flatten_eq_nil_iff.mpr
    exact (getMaxKey_maxBack interVecs).1 hkey
  have hperm := h.perm
  rwa [hempty, Multiset.coe_nil, add_zero] at hperm

/-- The back has the key: it moves to `newVec`. -/
theorem Draining.pop (h : Draining order all queue key newVec visited (v :: todo))
    (hback : v.getLast? = some back) (hequiv : order.equiv back.1 key = true) :
    Draining order all queue key (newVec ++ [back]) visited (v.dropLast :: todo) := by
  have hv : v = v.dropLast ++ [back] := (List.dropLast_append_getLast? back hback).symm
  refine ⟨h.descending, ?_, fun u hu => ?_, h.below, fun p hp => ?_, h.visited_lt, fun q hq => ?_,
    Or.inl (by simp)⟩
  · rw [← h.perm]
    nth_rewrite 2 [hv]
    simp only [List.flatten_cons, ← Multiset.coe_add]
    ac_rfl
  · rcases List.mem_append.mp hu with hu | hu
    · exact h.sorted u (List.mem_append_left _ hu)
    · rcases List.mem_cons.mp hu with rfl | hu
      · exact (h.sorted v (by simp)).sublist (List.dropLast_sublist v)
      · exact h.sorted u (by simp [hu])
  · rcases List.mem_append.mp hp with hp | hp
    · exact h.drained p hp
    · exact (List.mem_singleton.mp hp) ▸ hequiv
  · apply h.todo_le q
    rw [List.flatten_cons] at hq ⊢
    rcases List.mem_append.mp hq with hq | hq
    · exact List.mem_append_left _ (List.dropLast_subset v hq)
    · exact List.mem_append_right _ hq

/-- The vector is empty or its back has a smaller key: so have all its pairs. -/
theorem Draining.skip (h : Draining order all queue key newVec visited (v :: todo))
    (hback : ∀ back, v.getLast? = some back → order.equiv back.1 key = false) :
    Draining order all queue key newVec (visited ++ [v]) todo := by
  have hlt : ∀ q ∈ v, order.lt q.1 key = true := by
    have hsorted := h.sorted v (by simp)
    have hle : ∀ q ∈ v, order.lt key q.1 = false := fun q hq =>
      h.todo_le q (by rw [List.flatten_cons]; exact List.mem_append_left _ hq)
    intro q hq
    induction v using List.reverseRecOn with
    | nil => cases hq
    | append_singleton init last _ =>
        have hlast := KeyOrder.lt_of_not_equiv (hle last (by simp)) (hback last (by simp))
        rcases KeyOrder.lt_or_lt hlast q.1 with hgt | hqk
        · simp [Sorted.back_ge hsorted hq] at hgt
        · exact hqk
  refine ⟨h.descending, ?_, ?_, h.below, h.drained, fun q hq => ?_, fun q hq => ?_, ?_⟩
  · rw [← h.perm]
    simp only [List.flatten_cons, List.flatten_append, List.flatten_nil, List.append_nil,
      ← Multiset.coe_add]
    ac_rfl
  · simpa using h.sorted
  · rw [List.flatten_append] at hq
    rcases List.mem_append.mp hq with hq | hq
    · exact h.visited_lt q hq
    · exact hlt q (by simpa using hq)
  · exact h.todo_le q (by rw [List.flatten_cons]; exact List.mem_append_right _ hq)
  · rcases h.found with hne | ⟨q, hq, hequiv⟩
    · exact Or.inl hne
    · rw [List.flatten_cons] at hq
      rcases List.mem_append.mp hq with hq | hq
      · have hnot := (order.equiv_iff.mp hequiv).1
        simp [hlt q hq] at hnot
      · exact Or.inr ⟨q, hq, hequiv⟩

/-- After the last vector `newVec` is the next group. -/
theorem Draining.finish (h : Draining order all queue key newVec visited []) :
    AtMaxKey order all (queue ++ [newVec]) visited := by
  have hne : newVec ≠ [] := by
    rcases h.found with hne | ⟨q, hq, _⟩
    · exact hne
    · cases hq
  refine ⟨h.descending.snoc hne (fun p hp q hq => ?_) (fun g hg p hp q hq => ?_), ?_,
    by simpa using h.sorted, fun g hg p hp q hq => ?_⟩
  · exact KeyOrder.equiv_trans (h.drained p hp) (KeyOrder.equiv_symm (h.drained q hq))
  · exact KeyOrder.lt_of_equiv_of_lt (h.drained q hq) (h.below g hg p hp)
  · rw [← h.perm]
    simp
  · have hqk := h.visited_lt q hq
    rcases List.mem_append.mp hg with hg | hg
    · exact order.trans _ _ _ hqk (h.below g hg p hp)
    · rw [List.mem_singleton.mp hg] at hp
      exact KeyOrder.lt_of_lt_of_equiv hqk (KeyOrder.equiv_symm (h.drained p hp))

end MapReduce
