import Mathlib.Data.List.Nodup
import Mathlib.Data.List.Sublists

/-!
# Queues that serve in order of arrival

A step of such a queue may drop some waiting elements, may add new ones behind
all others, and may serve the front.  Nothing is assumed about which elements
are dropped or added, and an element that left may be added again later.

`Before a b q` says that `a` waits in front of `b`.  It is kept by every step
that leaves both waiting, and as long as `a` waits, an element that was behind
`a`, or absent, is not served.
-/

namespace Fifo

universe u

variable {α : Type u} {q kept : List α} {a b x : α}

/-- What one step does to the queue, with the element it serves. -/
inductive Step (q : List α) : Option α → List α → Prop
  /-- some elements leave without being served, new ones arrive -/
  | keep {kept added : List α} (hkept : kept.Sublist q) (hnew : ∀ y ∈ added, y ∉ q) :
      Step q none (kept ++ added)
  /-- new elements arrive, then the front is served -/
  | serve {x : α} {added rest : List α} (hnew : ∀ y ∈ added, y ∉ q)
      (hfront : q ++ added = x :: rest) : Step q (some x) rest

/-- A step that touches nothing. -/
theorem Step.refl (q : List α) : Step q none q := by
  have hstep : Step q none (q ++ []) := Step.keep (List.Sublist.refl q) (by simp)
  rwa [List.append_nil] at hstep

/-- New elements line up at the end. -/
theorem Step.arrive {added : List α} (hnew : ∀ y ∈ added, y ∉ q) :
    Step q none (q ++ added) := Step.keep (List.Sublist.refl q) hnew

/-- Elements leave and nobody arrives. -/
theorem Step.drop (hkept : kept.Sublist q) : Step q none kept := by
  have hstep : Step q none (kept ++ []) := Step.keep hkept (by simp)
  rwa [List.append_nil] at hstep

/-- The front is served and nobody arrives. -/
theorem Step.pop {rest : List α} (hfront : q = x :: rest) : Step q (some x) rest := by
  have hnone : q ++ [] = x :: rest := by rw [List.append_nil, hfront]
  exact Step.serve (by simp) hnone

/-- `a` waits in front of `b`. -/
def Before (a b : α) (q : List α) : Prop := [a, b].Sublist q

/-- Whoever waits in front of another is in the queue. -/
theorem Before.mem_left (h : Before a b q) : a ∈ q := h.subset (by simp)

/-- Whoever waits behind another is in the queue. -/
theorem Before.mem_right (h : Before a b q) : b ∈ q := h.subset (by simp)

/-- Arrivals at the end do not change who waits in front of whom. -/
theorem Before.append (h : Before a b q) (added : List α) : Before a b (q ++ added) :=
  h.trans (List.sublist_append_left q added)

/-- Whoever waits is in front of every newcomer. -/
theorem Before.of_append {added : List α} (ha : a ∈ q) (hb : b ∈ added) :
    Before a b (q ++ added) :=
  (List.singleton_sublist.mpr ha).append (List.singleton_sublist.mpr hb)

/-- Behind a front other than `a` the order of `a` and `b` is unchanged. -/
theorem Before.tail (h : Before a b (x :: q)) (hne : a ≠ x) : Before a b q := by
  cases h with
  | cons _ hrest => exact hrest
  | cons_cons _ _ => exact absurd rfl hne

/-- Elements that leave do not reorder those that stay. -/
theorem Before.of_sublist (hnodup : q.Nodup) (hkept : kept.Sublist q) (h : Before a b q)
    (ha : a ∈ kept) (hb : b ∈ kept) : Before a b kept := by
  induction hkept with
  | slnil => exact h
  | @cons l q x hsub ih =>
      obtain ⟨hx, hq⟩ := List.nodup_cons.mp hnodup
      have hne : a ≠ x := fun heq => hx (heq ▸ hsub.subset ha)
      exact ih hq (h.tail hne) ha hb
  | @cons_cons l q x hsub ih =>
      obtain ⟨hx, hq⟩ := List.nodup_cons.mp hnodup
      have hab : a ≠ b := by
        have hpair : [a, b].Nodup := hnodup.sublist h
        simpa using hpair
      by_cases heq : a = x
      · subst heq
        have hb : b ∈ l := (List.mem_cons.mp hb).resolve_left (Ne.symm hab)
        exact List.cons_sublist_cons.mpr (List.singleton_sublist.mpr hb)
      · have hrest : Before a b q := h.tail heq
        have ha : a ∈ l := (List.mem_cons.mp ha).resolve_left heq
        have hne : b ≠ x := fun hbx => hx (hbx ▸ hrest.mem_right)
        have hb : b ∈ l := (List.mem_cons.mp hb).resolve_left hne
        exact (ih hq hrest ha hb).trans (List.sublist_cons_self x l)

/-- Behind a served front the queue goes on as before. -/
theorem Step.serve_cons {added rest : List α} (ha : a ∈ q)
    (hfront : q ++ added = x :: rest) : ∃ waiting, q = x :: waiting ∧ rest = waiting ++ added := by
  cases q with
  | nil => simp at ha
  | cons front waiting =>
      obtain ⟨rfl, rfl⟩ : front = x ∧ waiting ++ added = rest := by simpa using hfront
      exact ⟨waiting, rfl, rfl⟩

/-- **Order is kept.**  Two elements that are still in the queue after a step
wait in the same order as before it. -/
theorem Step.before {served : Option α} {q' : List α} (h : Step q served q')
    (hnodup : q.Nodup) (hab : Before a b q) (ha : a ∈ q') (hb : b ∈ q') : Before a b q' := by
  cases h with
  | @keep kept added hkept hnew =>
      have hold : ∀ {y}, y ∈ q → y ∈ kept ++ added → y ∈ kept := by
        intro y hy hmem
        exact (List.mem_append.mp hmem).resolve_right fun hadd => hnew y hadd hy
      have hkeep := hab.of_sublist hnodup hkept (hold hab.mem_left ha) (hold hab.mem_right hb)
      exact hkeep.append added
  | @serve x added _ hnew hfront =>
      obtain ⟨waiting, rfl, rfl⟩ := Step.serve_cons hab.mem_left hfront
      have hne : a ≠ x := by
        intro heq
        have hwaiting : a ∈ waiting :=
          (List.mem_append.mp ha).resolve_right fun hadd => hnew a hadd hab.mem_left
        exact (List.nodup_cons.mp hnodup).1 (heq ▸ hwaiting)
      exact (hab.tail hne).append added

/-- `a` waits, and `b` does not wait in front of it. -/
def Ahead (a b : α) (q : List α) : Prop := a ∈ q ∧ (b ∈ q → Before a b q)

/-- **No overtaking.**  What is not in front of a waiting element is not
served. -/
theorem Step.not_served {served : Option α} {q' : List α} (h : Step q served q')
    (hnodup : q.Nodup) (hne : a ≠ b) (hahead : Ahead a b q) : served ≠ some b := by
  cases h with
  | keep _ _ => simp
  | @serve x added _ hnew hfront =>
      obtain ⟨waiting, rfl, rfl⟩ := Step.serve_cons hahead.1 hfront
      intro heq
      obtain rfl : x = b := Option.some.inj heq
      have hab := (hahead.2 (by simp)).tail hne
      exact (List.nodup_cons.mp hnodup).1 hab.mem_right

/-- An element that goes on waiting stays ahead. -/
theorem Step.ahead {served : Option α} {q' : List α} (h : Step q served q')
    (hnodup : q.Nodup) (hahead : Ahead a b q) (hstay : a ∈ q') : Ahead a b q' := by
  refine ⟨hstay, fun hb => ?_⟩
  by_cases hbq : b ∈ q
  · exact h.before hnodup (hahead.2 hbq) hstay hb
  · cases h with
    | @keep kept added hkept hnew =>
        have hakept : a ∈ kept :=
          (List.mem_append.mp hstay).resolve_right fun hadd => hnew a hadd hahead.1
        have hbadded : b ∈ added :=
          (List.mem_append.mp hb).resolve_left fun hk => hbq (hkept.subset hk)
        exact Before.of_append hakept hbadded
    | @serve x added _ hnew hfront =>
        obtain ⟨waiting, rfl, rfl⟩ := Step.serve_cons hahead.1 hfront
        have hawait : a ∈ waiting :=
          (List.mem_append.mp hstay).resolve_right fun hadd => hnew a hadd hahead.1
        have hbadded : b ∈ added :=
          (List.mem_append.mp hb).resolve_left fun hw => hbq (List.mem_cons_of_mem x hw)
        exact Before.of_append hawait hbadded

/-! ## Positions -/

/-- Of two elements that wait in some order one is ahead of the other. -/
theorem ahead_total (ha : a ∈ q) (hb : b ∈ q) (hne : a ≠ b) : Ahead a b q ∨ Ahead b a q := by
  induction q with
  | nil => cases ha
  | cons x q ih =>
      rcases List.mem_cons.mp ha with rfl | haq
      · have hbq : b ∈ q := (List.mem_cons.mp hb).resolve_left hne.symm
        exact Or.inl ⟨List.mem_cons_self, fun _ =>
          List.cons_sublist_cons.mpr (List.singleton_sublist.mpr hbq)⟩
      · rcases List.mem_cons.mp hb with rfl | hbq
        · exact Or.inr ⟨List.mem_cons_self, fun _ =>
            List.cons_sublist_cons.mpr (List.singleton_sublist.mpr haq)⟩
        · refine (ih haq hbq).imp (fun h => ⟨ha, fun _ => ?_⟩) fun h => ⟨hb, fun _ => ?_⟩
          · exact (h.2 hbq).trans (List.sublist_cons_self x q)
          · exact (h.2 haq).trans (List.sublist_cons_self x q)

variable [DecidableEq α]

/-- Nobody falls back when others leave. -/
theorem idxOf_le_of_sublist (hnodup : q.Nodup) (hkept : kept.Sublist q) (ha : a ∈ kept) :
    kept.idxOf a ≤ q.idxOf a := by
  induction hkept with
  | slnil => exact le_rfl
  | @cons l q x hsub ih =>
      obtain ⟨hx, hq⟩ := List.nodup_cons.mp hnodup
      have hne : x ≠ a := by
        intro heq
        exact hx (heq ▸ hsub.subset ha)
      rw [List.idxOf_cons_ne _ hne]
      exact (ih hq ha).trans (Nat.le_succ _)
  | @cons_cons l q x hsub ih =>
      obtain ⟨_, hq⟩ := List.nodup_cons.mp hnodup
      by_cases heq : x = a
      · rw [List.idxOf_cons_eq _ heq]
        exact Nat.zero_le _
      · rw [List.idxOf_cons_ne _ heq, List.idxOf_cons_ne _ heq]
        have ha : a ∈ l := (List.mem_cons.mp ha).resolve_left (Ne.symm heq)
        exact Nat.succ_le_succ (ih hq ha)

/-- **Moving up.**  An element that goes on waiting is one place nearer to the front
for each element that is served. -/
theorem Step.idxOf_le {served : Option α} {q' : List α} (h : Step q served q')
    (hnodup : q.Nodup) (ha : a ∈ q) (hstay : a ∈ q') :
    q'.idxOf a + served.toList.length ≤ q.idxOf a := by
  cases h with
  | @keep kept added hkept hnew =>
      have hakept : a ∈ kept :=
        (List.mem_append.mp hstay).resolve_right fun hadd => hnew a hadd ha
      rw [List.idxOf_append_of_mem hakept]
      exact idxOf_le_of_sublist hnodup hkept hakept
  | @serve x added _ hnew hfront =>
      obtain ⟨waiting, rfl, rfl⟩ := Step.serve_cons ha hfront
      have hawait : a ∈ waiting :=
        (List.mem_append.mp hstay).resolve_right fun hadd => hnew a hadd ha
      have hne : x ≠ a := by
        intro heq
        exact (List.nodup_cons.mp hnodup).1 (heq ▸ hawait)
      rw [List.idxOf_append_of_mem hawait, List.idxOf_cons_ne _ hne]
      exact le_rfl

end Fifo
