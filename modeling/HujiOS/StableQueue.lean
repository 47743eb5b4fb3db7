import HujiOS.Fifo
import Mathlib.Data.List.Sort

/-!
# Queues ordered by key, then by arrival

An ordered multiset keeps its elements by key and inserts an element behind
those that compare equal to it.  Its content at any time is then determined by
the elements that are in it and the order in which they arrived: `Ahead` is
that order, and `StablyOrdered` says that a queue follows it.  Elements may
leave from anywhere, and an element that left may arrive again.
-/

namespace StableQueue

universe u v

open Fifo

variable {α : Type u} {κ : Type v} [LinearOrder κ] {key : α → κ} {past queue queue' : List α}
  {a b : α}

/-- `a` has the smaller key, or the same key and arrived first. -/
def Ahead (key : α → κ) (past : List α) (a b : α) : Prop :=
  key a < key b ∨ key a = key b ∧ Before a b past

/-- Whoever is ahead has no larger key. -/
theorem Ahead.le (h : Ahead key past a b) : key a ≤ key b :=
  h.elim le_of_lt fun heq => le_of_eq heq.1

/-- Later arrivals do not change who is ahead. -/
theorem Ahead.append (h : Ahead key past a b) (added : List α) : Ahead key (past ++ added) a b :=
  h.imp_right fun heq => ⟨heq.1, heq.2.append added⟩

/-- Two elements of which each arrived before the other are one. -/
theorem before_asymm (hnodup : past.Nodup) (hab : Before a b past) (hba : Before b a past) :
    a = b := by
  induction past with
  | nil => exact absurd hab.mem_left List.not_mem_nil
  | cons x rest ih =>
      obtain ⟨hx, hrest⟩ := List.nodup_cons.mp hnodup
      by_cases ha : a = x
      · by_cases hb : b = x
        · exact ha.trans hb.symm
        · exact absurd (ha ▸ (hba.tail hb).mem_right) hx
      · by_cases hb : b = x
        · exact absurd (hb ▸ (hab.tail ha).mem_right) hx
        · exact ih hrest (hab.tail ha) (hba.tail hb)

/-- Two elements of which each is ahead of the other are one. -/
theorem Ahead.antisymm (hnodup : past.Nodup) (hab : Ahead key past a b)
    (hba : Ahead key past b a) : a = b := by
  rcases hab with hlt | ⟨hsame, hbefore⟩
  · exact absurd hba.le (not_le.mpr hlt)
  · rcases hba with hlt | ⟨_, hbefore'⟩
    · exact absurd hsame hlt.ne'
    · exact before_asymm hnodup hbefore hbefore'

/-- **Uniqueness.**  The elements and the order of arrival determine the
queue. -/
theorem eq_of_ahead (hpast : past.Nodup) (hnodup : queue.Nodup) (hnodup' : queue'.Nodup)
    (hsame : ∀ a, a ∈ queue ↔ a ∈ queue') (hordered : queue.Pairwise (Ahead key past))
    (hordered' : queue'.Pairwise (Ahead key past)) : queue = queue' := by
  have hperm : queue.Perm queue' := (List.perm_ext_iff_of_nodup hnodup hnodup').mpr hsame
  exact hperm.eq_of_pairwise (fun a b _ _ => Ahead.antisymm hpast) hordered hordered'

/-! ## Inserting behind the equal keys -/

/-- Insertion behind the elements of the same key. -/
def insert (key : α → κ) (a : α) (queue : List α) : List α :=
  queue.orderedInsert (fun x y => key x < key y) a

/-- Inserting only adds the element. -/
theorem insert_perm (a : α) (queue : List α) : (insert key a queue).Perm (a :: queue) :=
  List.perm_orderedInsert _ a queue

/-- The queue after an insertion holds the element and what it held before. -/
theorem mem_insert : b ∈ insert key a queue ↔ b = a ∨ b ∈ queue := List.mem_orderedInsert _

/-- An order on a queue ordered by key extends to an inserted element that
comes behind the keys up to its own and in front of the others. -/
theorem pairwise_insert {r : α → α → Prop} (hkeys : queue.Pairwise fun x y => key x ≤ key y)
    (hqueue : queue.Pairwise r) (hbehind : ∀ x ∈ queue, key x ≤ key a → r x a)
    (hfront : ∀ x ∈ queue, key a < key x → r a x) : (insert key a queue).Pairwise r := by
  induction queue with
  | nil => simp [insert]
  | cons x rest ih =>
      obtain ⟨hxkey, hrestkeys⟩ := List.pairwise_cons.mp hkeys
      obtain ⟨hx, hrest⟩ := List.pairwise_cons.mp hqueue
      by_cases hlt : key a < key x
      · have heq : insert key a (x :: rest) = a :: x :: rest := by simp [insert, hlt]
        rw [heq]
        apply List.pairwise_cons.mpr ⟨?_, hqueue⟩
        intro y hy
        apply hfront y hy
        rcases List.mem_cons.mp hy with rfl | hy
        · exact hlt
        · exact hlt.trans_le (hxkey y hy)
      · have heq : insert key a (x :: rest) = x :: insert key a rest := by simp [insert, hlt]
        have hinsert := ih hrestkeys hrest (fun y hy => hbehind y (List.mem_cons_of_mem x hy))
          fun y hy => hfront y (List.mem_cons_of_mem x hy)
        rw [heq]
        apply List.pairwise_cons.mpr ⟨?_, hinsert⟩
        intro y hy
        rcases mem_insert.mp hy with rfl | hy
        · exact hbehind x List.mem_cons_self (not_lt.mp hlt)
        · exact hx y hy

/-- Up to the first key above `bound` are exactly the keys up to `bound`. -/
theorem takeWhile_le_eq_filter (bound : κ) (hkeys : queue.Pairwise fun x y => key x ≤ key y) :
    queue.takeWhile (fun x => decide (key x ≤ bound)) =
      queue.filter (fun x => decide (key x ≤ bound)) := by
  induction queue with
  | nil => rfl
  | cons x rest ih =>
      obtain ⟨hx, hrest⟩ := List.pairwise_cons.mp hkeys
      by_cases hle : key x ≤ bound
      · simp [hle, ih hrest]
      · have hnone : ∀ y ∈ rest, ¬ key y ≤ bound := fun y hy hy' => hle ((hx y hy).trans hy')
        simpa [hle] using hnone

/-- In a queue sorted by key, dropping the front up to a bound is the same as
removing everything up to the bound. -/
theorem dropWhile_le_eq_filter (bound : κ) (hkeys : queue.Pairwise fun x y => key x ≤ key y) :
    queue.dropWhile (fun x => decide (key x ≤ bound)) =
      queue.filter (fun x => decide (bound < key x)) := by
  induction queue with
  | nil => rfl
  | cons x rest ih =>
      obtain ⟨hx, hrest⟩ := List.pairwise_cons.mp hkeys
      by_cases hle : key x ≤ bound
      · simp [hle, ih hrest, not_lt.mpr hle]
      · have hall : ∀ y ∈ x :: rest, bound < key y := by
          intro y hy
          rcases List.mem_cons.mp hy with rfl | hy
          · exact not_le.mp hle
          · exact (not_le.mp hle).trans_le (hx y hy)
        rw [List.filter_eq_self.mpr fun y hy => decide_eq_true (hall y hy)]
        simp [hle]

/-! ## The order of arrival -/

/-- `queue` holds the elements of `past`, which is in order of arrival, by key
and then by arrival. -/
structure StablyOrdered (key : α → κ) (past queue : List α) : Prop where
  nodup : past.Nodup
  same : ∀ a, a ∈ queue ↔ a ∈ past
  ordered : queue.Pairwise (Ahead key past)

namespace StablyOrdered

/-- A queue in stable order has its keys in ascending order. -/
theorem keys (h : StablyOrdered key past queue) : queue.Pairwise fun x y => key x ≤ key y :=
  h.ordered.imp Ahead.le

/-- Equal elements cannot follow each other. -/
theorem queue_nodup (h : StablyOrdered key past queue) : queue.Nodup := by
  apply h.ordered.imp
  intro a b hab heq
  subst heq
  rcases hab with hlt | ⟨_, hbefore⟩
  · exact lt_irrefl _ hlt
  · have hpair : [a, a].Nodup := h.nodup.sublist hbefore
    simp at hpair

end StablyOrdered

variable [DecidableEq α]

/-- The order of arrival when the queue has become `queue`: those that left
are out, and the new ones are behind. -/
def arrived (past queue : List α) : List α :=
  past.filter (fun a => decide (a ∈ queue)) ++ queue.filter (fun a => decide (a ∉ past))

namespace StablyOrdered

/-- Elements leave. -/
theorem leave (h : StablyOrdered key past queue) (hleft : queue'.Sublist queue) :
    StablyOrdered key (arrived past queue') queue' := by
  have hold : ∀ a ∈ queue', a ∈ past := fun a ha => (h.same a).mp (hleft.subset ha)
  have hpast : arrived past queue' = past.filter fun a => decide (a ∈ queue') := by
    have hnone : queue'.filter (fun a => decide (a ∉ past)) = [] := by simpa using hold
    unfold arrived
    rw [hnone, List.append_nil]
  have hmem : ∀ a, a ∈ past.filter (fun a => decide (a ∈ queue')) ↔ a ∈ queue' := by
    intro a
    simpa using hold a
  rw [hpast]
  refine ⟨h.nodup.filter _, fun a => (hmem a).symm, ?_⟩
  apply (h.ordered.sublist hleft).imp_of_mem
  intro a b ha hb hab
  exact hab.imp_right fun heq =>
    ⟨heq.1, heq.2.of_sublist h.nodup List.filter_sublist ((hmem a).mpr ha) ((hmem b).mpr hb)⟩

/-- A new element arrives. -/
theorem enter (h : StablyOrdered key past queue) (hnew : a ∉ queue) :
    StablyOrdered key (arrived past (insert key a queue)) (insert key a queue) := by
  have hout : a ∉ past := fun hm => hnew ((h.same a).mpr hm)
  have hpast : arrived past (insert key a queue) = past ++ [a] := by
    have hold : past.filter (fun x => decide (x ∈ insert key a queue)) = past := by
      apply List.filter_eq_self.mpr
      intro x hx
      exact decide_eq_true (mem_insert.mpr (Or.inr ((h.same x).mpr hx)))
    have hlate : (insert key a queue).filter (fun x => decide (x ∉ past)) = [a] := by
      apply List.perm_singleton.mp
      apply ((insert_perm a queue).filter _).trans
      have hnone : ∀ x ∈ queue, x ∈ past := fun x hx => (h.same x).mp hx
      simpa [hout] using hnone
    unfold arrived
    rw [hold, hlate]
  rw [hpast]
  refine ⟨?_, ?_, ?_⟩
  · exact List.nodup_append.mpr ⟨h.nodup, List.nodup_singleton a, by grind⟩
  · intro x
    rw [mem_insert, h.same, List.mem_append, List.mem_singleton, or_comm]
  · apply pairwise_insert h.keys (h.ordered.imp fun hab => hab.append [a])
    · intro x hx hle
      rcases hle.lt_or_eq with hlt | heq
      · exact Or.inl hlt
      · exact Or.inr ⟨heq, Before.of_append ((h.same x).mp hx) (List.mem_singleton_self a)⟩
    · exact fun x _ hlt => Or.inl hlt

end StablyOrdered

end StableQueue
