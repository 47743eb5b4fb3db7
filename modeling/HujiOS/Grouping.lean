import Mathlib.Data.List.Basic
import Mathlib.Data.List.Count
import Mathlib.Data.List.Dedup
import Mathlib.Data.List.Nodup
import Mathlib.Data.List.Perm.Basic
import Mathlib.Data.Multiset.Basic

/-!
# Grouping keyed pairs by a strict weak order

Keys are compared by a Boolean `lt` that is a strict weak order: keys that are
incomparable are equivalent, and may still be different keys.
`GroupedByKey` says that a list of groups has exactly one group for every class
of keys in a list of pairs.  `Descending` is the form in which a program that
peels off the greatest keys first produces its groups.
-/

namespace Grouping

variable {κ ν : Type*}

/-- A strict weak order. -/
structure KeyOrder (κ : Type*) where
  lt : κ → κ → Bool
  irrefl : ∀ a, lt a a = false
  trans : ∀ a b c, lt a b = true → lt b c = true → lt a c = true
  incomp_trans : ∀ a b c, lt a b = false → lt b a = false → lt b c = false → lt c b = false →
    lt a c = false ∧ lt c a = false

namespace KeyOrder

variable (order : KeyOrder κ) {a b c : κ}

/-- Neither key is less than the other. -/
def equiv (a b : κ) : Bool := !(order.lt a b || order.lt b a)

/-- Ascending in the keys: no later pair has a smaller key. -/
def Sorted (v : List (κ × ν)) : Prop := v.Pairwise fun p q => order.lt q.1 p.1 = false

/-- Two keys are equivalent when neither is below the other. -/
theorem equiv_iff : order.equiv a b = true ↔ order.lt a b = false ∧ order.lt b a = false := by
  simp [equiv]

variable {order}

/-- Every key is equivalent to itself: `lt` is irreflexive. -/
theorem equiv_refl (a : κ) : order.equiv a a = true :=
  order.equiv_iff.mpr ⟨order.irrefl a, order.irrefl a⟩

/-- Equivalence of keys does not depend on the side. -/
theorem equiv_symm (h : order.equiv a b = true) : order.equiv b a = true :=
  order.equiv_iff.mpr (order.equiv_iff.mp h).symm

/-- Equivalence of keys is transitive, the fourth law of a strict weak order. -/
theorem equiv_trans (hab : order.equiv a b = true) (hbc : order.equiv b c = true) :
    order.equiv a c = true := by
  obtain ⟨h1, h2⟩ := order.equiv_iff.mp hab
  obtain ⟨h3, h4⟩ := order.equiv_iff.mp hbc
  exact order.equiv_iff.mpr (order.incomp_trans a b c h1 h2 h3 h4)

/-- A strict weak order is negatively transitive. -/
theorem lt_or_lt (h : order.lt a c = true) (b : κ) :
    order.lt a b = true ∨ order.lt b c = true := by
  by_contra hnot
  push Not at hnot
  obtain ⟨hab, hbc⟩ := hnot
  have hba : order.lt b a = false := by
    by_contra hlt
    exact hbc (order.trans b a c (by simpa using hlt) h)
  have hcb : order.lt c b = false := by
    by_contra hlt
    exact hab (order.trans a c b h (by simpa using hlt))
  have hac := (order.incomp_trans a b c (by simpa using hab) hba (by simpa using hbc) hcb).1
  simp [hac] at h

/-- A key may be replaced by an equivalent one on the left of `lt`. -/
theorem lt_of_equiv_of_lt (hab : order.equiv a b = true) (hbc : order.lt b c = true) :
    order.lt a c = true := by
  rcases lt_or_lt hbc a with hba | hac
  · simp [(order.equiv_iff.mp hab).2] at hba
  · exact hac

/-- A key may be replaced by an equivalent one on the right of `lt`. -/
theorem lt_of_lt_of_equiv (hab : order.lt a b = true) (hbc : order.equiv b c = true) :
    order.lt a c = true := by
  rcases lt_or_lt hab c with hac | hcb
  · exact hac
  · simp [(order.equiv_iff.mp hbc).2] at hcb

/-- A key that is not greater and not equivalent is smaller. -/
theorem lt_of_not_equiv (hle : order.lt b a = false) (hne : order.equiv a b = false) :
    order.lt a b = true := by
  by_contra hlt
  have heq := order.equiv_iff.mpr ⟨by simpa using hlt, hle⟩
  simp [hne] at heq

end KeyOrder

/-! ## The specification of a grouping -/

/-- One group for each class of equivalent keys in `all`, a permutation of the
pairs of that class; and no other group. -/
structure GroupedByKey (order : KeyOrder κ) (all : List (κ × ν))
    (groups : List (List (κ × ν))) : Prop where
  once : ∀ p ∈ all, groups.countP (fun g => g.any fun q => order.equiv p.1 q.1) = 1
  isClass : ∀ g ∈ groups, ∃ p ∈ all, g.Perm (all.filter fun q => order.equiv p.1 q.1)

/-- Being grouped by key depends neither on the order of the pairs nor on that
of the groups. -/
theorem GroupedByKey.perm {order : KeyOrder κ} {all all' : List (κ × ν)}
    {groups groups' : List (List (κ × ν))} (h : GroupedByKey order all groups)
    (hall : all.Perm all') (hgroups : groups.Perm groups') : GroupedByKey order all' groups' := by
  constructor
  · intro p hp
    rw [← hgroups.countP_eq]
    exact h.once p (hall.mem_iff.mpr hp)
  · intro g hg
    obtain ⟨p, hp, hperm⟩ := h.isClass g (hgroups.mem_iff.mpr hg)
    exact ⟨p, hall.mem_iff.mp hp, hperm.trans (hall.filter _)⟩

/-- Equivalent keys are equal. -/
def KeyOrder.Linear (order : KeyOrder κ) : Prop := ∀ a b, order.equiv a b = true → a = b

/-- The key of a group. -/
def groupKey (g : List (κ × ν)) : Option κ := g.head?.map Prod.fst

section PerKey

variable {order : KeyOrder κ} {all : List (κ × ν)} {groups : List (List (κ × ν))}

/-- The pairs of a class have its key. -/
theorem KeyOrder.Linear.key_of_mem (hlinear : order.Linear) {p q : κ × ν} {g : List (κ × ν)}
    (hg : g.Perm (all.filter fun q => order.equiv p.1 q.1)) (hq : q ∈ g) : q.1 = p.1 :=
  (hlinear _ _ (List.mem_filter.mp (hg.mem_iff.mp hq)).2).symm

/-- Where equivalent keys are equal, the key of a group is the key of any of
its pairs. -/
theorem KeyOrder.Linear.groupKey_eq (hlinear : order.Linear) {p : κ × ν} {g : List (κ × ν)}
    (hp : p ∈ all) (hg : g.Perm (all.filter fun q => order.equiv p.1 q.1)) :
    groupKey g = some p.1 := by
  have hmem : p ∈ g := hg.mem_iff.mpr (List.mem_filter.mpr ⟨hp, KeyOrder.equiv_refl p.1⟩)
  cases g with
  | nil => cases hmem
  | cons q rest => exact congrArg some (hlinear.key_of_mem hg List.mem_cons_self)

/-- With a linear order the groups are the keys, each once. -/
theorem GroupedByKey.keys [DecidableEq κ] (h : GroupedByKey order all groups)
    (hlinear : order.Linear) :
    (groups.map groupKey).Perm ((all.map Prod.fst).dedup.map some) := by
  have hsome : ((all.map Prod.fst).dedup.map some).Nodup :=
    (List.nodup_dedup _).map (fun _ _ heq => Option.some.inj heq)
  have honce : (groups.map groupKey).Nodup := by
    rw [List.nodup_iff_count_le_one]
    intro key
    rw [List.count, List.countP_map]
    by_cases hkey : ∃ g ∈ groups, groupKey g = key
    · obtain ⟨g, hg, rfl⟩ := hkey
      obtain ⟨p, hp, hclass⟩ := h.isClass g hg
      rw [← h.once p hp, hlinear.groupKey_eq hp hclass]
      apply List.countP_mono_left
      intro g' hg' heq
      obtain ⟨p', hp', hclass'⟩ := h.isClass g' hg'
      have hsame : p'.1 = p.1 := by
        simpa [hlinear.groupKey_eq hp' hclass'] using heq
      have hmem : p' ∈ g' :=
        hclass'.mem_iff.mpr (List.mem_filter.mpr ⟨hp', KeyOrder.equiv_refl p'.1⟩)
      exact List.any_eq_true.mpr ⟨p', hmem, by rw [hsame]; exact KeyOrder.equiv_refl p.1⟩
    · have hnone : groups.countP ((fun x => x == key) ∘ groupKey) = 0 := by
        apply List.countP_eq_zero.mpr
        intro g hg heq
        exact hkey ⟨g, hg, by simpa using heq⟩
      omega
  refine (List.perm_ext_iff_of_nodup honce hsome).mpr fun key => ?_
  rw [List.mem_map, List.mem_map]
  constructor
  · intro hmem
    obtain ⟨g, hg, rfl⟩ := hmem
    obtain ⟨p, hp, hclass⟩ := h.isClass g hg
    rw [hlinear.groupKey_eq hp hclass]
    exact ⟨p.1, List.mem_dedup.mpr (List.mem_map_of_mem hp), rfl⟩
  · intro hmem
    obtain ⟨k, hk, rfl⟩ := hmem
    obtain ⟨p, hp, rfl⟩ := List.mem_map.mp (List.mem_dedup.mp hk)
    obtain ⟨g, hg, hany⟩ := List.countP_pos_iff.mp (h.once p hp ▸ Nat.one_pos)
    obtain ⟨q, hq, hequiv⟩ := List.any_eq_true.mp hany
    obtain ⟨p', hp', hclass⟩ := h.isClass g hg
    refine ⟨g, hg, ?_⟩
    rw [hlinear.groupKey_eq hp' hclass, ← hlinear.key_of_mem hclass hq, hlinear _ _ hequiv]

/-- **One result for each key**, of a function that does not look at the order
within a class. -/
theorem GroupedByKey.flatMap_keys [DecidableEq κ] {β : Type*} (h : GroupedByKey order all groups)
    (hlinear : order.Linear) {f : List (κ × ν) → List β} {F : κ → List β}
    (hf : ∀ p ∈ all, ∀ g, g.Perm (all.filter fun q => order.equiv p.1 q.1) → f g = F p.1) :
    (groups.flatMap f).Perm ((all.map Prod.fst).dedup.flatMap F) := by
  have hkeys : groups.flatMap f = (groups.map groupKey).flatMap fun key => key.elim [] F := by
    rw [List.flatMap_map]
    apply List.flatMap_congr
    intro g hg
    obtain ⟨p, hp, hclass⟩ := h.isClass g hg
    rw [hf p hp g hclass, hlinear.groupKey_eq hp hclass]
    rfl
  have hsome : (all.map Prod.fst).dedup.flatMap F =
      ((all.map Prod.fst).dedup.map some).flatMap fun key => key.elim [] F := by
    rw [List.flatMap_map]
    rfl
  rw [hkeys, hsome]
  exact (h.keys hlinear).flatMap_right _

end PerKey

section SamePairs

variable {order : KeyOrder κ} {all all' : List (κ × ν)} {groups groups' : List (List (κ × ν))}

/-- The class of a pair does not depend on which of its pairs is taken. -/
theorem filter_equiv_congr {p q : κ × ν} (h : order.equiv p.1 q.1 = true) :
    (all.filter fun r => order.equiv p.1 r.1) = all.filter fun r => order.equiv q.1 r.1 := by
  apply List.filter_congr
  intro r _
  rw [Bool.eq_iff_iff]
  exact ⟨fun hr => KeyOrder.equiv_trans (KeyOrder.equiv_symm h) hr,
    fun hr => KeyOrder.equiv_trans h hr⟩

/-- The groups, without the order of their pairs, are the classes. -/
theorem GroupedByKey.mem_classes (h : GroupedByKey order all groups) (m : Multiset (κ × ν)) :
    m ∈ groups.map Multiset.ofList ↔
      ∃ p ∈ all, m = Multiset.ofList (all.filter fun q => order.equiv p.1 q.1) := by
  rw [List.mem_map]
  constructor
  · intro hm
    obtain ⟨g, hg, rfl⟩ := hm
    obtain ⟨p, hp, hclass⟩ := h.isClass g hg
    exact ⟨p, hp, Multiset.coe_eq_coe.mpr hclass⟩
  · intro hm
    obtain ⟨p, hp, rfl⟩ := hm
    obtain ⟨g, hg, hany⟩ := List.countP_pos_iff.mp (h.once p hp ▸ Nat.one_pos)
    obtain ⟨q, hq, hequiv⟩ := List.any_eq_true.mp hany
    obtain ⟨p', hp', hclass⟩ := h.isClass g hg
    have hq' : order.equiv p'.1 q.1 = true := (List.mem_filter.mp (hclass.mem_iff.mp hq)).2
    refine ⟨g, hg, Multiset.coe_eq_coe.mpr ?_⟩
    rwa [filter_equiv_congr (KeyOrder.equiv_trans hequiv (KeyOrder.equiv_symm hq'))]

/-- No class comes twice. -/
theorem GroupedByKey.nodup_classes (h : GroupedByKey order all groups) :
    (groups.map Multiset.ofList).Nodup := by
  classical
  rw [List.nodup_iff_count_le_one]
  intro m
  rw [List.count, List.countP_map]
  by_cases hm : ∃ g ∈ groups, Multiset.ofList g = m
  · obtain ⟨g, hg, rfl⟩ := hm
    obtain ⟨p, hp, hclass⟩ := h.isClass g hg
    rw [← h.once p hp]
    apply List.countP_mono_left
    intro g' _ heq
    have hperm : g'.Perm g := Multiset.coe_eq_coe.mp (by simpa using heq)
    have hmem : p ∈ g' := (hperm.trans hclass).mem_iff.mpr
      (List.mem_filter.mpr ⟨hp, KeyOrder.equiv_refl p.1⟩)
    exact List.any_eq_true.mpr ⟨p, hmem, KeyOrder.equiv_refl p.1⟩
  · have hnone : groups.countP ((fun x => x == m) ∘ Multiset.ofList) = 0 := by
      apply List.countP_eq_zero.mpr
      intro g hg heq
      exact hm ⟨g, hg, by simpa using heq⟩
    omega

/-- **Groupings of the same pairs match**, up to the order of the groups and the
order within each. -/
theorem GroupedByKey.matching (h : GroupedByKey order all groups)
    (h' : GroupedByKey order all' groups') (hall : all.Perm all') :
    ∃ matched, matched.Perm groups' ∧ List.Forall₂ List.Perm groups matched := by
  have hclasses : (groups.map Multiset.ofList).Perm (groups'.map Multiset.ofList) := by
    refine (List.perm_ext_iff_of_nodup h.nodup_classes h'.nodup_classes).mpr fun m => ?_
    rw [h.mem_classes, (h'.perm hall.symm (List.Perm.refl _)).mem_classes]
  have hsame : List.Forall₂ (fun m g => m = Multiset.ofList g) (groups'.map Multiset.ofList)
      groups' := by
    rw [List.forall₂_map_left_iff, List.forall₂_same]
    exact fun _ _ => rfl
  obtain ⟨matched, hforall, hperm⟩ := List.perm_comp_forall₂ hclasses hsame
  rw [List.forall₂_map_left_iff] at hforall
  exact ⟨matched, hperm, hforall.imp fun _ _ hcoe => Multiset.coe_eq_coe.mp hcoe⟩

/-- What is computed group by group, by a function that does not look at the order
within a group. -/
theorem flatMap_perm_of_matching {β : Type*} {f : List (κ × ν) → List β}
    (hf : ∀ g g', g.Perm g' → (f g).Perm (f g')) (h : List.Forall₂ List.Perm groups groups') :
    (groups.flatMap f).Perm (groups'.flatMap f) := by
  induction h with
  | nil => exact List.Perm.refl _
  | cons hg _ ih =>
      rw [List.flatMap_cons, List.flatMap_cons]
      exact (hf _ _ hg).append ih

end SamePairs

/-- The classes, one after the other. -/
def groupByKey (order : KeyOrder κ) : List (κ × ν) → List (List (κ × ν))
  | [] => []
  | p :: rest =>
      (p :: rest.filter fun q => order.equiv p.1 q.1) ::
        groupByKey order (rest.filter fun q => !order.equiv p.1 q.1)
  termination_by all => all.length
  decreasing_by
    simp only [List.unattach_filter, List.unattach_attach, List.length_cons]
    exact Nat.lt_succ_of_le (List.length_filter_le _ _)

/-- The first class and a grouping of the other pairs. -/
theorem GroupedByKey.cons {order : KeyOrder κ} {p : κ × ν} {rest : List (κ × ν)}
    {groups : List (List (κ × ν))}
    (h : GroupedByKey order (rest.filter fun q => !order.equiv p.1 q.1) groups) :
    GroupedByKey order (p :: rest)
      ((p :: rest.filter fun q => order.equiv p.1 q.1) :: groups) := by
  have hfirst : (p :: rest).filter (fun q => order.equiv p.1 q.1) =
      p :: rest.filter fun q => order.equiv p.1 q.1 :=
    List.filter_cons_of_pos (KeyOrder.equiv_refl p.1)
  constructor
  · intro q hq
    rw [List.countP_cons]
    cases hequiv : order.equiv p.1 q.1 with
    | true =>
        have hnone : groups.countP (fun g => g.any fun r => order.equiv q.1 r.1) = 0 := by
          apply List.countP_eq_zero.mpr
          intro g hg hany
          obtain ⟨r, hr, hqr⟩ := List.any_eq_true.mp hany
          obtain ⟨p', _, hclass⟩ := h.isClass g hg
          have hmem := List.mem_of_mem_filter (hclass.mem_iff.mp hr)
          have hnot := (List.mem_filter.mp hmem).2
          simp [KeyOrder.equiv_trans hequiv hqr] at hnot
        rw [hnone, if_pos]
        exact List.any_eq_true.mpr ⟨p, List.mem_cons_self, KeyOrder.equiv_symm hequiv⟩
    | false =>
        have hmem : q ∈ rest := by
          rcases List.mem_cons.mp hq with rfl | hmem
          · simp [KeyOrder.equiv_refl] at hequiv
          · exact hmem
        rw [h.once q (List.mem_filter.mpr ⟨hmem, by simp [hequiv]⟩), if_neg]
        intro hany
        obtain ⟨r, hr, hqr⟩ := List.any_eq_true.mp hany
        rw [← hfirst] at hr
        have htrans := KeyOrder.equiv_trans (List.mem_filter.mp hr).2 (KeyOrder.equiv_symm hqr)
        simp [hequiv] at htrans
  · intro g hg
    rcases List.mem_cons.mp hg with rfl | hg
    · exact ⟨p, List.mem_cons_self, by rw [hfirst]⟩
    · obtain ⟨q, hq, hclass⟩ := h.isClass g hg
      obtain ⟨hmem, hnot⟩ := List.mem_filter.mp hq
      refine ⟨q, List.mem_cons_of_mem p hmem, hclass.trans ?_⟩
      have hp : order.equiv q.1 p.1 = false := by
        by_contra hequiv
        simp [KeyOrder.equiv_symm (by simpa using hequiv)] at hnot
      rw [List.filter_cons_of_neg (by simp [hp]), List.filter_filter]
      refine List.Perm.of_eq (List.filter_congr fun r _ => ?_)
      cases hqr : order.equiv q.1 r.1 with
      | false => simp
      | true =>
          have hpr : order.equiv p.1 r.1 = false := by
            by_contra hequiv
            have hback := KeyOrder.equiv_trans hqr (KeyOrder.equiv_symm (by simpa using hequiv))
            simp [hp] at hback
          simp [hpr]

/-- Taking the class of the first pair, then going on with the rest, groups by
key. -/
theorem groupedByKey_groupByKey (order : KeyOrder κ) (all : List (κ × ν)) :
    GroupedByKey order all (groupByKey order all) := by
  induction all using groupByKey.induct order with
  | case1 =>
      rw [groupByKey]
      exact ⟨by simp, by simp⟩
  | case2 p rest ih =>
      rw [groupByKey]
      simp only [List.unattach_filter, List.unattach_attach] at ih
      exact ih.cons

/-- Non-empty groups of equivalent keys, each with smaller keys than the groups
before it. -/
structure Descending (order : KeyOrder κ) (groups : List (List (κ × ν))) : Prop where
  nonempty : ∀ g ∈ groups, g ≠ []
  uniform : ∀ g ∈ groups, ∀ p ∈ g, ∀ q ∈ g, order.equiv p.1 q.1 = true
  decreasing : groups.Pairwise fun g g' => ∀ p ∈ g, ∀ q ∈ g', order.lt q.1 p.1 = true

namespace Descending

variable {order : KeyOrder κ} {groups : List (List (κ × ν))} {g : List (κ × ν)}

/-- No groups are in descending order. -/
theorem nil : Descending order ([] : List (List (κ × ν))) :=
  ⟨by simp, by simp, List.Pairwise.nil⟩

/-- Without its first group the list is still descending. -/
theorem tail (h : Descending order (g :: groups)) : Descending order groups :=
  ⟨fun g' hg => h.nonempty g' (List.mem_cons_of_mem g hg),
    fun g' hg => h.uniform g' (List.mem_cons_of_mem g hg), (List.pairwise_cons.mp h.decreasing).2⟩

/-- A group of one key, below every group before it, may go to the end. -/
theorem snoc (h : Descending order groups) (hne : g ≠ [])
    (huniform : ∀ p ∈ g, ∀ q ∈ g, order.equiv p.1 q.1 = true)
    (hbelow : ∀ g' ∈ groups, ∀ p ∈ g', ∀ q ∈ g, order.lt q.1 p.1 = true) :
    Descending order (groups ++ [g]) := by
  constructor
  · intro g' hg
    rcases List.mem_append.mp hg with hg | hg
    · exact h.nonempty g' hg
    · exact (List.mem_singleton.mp hg) ▸ hne
  · intro g' hg
    rcases List.mem_append.mp hg with hg | hg
    · exact h.uniform g' hg
    · exact (List.mem_singleton.mp hg) ▸ huniform
  · apply List.pairwise_append.mpr
    refine ⟨h.decreasing, List.pairwise_singleton _ _, fun g' hg g'' hg'' => ?_⟩
    exact (List.mem_singleton.mp hg'') ▸ hbelow g' hg

/-- No pair of a later group is equivalent to a pair of the first. -/
theorem not_equiv_of_head (h : Descending order (g :: groups)) {p q : κ × ν} (hp : p ∈ g)
    (hq : q ∈ groups.flatten) : order.equiv p.1 q.1 = false := by
  obtain ⟨g', hg, hq⟩ := List.mem_flatten.mp hq
  have hlt := (List.pairwise_cons.mp h.decreasing).1 g' hg p hp q hq
  by_contra heq
  have hnot := (order.equiv_iff.mp (by simpa using heq)).2
  simp [hnot] at hlt

/-- The pairs of all groups that are equivalent to a pair of `g` are those of `g`. -/
theorem filter_flatten (h : Descending order groups) (hg : g ∈ groups) {p : κ × ν} (hp : p ∈ g) :
    groups.flatten.filter (fun q => order.equiv p.1 q.1) = g := by
  induction groups with
  | nil => cases hg
  | cons first rest ih =>
      rw [List.flatten_cons, List.filter_append]
      rcases List.mem_cons.mp hg with rfl | hg
      · have hfirst : g.filter (fun q => order.equiv p.1 q.1) = g :=
          List.filter_eq_self.mpr fun q hq => h.uniform g hg p hp q hq
        have hrest : rest.flatten.filter (fun q => order.equiv p.1 q.1) = [] :=
          List.filter_eq_nil_iff.mpr fun q hq => by simp [h.not_equiv_of_head hp hq]
        rw [hfirst, hrest, List.append_nil]
      · have hfirst : first.filter (fun q => order.equiv p.1 q.1) = [] := by
          apply List.filter_eq_nil_iff.mpr
          intro q hq heq
          have hnot := h.not_equiv_of_head hq (List.mem_flatten_of_mem hg hp)
          simp [KeyOrder.equiv_symm heq] at hnot
        rw [hfirst, List.nil_append, ih h.tail hg]

/-- A pair that occurs in descending groups has its key in exactly one of
them. -/
theorem countP_eq_one (h : Descending order groups) {p : κ × ν} (hp : p ∈ groups.flatten) :
    groups.countP (fun g => g.any fun q => order.equiv p.1 q.1) = 1 := by
  induction groups with
  | nil => cases hp
  | cons first rest ih =>
      rw [List.countP_cons]
      rw [List.flatten_cons] at hp
      rcases List.mem_append.mp hp with hp | hp
      · have hfirst : (first.any fun q => order.equiv p.1 q.1) = true :=
          List.any_eq_true.mpr ⟨p, hp, KeyOrder.equiv_refl p.1⟩
        have hrest : rest.countP (fun g => g.any fun q => order.equiv p.1 q.1) = 0 := by
          apply List.countP_eq_zero.mpr
          intro g' hg hany
          obtain ⟨q, hq, heq⟩ := List.any_eq_true.mp hany
          have hnot := h.not_equiv_of_head hp (List.mem_flatten_of_mem hg hq)
          simp [heq] at hnot
        rw [hrest, hfirst, if_pos rfl]
      · have hfirst : (first.any fun q => order.equiv p.1 q.1) = false := by
          apply List.any_eq_false.mpr
          intro q hq heq
          have hnot := h.not_equiv_of_head hq hp
          simp [KeyOrder.equiv_symm heq] at hnot
        rw [hfirst, ih h.tail hp]
        rfl

/-- **Descending groups are the classes.** -/
theorem groupedByKey (h : Descending order groups) :
    GroupedByKey order groups.flatten groups := by
  refine ⟨fun p hp => h.countP_eq_one hp, fun g hg => ?_⟩
  obtain ⟨p, hp⟩ := List.exists_mem_of_ne_nil g (h.nonempty g hg)
  refine ⟨p, List.mem_flatten_of_mem hg hp, ?_⟩
  rw [h.filter_flatten hg hp]

end Descending

end Grouping
