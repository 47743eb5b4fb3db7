import Mathlib.Data.Finset.Card
import Mathlib.Data.List.Infix
import Mathlib.Data.List.Range

/-!
# Trees of pointers

Nodes refer to their children through numbered slots, as the frames of a page
table or the cells of a radix tree do.  Only the slots are stored, so that the
nodes form a tree is a property of the whole memory: `IsTree` says that no node
is reached along two paths.  The file computes what linking and unlinking one
slot does to every walk, and lists the nodes in the order of a depth-first
search.

Walks are bounded by a depth.  What lies below it is data, whatever its words
look like.
-/

namespace PointerTree

variable {ν : Type*} {child child' : ν → Nat → Option ν} {root f g h : ν} {p q r : List Nat}
  {depth i j : Nat}

/-- The node reached from `root` by taking the slots of `path` in turn. -/
def walk (child : ν → Nat → Option ν) (root : ν) (path : List Nat) : Option ν :=
  path.foldlM child root

@[simp] theorem walk_nil (child : ν → Nat → Option ν) (root : ν) :
    walk child root [] = some root := rfl

/-- A walk takes its first index at the root and goes on from the child. -/
theorem walk_cons (child : ν → Nat → Option ν) (root : ν) (i : Nat) (p : List Nat) :
    walk child root (i :: p) = (child root i).bind fun f => walk child f p := rfl

/-- A walk along two paths is the second walk from the end of the first. -/
theorem walk_append (child : ν → Nat → Option ν) (root : ν) (p q : List Nat) :
    walk child root (p ++ q) = (walk child root p).bind fun f => walk child f q := by
  simp [walk, List.foldlM_append]

/-- The last index of a path is taken at the end of the walk before it. -/
theorem walk_snoc (child : ν → Nat → Option ν) (root : ν) (p : List Nat) (i : Nat) :
    walk child root (p ++ [i]) = (walk child root p).bind fun f => child f i := by
  rw [walk_append]
  cases walk child root p with
  | none => rfl
  | some f => simp [walk]

/-- A walk arrives exactly if the one without its last index does, at a node
with that child. -/
theorem walk_snoc_eq_some :
    walk child root (p ++ [i]) = some g ↔ ∃ f, walk child root p = some f ∧ child f i = some g := by
  rw [walk_snoc, Option.bind_eq_some_iff]

/-- A walk that arrives passes every prefix of its path. -/
theorem walk_prefix (hpre : p <+: q) (hq : walk child root q = some g) :
    ∃ f, walk child root p = some f := by
  obtain ⟨t, rfl⟩ := hpre
  rw [walk_append] at hq
  obtain ⟨f, hf, _⟩ := Option.bind_eq_some_iff.mp hq
  exact ⟨f, hf⟩

/-- The slots on a path are slots that exist. -/
theorem walk_slots {arity : Nat} (hbound : ∀ f i g, child f i = some g → i < arity)
    (hp : walk child root p = some f) : ∀ i ∈ p, i < arity := by
  induction p generalizing root with
  | nil => simp
  | cons j p ih =>
      rw [walk_cons] at hp
      obtain ⟨g, hg, hrest⟩ := Option.bind_eq_some_iff.mp hp
      intro i hi
      rcases List.mem_cons.mp hi with rfl | hmem
      · exact hbound _ _ _ hg
      · exact ih hrest i hmem

/-- No node within `depth` slots of the root is reached along two paths. -/
def IsTree (child : ν → Nat → Option ν) (root : ν) (depth : Nat) : Prop :=
  ∀ p q f, p.length ≤ depth → q.length ≤ depth →
    walk child root p = some f → walk child root q = some f → p = q

/-- Two tables of which one has the other's slot table up to the depth bound
have the same walks. -/
theorem walk_congr
    (hsame : ∀ p f, p.length < depth → walk child root p = some f → ∀ i, child' f i = child f i)
    (hq : q.length ≤ depth) : walk child' root q = walk child root q := by
  induction q using List.reverseRecOn with
  | nil => rfl
  | append_singleton q i ih =>
      have hlt : q.length < depth := by simpa [Nat.succ_le_iff] using hq
      rw [walk_snoc, walk_snoc, ih hlt.le]
      cases hw : walk child root q with
      | none => rfl
      | some f => exact hsame q f hlt hw i

/-- The walks of a tree that are still walks elsewhere form a tree there. -/
theorem IsTree.mono (htree : IsTree child root depth)
    (hsub : ∀ p f, p.length ≤ depth → walk child' root p = some f → walk child root p = some f) :
    IsTree child' root depth :=
  fun p q f hp hq hwp hwq => htree p q f hp hq (hsub p f hp hwp) (hsub q f hq hwq)

/-! ## Changing one slot -/

section SetChild

variable [DecidableEq ν]

/-- The slots after slot `i` of node `f` was overwritten. -/
def setChild (child : ν → Nat → Option ν) (f : ν) (i : Nat) (c : Option ν) : ν → Nat → Option ν :=
  fun g j => if g = f ∧ j = i then c else child g j

@[simp] theorem setChild_self (child : ν → Nat → Option ν) (f : ν) (i : Nat) (c : Option ν) :
    setChild child f i c f i = c := by
  simp [setChild]

/-- Every other link stays as it was. -/
theorem setChild_of_ne {c : Option ν} (hne : ¬ (g = f ∧ j = i)) :
    setChild child f i c g j = child g j := by
  simp [setChild, hne]

/-- **Unlinking.**  Clearing the slot `i` of the node at `r` cuts off the paths
through `r ++ [i]` and no other. -/
theorem walk_unlink (htree : IsTree child root depth) (hf : walk child root r = some f)
    (hr : r.length < depth) (hq : q.length ≤ depth) :
    walk (setChild child f i none) root q =
      if r ++ [i] <+: q then none else walk child root q := by
  induction q using List.reverseRecOn with
  | nil => simp
  | append_singleton q j ih =>
      have hlt : q.length < depth := by simpa [Nat.succ_le_iff] using hq
      rw [walk_snoc, ih hlt.le]
      by_cases hcut : r ++ [i] <+: q
      · have hcut' : r ++ [i] <+: q ++ [j] := hcut.trans (List.prefix_append q [j])
        simp [hcut, hcut']
      · rw [if_neg hcut, walk_snoc]
        cases hw : walk child root q with
        | none => simp
        | some g =>
            by_cases hslot : g = f ∧ j = i
            · obtain ⟨rfl, rfl⟩ := hslot
              have hpath : q = r := htree q r g hlt.le hr.le hw hf
              simp [hpath]
            · have hkeep : ¬ r ++ [i] <+: q ++ [j] := by
                intro hpre
                rcases List.prefix_concat_iff.mp hpre with heq | hpre
                · obtain ⟨hrq, hij⟩ := List.append_inj' heq rfl
                  subst hrq
                  exact hslot ⟨Option.some.inj (hw.symm.trans hf), by simpa using hij.symm⟩
                · exact hcut hpre
              rw [if_neg hkeep]
              exact setChild_of_ne hslot

/-- **Linking.**  Writing a node `g` that is in no walk into an empty slot of
the node at `r` adds the path `r ++ [i]` and no other. -/
theorem walk_link (htree : IsTree child root depth) (hf : walk child root r = some f)
    (hr : r.length < depth) (hempty : child f i = none)
    (hfresh : ∀ p, p.length ≤ depth → walk child root p ≠ some g)
    (hbare : r.length + 1 < depth → ∀ j, child g j = none) (hq : q.length ≤ depth) :
    walk (setChild child f i (some g)) root q =
      if q = r ++ [i] then some g else walk child root q := by
  induction q using List.reverseRecOn with
  | nil => simp
  | append_singleton q j ih =>
      have hlt : q.length < depth := by simpa [Nat.succ_le_iff] using hq
      rw [walk_snoc, ih hlt.le]
      by_cases hnew : q = r ++ [i]
      · subst hnew
        have hgf : g ≠ f := fun heq => hfresh r hr.le (heq ▸ hf)
        have hdeep : r.length + 1 < depth := by simpa using hlt
        have hold : walk child root (r ++ [i]) = none := by simp [walk_snoc, hf, hempty]
        rw [if_pos rfl, if_neg (by simp), walk_snoc, hold]
        simp [setChild_of_ne (show ¬ (g = f ∧ j = i) from fun hs => hgf hs.1), hbare hdeep]
      · rw [if_neg hnew, walk_snoc]
        cases hw : walk child root q with
        | none =>
            have hne : q ++ [j] ≠ r ++ [i] := by
              intro heq
              have hqr := (List.append_inj' heq rfl).1
              rw [hqr, hf] at hw
              cases hw
            simp [hne]
        | some x =>
            by_cases hslot : x = f ∧ j = i
            · obtain ⟨rfl, rfl⟩ := hslot
              have hpath : q = r := htree q r x hlt.le hr.le hw hf
              simp [hpath]
            · have hne : q ++ [j] ≠ r ++ [i] := by
                intro heq
                obtain ⟨hqr, hij⟩ := List.append_inj' heq rfl
                subst hqr
                exact hslot ⟨Option.some.inj (hw.symm.trans hf), by simpa using hij⟩
              rw [if_neg hne]
              exact setChild_of_ne hslot

/-- Linking a node that no walk reaches, and that has no children where it
could have any, under an empty index keeps the tree. -/
theorem IsTree.link (htree : IsTree child root depth) (hf : walk child root r = some f)
    (hr : r.length < depth) (hempty : child f i = none)
    (hfresh : ∀ p, p.length ≤ depth → walk child root p ≠ some g)
    (hbare : r.length + 1 < depth → ∀ j, child g j = none) :
    IsTree (setChild child f i (some g)) root depth := by
  intro p q x hp hq hwp hwq
  rw [walk_link htree hf hr hempty hfresh hbare hp] at hwp
  rw [walk_link htree hf hr hempty hfresh hbare hq] at hwq
  split at hwp <;> split at hwq
  · next hp' hq' => exact hp'.trans hq'.symm
  · cases hwp
    exact absurd hwq (hfresh q hq)
  · cases hwq
    exact absurd hwp (hfresh p hp)
  · exact htree p q x hp hq hwp hwq

end SetChild

/-! ## Reaching the bottom -/

/-- Below any node there is a node at full depth or one without children. -/
theorem exists_leaf_or_childless (hp : p.length ≤ depth) (hw : walk child root p = some f) :
    (∃ q g, p <+: q ∧ q.length = depth ∧ walk child root q = some g) ∨
      ∃ q g, p <+: q ∧ q.length < depth ∧ walk child root q = some g ∧
        ∀ i, child g i = none := by
  obtain ⟨k, hk⟩ : ∃ k, depth = p.length + k := ⟨depth - p.length, by omega⟩
  induction k generalizing p f with
  | zero => exact Or.inl ⟨p, f, List.prefix_refl p, by omega, hw⟩
  | succ k ih =>
      by_cases hbare : ∀ i, child f i = none
      · exact Or.inr ⟨p, f, List.prefix_refl p, by omega, hw, hbare⟩
      · push Not at hbare
        obtain ⟨i, hi⟩ := hbare
        obtain ⟨g, hg⟩ := Option.ne_none_iff_exists'.mp hi
        have hstep : walk child root (p ++ [i]) = some g := by simp [walk_snoc, hw, hg]
        have hpre := List.prefix_append p [i]
        have hlen : depth = (p ++ [i]).length + k := by
          simp only [List.length_append, List.length_singleton]
          omega
        rcases ih (by omega) hstep hlen with
            ⟨q, x, hq, hrest⟩ | ⟨q, x, hq, hrest⟩
        · exact Or.inl ⟨q, x, hpre.trans hq, hrest⟩
        · exact Or.inr ⟨q, x, hpre.trans hq, hrest⟩

/-- Nodes that all lie on one path are at most as many as its prefixes. -/
theorem card_le_of_on_path [DecidableEq ν] (s : Finset ν) (p : List Nat)
    (hs : ∀ f ∈ s, ∃ q, q <+: p ∧ walk child root q = some f) : s.card ≤ p.length + 1 := by
  have hsub : s.map Function.Embedding.some ⊆
      (Finset.range (p.length + 1)).image fun k => walk child root (p.take k) := by
    intro o ho
    obtain ⟨f, hf, rfl⟩ := Finset.mem_map.mp ho
    obtain ⟨q, hq, hw⟩ := hs f hf
    refine Finset.mem_image.mpr ⟨q.length, ?_, ?_⟩
    · exact Finset.mem_range.mpr (Nat.lt_succ_of_le hq.length_le)
    · rw [← List.prefix_iff_eq_take.mp hq]
      exact hw
  have hcard := (Finset.card_le_card hsub).trans Finset.card_image_le
  rwa [Finset.card_map, Finset.card_range] at hcard

/-- The nodes on a path of a tree are all different. -/
theorem IsTree.length_lt_card (htree : IsTree child root depth) (hp : p.length ≤ depth)
    (hw : walk child root p = some f) (s : Finset ν)
    (hs : ∀ q x, q <+: p → walk child root q = some x → x ∈ s) : p.length < s.card := by
  choose frames hframes using fun k => walk_prefix (List.take_prefix k p) hw
  have hcard := Finset.card_le_card_of_injOn (s := Finset.range (p.length + 1)) (t := s) frames
    (fun k _ => hs _ _ (List.take_prefix k p) (hframes k)) (by
      intro k hk l hl heq
      have hshort : ∀ n, (p.take n).length ≤ depth := fun n =>
        (List.take_prefix n p).length_le.trans hp
      have hpaths := htree _ _ _ (hshort k) (hshort l) (hframes k) (heq ▸ hframes l)
      have hlen := congrArg List.length hpaths
      have hk' := Finset.mem_range.mp (Finset.mem_coe.mp hk)
      have hl' := Finset.mem_range.mp (Finset.mem_coe.mp hl)
      rw [List.length_take, List.length_take] at hlen
      omega)
  rwa [Finset.card_range] at hcard

/-! ## Depth-first search -/

variable (child) (arity : Nat)

/-- The nodes `levels` slots below `f`, each with its path, where `f` itself is
at `pre`. -/
def leaves : Nat → ν → List Nat → List (List Nat × ν)
  | 0, f, pre => [(pre, f)]
  | levels + 1, f, pre => (List.range arity).flatMap fun i =>
      (child f i).elim [] fun g => leaves levels g (pre ++ [i])

/-- The nodes less than `levels` slots below `f`, each after those under it. -/
def tables : Nat → ν → List Nat → List (List Nat × ν)
  | 0, _, _ => []
  | levels + 1, f, pre => ((List.range arity).flatMap fun i =>
      (child f i).elim [] fun g => tables levels g (pre ++ [i])) ++ [(pre, f)]

/-- The nodes below `f` down to `levels` slots, each before those under it. -/
def descendants : Nat → ν → List ν
  | 0, _ => []
  | levels + 1, f => (List.range arity).flatMap fun i =>
      (child f i).elim [] fun g => g :: descendants levels g

variable {child arity}

variable (hbound : ∀ f i g, child f i = some g → i < arity)
include hbound

/-- The leaves are the ends of the walks of full length. -/
theorem mem_leaves {levels : Nat} {f : ν} {pre : List Nat} {x : List Nat × ν} :
    x ∈ leaves child arity levels f pre ↔
      ∃ q, q.length = levels ∧ x.1 = pre ++ q ∧ walk child f q = some x.2 := by
  induction levels generalizing f pre with
  | zero =>
      obtain ⟨path, g⟩ := x
      simp [leaves, List.length_eq_zero_iff, eq_comm]
  | succ levels ih =>
      simp only [leaves, List.mem_flatMap, List.mem_range]
      constructor
      · rintro ⟨i, _, hx⟩
        cases hg : child f i with
        | none => simp [hg] at hx
        | some g =>
            rw [hg, Option.elim_some] at hx
            obtain ⟨q, hlen, hpath, hw⟩ := ih.mp hx
            exact ⟨i :: q, by simp [hlen], by simp [hpath], by simp [walk_cons, hg, hw]⟩
      · rintro ⟨q, hlen, hpath, hw⟩
        obtain ⟨i, q, rfl⟩ := List.exists_cons_of_length_eq_add_one hlen
        rw [walk_cons] at hw
        obtain ⟨g, hg, hw⟩ := Option.bind_eq_some_iff.mp hw
        refine ⟨i, hbound _ _ _ hg, ?_⟩
        simp only [hg, Option.elim_some]
        exact ih.mpr ⟨q, by simpa using hlen, by simp [hpath], hw⟩

/-- The leaves come in the order of their paths, for any order in which the
first slot that differs decides. -/
theorem leaves_pairwise {R : List Nat → List Nat → Prop}
    (hR : ∀ p i j q r, i < j → q.length = r.length → (∀ k ∈ q, k < arity) →
      R (p ++ i :: q) (p ++ j :: r)) (levels : Nat) (f : ν) (pre : List Nat) :
    (leaves child arity levels f pre).Pairwise fun x y => R x.1 y.1 := by
  induction levels generalizing f pre with
  | zero => exact List.pairwise_singleton _ _
  | succ levels ih =>
      refine List.pairwise_flatMap.mpr ⟨fun i _ => ?_, ?_⟩
      · cases child f i with
        | none => exact List.Pairwise.nil
        | some g => exact ih g (pre ++ [i])
      · refine List.pairwise_lt_range.imp fun {i j} hij x hx y hy => ?_
        cases hi : child f i with
        | none => simp [hi] at hx
        | some g =>
            cases hj : child f j with
            | none => simp [hj] at hy
            | some g' =>
                rw [hi, Option.elim_some] at hx
                rw [hj, Option.elim_some] at hy
                obtain ⟨q, hq, hpathx, hw⟩ := (mem_leaves hbound).mp hx
                obtain ⟨r, hr, hpathy, _⟩ := (mem_leaves hbound).mp hy
                rw [hpathx, hpathy, ← List.append_cons, ← List.append_cons]
                exact hR pre i j q r hij (hq.trans hr.symm) (walk_slots hbound hw)

/-- The tables are the ends of the walks that stop above the leaves. -/
theorem mem_tables {levels : Nat} {f : ν} {pre : List Nat} {x : List Nat × ν} :
    x ∈ tables child arity levels f pre ↔
      ∃ q, q.length < levels ∧ x.1 = pre ++ q ∧ walk child f q = some x.2 := by
  induction levels generalizing f pre with
  | zero => simp [tables]
  | succ levels ih =>
      simp only [tables, List.mem_append, List.mem_flatMap, List.mem_range, List.mem_singleton]
      constructor
      · rintro (⟨i, _, hx⟩ | rfl)
        · cases hg : child f i with
          | none => simp [hg] at hx
          | some g =>
              rw [hg, Option.elim_some] at hx
              obtain ⟨q, hlen, hpath, hw⟩ := ih.mp hx
              exact ⟨i :: q, by simp [hlen], by simp [hpath], by simp [walk_cons, hg, hw]⟩
        · exact ⟨[], by simp, by simp, rfl⟩
      · rintro ⟨q, hlen, hpath, hw⟩
        cases q with
        | nil =>
            right
            exact Prod.ext (by simpa using hpath) (by simpa using hw.symm)
        | cons i q =>
            left
            rw [walk_cons] at hw
            obtain ⟨g, hg, hw⟩ := Option.bind_eq_some_iff.mp hw
            refine ⟨i, hbound _ _ _ hg, ?_⟩
            simp only [hg, Option.elim_some]
            exact ih.mpr ⟨q, by simpa using hlen, by simp [hpath], hw⟩

/-- The descendants are the ends of the walks that are not empty. -/
theorem mem_descendants {levels : Nat} {f x : ν} :
    x ∈ descendants child arity levels f ↔
      ∃ q, 0 < q.length ∧ q.length ≤ levels ∧ walk child f q = some x := by
  induction levels generalizing f with
  | zero =>
      simp only [descendants, List.not_mem_nil, false_iff]
      rintro ⟨q, hpos, hle, _⟩
      omega
  | succ levels ih =>
      simp only [descendants, List.mem_flatMap, List.mem_range]
      constructor
      · rintro ⟨i, _, hx⟩
        cases hg : child f i with
        | none => simp [hg] at hx
        | some g =>
            rw [hg, Option.elim_some] at hx
            rcases List.mem_cons.mp hx with rfl | hx
            · exact ⟨[i], by simp, by simp, by simp [walk_cons, hg]⟩
            · obtain ⟨q, _, hle, hw⟩ := ih.mp hx
              exact ⟨i :: q, by simp, by simp [hle], by simp [walk_cons, hg, hw]⟩
      · rintro ⟨q, hpos, hle, hw⟩
        cases q with
        | nil => simp at hpos
        | cons i q =>
            rw [walk_cons] at hw
            obtain ⟨g, hg, hw⟩ := Option.bind_eq_some_iff.mp hw
            refine ⟨i, hbound _ _ _ hg, ?_⟩
            simp only [hg, Option.elim_some]
            cases q with
            | nil =>
                have hxg : g = x := by simpa using hw
                simp [hxg]
            | cons j q =>
                have hmem := ih.mpr ⟨j :: q, by simp, by simpa using hle, hw⟩
                exact List.mem_cons_of_mem _ hmem

end PointerTree
