import Mathlib.Data.List.Basic
import Mathlib.Data.List.TakeWhile

/-!
# Words between separators

The words of a list are its maximal runs without a separator.  Putting lists
next to each other with a separator behind each joins their words; the other way
round, the words of a list with one fixed separator behind each are the list with
a separator behind it only if the words stood exactly one separator apart, and it
was that one.

The reason is a count: the words never take more room than the list did, so that
nothing that one list loses is made up for by another.
-/

namespace Words

variable {α : Type*} {p : α → Bool} {sep a : α} {w l : List α} {ws xs : List (List α)}

/-- The maximal runs without a separator. -/
def words (p : α → Bool) (l : List α) : List (List α) :=
  (l.splitOnP p).filter fun w => !w.isEmpty

/-- A run of at least one element without a separator. -/
def IsWord (p : α → Bool) (w : List α) : Prop := w ≠ [] ∧ ∀ a ∈ w, p a = false

/-- The lists with `sep` behind each. -/
def terminated (sep : α) (xs : List (List α)) : List α := xs.flatMap (· ++ [sep])

/-- At least one word, with `sep` and nothing else between two words. -/
def SingleSpaced (p : α → Bool) (sep : α) (l : List α) : Prop :=
  ∃ ws, ws ≠ [] ∧ (∀ w ∈ ws, IsWord p w) ∧ l = [sep].intercalate ws

/-- The first word and what follows it, after the separators in front. -/
def nextWord (p : α → Bool) (l : List α) : Option (List α × List α) :=
  match l.dropWhile p with
  | [] => none
  | a :: l => some ((a :: l).takeWhile (!p ·), (a :: l).dropWhile (!p ·))

/-! ## The words of a list -/

@[simp] theorem words_nil (p : α → Bool) : words p [] = [] := rfl

/-- A separator ends the words on its left. -/
theorem words_append_sep (hsep : p sep = true) (l r : List α) :
    words p (l ++ sep :: r) = words p l ++ words p r := by
  unfold words
  rw [List.splitOnP_append_cons l r hsep, List.filter_append]

/-- A separator in front does not change the words. -/
theorem words_cons_sep (hsep : p sep = true) (l : List α) : words p (sep :: l) = words p l :=
  words_append_sep hsep [] l

/-- A word is its own only word. -/
theorem words_eq_singleton (hw : IsWord p w) : words p w = [w] := by
  have hne : (!w.isEmpty) = true := by simpa using hw.1
  unfold words
  rw [List.splitOnP_eq_singleton hw.2]
  exact List.filter_cons_of_pos hne

/-- A list is cut at its first separator, and the rest is shorter. -/
theorem cut_induction {P : List α → Prop} (free : ∀ w, (∀ a ∈ w, p a = false) → P w)
    (cut : ∀ w s r, (∀ a ∈ w, p a = false) → p s = true → P r → P (w ++ s :: r)) (l : List α) :
    P l := by
  have hcut : ∀ w, (∀ a ∈ w, p a = false) → P (w ++ l) := by
    induction l with
    | nil =>
        intro w hw
        rw [List.append_nil]
        exact free w hw
    | cons a l ih =>
        intro w hw
        cases ha : p a with
        | true => exact cut w a l hw ha (ih [] (by simp))
        | false =>
            have hnext := ih (w ++ [a]) fun b hb => by
              rcases List.mem_append.mp hb with hb | hb
              · exact hw b hb
              · exact (List.mem_singleton.mp hb) ▸ ha
            rwa [List.append_assoc] at hnext
  exact hcut [] (by simp)

/-- A run without a separator is a word or empty. -/
theorem words_of_free (hw : ∀ a ∈ w, p a = false) : words p w = if w = [] then [] else [w] := by
  by_cases hnil : w = []
  · rw [if_pos hnil, hnil, words_nil]
  · rw [if_neg hnil]
    exact words_eq_singleton ⟨hnil, hw⟩

/-- Every element of `words` is a word: it is not empty and has no separator
in it. -/
theorem isWord_of_mem_words (hmem : w ∈ words p l) : IsWord p w := by
  induction l using cut_induction (p := p) with
  | free v hv =>
      rw [words_of_free hv] at hmem
      split at hmem
      · exact absurd hmem List.not_mem_nil
      · rename_i hnil
        obtain rfl := List.mem_singleton.mp hmem
        exact ⟨hnil, hv⟩
  | cut v s r hv hs ih =>
      rw [words_append_sep hs, words_of_free hv] at hmem
      split at hmem
      · exact ih hmem
      · rename_i hnil
        rcases List.mem_cons.mp hmem with rfl | hmem
        · exact ⟨hnil, hv⟩
        · exact ih hmem

/-! ## Reading word by word -/

/-- Reading a word skips a separator. -/
theorem nextWord_cons_sep (ha : p a = true) (l : List α) : nextWord p (a :: l) = nextWord p l := by
  unfold nextWord
  rw [List.dropWhile_cons_of_pos ha]

/-- At the start of a word, it is read up to the next separator. -/
theorem nextWord_cons (ha : p a = false) (l : List α) : nextWord p (a :: l) =
    some ((a :: l).takeWhile (!p ·), (a :: l).dropWhile (!p ·)) := by
  have hdrop : (a :: l).dropWhile p = a :: l := List.dropWhile_cons_of_neg (by simp [ha])
  unfold nextWord
  rw [hdrop]

/-- The words of a list are those of the run in front and those behind it. -/
theorem words_takeWhile (p : α → Bool) (l : List α) :
    words p l = words p (l.takeWhile (!p ·)) ++ words p (l.dropWhile (!p ·)) := by
  induction l using cut_induction (p := p) with
  | free w hw =>
      have htake : w.takeWhile (!p ·) = w :=
        List.takeWhile_eq_self_iff.mpr fun a ha => by simp [hw a ha]
      have hdrop : w.dropWhile (!p ·) = [] :=
        List.dropWhile_eq_nil_iff.mpr fun a ha => by simp [hw a ha]
      rw [htake, hdrop, words_nil, List.append_nil]
  | cut w s r hw hs _ =>
      have hfree : ∀ a ∈ w, (!p a) = true := fun a ha => by simp [hw a ha]
      have htake : (w ++ s :: r).takeWhile (!p ·) = w := by
        rw [List.takeWhile_append_of_pos hfree, List.takeWhile_cons_of_neg (by simp [hs]),
          List.append_nil]
      have hdrop : (w ++ s :: r).dropWhile (!p ·) = s :: r := by
        rw [List.dropWhile_append_of_pos hfree, List.dropWhile_cons_of_neg (by simp [hs])]
      rw [htake, hdrop, words_append_sep hs, words_cons_sep hs]

/-- Reading the next word takes the first of the words, and makes the list
shorter. -/
theorem nextWord_spec (p : α → Bool) (l : List α) :
    (nextWord p l = none ∧ words p l = []) ∨
      ∃ w r, nextWord p l = some (w, r) ∧ words p l = w :: words p r ∧ r.length < l.length := by
  induction l with
  | nil => exact Or.inl ⟨rfl, rfl⟩
  | cons a l ih =>
      cases ha : p a with
      | true =>
          rw [nextWord_cons_sep ha, words_cons_sep ha]
          rcases ih with hnone | ⟨w, r, hnext, hwords, hlt⟩
          · exact Or.inl hnone
          · exact Or.inr ⟨w, r, hnext, hwords, Nat.lt_succ_of_lt hlt⟩
      | false =>
          right
          refine ⟨_, _, nextWord_cons ha l, ?_, ?_⟩
          · have hword : IsWord p ((a :: l).takeWhile (!p ·)) := by
              refine ⟨by simp [ha], fun b hb => ?_⟩
              have hfree := List.mem_takeWhile_imp hb
              simpa using hfree
            rw [words_takeWhile p (a :: l), words_eq_singleton hword]
            rfl
          · rw [List.dropWhile_cons_of_pos (by simp [ha]), List.length_cons]
            exact Nat.lt_succ_of_le (List.length_dropWhile_le _ l)

/-! ## Lists with a separator behind each -/

@[simp] theorem terminated_nil (sep : α) : terminated sep [] = [] := rfl

@[simp] theorem terminated_cons (sep : α) (l : List α) (xs : List (List α)) :
    terminated sep (l :: xs) = l ++ sep :: terminated sep xs := by
  simp [terminated]

/-- Terminated lists that follow each other are one terminated list. -/
theorem terminated_append (sep : α) (xs ys : List (List α)) :
    terminated sep (xs ++ ys) = terminated sep xs ++ terminated sep ys :=
  List.flatMap_append

/-- The separators keep the words of the lists apart. -/
theorem words_terminated (hsep : p sep = true) (xs : List (List α)) :
    words p (terminated sep xs) = xs.flatMap (words p) := by
  induction xs with
  | nil => rfl
  | cons l xs ih => rw [terminated_cons, words_append_sep hsep, ih, List.flatMap_cons]

/-- Words with a separator behind each are read back. -/
theorem words_terminated_words (hsep : p sep = true) (hws : ∀ w ∈ ws, IsWord p w) :
    words p (terminated sep ws) = ws := by
  rw [words_terminated hsep]
  induction ws with
  | nil => rfl
  | cons w ws ih =>
      rw [List.flatMap_cons, words_eq_singleton (hws w List.mem_cons_self),
        ih fun v hv => hws v (List.mem_cons_of_mem w hv)]
      rfl

/-- Terminating every list puts the separator between them, and one at the
end. -/
theorem terminated_eq_intercalate (sep : α) (hws : ws ≠ []) :
    terminated sep ws = [sep].intercalate ws ++ [sep] := by
  induction ws with
  | nil => exact absurd rfl hws
  | cons w ws ih =>
      cases ws with
      | nil => simp
      | cons v ws =>
          rw [terminated_cons, ih (List.cons_ne_nil v ws), List.intercalate_cons_cons]
          simp

/-- The words take no more room than the list. -/
theorem length_terminated_words (sep : α) (p : α → Bool) (l : List α) :
    (terminated sep (words p l)).length ≤ l.length + 1 := by
  have hfree : ∀ {w : List α}, (∀ a ∈ w, p a = false) →
      (terminated sep (words p w)).length ≤ w.length + 1 := by
    intro w hw
    rw [words_of_free hw]
    split
    · exact Nat.zero_le _
    · simp
  induction l using cut_induction (p := p) with
  | free w hw => exact hfree hw
  | cut w s r hw hs ih =>
      have hfront := hfree hw
      rw [words_append_sep hs, terminated_append, List.length_append, List.length_append,
        List.length_cons]
      omega

/-- The words of a list with `sep` behind each are the list exactly if it is
single-spaced. -/
theorem singleSpaced_iff (hsep : p sep = true) :
    SingleSpaced p sep l ↔ terminated sep (words p l) = l ++ [sep] := by
  constructor
  · intro hsingle
    obtain ⟨ws, hne, hws, rfl⟩ := hsingle
    have hends := terminated_eq_intercalate sep hne
    have hwords := words_terminated_words hsep hws
    rw [hends, words_append_sep hsep, words_nil, List.append_nil] at hwords
    rw [hwords, hends]
  · intro heq
    have hne : words p l ≠ [] := by
      intro hnil
      rw [hnil, terminated_nil] at heq
      exact absurd heq.symm (by simp)
    refine ⟨words p l, hne, fun w hw => isWord_of_mem_words hw, ?_⟩
    rw [terminated_eq_intercalate sep hne] at heq
    exact (List.append_cancel_right heq).symm

/-- Two concatenations are equal part by part if no part of the one is longer. -/
theorem flatMap_eq_flatMap_iff {β : Type*} {f g : β → List α} {ys : List β}
    (hle : ∀ y ∈ ys, (f y).length ≤ (g y).length) :
    ys.flatMap f = ys.flatMap g ↔ ∀ y ∈ ys, f y = g y := by
  have hlength : ∀ zs ⊆ ys, (zs.flatMap f).length ≤ (zs.flatMap g).length := by
    intro zs hzs
    induction zs with
    | nil => exact Nat.le_refl _
    | cons z zs ih =>
        have hz := hle z (hzs List.mem_cons_self)
        have hrest := ih (List.subset_of_cons_subset hzs)
        rw [List.flatMap_cons, List.flatMap_cons, List.length_append, List.length_append]
        omega
  constructor
  · intro heq
    induction ys with
    | nil => simp
    | cons y ys ih =>
        have hy := hle y List.mem_cons_self
        have hrest := hlength ys (List.subset_cons_self y ys)
        have hsum := congrArg List.length heq
        rw [List.flatMap_cons, List.flatMap_cons] at heq hsum
        rw [List.length_append, List.length_append] at hsum
        obtain ⟨hfront, hback⟩ := List.append_inj heq (by omega)
        have hys := ih (fun z hz => hle z (List.mem_cons_of_mem y hz))
          (fun zs hzs => hlength zs (List.subset_cons_of_subset y hzs)) hback
        intro z hz
        rcases List.mem_cons.mp hz with rfl | hz
        · exact hfront
        · exact hys z hz
  · intro heq
    exact List.flatMap_congr heq

/-- **Taking lists apart into words and putting the words together** loses
nothing exactly if every list is single-spaced. -/
theorem terminated_words_iff (hsep : p sep = true) (xs : List (List α)) :
    terminated sep (xs.flatMap (words p)) = terminated sep xs ↔ ∀ l ∈ xs, SingleSpaced p sep l := by
  have hregroup : terminated sep (xs.flatMap (words p)) =
      xs.flatMap fun l => terminated sep (words p l) := List.flatMap_assoc
  have hle : ∀ l ∈ xs, (terminated sep (words p l)).length ≤ (l ++ [sep]).length := by
    intro l _
    simpa using length_terminated_words sep p l
  rw [hregroup]
  refine (flatMap_eq_flatMap_iff hle).trans (forall₂_congr fun l _ => ?_)
  exact (singleSpaced_iff hsep).symm

end Words
