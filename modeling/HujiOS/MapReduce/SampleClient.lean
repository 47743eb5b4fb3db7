import HujiOS.MachineInt
import HujiOS.MapReduce.CallsReturn

/-!
# The sample client

`CounterClient` counts characters: `map` fills an array of counts for one string
and emits the counts that are not zero, `reduce` adds up the counts of one
character.  `char` is signed, as `KChar::operator<` compares it.
-/

namespace MapReduce

open Grouping MachineInt Runs

namespace CounterClient

/-- `std::array<int, 256>`. -/
abbrev Counts := Fin 256 → Int

/-- `KChar(i)` for an index of the array. -/
def kchar (i : Fin 256) : Int8 := (UInt8.ofFin i).toInt8

/-- `(unsigned char) c`. -/
def slot (c : Int8) : Fin 256 := c.toUInt8.toFin

/-- `counts[(unsigned char) c]++`. -/
def countChar (counts : Counts) (c : Int8) : Counts :=
  Function.update counts (slot c) (toInt32 (counts (slot c) + 1))

/-- `CounterClient::map`: one pair for each character that occurs, with its
count. -/
def map (content : List Int8) : List (Int8 × Int) :=
  let counts := content.foldl countChar fun _ => 0
  (List.finRange 256).filterMap fun i =>
    if counts i = 0 then none else some (kchar i, counts i)

/-- `pairs->at(0)` throws on an empty vector. -/
def reduce : List (Int8 × Int) → List (Int8 × Int)
  | [] => []
  | pair :: pairs => [(pair.1, (pair :: pairs).foldl (fun count p => toInt32 (count + p.2)) 0)]

end CounterClient

/-- `KChar::operator<`. -/
def kcharOrder : KeyOrder Int8 where
  lt a b := decide (a < b)
  irrefl a := by simp [Int8.lt_irrefl]
  trans a b c := by simpa using Int8.lt_trans
  incomp_trans a b c := by
    simp only [decide_eq_false_iff_not, Int8.not_lt]
    exact fun hba hab hcb hbc => ⟨Int8.le_trans hcb hba, Int8.le_trans hab hbc⟩

/-- Characters that neither exceed each other are equal. -/
theorem kcharOrder_linear : kcharOrder.Linear := by
  intro a b h
  obtain ⟨hab, hba⟩ := kcharOrder.equiv_iff.mp h
  simp only [kcharOrder, decide_eq_false_iff_not, Int8.not_lt] at hab hba
  exact Int8.le_antisymm hba hab

/-- The client on some strings, with null pointers as keys. -/
def counterJob (contents : List (List Int8)) (stdSort : SortRoutine kcharOrder Int) (n : Nat)
    (hn : 0 < n) : Job Unit (List Int8) Int8 Int Int8 Int where
  client :=
    { map := fun _ value => CounterClient.map value
      reduce := CounterClient.reduce }
  order := kcharOrder
  stdSort := stdSort
  inputVec := contents.map fun content => ((), content)
  numOfThreads := n
  numOfThreads_pos := hn

namespace CounterClient

/-- A character is found back from its index. -/
@[simp] theorem kchar_slot (c : Int8) : kchar (slot c) = c := rfl

/-- An index is found back from its character. -/
@[simp] theorem slot_kchar (i : Fin 256) : slot (kchar i) = i := rfl

/-- Different characters are counted in different places. -/
theorem slot_eq_iff {c d : Int8} : slot c = slot d ↔ c = d := by
  constructor
  · intro h
    rw [← kchar_slot c, h, kchar_slot]
  · exact congrArg slot

/-! ## One string -/

/-- The array holds the numbers of occurrences, as long as they fit an `int`. -/
theorem foldl_countChar (content : List Int8) (counts : Counts) (hlo : ∀ i, 0 ≤ counts i)
    (hhi : ∀ i, counts i + content.length ≤ intMax) (c : Int8) :
    content.foldl countChar counts (slot c) = counts (slot c) + content.count c := by
  induction content generalizing counts with
  | nil => simp
  | cons d rest ih =>
      have hlen : ((d :: rest).length : Int) = rest.length + 1 := by simp
      rw [hlen] at hhi
      have hfits : toInt32 (counts (slot d) + 1) = counts (slot d) + 1 := by
        have hlow := hlo (slot d)
        have hhigh := hhi (slot d)
        apply toInt32_of_range
        · unfold intMin
          omega
        · omega
      have hstep : countChar counts d = Function.update counts (slot d) (counts (slot d) + 1) := by
        rw [← hfits]
        rfl
      have hvalue : ∀ i, countChar counts d i = counts i + if i = slot d then 1 else 0 := by
        intro i
        rw [hstep, Function.update_apply]
        split
        · next heq => rw [heq]
        · simp
      rw [List.foldl_cons, ih (countChar counts d), hvalue, List.count_cons]
      · by_cases heq : c = d
        · subst heq
          simp
          omega
        · have hne : slot c ≠ slot d := mt slot_eq_iff.mp heq
          simp [hne, Ne.symm heq]
      · intro i
        have hlow := hlo i
        rw [hvalue]
        split <;> omega
      · intro i
        have hhigh := hhi i
        rw [hvalue]
        split <;> omega

/-- What `map` emits on a string: its characters with their numbers. -/
theorem map_eq {content : List Int8} (hlen : (content.length : Int) ≤ intMax) :
    map content = (List.finRange 256).filterMap fun i =>
      if content.count (kchar i) = 0 then none
      else some (kchar i, (content.count (kchar i) : Int)) := by
  unfold map
  apply List.filterMap_congr
  intro i _
  have hcount := foldl_countChar content (fun _ => 0) (fun _ => le_rfl) (by simpa using hlen)
    (kchar i)
  rw [slot_kchar, zero_add] at hcount
  simp only [hcount, Nat.cast_eq_zero]

/-- The counts that are emitted for one character. -/
def total (c : Int8) (pairs : List (Int8 × Int)) : Int :=
  ((pairs.filter fun p => p.1 = c).map Prod.snd).sum

/-- What is counted over two lists is counted over each. -/
theorem total_append (c : Int8) (left right : List (Int8 × Int)) :
    total c (left ++ right) = total c left + total c right := by
  simp [total]

/-- `map` emits exactly the characters that occur, with their counts, as long
as these fit an `int`. -/
theorem mem_map {content : List Int8} (hlen : (content.length : Int) ≤ intMax)
    {p : Int8 × Int} : p ∈ map content ↔ p.1 ∈ content ∧ p.2 = content.count p.1 := by
  rw [map_eq hlen, List.mem_filterMap]
  constructor
  · intro h
    obtain ⟨i, _, hi⟩ := h
    split at hi
    · cases hi
    · next hne =>
        obtain rfl := Option.some.inj hi
        exact ⟨List.count_pos_iff.mp (Nat.pos_of_ne_zero hne), rfl⟩
  · intro h
    have hpos := List.count_pos_iff.mpr h.1
    refine ⟨slot p.1, List.mem_finRange _, ?_⟩
    rw [kchar_slot, if_neg hpos.ne', ← h.2]

/-- One index of the loop holds the character. -/
theorem total_filterMap (c : Int8) (f : Fin 256 → Int) (is : List (Fin 256)) :
    total c (is.filterMap fun i => if f i = 0 then none else some (kchar i, f i)) =
      (is.map fun i => if i = slot c then f i else 0).sum := by
  induction is with
  | nil => rfl
  | cons i rest ih =>
      have hslot : kchar i = c ↔ i = slot c := by
        rw [← slot_eq_iff, slot_kchar]
      rw [List.filterMap_cons, List.map_cons, List.sum_cons, ← ih]
      by_cases hzero : f i = 0
      · simp [hzero]
      · by_cases heq : i = slot c
        · subst heq
          simp [hzero, total]
        · simp [hzero, total, mt hslot.mp heq, heq]

/-- What `map` emits for a character adds up to its count. -/
theorem total_map {content : List Int8} (hlen : (content.length : Int) ≤ intMax) (c : Int8) :
    total c (map content) = content.count c := by
  have hmap : map content = (List.finRange 256).filterMap fun i =>
      if (content.count (kchar i) : Int) = 0 then none
      else some (kchar i, (content.count (kchar i) : Int)) := by
    simpa using map_eq hlen
  rw [hmap, total_filterMap c fun i => (content.count (kchar i) : Int), ← Fin.sum_univ_def,
    Finset.sum_ite_eq' Finset.univ, if_pos (Finset.mem_univ _), kchar_slot]

/-! ## All strings -/

/-- What is emitted over all strings for a character adds up to its count in
all of them. -/
theorem total_flatMap {contents : List (List Int8)}
    (hlen : (contents.flatten.length : Int) ≤ intMax) (c : Int8) :
    total c (contents.flatMap map) = contents.flatten.count c := by
  induction contents with
  | nil => rfl
  | cons content rest ih =>
      rw [List.flatten_cons, List.length_append, Nat.cast_add] at hlen
      rw [List.flatMap_cons, total_append, total_map (by omega), ih (by omega), List.flatten_cons,
        List.count_append, Nat.cast_add]

/-- Every pair emitted over all strings has a character of theirs, and a count
that is not negative. -/
theorem mem_flatMap {contents : List (List Int8)}
    (hlen : (contents.flatten.length : Int) ≤ intMax) {p : Int8 × Int}
    (hp : p ∈ contents.flatMap map) : p.1 ∈ contents.flatten ∧ 0 ≤ p.2 := by
  obtain ⟨content, hcontent, hp⟩ := List.mem_flatMap.mp hp
  have hle := (List.sublist_flatten_of_mem hcontent).length_le
  obtain ⟨hmem, hcount⟩ := (mem_map (by omega)).mp hp
  exact ⟨List.mem_flatten_of_mem hcontent hmem, by omega⟩

/-- Every character is emitted. -/
theorem exists_mem_flatMap {contents : List (List Int8)}
    (hlen : (contents.flatten.length : Int) ≤ intMax) {c : Int8} (hc : c ∈ contents.flatten) :
    ∃ p ∈ contents.flatMap map, p.1 = c := by
  obtain ⟨content, hcontent, hmem⟩ := List.mem_flatten.mp hc
  have hle := (List.sublist_flatten_of_mem hcontent).length_le
  refine ⟨(c, content.count c), List.mem_flatMap.mpr ⟨content, hcontent, ?_⟩, rfl⟩
  exact (mem_map (by omega)).mpr ⟨hmem, rfl⟩

/-- Adding up does not overflow as long as the sum fits. -/
theorem foldl_toInt32 (pairs : List (Int8 × Int)) {start : Int} (hstart : 0 ≤ start)
    (hpos : ∀ p ∈ pairs, 0 ≤ p.2) (hle : start + (pairs.map Prod.snd).sum ≤ intMax) :
    pairs.foldl (fun count p => toInt32 (count + p.2)) start =
      start + (pairs.map Prod.snd).sum := by
  induction pairs generalizing start with
  | nil => simp
  | cons p rest ih =>
      have hp := hpos p List.mem_cons_self
      have hrest : ∀ q ∈ rest, 0 ≤ q.2 := fun q hq => hpos q (List.mem_cons_of_mem p hq)
      have hsum : 0 ≤ (rest.map Prod.snd).sum :=
        List.sum_nonneg fun x hx => by
          obtain ⟨q, hq, rfl⟩ := List.mem_map.mp hx
          exact hrest q hq
      rw [List.map_cons, List.sum_cons] at hle ⊢
      have hfits : toInt32 (start + p.2) = start + p.2 := by
        apply toInt32_of_range
        · unfold intMin
          omega
        · omega
      rw [List.foldl_cons, hfits, ih (by omega) hrest (by omega)]
      omega

/-- `reduce` on the pairs of one character. -/
theorem reduce_class {contents : List (List Int8)}
    (hlen : (contents.flatten.length : Int) ≤ intMax) {p : Int8 × Int}
    (hp : p ∈ contents.flatMap map) {g : List (Int8 × Int)}
    (hg : g.Perm ((contents.flatMap map).filter fun q => kcharOrder.equiv p.1 q.1)) :
    reduce g = [(p.1, (contents.flatten.count p.1 : Int))] := by
  have hkey := kcharOrder_linear.groupKey_eq hp hg
  have hsum : (g.map Prod.snd).sum = contents.flatten.count p.1 := by
    rw [← total_flatMap hlen, (hg.map Prod.snd).sum_eq, total]
    congr 3
    funext q
    have hiff : kcharOrder.equiv p.1 q.1 = true ↔ q.1 = p.1 :=
      ⟨fun h => (kcharOrder_linear _ _ h).symm, fun h => h ▸ KeyOrder.equiv_refl _⟩
    rw [Bool.eq_iff_iff, hiff, decide_eq_true_eq]
  have hpos : ∀ q ∈ g, 0 ≤ q.2 := fun q hq =>
    (mem_flatMap hlen (List.mem_filter.mp (hg.mem_iff.mp hq)).1).2
  have hle : contents.flatten.count p.1 ≤ contents.flatten.length := List.count_le_length
  have hadd := foldl_toInt32 g le_rfl hpos (by omega)
  cases g with
  | nil => cases hkey
  | cons q rest =>
      have hq : q.1 = p.1 := Option.some.inj hkey
      rw [reduce, hadd, hq, hsum, zero_add]

/-- For an index of the array its character is emitted, or nothing. -/
theorem slot_of_emitted {counts : Counts} {i : Fin 256} {p : Int8 × Int}
    (hp : p ∈ if counts i = 0 then none else some (kchar i, counts i)) : slot p.1 = i := by
  split at hp
  · cases hp
  · rw [← Option.some.inj hp, slot_kchar]

/-- No character is emitted twice for a string. -/
theorem length_map_le {content : List Int8} (hlen : (content.length : Int) ≤ intMax) :
    (map content).length ≤ content.length := by
  have hnodup : ((map content).map Prod.fst).Nodup := by
    unfold map
    rw [List.map_filterMap]
    refine (List.nodup_finRange 256).filterMap fun i k c hi hk => ?_
    rw [Option.mem_map] at hi hk
    obtain ⟨p, hp, rfl⟩ := hi
    obtain ⟨q, hq, heq⟩ := hk
    rw [← slot_of_emitted hp, ← heq, slot_of_emitted hq]
  have hsubset : (map content).map Prod.fst ⊆ content := by
    intro c hc
    obtain ⟨p, hp, rfl⟩ := List.mem_map.mp hc
    exact ((mem_map hlen).mp hp).1
  have hle := (hnodup.subperm hsubset).length_le
  rwa [List.length_map] at hle

/-- No more pairs are emitted than there are characters. -/
theorem length_flatMap_le {contents : List (List Int8)}
    (hlen : (contents.flatten.length : Int) ≤ intMax) :
    (contents.flatMap map).length ≤ contents.flatten.length := by
  induction contents with
  | nil => exact le_rfl
  | cons content rest ih =>
      rw [List.flatten_cons, List.length_append, Nat.cast_add] at hlen
      rw [List.flatMap_cons, List.flatten_cons, List.length_append, List.length_append]
      exact Nat.add_le_add (length_map_le (by omega)) (ih (by omega))

section Emitted

variable {contents : List (List Int8)} {stdSort : SortRoutine kcharOrder Int} {n : Nat}
  {hn : 0 < n}

/-- The job emits what `map` emits on its strings. -/
theorem emitted_eq : (counterJob contents stdSort n hn).emitted = contents.flatMap map := by
  simp [Job.emitted, counterJob, List.flatMap_map]

/-- Strings that an `int` can count emit fewer than `2 ^ 32` pairs. -/
theorem emitted_lt (hlen : (contents.flatten.length : Int) ≤ intMax) :
    (counterJob contents stdSort n hn).emitted.length < 2 ^ 32 := by
  have hle := length_flatMap_le hlen
  rw [emitted_eq]
  unfold intMax at hlen
  omega

/-- Something is emitted exactly if there is a character. -/
theorem emitted_pos (hlen : (contents.flatten.length : Int) ≤ intMax) :
    0 < (counterJob contents stdSort n hn).emitted.length ↔ contents.flatten ≠ [] := by
  rw [emitted_eq, List.length_pos_iff_ne_nil]
  refine not_congr ⟨fun hnil => ?_, fun hnil => ?_⟩
  · refine List.eq_nil_iff_forall_not_mem.mpr fun c hc => ?_
    obtain ⟨p, hp, _⟩ := exists_mem_flatMap hlen hc
    simp [hnil] at hp
  · refine List.eq_nil_iff_forall_not_mem.mpr fun p hp => ?_
    have hmem := (mem_flatMap hlen hp).1
    simp [hnil] at hmem

end Emitted

/-- The output of a job that has run correctly. -/
theorem counts_of_correct {contents : List (List Int8)} {stdSort : SortRoutine kcharOrder Int}
    {n : Nat} {hn : 0 < n} (hlen : (contents.flatten.length : Int) ≤ intMax)
    {job : JobContext (counterJob contents stdSort n hn)} (hcorrect : job.Correct) :
    job.outputVec.Perm
      (contents.flatten.dedup.map fun c => (c, (contents.flatten.count c : Int))) := by
  have hgroups := hcorrect.reduced
  rw [emitted_eq] at hgroups
  have hkeys : (((contents.flatMap map).map Prod.fst).dedup).Perm contents.flatten.dedup := by
    refine (List.perm_ext_iff_of_nodup (List.nodup_dedup _) (List.nodup_dedup _)).mpr fun c => ?_
    rw [List.mem_dedup, List.mem_dedup, List.mem_map]
    constructor
    · intro hc
      obtain ⟨p, hp, rfl⟩ := hc
      exact (mem_flatMap hlen hp).1
    · exact exists_mem_flatMap hlen
  have hresults := hgroups.flatMap_keys kcharOrder_linear
    (F := fun c => [(c, (contents.flatten.count c : Int))])
    fun p hp g hg => reduce_class hlen hp hg
  rw [List.map_eq_flatMap]
  exact hcorrect.output.trans (hresults.trans (hkeys.flatMap_right _))

end CounterClient

open CounterClient

/-- Insertion sort by character. -/
def kcharSort : SortRoutine kcharOrder Int where
  sort v := v.insertionSort fun p q => p.1 ≤ q.1
  perm v := List.perm_insertionSort _ v
  sorted v := by
    let le := fun p q : Int8 × Int => p.1 ≤ q.1
    have : Std.Total le := ⟨fun p q => Int8.le_total p.1 q.1⟩
    have : IsTrans (Int8 × Int) le := ⟨fun _ _ _ => Int8.le_trans⟩
    have hsorted := List.pairwise_insertionSort le v
    exact hsorted.imp fun h => by simpa [kcharOrder, Int8.not_lt] using h

/-- One thread on two strings. -/
def abcJob : Job Unit (List Int8) Int8 Int Int8 Int :=
  counterJob [[97, 98, 97], [98]] kcharSort 1 Nat.one_pos

end MapReduce
