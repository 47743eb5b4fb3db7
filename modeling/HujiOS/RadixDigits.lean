import Mathlib.Data.Nat.Digits.Lemmas

/-!
# Fixed-length digit lists

A number below `b ^ n` is the same thing as a list of `n` digits in base `b`.
The most significant digit stands first here, since that is the order in which
a radix tree is walked; `Nat.digits` has it last and drops leading zeros.
-/

namespace RadixDigits

/-- Horner's rule, most significant digit first. -/
def ofDigits (b : Nat) (ds : List Nat) : Nat :=
  ds.foldl (fun acc d => acc * b + d) 0

/-- Digit number `d` of the `n` digits of `p`, counted from the most
significant one. -/
def digit (b n p d : Nat) : Nat := p / b ^ (n - d - 1) % b

/-- The `n` digits of `p`. -/
def digits (b n p : Nat) : List Nat := (List.range n).map (digit b n p)

variable {b n p : Nat} {ds es : List Nat}

@[simp] theorem ofDigits_nil (b : Nat) : ofDigits b [] = 0 := rfl

/-- A last digit shifts the number and is added to it. -/
@[simp] theorem ofDigits_snoc (b : Nat) (ds : List Nat) (d : Nat) :
    ofDigits b (ds ++ [d]) = ofDigits b ds * b + d := by
  simp [ofDigits]

@[simp] theorem length_digits (b n p : Nat) : (digits b n p).length = n := by
  simp [digits]

/-- A digit is below the base. -/
theorem digit_lt (hb : 0 < b) (n p d : Nat) : digit b n p d < b := Nat.mod_lt _ hb

/-- All digits are below the base. -/
theorem digits_lt (hb : 0 < b) (n p : Nat) : ∀ d ∈ digits b n p, d < b := by
  intro d hd
  obtain ⟨k, _, rfl⟩ := List.mem_map.mp hd
  exact digit_lt hb n p k

/-- The list of the digits holds digit `d` at index `d`. -/
theorem getElem_digits (d : Nat) (hd : d < (digits b n p).length) :
    (digits b n p)[d] = digit b n p d := by
  simp [digits]

/-- A prefix of the digits grows by the next digit. -/
theorem take_succ_digits {d : Nat} (hd : d < n) :
    (digits b n p).take (d + 1) = (digits b n p).take d ++ [digit b n p d] := by
  have hlen : d < (digits b n p).length := by simpa using hd
  rw [List.take_succ_eq_append_getElem hlen, getElem_digits]

/-- The last digit is the remainder, the others are the digits of the
quotient. -/
theorem digits_succ (b n p : Nat) : digits b (n + 1) p = digits b n (p / b) ++ [p % b] := by
  have hfront :
      (List.range n).map (digit b (n + 1) p) = (List.range n).map (digit b n (p / b)) := by
    apply List.map_congr_left
    intro d hd
    have hlt := List.mem_range.mp hd
    obtain ⟨e, rfl⟩ : ∃ e, n = d + 1 + e := ⟨n - (d + 1), by omega⟩
    unfold digit
    rw [show d + 1 + e + 1 - d - 1 = e + 1 by omega, show d + 1 + e - d - 1 = e by omega,
      Nat.pow_succ', ← Nat.div_div_eq_div_mul]
  unfold digits
  rw [List.range_succ, List.map_append, hfront]
  simp [digit]

/-- The digits of a number below `b ^ n` give it back. -/
theorem ofDigits_digits (hp : p < b ^ n) : ofDigits b (digits b n p) = p := by
  induction n generalizing p with
  | zero =>
      have hzero : p = 0 := by simpa using hp
      simp [digits, hzero]
  | succ n ih =>
      have hquot : p / b < b ^ n := Nat.div_lt_of_lt_mul (by rwa [← Nat.pow_succ'])
      rw [digits_succ, ofDigits_snoc, ih hquot]
      exact Nat.div_add_mod' p b

/-- The most significant digit comes first, against `Nat.ofDigits`. -/
theorem ofDigits_eq_reverse (b : Nat) (ds : List Nat) :
    ofDigits b ds = Nat.ofDigits b ds.reverse := by
  induction ds using List.reverseRecOn with
  | nil => rfl
  | append_singleton ds d ih =>
      rw [ofDigits_snoc, List.reverse_append, List.reverse_singleton, List.singleton_append,
        Nat.ofDigits_cons, ih]
      ring

/-- A number of `n` digits is below the `n`-th power of the base. -/
theorem ofDigits_lt (hb : 1 < b) (hds : ∀ d ∈ ds, d < b) : ofDigits b ds < b ^ ds.length := by
  rw [ofDigits_eq_reverse]
  have hlt := Nat.ofDigits_lt_base_pow_length (l := ds.reverse) hb
    (fun d hd => hds d (List.mem_reverse.mp hd))
  simpa using hlt

/-- Digits written after others shift the number of the first ones. -/
theorem ofDigits_append (b : Nat) (ds es : List Nat) :
    ofDigits b (ds ++ es) = ofDigits b ds * b ^ es.length + ofDigits b es := by
  induction es using List.reverseRecOn with
  | nil => simp
  | append_singleton es e ih =>
      rw [← List.append_assoc, ofDigits_snoc, ih, ofDigits_snoc, List.length_append,
        List.length_singleton, Nat.pow_succ]
      ring

/-- The first digit that differs decides. -/
theorem ofDigits_lt_of_digit_lt {i j : Nat} (hb : 1 < b) (hij : i < j)
    (hlen : ds.length = es.length) (hds : ∀ d ∈ ds, d < b) (ps : List Nat) :
    ofDigits b (ps ++ i :: ds) < ofDigits b (ps ++ j :: es) := by
  have hsplit : ∀ k (ts : List Nat), ofDigits b (ps ++ k :: ts) =
      (ofDigits b ps * b + k) * b ^ ts.length + ofDigits b ts := by
    intro k ts
    rw [List.append_cons, ofDigits_append, ofDigits_snoc]
  rw [hsplit, hsplit, hlen]
  calc (ofDigits b ps * b + i) * b ^ es.length + ofDigits b ds
      < (ofDigits b ps * b + i) * b ^ es.length + b ^ es.length :=
        Nat.add_lt_add_left (hlen ▸ ofDigits_lt hb hds) _
    _ = (ofDigits b ps * b + i + 1) * b ^ es.length := by ring
    _ ≤ (ofDigits b ps * b + j) * b ^ es.length :=
        Nat.mul_le_mul_right _ (Nat.add_lt_add_left hij _)
    _ ≤ (ofDigits b ps * b + j) * b ^ es.length + ofDigits b es := Nat.le_add_right _ _

/-- Digit lists of one length are determined by their number. -/
theorem ofDigits_inj (hb : 1 < b) (hlen : ds.length = es.length) (hds : ∀ d ∈ ds, d < b)
    (hes : ∀ d ∈ es, d < b) (heq : ofDigits b ds = ofDigits b es) : ds = es := by
  rw [ofDigits_eq_reverse, ofDigits_eq_reverse] at heq
  have hrev := Nat.ofDigits_inj_of_len_eq hb (by simpa using hlen)
    (fun d hd => hds d (List.mem_reverse.mp hd)) (fun d hd => hes d (List.mem_reverse.mp hd)) heq
  exact List.reverse_injective hrev

/-- A digit list is recovered from its number. -/
theorem digits_ofDigits (hb : 1 < b) (hds : ∀ d ∈ ds, d < b) :
    digits b ds.length (ofDigits b ds) = ds := by
  refine ofDigits_inj hb (length_digits _ _ _) (digits_lt (by omega) _ _) hds ?_
  exact ofDigits_digits (ofDigits_lt hb hds)

end RadixDigits
