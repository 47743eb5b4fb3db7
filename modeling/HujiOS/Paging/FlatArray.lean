import HujiOS.Paging.Translation

/-!
# Virtual memory is a flat array

A program that uses the interface should not notice the tables, the evictions
and the swap file: it sees one array of words.  The words of a page that was
never accessed are not specified, so the abstract memory is a partial one, and
`FlatStep` says what a call may do to it.  `storedWord` abstracts a memory to
it, one call is shown to refine one step, and a run lemma gives what a read
returns in terms of the calls before it.
-/

namespace Paging

open Runs

/-! ## The abstract memory -/

/-- A word is known once its page has been accessed. -/
abbrev FlatMemory := Nat → Option Int

/-- Two addresses are on one page. -/
def SamePage (c : MemoryConstants) (a b : Nat) : Prop :=
  fetchPageAddress c a = fetchPageAddress c b

/-- What a call may do to the flat memory: an address out of range does
nothing; otherwise the words of the page become known, a write sets its word,
and no other known word changes. -/
structure FlatStep (c : MemoryConstants) (s : FlatMemory) (access : Access) (t : FlatMemory) :
    Prop where
  out_of_range : c.virtualMemorySize ≤ access.virtualAddress → t = s
  known : ∀ a, access.virtualAddress < c.virtualMemorySize →
    SamePage c access.virtualAddress a → t a ≠ none
  written : ∀ a value, access = .write a value → a < c.virtualMemorySize → t a = some value
  kept : ∀ a word, s a = some word → (∀ value, access ≠ .write a value) → t a = some word

/-- The word that a memory stores for a virtual address: in the frame of its
page, else in the swap file. -/
def storedWord (c : MemoryConstants) (m : PhysicalMemory) (a : Nat) : Option Int :=
  if a < c.virtualMemorySize then
    (pageContent c m (fetchPageAddress c a)).map fun words => words (fetchOffset c a)
  else none

/-- The value of the last write to an address. -/
def lastWrite (a : Nat) (accesses : List Access) : Option Int :=
  accesses.foldl (fun last access =>
    match access with
    | .read _ _ => last
    | .write b value => if b = a then some value else last) none

theorem lastWrite_snoc (a : Nat) (accesses : List Access) (access : Access) :
    lastWrite a (accesses ++ [access]) =
      match access with
      | .read _ _ => lastWrite a accesses
      | .write b value => if b = a then some value else lastWrite a accesses := by
  simp only [lastWrite, List.foldl_append, List.foldl_cons, List.foldl_nil]

/-- Without a last write there is no write at all. -/
theorem lastWrite_eq_none {a : Nat} {accesses : List Access} (h : lastWrite a accesses = none) :
    ∀ access ∈ accesses, ∀ value, access ≠ .write a value := by
  induction accesses using List.reverseRecOn with
  | nil => simp
  | append_singleton accesses last ih =>
      rw [lastWrite_snoc] at h
      intro access hmem value
      cases last with
      | read b v =>
          rcases List.mem_append.mp hmem with hmem | hmem
          · exact ih h access hmem value
          · rw [List.mem_singleton.mp hmem]
            exact Access.noConfusion
      | write b v =>
          by_cases hb : b = a
          · simp [hb] at h
          · have hrest : lastWrite a accesses = none := by simpa [hb] using h
            rcases List.mem_append.mp hmem with hmem | hmem
            · exact ih hrest access hmem value
            · rw [List.mem_singleton.mp hmem]
              intro heq
              exact hb (Access.write.inj heq).1

/-! ## One call -/

variable {c : MemoryConstants} {m m' : PhysicalMemory} {top a : Nat}

theorem samePage_lt {b : Nat} (ha : a < c.virtualMemorySize) (hsame : SamePage c a b) :
    b < c.virtualMemorySize := by
  have hpage := fetchPageAddress_lt c ha
  rw [show fetchPageAddress c a = fetchPageAddress c b from hsame, fetchPageAddress_eq,
    Nat.div_lt_iff_lt_mul c.pageSize_pos] at hpage
  exact hpage.trans_le (Nat.div_mul_le_self _ _)

/-- The stored word of a resident page is in its frame. -/
theorem storedWord_resident {f : Nat} (ha : a < c.virtualMemorySize)
    (hf : frameOf c m (fetchPageAddress c a) = some f) :
    storedWord c m a = some (m.ram f (fetchOffset c a)) := by
  rw [storedWord, if_pos ha, pageContent_resident hf, Option.map_some]

/-- A translation keeps every known word. -/
theorem Translated.storedWord {m₀ : PhysicalMemory} {top₀ page f : Nat} {word : Int}
    (h : Translated c m₀ top₀ page f m top) (hword : storedWord c m₀ a = some word) :
    Paging.storedWord c m a = some word := by
  unfold Paging.storedWord at hword ⊢
  split at hword
  · next ha =>
      rw [if_pos ha]
      have hpage := fetchPageAddress_lt c ha
      by_cases heq : fetchPageAddress c a = page
      · obtain ⟨words, hwords, hval⟩ := Option.map_eq_some_iff.mp hword
        rw [heq] at hwords ⊢
        rw [pageContent_resident h.frame, h.content words hwords, Option.map_some, hval]
      · rw [h.others _ hpage heq]
        exact hword
  · cases hword

/-- The words of the page just translated are known. -/
theorem Translated.known {m₀ : PhysicalMemory} {top₀ f b : Nat}
    (h : Translated c m₀ top₀ (fetchPageAddress c b) f m top) (hb : b < c.virtualMemorySize)
    (hsame : SamePage c b a) : Paging.storedWord c m a = some (m.ram f (fetchOffset c a)) := by
  have hframe := h.frame
  rw [show fetchPageAddress c b = fetchPageAddress c a from hsame] at hframe
  exact storedWord_resident (samePage_lt hb hsame) hframe

/-- A store into the page just translated changes one word of the flat
memory. -/
theorem Translated.storedWord_store {m₀ : PhysicalMemory} {top₀ f b : Nat}
    (h : Translated c m₀ top₀ (fetchPageAddress c b) f m top) (hb : b < c.virtualMemorySize)
    (value : Int) (a : Nat) :
    Paging.storedWord c (m.store f (fetchOffset c b) value) a =
      if a = b then some value else Paging.storedWord c m a := by
  obtain ⟨_, hpages⟩ := h.store (fetchOffset c b) value
  by_cases hsame : SamePage c b a
  · have hframe := (hpages (fetchPageAddress c b)).trans h.frame
    rw [show fetchPageAddress c b = fetchPageAddress c a from hsame] at hframe
    rw [storedWord_resident (samePage_lt hb hsame) hframe, h.known hb hsame]
    by_cases hab : a = b
    · simp [PhysicalMemory.store, hab]
    · have hoff : fetchOffset c a ≠ fetchOffset c b := by
        intro hoff
        have hpage : b / c.pageSize = a / c.pageSize := by
          simpa [SamePage, fetchPageAddress_eq] using hsame
        rw [fetchOffset_eq, fetchOffset_eq] at hoff
        apply hab
        rw [← Nat.div_add_mod a c.pageSize, ← Nat.div_add_mod b c.pageSize, hpage, hoff]
      simp [PhysicalMemory.store, hab, hoff]
  · have hab : a ≠ b := by
      rintro rfl
      exact hsame rfl
    rw [if_neg hab]
    unfold Paging.storedWord
    by_cases ha : a < c.virtualMemorySize
    · rw [if_pos ha, if_pos ha, pageContent_congr (hpages _) _ rfl]
      intro y hy
      have hyf : y ≠ f := by
        rintro rfl
        exact hsame (h.inv.frameOf_inj (fetchPageAddress_lt c ha) (fetchPageAddress_lt c hb) hy
          h.frame).symm
      funext j
      simp [PhysicalMemory.store, hyf]
    · rw [if_neg ha, if_neg ha]

/-- **Refinement.**  A call on the physical memory is a step of the flat
memory. -/
theorem next_flatStep (h : Inv c m top) {access : Access} (hnext : next c m access = some m') :
    FlatStep c (storedWord c m) access (storedWord c m') := by
  rcases next_cases h access with ⟨hout, hrun⟩ | ⟨b, value, f, m₁, top', rfl, hb, hdone, hrun⟩ |
      ⟨b, value, f, m₁, top', rfl, hb, hdone, hrun⟩
  · obtain rfl : m = m' := Option.some.inj (hrun.symm.trans hnext)
    refine ⟨fun _ => rfl, fun _ hlt => absurd hlt (not_lt.mpr hout), ?_, fun _ _ hword _ => hword⟩
    rintro b value rfl hlt
    exact absurd hlt (not_lt.mpr hout)
  · obtain rfl : m₁ = m' := Option.some.inj (hrun.symm.trans hnext)
    refine ⟨fun hout => absurd hb (not_lt.mpr hout), ?_, ?_, ?_⟩
    · intro a _ hsame
      rw [hdone.known hb hsame]
      exact Option.some_ne_none _
    · intro a v heq
      cases heq
    · intro a word hword _
      exact hdone.storedWord hword
  · obtain rfl : m₁.store f (fetchOffset c b) value = m' :=
      Option.some.inj (hrun.symm.trans hnext)
    refine ⟨fun hout => absurd hb (not_lt.mpr hout), ?_, ?_, ?_⟩
    · intro a _ hsame
      rw [hdone.storedWord_store hb, hdone.known hb hsame]
      split <;> exact Option.some_ne_none _
    · intro a v heq _
      obtain ⟨rfl, rfl⟩ := Access.write.inj heq
      rw [hdone.storedWord_store hb]
      exact if_pos rfl
    · intro a word hword hne
      have hab : a ≠ b := by
        rintro rfl
        exact hne value rfl
      rw [hdone.storedWord_store hb, if_neg hab]
      exact hdone.storedWord hword

/-- A read returns the word of the flat memory, as it is after the call. -/
theorem vmRead_storedWord (h : Inv c m top) (ha : a < c.virtualMemorySize) (value : Int) :
    ∃ word m', vmRead c m a value = .ok (1, word, m') ∧
      next c m (.read a value) = some m' ∧ storedWord c m' a = some word := by
  obtain ⟨f, m', top', hdone, hrun⟩ := vmRead_spec h ha value
  exact ⟨_, m', hrun, by simp [next, hrun, Except.toOption], hdone.known ha rfl⟩

/-! ## Runs -/

/-- A known word stays along a run without a write to its address. -/
theorem run_kept {accesses : List Access} {word : Int} (h : Inv c m top)
    (hrun : run (next c) m accesses = some m') (hword : storedWord c m a = some word)
    (hnone : ∀ access ∈ accesses, ∀ value, access ≠ .write a value) :
    storedWord c m' a = some word := by
  have hboth : (∃ top', Inv c m' top') ∧ storedWord c m' a = some word := by
    refine run_invariant (fun x => (∃ top', Inv c x top') ∧ storedWord c x a = some word)
      (fun access => ∀ value, access ≠ .write a value) ?_ hnone ⟨⟨top, h⟩, hword⟩ hrun
    rintro x access y hne ⟨⟨top', hx⟩, hw⟩ hnext
    refine ⟨hx.reaches ⟨[access], run_singleton hnext⟩ |>.imp fun _ hy => hy.1, ?_⟩
    exact (next_flatStep hx hnext).kept a word hw hne
  exact hboth.2

/-- After a run an address holds what was written to it last. -/
theorem run_lastWrite {accesses : List Access} {word : Int} (h : Inv c m top)
    (hrun : run (next c) m accesses = some m') (ha : a < c.virtualMemorySize)
    (hlast : lastWrite a accesses = some word) : storedWord c m' a = some word := by
  induction accesses using List.reverseRecOn generalizing m' with
  | nil => cases hlast
  | append_singleton accesses access ih =>
      obtain ⟨x, hx, hstep⟩ := run_split hrun
      obtain ⟨top', hinv, _⟩ := h.reaches ⟨accesses, hx⟩
      have hnext : next c x access = some m' := by simpa using hstep
      have hflat := next_flatStep hinv hnext
      rw [lastWrite_snoc] at hlast
      cases access with
      | read b value =>
          exact hflat.kept a word (ih hx hlast) fun _ => Access.noConfusion
      | write b value =>
          by_cases hb : b = a
          · subst hb
            obtain rfl : value = word := by simpa using hlast
            exact hflat.written b value rfl ha
          · have hrest : lastWrite a accesses = some word := by simpa [hb] using hlast
            exact hflat.kept a word (ih hx hrest) fun v heq => hb (Access.write.inj heq).1

/-- The words of a page that was accessed in a run are known after it. -/
theorem run_known {accesses : List Access} {access : Access} (h : Inv c m top)
    (hrun : run (next c) m accesses = some m') (hmem : access ∈ accesses)
    (ha : a < c.virtualMemorySize) (hsame : SamePage c access.virtualAddress a) :
    storedWord c m' a ≠ none := by
  induction accesses using List.reverseRecOn generalizing m' with
  | nil => cases hmem
  | append_singleton accesses last ih =>
      obtain ⟨x, hx, hstep⟩ := run_split hrun
      obtain ⟨top', hinv, _⟩ := h.reaches ⟨accesses, hx⟩
      have hnext : next c x last = some m' := by simpa using hstep
      have hflat := next_flatStep hinv hnext
      rcases List.mem_append.mp hmem with hmem | hmem
      · obtain ⟨word, hword⟩ := Option.ne_none_iff_exists'.mp (ih hx hmem)
        by_cases hwrite : ∃ value, last = .write a value
        · obtain ⟨value, rfl⟩ := hwrite
          rw [hflat.written a value rfl ha]
          exact Option.some_ne_none value
        · push Not at hwrite
          rw [hflat.kept a word hword hwrite]
          exact Option.some_ne_none word
      · obtain rfl := List.mem_singleton.mp hmem
        exact hflat.known a (samePage_lt ha hsame.symm) hsame

/-- What a program sees at `a` after the calls `before`, which led from the
initial memory `m₁` to `m`. -/
structure ActsAsArray (c : MemoryConstants) (m₁ : PhysicalMemory) (before : List Access)
    (m : PhysicalMemory) (a : Nat) : Prop where
  out_of_range : c.virtualMemorySize ≤ a → ∀ value,
    vmRead c m a value = .ok (0, value, m) ∧ vmWrite c m a value = .ok (0, m)
  write_succeeds : a < c.virtualMemorySize → ∀ value, ∃ m', vmWrite c m a value = .ok (1, m')
  /-- a read returns the last value written, or what was there when the page
  was first accessed -/
  read_returns : a < c.virtualMemorySize → ∀ value, ∃ word m',
    vmRead c m a value = .ok (1, word, m') ∧
      (∀ last, lastWrite a before = some last → word = last) ∧
      (lastWrite a before = none → ∀ earlier first later,
        before = earlier ++ first :: later → SamePage c first.virtualAddress a →
        (∀ access ∈ earlier, ¬ SamePage c access.virtualAddress a) →
        ∃ m₂ f, run (next c) m₁ (earlier ++ [first]) = some m₂ ∧
          frameOf c m₂ (fetchPageAddress c a) = some f ∧ word = m₂.ram f (fetchOffset c a))
  /-- once its page was accessed, a word changes by a write to it only -/
  unchanged : a < c.virtualMemorySize →
    (∃ access ∈ before, SamePage c access.virtualAddress a) →
    storedWord c m a ≠ none ∧ ∀ access m', next c m access = some m' →
      (∀ value, access ≠ .write a value) → storedWord c m' a = storedWord c m a

/-- The page of an access in range is resident after it. -/
theorem next_resident (h : Inv c m top) {access : Access} (hnext : next c m access = some m')
    (ha : a < c.virtualMemorySize) (hsame : SamePage c access.virtualAddress a) :
    ∃ f, frameOf c m' (fetchPageAddress c a) = some f := by
  have hin : access.virtualAddress < c.virtualMemorySize := samePage_lt ha hsame.symm
  rcases next_cases h access with ⟨hout, _⟩ | ⟨b, value, f, m₁, top', rfl, _, hdone, hrun⟩ |
      ⟨b, value, f, m₁, top', rfl, _, hdone, hrun⟩
  · exact absurd hin (not_lt.mpr hout)
  · obtain rfl : m₁ = m' := Option.some.inj (hrun.symm.trans hnext)
    have hframe := hdone.frame
    rw [show fetchPageAddress c b = fetchPageAddress c a from hsame] at hframe
    exact ⟨f, hframe⟩
  · obtain rfl : m₁.store f (fetchOffset c b) value = m' :=
      Option.some.inj (hrun.symm.trans hnext)
    have hframe := ((hdone.store (fetchOffset c b) value).2 _).trans hdone.frame
    rw [show fetchPageAddress c b = fetchPageAddress c a from hsame] at hframe
    exact ⟨f, hframe⟩

/-- Every sequence of calls runs to its end. -/
theorem Inv.exists_run (h : Inv c m top) (accesses : List Access) :
    ∃ m', run (next c) m accesses = some m' := by
  induction accesses using List.reverseRecOn with
  | nil => exact ⟨m, rfl⟩
  | append_singleton accesses access ih =>
      obtain ⟨m', hm'⟩ := ih
      obtain ⟨top', hinv, _⟩ := h.reaches ⟨accesses, hm'⟩
      obtain ⟨m'', _, hnext, _⟩ := next_inv hinv access
      exact ⟨m'', run_snoc hm' hnext⟩

/-- A word that is never written holds after a run what the frame of its page
held after the first access. -/
theorem run_unwritten {earlier later : List Access} {first : Access} (h : Inv c m top)
    (hrun : run (next c) m (earlier ++ first :: later) = some m')
    (ha : a < c.virtualMemorySize) (hsame : SamePage c first.virtualAddress a)
    (hnone : lastWrite a (earlier ++ first :: later) = none) :
    ∃ m₂ f, run (next c) m (earlier ++ [first]) = some m₂ ∧
      frameOf c m₂ (fetchPageAddress c a) = some f ∧
      storedWord c m' a = some (m₂.ram f (fetchOffset c a)) := by
  have hsplit : earlier ++ first :: later = earlier ++ [first] ++ later := by simp
  rw [hsplit] at hrun hnone
  obtain ⟨m₂, hm₂, hlater⟩ := run_split hrun
  obtain ⟨x, hx, hstep⟩ := run_split hm₂
  obtain ⟨_, hinvx, _⟩ := h.reaches ⟨earlier, hx⟩
  obtain ⟨_, hinv₂, _⟩ := h.reaches ⟨_, hm₂⟩
  have hfirst : next c x first = some m₂ := by simpa using hstep
  obtain ⟨f, hf⟩ := next_resident hinvx hfirst ha hsame
  refine ⟨m₂, f, hm₂, hf, ?_⟩
  apply run_kept hinv₂ hlater (storedWord_resident ha hf)
  intro access hmem
  exact lastWrite_eq_none hnone access (List.mem_append_right _ hmem)

/-- **Virtual memory refines a flat array.**  From every RAM and swap content,
after initialization every sequence of calls runs to its end, and at every
address the program sees an array. -/
theorem virtual_memory_flat (c : MemoryConstants) (m₀ : PhysicalMemory) :
    ∃ m₁, vmInitialize c m₀ = .ok m₁ ∧ ∀ before, ∃ m, run (next c) m₁ before = some m ∧
      ∀ a, ActsAsArray c m₁ before m a := by
  have hinit := vmInitialize_ok c m₀
  have hinv₁ := vmInitialize_inv hinit
  refine ⟨_, hinit, ?_⟩
  generalize hm₁ : ({ m₀ with
    ram := fun f i => if f < c.numFrames ∧ i < c.pageSize then 0 else m₀.ram f i } :
    PhysicalMemory) = m₁ at hinv₁
  intro before
  obtain ⟨m, hm⟩ := hinv₁.exists_run before
  obtain ⟨top, hinv, _⟩ := hinv₁.reaches ⟨before, hm⟩
  refine ⟨m, hm, fun a => ⟨fun ha value => vm_out_of_range ha value, ?_, ?_, ?_⟩⟩
  · intro ha value
    obtain ⟨_, _, _, _, hrun⟩ := vmWrite_spec hinv ha value
    exact ⟨_, hrun⟩
  · intro ha value
    obtain ⟨word, m', hread, hnext, hword⟩ := vmRead_storedWord hinv ha value
    have hkept : ∀ old, storedWord c m a = some old → word = old := by
      intro old hold
      have hnew := (next_flatStep hinv hnext).kept a old hold fun _ => Access.noConfusion
      exact Option.some.inj (hword.symm.trans hnew)
    refine ⟨word, m', hread, ?_, ?_⟩
    · intro last hlast
      exact hkept last (run_lastWrite hinv₁ hm ha hlast)
    · intro hnone earlier first later hsplit hsame _
      subst hsplit
      obtain ⟨m₂, f, hm₂, hf, hword₂⟩ := run_unwritten hinv₁ hm ha hsame hnone
      exact ⟨m₂, f, hm₂, hf, hkept _ hword₂⟩
  · rintro ha ⟨access, hmem, hsame⟩
    have hknown := run_known hinv₁ hm hmem ha hsame
    refine ⟨hknown, ?_⟩
    intro access' m' hnext hne
    obtain ⟨word, hword⟩ := Option.ne_none_iff_exists'.mp hknown
    rw [hword]
    exact (next_flatStep hinv hnext).kept a word hword hne

end Paging
