import HujiOS.Paging.Allocation

/-!
# Translation

`findFrame` walks down the path of a page and allocates what is missing.
`Translating` is its loop invariant: the part of the path walked so far leads
to the current frame, the tables form a tree, and no other page has changed.
From it follow the two interface calls, and from these, for every run of calls,
that the tables keep their shape and that no assertion can fail.
-/

namespace Paging

open Loops MachineInt PointerTree Runs

/-- What holds between calls. -/
structure Inv (c : MemoryConstants) (m : PhysicalMemory) (top : Nat) : Prop
    extends Forest c m none top where
  swapped : ResidentNotSwapped c m

/-- **The loop invariant of `findFrame`**, for a translation of `page` that
started in `m₀` and has come to frame `f` at `depth`. -/
structure Translating (c : MemoryConstants) (m₀ : PhysicalMemory) (top₀ page depth f : Nat)
    (m : PhysicalMemory) (top : Nat) : Prop where
  forest : Forest c m none top
  top_le : top₀ ≤ top
  walked : frameAt c m ((pagePath c page).take depth) = some f
  others : ∀ q < c.numPages, q ≠ page → pageContent c m q = pageContent c m₀ q
  swapped : ∀ q < c.numPages, q ≠ page → frameOf c m q ≠ none → m.swapFile q = none
  swap_page : m.swapFile page = m₀.swapFile page
  /-- a page that is mapped already is found without a change -/
  hit : frameOf c m₀ page ≠ none → m = m₀
  moves : SafeMoves c m₀ m

variable {c : MemoryConstants} {m₀ m m' : PhysicalMemory} {top₀ top top' page depth f g i : Nat}

/-- The last slot of a translated prefix is missing only if the page is. -/
theorem frameOf_eq_none (hdepth : depth < c.tablesDepth)
    (hwalked : frameAt c m ((pagePath c page).take depth) = some f)
    (hzero : entry c m f (fetchDepthOffset c page depth) = none) : frameOf c m page = none := by
  by_contra hsome
  obtain ⟨x, hx⟩ := Option.ne_none_iff_exists'.mp hsome
  obtain ⟨y, hy⟩ := walk_prefix (List.take_prefix (depth + 1) (pagePath c page)) hx
  have hstep : frameAt c m ((pagePath c page).take (depth + 1)) = none := by
    rw [take_succ_pagePath c page hdepth, frameAt_snoc hwalked, hzero]
  cases hstep.symm.trans hy

/-- The path of a page, cut off before its end, is no path of another page. -/
theorem pagePath_ne_take {q : Nat} (hq : q < c.numPages) (hpage : page < c.numPages)
    (hne : q ≠ page) (depth : Nat) :
    pagePath c q ≠ (pagePath c page).take depth := by
  intro heq
  have hlen := congrArg List.length heq
  rw [List.length_take, length_pagePath, length_pagePath] at hlen
  rw [List.take_of_length_le (by rw [length_pagePath]; omega)] at heq
  exact hne (pagePath_inj c hq hpage heq)

theorem length_take_pagePath (page : Nat) (hdepth : depth ≤ c.tablesDepth) :
    ((pagePath c page).take depth).length = depth := by
  rw [List.length_take, length_pagePath]
  omega

theorem pmWrite_entry (h : Forest c m free top) {p : List Nat} (hp : p.length ≤ c.tablesDepth)
    (hf : frameAt c m p = some f) (hi : i < c.pageSize) (value : Int) :
    pmWrite c m (physicalAddress c f i) value = .ok (m.store f i value) :=
  pmWrite_row m (h.frameAt_lt hp hf) hi value

/-- Linking the frame that was allocated takes the translation one level down. -/
theorem Translating.linked (hpage : page < c.numPages) (hdepth : depth < c.tablesDepth)
    (h : Translating c m₀ top₀ page depth f m top)
    (hzero : m.ram f (fetchDepthOffset c page depth) = 0) (habsent : frameOf c m page = none)
    (halloc : Allocation c m m' page ((pagePath c page).take depth) g top')
    (htop : top ≤ top') :
    Translating c m₀ top₀ page (depth + 1) g (m'.store f (fetchDepthOffset c page depth) g)
      top' := by
  have hrlen := length_take_pagePath page hdepth.le
  have hr : ((pagePath c page).take depth).length < c.tablesDepth := by omega
  have hnext := take_succ_pagePath c page hdepth
  have hi : fetchDepthOffset c page depth < c.pageSize := fetchOffset_lt c _
  have hwalked : frameAt c m' ((pagePath c page).take depth) = some f := halloc.path.trans h.walked
  have hempty := halloc.row f _ h.walked hzero
  have hbare := halloc.childless (fetchDepthOffset c page depth)
  have hlink := fun q hq =>
    Forest.frameAt_link (q := q) halloc.forest hwalked hr hi hempty hbare hq
  have hother : ∀ q < c.numPages, q ≠ page →
      frameOf c (m'.store f (fetchDepthOffset c page depth) g) q = frameOf c m' q := by
    intro q hq hne
    unfold frameOf
    rw [hlink _ (length_pagePath c q).le, if_neg]
    rw [← hnext]
    exact pagePath_ne_take hq hpage hne (depth + 1)
  refine ⟨?_, h.top_le.trans htop, ?_, ?_, ?_, halloc.swap_page.trans h.swap_page, ?_,
    (h.moves.trans halloc.moves).trans (.of_trace_eq rfl)⟩
  · apply Forest.link halloc.forest hwalked hr hi hempty hbare halloc.frame_le
    intro hlast
    rw [← hnext, List.take_of_length_le (by rw [length_pagePath]; omega),
      pathPage_pagePath c hpage]
    exact hpage
  · rw [hnext, hlink _ (by simpa [Nat.succ_le_iff] using hr), if_pos rfl]
  · intro q hq hne
    rw [← h.others q hq hne, ← halloc.contents q hq]
    apply pageContent_congr (hother q hq hne) _ rfl
    intro y hy
    have hyf : y ≠ f := halloc.forest.leaf_ne_table (length_pagePath c q) hy hr hwalked
    funext j
    simp [PhysicalMemory.store, hyf]
  · intro q hq hne hres
    rw [hother q hq hne] at hres
    exact halloc.swapped q hq hres
  · intro hres
    rw [h.hit hres] at habsent
    exact absurd habsent hres

/-- Where the page that is translated is not mapped, no mapped page is in the
swap file. -/
theorem Translating.resident_not_swapped (h : Translating c m₀ top₀ page depth f m top)
    (habsent : frameOf c m page = none) : ResidentNotSwapped c m := by
  intro q hq hres
  refine h.swapped q hq ?_ hres
  rintro rfl
  exact hres habsent

/-- Where the entry is missing a frame is allocated for it. -/
theorem Translating.createFrame_spec (hpage : page < c.numPages) (hdepth : depth < c.tablesDepth)
    (h : Translating c m₀ top₀ page depth f m top)
    (hzero : m.ram f (fetchDepthOffset c page depth) = 0) :
    ∃ g top' m', createFrame c m page f depth = .ok (((g : Nat) : Int), m') ∧
      Allocates c m f depth top g top' m' ∧
      Allocation c m m' page ((pagePath c page).take depth) g top' ∧ frameOf c m page = none := by
  have hrlen := length_take_pagePath page hdepth.le
  have hr : ((pagePath c page).take depth).length < c.tablesDepth := by omega
  have hi : fetchDepthOffset c page depth < c.pageSize := fetchOffset_lt c _
  have habsent := frameOf_eq_none hdepth h.walked ((entry_eq_none_iff hi).mpr hzero)
  have hswap := h.resident_not_swapped habsent
  obtain ⟨g, top', m', hcreate, _, hout⟩ :=
    createFrame_allocates h.forest hswap hpage habsent hr h.walked depth
  exact ⟨g, top', m', hcreate, hout,
    hout.allocation h.forest hswap hr h.walked habsent hrlen, habsent⟩

/-- The frames on the path stay where an allocation leaves its end. -/
theorem Allocation.prefix_kept {r p : List Nat} (h : Allocation c m m' page r g top')
    (hr : r.length ≤ c.tablesDepth) (hf : frameAt c m r = some f) (hp : p <+: r) :
    frameAt c m' p = frameAt c m p := by
  obtain ⟨x, hx⟩ := walk_prefix hp (h.path.trans hf)
  have hold := h.mapped p x (hp.length_le.trans hr) hx
  exact Eq.trans hx hold.symm

/-- **One round** of the loop, whether it finds the entry or has to allocate,
keeps the path it came by. -/
theorem findFrameStep_spec (hpage : page < c.numPages) (hdepth : depth < c.tablesDepth)
    (h : Translating c m₀ top₀ page depth f m top) :
    ∃ f' m' top', findFrameStep c page ((f : Int), m) depth = .ok (((f' : Nat) : Int), m') ∧
      Translating c m₀ top₀ page (depth + 1) f' m' top' ∧
      ∀ p, p <+: (pagePath c page).take depth → frameAt c m' p = frameAt c m p := by
  have hrlen := length_take_pagePath page hdepth.le
  have hr : ((pagePath c page).take depth).length < c.tablesDepth := by omega
  have hi : fetchDepthOffset c page depth < c.pageSize := fetchOffset_lt c _
  have hread := pmRead_row m (h.forest.frameAt_lt hr.le h.walked) hi
  unfold findFrameStep
  rcases h.forest.row_cases hr h.walked hi with ⟨hzero, _⟩ | ⟨g, hg, _, hram, hsome⟩
  · obtain ⟨g, top', m', hcreate, hout, halloc, habsent⟩ := h.createFrame_spec hpage hdepth hzero
    have hkept := halloc.path.trans h.walked
    refine ⟨g, _, top', ?_, h.linked hpage hdepth hzero habsent halloc hout.top_le, ?_⟩
    · simp only [hread, bind, Except.bind, hzero, if_true, hcreate,
        pmWrite_entry halloc.forest hr.le hkept hi]
    · intro p hp
      have hbare := halloc.childless (fetchDepthOffset c page depth)
      rw [Forest.frameAt_link halloc.forest hkept hr hi (halloc.row f _ h.walked hzero) hbare
        (hp.length_le.trans hr.le), if_neg, halloc.prefix_kept hr.le h.walked hp]
      rintro rfl
      have hlen := hp.length_le
      rw [List.length_append, List.length_singleton] at hlen
      omega
  · refine ⟨g, m, top, ?_, ⟨h.forest, h.top_le, ?_, h.others, h.swapped, h.swap_page, h.hit,
      h.moves⟩, fun _ _ => rfl⟩
    · simp [hread, bind, Except.bind, hram, hg]
    · rw [take_succ_pagePath c page hdepth, frameAt_snoc h.walked, hsome]

/-- **The loop** of `findFrame`, cut off at any depth: it is on the path of the
page, and the frames it came by are on it still. -/
theorem Inv.walk (h : Inv c m₀ top₀) (hpage : page < c.numPages) (hdepth : depth ≤ c.tablesDepth) :
    ∃ f m top,
      (List.range depth).foldlM (findFrameStep c page) (0, m₀) = .ok (((f : Nat) : Int), m) ∧
      Translating c m₀ top₀ page depth f m top ∧ ∀ k ≤ depth, ∀ y x,
        (List.range k).foldlM (findFrameStep c page) (0, m₀) = .ok (((y : Nat) : Int), x) →
          frameAt c m ((pagePath c page).take k) = some y := by
  induction depth with
  | zero =>
      refine ⟨0, m₀, top₀, rfl, ⟨h.toForest, le_rfl, frameAt_nil c m₀, fun _ _ _ => rfl,
        fun q hq _ hres => h.swapped q hq hres, rfl, fun _ => rfl, .of_trace_eq rfl⟩, ?_⟩
      intro k hk y x hrun
      obtain rfl := Nat.le_zero.mp hk
      have hzero : (0 : Int) = y := congrArg Prod.fst (Except.ok.inj hrun)
      obtain rfl : y = 0 := by omega
      rfl
  | succ depth ih =>
      obtain ⟨f, m, top, hloop, htrans, hpath⟩ := ih (Nat.le_of_succ_le hdepth)
      obtain ⟨f', m', top', hstep, hnext, hkept⟩ := findFrameStep_spec hpage hdepth htrans
      have hloop' := foldlM_range_succ hloop hstep
      refine ⟨f', m', top', hloop', hnext, ?_⟩
      intro k hk y x hrun
      rcases Nat.lt_or_eq_of_le hk with hlt | rfl
      · rw [hkept _ (List.take_prefix_take_left (Nat.le_of_lt_succ hlt))]
        exact hpath k (Nat.le_of_lt_succ hlt) y x hrun
      · have heq : (f' : Int) = y := congrArg Prod.fst (Except.ok.inj (hloop'.symm.trans hrun))
        obtain rfl : f' = y := by exact_mod_cast heq
        exact hnext.walked

/-! ## The frame of a page -/

/-- The memory and the tables after `findFrame` returned `f` for `page`. -/
structure Translated (c : MemoryConstants) (m₀ : PhysicalMemory) (top₀ page f : Nat)
    (m : PhysicalMemory) (top : Nat) : Prop where
  inv : Inv c m top
  top_le : top₀ ≤ top
  frame : frameOf c m page = some f
  others : ∀ q < c.numPages, q ≠ page → pageContent c m q = pageContent c m₀ q
  /-- a page that had a content before has it in its frame now -/
  content : ∀ words, pageContent c m₀ page = some words → m.ram f = words
  moves : SafeMoves c m₀ m

/-- Loading a content page keeps the tables. -/
theorem load_forest (h : Forest c m none top) (hf : frameOf c m page = some f) (words : Page) :
    Forest c (m.load f words) none top ∧
      ∀ q, q.length ≤ c.tablesDepth → frameAt c (m.load f words) q = frameAt c m q := by
  have hsame : ∀ p x i, p.length < c.tablesDepth → frameAt c m p = some x → i < c.pageSize →
      (m.load f words).ram x i = m.ram x i := by
    intro p x i hp hx _
    have hne : x ≠ f := (h.leaf_ne_table (length_pagePath c page) hf hp hx).symm
    simp [PhysicalMemory.load, hne]
  refine ⟨h.of_tables_unchanged hsame ?_, fun q hq => Forest.frameAt_congr hsame hq⟩
  intro x i hx
  have hle := h.frameAt_le (length_pagePath c page).le hf
  have hne : x ≠ f := by omega
  simp [PhysicalMemory.load, hne]

section Restore

variable (h : Translating c m₀ top₀ page c.tablesDepth f m top)

include h

/-- At the end of the loop the page is in the frame. -/
theorem Translating.frame : frameOf c m page = some f := by
  have hwalked := h.walked
  rwa [List.take_of_length_le (length_pagePath c page).le] at hwalked

/-- The restore has a frame in range. -/
theorem Translating.moves_restore (htrace : m'.trace = m.trace ++ [.restore f page]) :
    SafeMoves c m₀ m' := by
  refine h.moves.trans ⟨_, htrace, ?_⟩
  intro move hmove
  rw [List.mem_singleton.mp hmove]
  exact h.forest.frameAt_lt (length_pagePath c page).le h.frame

/-- A page that is not in the swap file is left as it is. -/
theorem Translating.restored_unswapped (hswap : m.swapFile page = none) :
    Translated c m₀ top₀ page f (m.restored f page) top := by
  have heq := restored_of_unswapped (f := f) hswap
  rw [heq]
  refine ⟨⟨?_, ?_⟩, h.top_le, h.frame, h.others, ?_, h.moves_restore rfl⟩
  · exact h.forest.of_tables_unchanged (fun _ _ _ _ _ _ => rfl) fun _ _ _ => rfl
  · intro q hq hres
    by_cases hne : q = page
    · rw [hne]
      exact hswap
    · exact h.swapped q hq hne hres
  · intro words hwords
    cases hold : frameOf c m₀ page with
    | none =>
        rw [pageContent_absent hold, ← h.swap_page, hswap] at hwords
        cases hwords
    | some f₀ =>
        have hm := h.hit (mapped_of_frameOf hold)
        rw [← hm, pageContent_resident h.frame] at hwords
        exact Option.some.inj hwords

/-- A page in the swap file is loaded into its frame. -/
theorem Translating.restored_swapped (hinv : Inv c m₀ top₀) (hpage : page < c.numPages)
    {words : Page} (hswap : m.swapFile page = some words) :
    Translated c m₀ top₀ page f (m.restored f page) top := by
  obtain ⟨hforest, hwalk⟩ := load_forest h.forest h.frame words
  have heq : m.restored f page =
      ((m.record (.restore f page)).load f words).setSwap page none := by
    simp [PhysicalMemory.restored, hswap]
  have hpages : ∀ q, frameOf c
      (((m.record (.restore f page)).load f words).setSwap page none) q = frameOf c m q :=
    fun q => hwalk _ (length_pagePath c q).le
  rw [heq]
  refine ⟨⟨?_, ?_⟩, h.top_le, (hpages page).trans h.frame, ?_, ?_, h.moves_restore rfl⟩
  · exact hforest.of_tables_unchanged (fun _ _ _ _ _ _ => rfl) fun _ _ _ => rfl
  · intro q hq hres
    by_cases hne : q = page
    · exact if_pos hne
    · have hold : frameOf c m q ≠ none := by
        rw [← hpages q]
        exact hres
      exact (if_neg hne).trans (h.swapped q hq hne hold)
  · intro q hq hne
    rw [← h.others q hq hne]
    refine pageContent_congr (hpages q) ?_ (if_neg hne)
    intro y hy
    have hyf : y ≠ f := by
      rintro rfl
      exact hne (h.forest.frameOf_inj hq hpage hy h.frame)
    simp [PhysicalMemory.load, PhysicalMemory.setSwap, PhysicalMemory.record, hyf]
  · intro old hold
    -- a page in the swap file was not in a frame before
    have habsent : frameOf c m₀ page = none := by
      by_contra hres
      have hnone := hinv.swapped page hpage hres
      rw [h.swap_page, hnone] at hswap
      cases hswap
    rw [pageContent_absent habsent, ← h.swap_page, hswap] at hold
    simpa [PhysicalMemory.load, PhysicalMemory.setSwap] using Option.some.inj hold

/-- **The restore** at the end of the loop completes the translation. -/
theorem Translating.restored (hinv : Inv c m₀ top₀) (hpage : page < c.numPages) :
    Translated c m₀ top₀ page f (m.restored f page) top := by
  cases hswap : m.swapFile page with
  | none => exact h.restored_unswapped hswap
  | some words => exact h.restored_swapped hinv hpage hswap

end Restore

/-- **Translation** succeeds from every memory that satisfies the invariant. -/
theorem findFrame_spec (h : Inv c m top) (hpage : page < c.numPages) :
    ∃ f m' top', findFrame c m page = .ok (f, m') ∧ Translated c m top page f m' top' := by
  obtain ⟨f, m', top', hloop, hend, _⟩ := h.walk hpage le_rfl
  have hflt := hend.forest.frameAt_lt (length_pagePath c page).le hend.frame
  refine ⟨f, m'.restored f page, top', ?_, hend.restored h hpage⟩
  unfold findFrame
  simp only [hloop, bind, Except.bind, toUInt64_frame hflt, pmRestore_ok hflt]

/-! ## The interface -/

/-- A read in range returns the word in the frame of its page. -/
theorem vmRead_spec (h : Inv c m top) {a : Nat} (ha : a < c.virtualMemorySize) (value : Int) :
    ∃ f m' top', Translated c m top (fetchPageAddress c a) f m' top' ∧
      vmRead c m a value = .ok (1, m'.ram f (fetchOffset c a), m') := by
  obtain ⟨f, m', top', hfind, hdone⟩ := findFrame_spec h (fetchPageAddress_lt c ha)
  have hflt := hdone.inv.frameAt_lt (length_pagePath c _).le hdone.frame
  refine ⟨f, m', top', hdone, ?_⟩
  unfold vmRead
  rw [if_neg (not_le.mpr ha)]
  simp only [hfind, bind, Except.bind, pmRead_row m' hflt (fetchOffset_lt c a)]

/-- A write in range changes the word in the frame of its page. -/
theorem vmWrite_spec (h : Inv c m top) {a : Nat} (ha : a < c.virtualMemorySize) (value : Int) :
    ∃ f m' top', Translated c m top (fetchPageAddress c a) f m' top' ∧
      vmWrite c m a value = .ok (1, m'.store f (fetchOffset c a) value) := by
  obtain ⟨f, m', top', hfind, hdone⟩ := findFrame_spec h (fetchPageAddress_lt c ha)
  have hflt := hdone.inv.frameAt_lt (length_pagePath c _).le hdone.frame
  refine ⟨f, m', top', hdone, ?_⟩
  unfold vmWrite
  rw [if_neg (not_le.mpr ha)]
  simp only [hfind, bind, Except.bind, pmWrite_row m' hflt (fetchOffset_lt c a)]

/-- Out of range a call fails and leaves everything alone. -/
theorem vm_out_of_range {a : Nat} (ha : c.virtualMemorySize ≤ a) (value : Int) :
    vmRead c m a value = .ok (0, value, m) ∧ vmWrite c m a value = .ok (0, m) :=
  ⟨if_pos ha, if_pos ha⟩

/-- Writing a word of a content page keeps the invariant and every mapping. -/
theorem Translated.store (h : Translated c m₀ top₀ page f m top) (i : Nat) (value : Int) :
    Inv c (m.store f i value) top ∧
      ∀ q, frameOf c (m.store f i value) q = frameOf c m q := by
  have hsame : ∀ p x j, p.length < c.tablesDepth → frameAt c m p = some x → j < c.pageSize →
      (m.store f i value).ram x j = m.ram x j := by
    intro p x j hp hx _
    have hne : x ≠ f := (h.inv.leaf_ne_table (length_pagePath c page) h.frame hp hx).symm
    simp [PhysicalMemory.store, hne]
  have hpages : ∀ q, frameOf c (m.store f i value) q = frameOf c m q :=
    fun q => Forest.frameAt_congr hsame (length_pagePath c q).le
  refine ⟨⟨h.inv.of_tables_unchanged hsame ?_, ?_⟩, hpages⟩
  · intro x j hx
    have hle := h.inv.frameAt_le (length_pagePath c page).le h.frame
    have hne : x ≠ f := by omega
    simp [PhysicalMemory.store, hne]
  · intro q hq hres
    rw [hpages q] at hres
    exact h.inv.swapped q hq hres

/-- What a call does to the memory: nothing, or a translation, followed by a
store for a write. -/
theorem next_cases (h : Inv c m top) (access : Access) :
    (c.virtualMemorySize ≤ access.virtualAddress ∧ next c m access = some m) ∨
      (∃ a value f m₁ top', access = .read a value ∧ a < c.virtualMemorySize ∧
        Translated c m top (fetchPageAddress c a) f m₁ top' ∧ next c m access = some m₁) ∨
      ∃ a value f m₁ top', access = .write a value ∧ a < c.virtualMemorySize ∧
        Translated c m top (fetchPageAddress c a) f m₁ top' ∧
        next c m access = some (m₁.store f (fetchOffset c a) value) := by
  cases access with
  | read a value =>
      by_cases ha : a < c.virtualMemorySize
      · obtain ⟨f, m₁, top', hdone, hrun⟩ := vmRead_spec h ha value
        exact Or.inr (Or.inl ⟨a, value, f, m₁, top', rfl, ha, hdone,
          by simp [next, hrun, Except.toOption]⟩)
      · refine Or.inl ⟨not_lt.mp ha, ?_⟩
        simp [next, (vm_out_of_range (m := m) (not_lt.mp ha) value).1, Except.toOption]
  | write a value =>
      by_cases ha : a < c.virtualMemorySize
      · obtain ⟨f, m₁, top', hdone, hrun⟩ := vmWrite_spec h ha value
        exact Or.inr (Or.inr ⟨a, value, f, m₁, top', rfl, ha, hdone,
          by simp [next, hrun, Except.toOption]⟩)
      · refine Or.inl ⟨not_lt.mp ha, ?_⟩
        simp [next, (vm_out_of_range (m := m) (not_lt.mp ha) value).2, Except.toOption]

/-- **Step lemma.**  Every call succeeds and keeps the invariant. -/
theorem next_inv (h : Inv c m top) (access : Access) :
    ∃ m' top', next c m access = some m' ∧ Inv c m' top' ∧ top ≤ top' := by
  rcases next_cases h access with ⟨_, hrun⟩ | ⟨_, _, f, m₁, top', _, _, hdone, hrun⟩ |
      ⟨_, value, f, m₁, top', _, _, hdone, hrun⟩
  · exact ⟨m, top, hrun, h, le_rfl⟩
  · exact ⟨m₁, top', hrun, hdone.inv, hdone.top_le⟩
  · exact ⟨_, top', hrun, (hdone.store _ value).1, hdone.top_le⟩

/-- With the root alone in use no page is mapped. -/
theorem Forest.frameOf_root_alone (h : Forest c m none 0) (q : Nat) : frameOf c m q = none := by
  by_contra hres
  obtain ⟨f, hf⟩ := Option.ne_none_iff_exists'.mp hres
  -- a page is at a path of positive length, and the root has no child
  have hlen := length_pagePath c q
  have hpos := c.tablesDepth_pos
  have hle := h.frameAt_le hlen.le hf
  obtain rfl : f = 0 := Nat.le_zero.mp hle
  have hnil := h.path_unique hlen.le (Nat.zero_le _) hf (frameAt_nil c _)
  rw [hnil, List.length_nil] at hlen
  omega

/-- The invariant holds after `VMinitialize`. -/
theorem vmInitialize_inv {m₁ : PhysicalMemory} (hinit : vmInitialize c m = .ok m₁) :
    Inv c m₁ 0 := by
  rw [vmInitialize_ok] at hinit
  obtain rfl := Except.ok.inj hinit
  have hforest := forest_zero (c := c) (m := { m with
    ram := fun f i => if f < c.numFrames ∧ i < c.pageSize then 0 else m.ram f i })
    fun f i hf hi => if_pos ⟨hf, hi⟩
  exact ⟨hforest, fun q _ hres => absurd (hforest.frameOf_root_alone q) hres⟩

/-- **Run lemma.**  Along a run the invariant holds and the frames in use only
become more. -/
theorem Inv.reaches (h : Inv c m top) (hrun : Reaches (next c) m m') :
    ∃ top', Inv c m' top' ∧ top ≤ top' := by
  apply hrun.invariant (fun x => ∃ top', Inv c x top' ∧ top ≤ top')
  · rintro x access y ⟨top₁, hx, hle⟩ hnext
    obtain ⟨y', top₂, hrun, hinv, hle'⟩ := next_inv hx access
    obtain rfl : y' = y := Option.some.inj (hrun.symm.trans hnext)
    exact ⟨top₂, hinv, hle.trans hle'⟩
  · exact ⟨top, h, le_rfl⟩

/-- By induction over the accesses, the invariant holds of every reachable
memory. -/
theorem Reachable.inv (h : Reachable c m) : ∃ top, Inv c m top := by
  obtain ⟨m₀, m₁, hinit, hrun⟩ := h
  obtain ⟨top, hinv, _⟩ := (vmInitialize_inv hinit).reaches hrun
  exact ⟨top, hinv⟩

end Paging
