import HujiOS.Paging.Searches

/-!
# What an allocation can do

`createFrame` finds a frame for the empty entry that a translation has hit.
`Allocates` lists its three outcomes with their guards: an unused table is cut
off, the first frame above the used ones is taken, or a page is evicted.  In
the third case there is a page to evict by counting: with every frame in use
and no page resident, every frame would be a table on the path walked so far,
and that path is shorter than the number of frames.

`Allocation` is what the three outcomes have in common and what translation
relies on: the frame is detached, the path walked so far stays, and no page
changes its content.
-/

namespace Paging

open MachineInt PointerTree

/-- No table is empty but `used`, and possibly the root. -/
def NoUnusedTable (c : MemoryConstants) (m : PhysicalMemory) (used : Nat) : Prop :=
  ∀ p f, p.length < c.tablesDepth → frameAt c m p = some f → UnusedTable c m used f → f = 0

/-- No page is both mapped and in the swap file. -/
def ResidentNotSwapped (c : MemoryConstants) (m : PhysicalMemory) : Prop :=
  ∀ q < c.numPages, frameOf c m q ≠ none → m.swapFile q = none

/-- The memory after page `q` in frame `g` was evicted for a frame at `depth`;
row `i` of table `x` is the entry that mapped it. -/
def PhysicalMemory.evicted (c : Widths) (m : PhysicalMemory) (depth x i g q : Nat) :
    PhysicalMemory :=
  let m := ((m.setSwap q (some (m.ram g))).record (.evict g q)).store x i 0
  if depth < c.tablesDepth - 1 then m.cleared c g else m

/-- The outcomes of `createFrame` for the table `used` at `depth`: the frame,
the largest frame in use, and the memory. -/
inductive Allocates (c : MemoryConstants) (m : PhysicalMemory) (used depth top : Nat) :
    Nat → Nat → PhysicalMemory → Prop
  | reuse {p : List Nat} {x i g : Nat} (hlen : p.length + 1 < c.tablesDepth)
      (hx : frameAt c m p = some x) (hg : frameAt c m (p ++ [i]) = some g) (hpos : g ≠ 0)
      (hunused : UnusedTable c m used g) : Allocates c m used depth top g top (m.store x i 0)
  | fresh (hnone : NoUnusedTable c m used) (hroom : top + 1 < c.numFrames) :
      Allocates c m used depth top (top + 1) (top + 1) m
  | evict {p : List Nat} {x i g : Nat} (hnone : NoUnusedTable c m used)
      (hfull : top + 1 = c.numFrames) (hlen : p.length + 1 = c.tablesDepth)
      (hx : frameAt c m p = some x) (hg : frameAt c m (p ++ [i]) = some g) (hpos : g ≠ 0) :
      Allocates c m used depth top g top
        (m.evicted c depth x i g (pathPage c (p ++ [i])))

variable {c : MemoryConstants} {m m' : PhysicalMemory} {top top' page depth f g : Nat}
  {r : List Nat}

/-- The frames in use only become more. -/
theorem Allocates.top_le (h : Allocates c m f depth top g top' m') : top ≤ top' := by
  cases h with
  | reuse => exact le_rfl
  | fresh => exact Nat.le_succ top
  | evict => exact le_rfl

/-! ## There is a page to evict -/

/-- **Counting.**  When every frame is in use and no table off the path `r` is
empty, some page is resident. -/
theorem exists_resident (h : Forest c m none top) (hfull : top + 1 = c.numFrames)
    (hnone : NoUnusedTable c m f) (hr : r.length < c.tablesDepth)
    (hf : frameAt c m r = some f) : ∃ q, Resident c m q := by
  by_contra hleaf
  push Not at hleaf
  have hpath : ∀ x ∈ Finset.range c.numFrames, ∃ q, q <+: r ∧ walk (entry c m) 0 q = some x := by
    intro x hx
    obtain ⟨p, hp, hw⟩ := (h.frames x).mpr ⟨by have := Finset.mem_range.mp hx; omega, by simp⟩
    refine ⟨p, ?_, hw⟩
    rcases exists_leaf_or_childless hp hw with ⟨q, g, _, hlen, hg⟩ | ⟨q, g, hpre, hlen, hg, hbare⟩
    · exact absurd (h.toPageTree.resident hlen hg) (hleaf (pathPage c q))
    · by_cases hgf : g = f
      · rw [hgf] at hg
        rw [h.path_unique hlen.le hr.le hg hf] at hpre
        exact hpre
      · have hrows : ∀ i < c.pageSize, m.ram g i = 0 :=
          fun i hi => (entry_eq_none_iff hi).mp (hbare i)
        have hzero : g = 0 := hnone q g hlen hg ⟨hrows, by exact_mod_cast hgf⟩
        rw [hzero] at hg
        have hnil : q = [] := h.path_unique hlen.le (Nat.zero_le _) hg rfl
        rw [hnil, List.prefix_nil] at hpre
        rw [hpre]
        exact List.nil_prefix
  have hcard := card_le_of_on_path _ r hpath
  rw [Finset.card_range] at hcard
  have hroom := c.tablesDepth_lt
  omega

/-! ## The code computes an allocation -/

theorem toUInt64_frame (hg : g < c.numFrames) : toUInt64 (g : Int) = g :=
  toUInt64_of_lt (by have := c.numFrames_lt; omega)

/-- **The eviction.**  With a page resident, and the faulting page not among
them, the search finds the first of the farthest pages.  The eviction goes through
unless that page is in the swap file already. -/
theorem evictFrame_spec (h : PageTree c m) (hpage : page < c.numPages)
    (habsent : frameOf c m page = none) (hres : ∃ r, Resident c m r) :
    ∃ (p : List Nat) (x i g : Nat), p.length + 1 = c.tablesDepth ∧ frameAt c m p = some x ∧
      frameAt c m (p ++ [i]) = some g ∧ g ≠ 0 ∧ Farthest c m page (pathPage c (p ++ [i])) ∧
      findFrameToEvict c m page c.tablesDepth
        { maxCycDist := 0, pageToEvict := 0, evictedFrame := 0, evictedAddressInParent := 0 }
        0 0 0 = .ok (evictionOf c m page (p ++ [i], g)) ∧
      ∀ depth, evictFrame c m page depth =
        if (m.swapFile (pathPage c (p ++ [i]))).isSome then
          .error (.evictedTwice (pathPage c (p ++ [i])))
        else .ok ((g : Int), m.evicted c depth x i g (pathPage c (p ++ [i]))) := by
  obtain ⟨q, g, hlen, hg, hfar, hsearch⟩ := findFrameToEvict_spec h hpage habsent hres
  have hpos := c.tablesDepth_pos
  rcases List.eq_nil_or_concat q with rfl | ⟨p, i, rfl⟩
  · rw [List.length_nil] at hlen
    omega
  rw [List.concat_eq_append] at *
  obtain ⟨x, hx, hentry⟩ := frameAt_snoc_eq_some.mp hg
  have hplen : p.length + 1 = c.tablesDepth := by simpa using hlen
  have hgpos : g ≠ 0 := (h.ram_of_entry (by omega) hx hentry).2
  have hgf := h.frameAt_lt hlen.le hg
  have hxf := h.frameAt_lt (by omega) hx
  have hnum := hfar.resident.1
  refine ⟨p, x, i, g, hplen, hx, hg, hgpos, hfar, hsearch, fun depth => ?_⟩
  have haddr : entryAddress c m (p ++ [i]) = physicalAddress c x i := entryAddress_snoc hx i
  unfold evictFrame
  simp only [hsearch, bind, Except.bind, evictionOf, toUInt64_frame hgf, haddr]
  cases hswap : m.swapFile (pathPage c (p ++ [i])) with
  | some words => simp [pmEvict, hgf, hnum, hswap]
  | none =>
      simp only [pmEvict_ok hgf hnum hswap, pmWrite_row _ hxf (entry_lt x i g hentry),
        PhysicalMemory.evicted, Option.isSome_none, Bool.false_eq_true, if_false]
      split
      · rw [clearTable_ok hgf]
      · rfl

/-- **The allocation** succeeds, and its outcome is in the list. -/
theorem createFrame_allocates (h : Forest c m none top) (hswap : ResidentNotSwapped c m)
    (hpage : page < c.numPages) (habsent : frameOf c m page = none)
    (hr : r.length < c.tablesDepth) (hf : frameAt c m r = some f) (depth : Nat) :
    ∃ (g top' : Nat) (m' : PhysicalMemory), createFrame c m page f depth = .ok ((g : Int), m') ∧
      g ≠ 0 ∧ Allocates c m f depth top g top' m' := by
  obtain ⟨found, hsearch, hmax, hcase⟩ := getUnusedOrMaxFrame_spec h f
  have htop := h.top_lt
  unfold createFrame createUnusedOrMaxFrame
  rcases hcase with ⟨hzero, hnone⟩ | ⟨p, x, i, g, hlen, hx, hi, hg, hpos, hunused, hframe, haddr⟩
  · by_cases hroom : top + 1 < c.numFrames
    · refine ⟨top + 1, top + 1, m, ?_, by omega, .fresh hnone hroom⟩
      have hlt : (top : Int) < c.numFrames - 1 := by omega
      have hne : (top : Int) + 1 ≠ 0 := by omega
      simp only [hsearch, bind, Except.bind, hzero, ne_eq, not_true_eq_false, if_false, hmax, hlt,
        if_true]
      rw [if_pos hne]
      simp
    · have hfull : top + 1 = c.numFrames := by omega
      obtain ⟨p, x, i, g, hlen, hx, hg, hpos, hfar, _, hevict⟩ := evictFrame_spec h.toPageTree
        hpage habsent (exists_resident h hfull hnone hr hf)
      have hnot := hswap _ hfar.resident.1 hfar.resident.2
      refine ⟨g, top, _, ?_, hpos, .evict hnone hfull hlen hx hg hpos⟩
      have hge : ¬ (top : Int) < c.numFrames - 1 := by omega
      simp only [hsearch, bind, Except.bind, hzero, ne_eq, not_true_eq_false, if_false, hmax, hge,
        hevict, hnot, Option.isSome_none, Bool.false_eq_true]
  · refine ⟨g, top, m.store x i 0, ?_, hpos, .reuse hlen hx hg hpos hunused⟩
    have hxf := h.frameAt_lt (by omega) hx
    simp [hsearch, bind, Except.bind, hframe, haddr, hpos, pmWrite_row m hxf hi]

/-! ## What all outcomes have in common -/

/-- A page moved between frames and pages that exist, and not out of the root
table. -/
def PageMove.Safe (c : MemoryConstants) : PageMove → Prop
  | .evict frameIndex evictedPageIndex =>
      frameIndex ≠ 0 ∧ frameIndex < c.numFrames ∧ evictedPageIndex < c.numPages
  | .restore frameIndex _ => frameIndex < c.numFrames

/-- Between the two memories only safe moves were made. -/
def SafeMoves (c : MemoryConstants) (m m' : PhysicalMemory) : Prop :=
  ∃ moves, m'.trace = m.trace ++ moves ∧ ∀ move ∈ moves, move.Safe c

theorem SafeMoves.of_trace_eq (htrace : m'.trace = m.trace) : SafeMoves c m m' :=
  ⟨[], by simp [htrace], by simp⟩

theorem SafeMoves.trans {m'' : PhysicalMemory} (h : SafeMoves c m m') (h' : SafeMoves c m' m'') :
    SafeMoves c m m'' := by
  obtain ⟨moves, htrace, hsafe⟩ := h
  obtain ⟨moves', htrace', hsafe'⟩ := h'
  refine ⟨moves ++ moves', by simp [htrace', htrace], ?_⟩
  intro move hmove
  rcases List.mem_append.mp hmove with hm | hm
  · exact hsafe move hm
  · exact hsafe' move hm

/-- What translation relies on: `g` is detached and fit for the place below
`r`, the path `r` is as it was, nothing was mapped anew, and every page holds
what it held. -/
structure Allocation (c : MemoryConstants) (m m' : PhysicalMemory) (page : Nat) (r : List Nat)
    (g top' : Nat) : Prop where
  forest : Forest c m' (some g) top'
  frame_le : g ≤ top'
  bare : r.length + 1 < c.tablesDepth → ∀ i < c.pageSize, m'.ram g i = 0
  path : frameAt c m' r = frameAt c m r
  row : ∀ f i, frameAt c m r = some f → m.ram f i = 0 → m'.ram f i = 0
  mapped : ∀ q x, q.length ≤ c.tablesDepth → frameAt c m' q = some x → frameAt c m q = some x
  contents : ∀ q < c.numPages, pageContent c m' q = pageContent c m q
  swapped : ResidentNotSwapped c m'
  swap_page : m'.swapFile page = m.swapFile page
  moves : SafeMoves c m m'

/-- The detached frame has no children where it is going to be linked. -/
theorem Allocation.childless (h : Allocation c m m' page r g top') (i : Nat) :
    Forest.Childless c m' (r ++ [i]) g := by
  intro hlt
  exact h.bare (by simpa using hlt)

/-- Two pages are not in one frame. -/
theorem PageTree.frameOf_inj (h : PageTree c m) {q : Nat} (hq : q < c.numPages)
    (hpage : page < c.numPages) (hfq : frameOf c m q = some f)
    (hf : frameOf c m page = some f) : q = page :=
  pagePath_inj c hq hpage
    (h.path_unique (length_pagePath c q).le (length_pagePath c page).le hfq hf)

theorem frameOf_of_mapped
    (hmapped : ∀ q x, q.length ≤ c.tablesDepth → frameAt c m' q = some x → frameAt c m q = some x)
    {q : Nat} (hq : frameOf c m' q ≠ none) : frameOf c m q ≠ none := by
  obtain ⟨x, hx⟩ := Option.ne_none_iff_exists'.mp hq
  exact mapped_of_frameOf (hmapped (pagePath c q) x (length_pagePath c q).le hx)

/-- Clearing an entry leaves the empty entries empty. -/
theorem PhysicalMemory.store_zero_ram (m : PhysicalMemory) {x i y j : Nat}
    (hword : m.ram y j = 0) : (m.store x i 0).ram y j = 0 := by
  unfold PhysicalMemory.store
  dsimp only
  split
  · rfl
  · exact hword

/-! ### The memory after an eviction -/

namespace PhysicalMemory

variable (m) (c) {x i q : Nat}

/-- The cases of `evicted`, with and without clearing. -/
theorem evicted_cases (depth x i g q : Nat) :
    m.evicted c depth x i g q =
        ((m.setSwap q (some (m.ram g))).record (.evict g q)).store x i 0 ∨
      m.evicted c depth x i g q =
        (((m.setSwap q (some (m.ram g))).record (.evict g q)).store x i 0).cleared c g := by
  unfold evicted
  by_cases hmid : depth < c.tablesDepth - 1
  · exact Or.inr (if_pos hmid)
  · exact Or.inl (if_neg hmid)

theorem evicted_ram {y : Nat} (hyx : y ≠ x) (hyg : y ≠ g) :
    (m.evicted c depth x i g q).ram y = m.ram y := by
  funext j
  rcases m.evicted_cases c depth x i g q with heq | heq <;> rw [heq] <;>
    simp [cleared, store, record, setSwap, hyx, hyg]

theorem evicted_zero {y j : Nat} (hword : m.ram y j = 0) :
    (m.evicted c depth x i g q).ram y j = 0 := by
  rcases m.evicted_cases c depth x i g q with heq | heq <;> rw [heq] <;>
    simp [cleared, store, record, setSwap, hword]

theorem evicted_cleared {j : Nat} (hmid : depth < c.tablesDepth - 1) (hj : j < c.pageSize) :
    (m.evicted c depth x i g q).ram g j = 0 := by
  unfold evicted
  dsimp only
  rw [if_pos hmid]
  simp [cleared, hj]

theorem evicted_swapFile (n : Nat) : (m.evicted c depth x i g q).swapFile n =
    if n = q then some (m.ram g) else m.swapFile n := by
  rcases m.evicted_cases c depth x i g q with heq | heq <;> rw [heq] <;> rfl

theorem evicted_trace (depth x i g q : Nat) :
    (m.evicted c depth x i g q).trace = m.trace ++ [.evict g q] := by
  rcases m.evicted_cases c depth x i g q with heq | heq <;> rw [heq] <;> rfl

end PhysicalMemory

/-- Evicting a page detaches its frame and no other. -/
theorem evicted_forest {p : List Nat} {x i : Nat} (h : Forest c m none top)
    (hlen : p.length + 1 = c.tablesDepth) (hx : frameAt c m p = some x)
    (hg : frameAt c m (p ++ [i]) = some g) (depth : Nat) :
    Forest c (m.evicted c depth x i g (pathPage c (p ++ [i]))) (some g) top ∧
      ∀ q, q.length ≤ c.tablesDepth →
        frameAt c (m.evicted c depth x i g (pathPage c (p ++ [i]))) q =
          if q = p ++ [i] then none else frameAt c m q := by
  have hp : p.length < c.tablesDepth := by omega
  have hglen : (p ++ [i]).length = c.tablesDepth := by simpa using hlen
  -- the swap file and the trace do not matter to the tables
  let m₁ := (m.setSwap (pathPage c (p ++ [i])) (some (m.ram g))).record
    (.evict g (pathPage c (p ++ [i])))
  have h₁ : Forest c m₁ none top := h.of_tables_unchanged (fun _ _ _ _ _ _ => rfl) fun _ _ _ => rfl
  have hbare : Forest.Childless c m₁ (p ++ [i]) g := fun hlt => absurd hglen hlt.ne
  have h₂ : Forest c (m₁.store x i 0) (some g) top := Forest.unlink h₁ hx hp hg hbare
  have hwalk : ∀ q, q.length ≤ c.tablesDepth → frameAt c (m₁.store x i 0) q =
      if q = p ++ [i] then none else frameAt c m q :=
    fun q hq => Forest.frameAt_unlink h₁ hx hp hg hbare hq
  obtain ⟨h₃, hclear⟩ := h₂.clear (h.frameAt_le hglen.le hg)
  rcases m.evicted_cases c depth x i g (pathPage c (p ++ [i])) with heq | heq
  · rw [heq]
    exact ⟨h₂, hwalk⟩
  · rw [heq]
    exact ⟨h₃, fun q hq => (hclear q hq).trans (hwalk q hq)⟩

section Outcomes

variable (h : Forest c m none top) (hswap : ResidentNotSwapped c m)

include h hswap

theorem allocation_fresh (hroom : top + 1 < c.numFrames) (page : Nat) (r : List Nat) :
    Allocation c m m page r (top + 1) (top + 1) := by
  refine ⟨h.take_fresh hroom, le_rfl, ?_, rfl, fun _ _ _ hzero => hzero, fun _ _ _ hw => hw,
    fun _ _ => rfl, hswap, rfl, .of_trace_eq rfl⟩
  intro _ i hi
  exact h.unused (top + 1) i (Nat.lt_succ_self top) hroom hi

variable (hr : r.length < c.tablesDepth) (hf : frameAt c m r = some f)

include hr hf

theorem allocation_reuse {p : List Nat} {x i : Nat} (hlen : p.length + 1 < c.tablesDepth)
    (hx : frameAt c m p = some x) (hg : frameAt c m (p ++ [i]) = some g)
    (hunused : UnusedTable c m f g) (page : Nat) :
    Allocation c m (m.store x i 0) page r g top := by
  have hp : p.length < c.tablesDepth := by omega
  have hglen : (p ++ [i]).length ≤ c.tablesDepth := by
    simp only [List.length_append, List.length_singleton]
    omega
  have hbare : Forest.Childless c m (p ++ [i]) g := fun _ => hunused.1
  have hwalk := fun q hq => Forest.frameAt_unlink (q := q) h hx hp hg hbare hq
  have hne : r ≠ p ++ [i] := by
    intro heq
    rw [heq, hg] at hf
    exact hunused.2 (by rw [Option.some.inj hf])
  have hpages : ∀ q, frameOf c (m.store x i 0) q = frameOf c m q := by
    intro q
    unfold frameOf
    rw [hwalk _ (length_pagePath c q).le, if_neg]
    intro heq
    have hl := congrArg List.length heq
    simp only [length_pagePath, List.length_append, List.length_singleton] at hl
    omega
  have hmapped : ∀ q y, q.length ≤ c.tablesDepth → frameAt c (m.store x i 0) q = some y →
      frameAt c m q = some y := by
    intro q y hq hw
    rw [hwalk q hq] at hw
    exact (Option.ite_none_left_eq_some.mp hw).2
  refine ⟨Forest.unlink h hx hp hg hbare, h.frameAt_le hglen hg, ?_, ?_, ?_, hmapped, ?_, ?_, rfl,
    .of_trace_eq rfl⟩
  · exact fun _ j hj => m.store_zero_ram (hunused.1 j hj)
  · rw [hwalk r hr.le, if_neg hne]
  · exact fun y j _ hzero => m.store_zero_ram hzero
  · intro q _
    apply pageContent_congr (hpages q) _ rfl
    intro y hy
    have hyx : y ≠ x := h.leaf_ne_table (length_pagePath c q) hy hp hx
    funext j
    simp [PhysicalMemory.store, hyx]
  · intro q hq hres
    exact hswap q hq (frameOf_of_mapped hmapped hres)

omit hf in
theorem allocation_evict {p : List Nat} {x i : Nat} (hlen : p.length + 1 = c.tablesDepth)
    (hx : frameAt c m p = some x) (hg : frameAt c m (p ++ [i]) = some g) (hpos : g ≠ 0)
    (habsent : frameOf c m page = none) (hdepth : r.length = depth) :
    Allocation c m (m.evicted c depth x i g (pathPage c (p ++ [i]))) page r g top := by
  have hglen : (p ++ [i]).length = c.tablesDepth := by simpa using hlen
  obtain ⟨hforest, hframe⟩ := evicted_forest h hlen hx hg depth
  have hnum : pathPage c (p ++ [i]) < c.numPages := h.pages _ g hglen hg
  have hpath : pagePath c (pathPage c (p ++ [i])) = p ++ [i] :=
    pagePath_pathPage c hglen (frameAt_slots hg)
  have hin : frameOf c m (pathPage c (p ++ [i])) = some g := frameOf_pathPage hglen hg
  generalize pathPage c (p ++ [i]) = ev at hforest hframe hnum hpath hin ⊢
  have hout : frameOf c (m.evicted c depth x i g ev) ev = none := by
    unfold frameOf
    rw [hframe _ (length_pagePath c ev).le, if_pos hpath]
  have hother : ∀ q < c.numPages, q ≠ ev →
      frameOf c (m.evicted c depth x i g ev) q = frameOf c m q := by
    intro q hq hne
    unfold frameOf
    rw [hframe _ (length_pagePath c q).le, if_neg]
    intro heq
    exact hne (pagePath_inj c hq hnum (heq.trans hpath.symm))
  have hmapped : ∀ q y, q.length ≤ c.tablesDepth →
      frameAt c (m.evicted c depth x i g ev) q = some y → frameAt c m q = some y := by
    intro q y hq hw
    rw [hframe q hq] at hw
    exact (Option.ite_none_left_eq_some.mp hw).2
  refine ⟨hforest, h.frameAt_le hglen.le hg, ?_, ?_, fun y j _ hword => m.evicted_zero c hword,
    hmapped, ?_, ?_, ?_, ⟨[.evict g ev], m.evicted_trace c depth x i g ev, ?_⟩⟩
  · intro hdeep j hj
    exact m.evicted_cleared c (by omega) hj
  · rw [hframe r hr.le, if_neg]
    rintro rfl
    omega
  · intro q hq
    by_cases hev : q = ev
    · rw [hev, pageContent_absent hout, pageContent_resident hin, m.evicted_swapFile c]
      exact if_pos rfl
    · apply pageContent_congr (hother q hq hev)
      · intro y hy
        apply m.evicted_ram c (h.leaf_ne_table (length_pagePath c q) hy (by omega) hx)
        rintro rfl
        exact hev (h.frameOf_inj hq hnum hy hin)
      · rw [m.evicted_swapFile c]
        exact if_neg hev
  · intro q hq hres
    have hev : q ≠ ev := by
      rintro rfl
      exact hres hout
    rw [m.evicted_swapFile c, if_neg hev]
    exact hswap q hq (frameOf_of_mapped hmapped hres)
  · have hev : page ≠ ev := by
      rintro rfl
      rw [hin] at habsent
      cases habsent
    rw [m.evicted_swapFile c]
    exact if_neg hev
  · intro move hmove
    rw [List.mem_singleton.mp hmove]
    exact ⟨hpos, h.frameAt_lt hglen.le hg, hnum⟩

/-- Every outcome is an `Allocation`. -/
theorem Allocates.allocation (halloc : Allocates c m f depth top g top' m')
    (habsent : frameOf c m page = none) (hdepth : r.length = depth) :
    Allocation c m m' page r g top' := by
  cases halloc with
  | reuse hlen hx hg _ hunused => exact allocation_reuse h hswap hr hf hlen hx hg hunused page
  | fresh _ hroom => exact allocation_fresh h hswap hroom page r
  | evict _ _ hlen hx hg hpos =>
      exact allocation_evict h hswap hr hlen hx hg hpos habsent hdepth

end Outcomes

end Paging
