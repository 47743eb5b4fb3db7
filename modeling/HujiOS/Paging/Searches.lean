import HujiOS.Loops
import HujiOS.Paging.PageTree

/-!
# The two searches

On a page tree no read of a search fails, and each search is a fold over a
list of frames in depth-first order: `findFrameToEvict` over the content
pages, `getUnusedOrMaxFrame` over the tables and over all frames below the
root.  What they find follows from the folds.
-/

namespace Paging

open Loops MachineInt PointerTree RadixDigits

variable {c : MemoryConstants} {m : PhysicalMemory} {top : Nat} {p : List Nat} {f : Nat}

/-- The address of the entry that a path ends with; the root has none. -/
def entryAddress (c : MemoryConstants) (m : PhysicalMemory) (path : List Nat) : Nat :=
  match path.getLast? with
  | none => 0
  | some i => physicalAddress c ((frameAt c m path.dropLast).getD 0) i

@[simp] theorem entryAddress_nil (c : MemoryConstants) (m : PhysicalMemory) :
    entryAddress c m [] = 0 := rfl

theorem entryAddress_snoc (hf : frameAt c m p = some f) (i : Nat) :
    entryAddress c m (p ++ [i]) = physicalAddress c f i := by
  simp [entryAddress, hf]

/-! ## The largest frame -/

/-- The larger of a frame number seen so far and a child. -/
def largerFrame (w : Int) (g : Nat) : Int := if w < g then g else w

theorem foldl_largerFrame (xs : List Nat) (w : Int) :
    w ≤ xs.foldl largerFrame w ∧ (∀ g ∈ xs, (g : Int) ≤ xs.foldl largerFrame w) ∧
      (xs.foldl largerFrame w = w ∨ ∃ g ∈ xs, xs.foldl largerFrame w = g) := by
  induction xs generalizing w with
  | nil => simp
  | cons g xs ih =>
      obtain ⟨hle, hall, hattained⟩ := ih (largerFrame w g)
      have hstep : w ≤ largerFrame w g ∧ (g : Int) ≤ largerFrame w g ∧
          (largerFrame w g = w ∨ largerFrame w g = g) := by
        unfold largerFrame
        split <;> omega
      rw [List.foldl_cons]
      refine ⟨hstep.1.trans hle, ?_, ?_⟩
      · intro x hx
        rcases List.mem_cons.mp hx with rfl | hx
        · exact hstep.2.1.trans hle
        · exact hall x hx
      · rcases hattained with heq | ⟨x, hx, heq⟩
        · rcases hstep.2.2 with hw | hg
          · exact Or.inl (heq.trans hw)
          · exact Or.inr ⟨g, List.mem_cons_self, heq.trans hg⟩
        · exact Or.inr ⟨x, List.mem_cons_of_mem g hx, heq⟩

/-! ## The search for a page to evict -/

/-- The candidate that a content page is. -/
def evictionOf (c : MemoryConstants) (m : PhysicalMemory) (page : Nat) (x : List Nat × Nat) :
    Eviction :=
  { maxCycDist := cycDist c page (pathPage c x.1)
    pageToEvict := pathPage c x.1
    evictedFrame := x.2
    evictedAddressInParent := entryAddress c m x.1 }

/-- What the search for an eviction does at one leaf. -/
def visitLeaf (c : MemoryConstants) (m : PhysicalMemory) (page : Nat) (best : Eviction)
    (x : List Nat × Nat) : Eviction :=
  computeAndUpdateMaxCycDist c page best (entryAddress c m x.1) x.2 (pathPage c x.1)

theorem visitLeaf_eq (c : MemoryConstants) (m : PhysicalMemory) (page : Nat) (best : Eviction)
    (x : List Nat × Nat) : visitLeaf c m page best x =
      if cycDist c page (pathPage c x.1) > best.maxCycDist then evictionOf c m page x else best :=
  rfl

/-- **The eviction search** visits the content pages in order. -/
theorem findFrameToEvict_eq (h : PageTree c m) (page : Nat) {levels : Nat} (best : Eviction)
    (hf : frameAt c m p = some f) (hlen : p.length + levels = c.tablesDepth) :
    findFrameToEvict c m page levels best (entryAddress c m p) f (pathPage c p) =
      .ok ((leaves (entry c m) c.pageSize levels f p).foldl (visitLeaf c m page) best) := by
  induction levels generalizing best f p with
  | zero =>
      rw [findFrameToEvict, leaves, List.foldl_cons, List.foldl_nil, visitLeaf]
  | succ levels ih =>
      have hlt : p.length < c.tablesDepth := by omega
      have hframe : f < c.numFrames := h.frameAt_lt hlt.le hf
      unfold findFrameToEvict leaves
      rw [List.foldl_flatMap]
      apply foldlM_ok
      intro best i hrow
      have hi : i < c.pageSize := List.mem_range.mp hrow
      simp only [pmRead_row m hframe hi, bind, Except.bind]
      rcases h.row_cases hlt hf hi with ⟨hzero, hnone⟩ | ⟨g, hg, _, hram, hsome⟩
      · simp [hzero, hnone]
      · have hstep : frameAt c m (p ++ [i]) = some g := (frameAt_snoc hf i).trans hsome
        have hdeep : (p ++ [i]).length + levels = c.tablesDepth := by
          simp only [List.length_append, List.length_singleton]
          omega
        have hsub := ih best hstep hdeep
        rw [entryAddress_snoc hf, ← pathPage_snoc c hlt (frameAt_slots hf) hi] at hsub
        simp only [hram, ne_eq, Nat.cast_eq_zero, hg, not_false_eq_true, if_true, hsub, hsome,
          Option.elim_some]

/-- The search ends with the first candidate at the largest distance, if one
is farther than what it started from. -/
theorem foldl_visitLeaf (page : Nat) (xs : List (List Nat × Nat)) (best : Eviction) :
    ((∀ x ∈ xs, cycDist c page (pathPage c x.1) ≤ best.maxCycDist) ∧
        xs.foldl (visitLeaf c m page) best = best) ∨
      ∃ before x after, xs = before ++ x :: after ∧
        xs.foldl (visitLeaf c m page) best = evictionOf c m page x ∧
        best.maxCycDist < cycDist c page (pathPage c x.1) ∧
        (∀ y ∈ before, cycDist c page (pathPage c y.1) < cycDist c page (pathPage c x.1)) ∧
        ∀ y ∈ after, cycDist c page (pathPage c y.1) ≤ cycDist c page (pathPage c x.1) := by
  induction xs using List.reverseRecOn with
  | nil => simp
  | append_singleton xs z ih =>
      rw [List.foldl_append, List.foldl_cons, List.foldl_nil, visitLeaf_eq]
      rcases ih with ⟨hall, heq⟩ | ⟨before, x, after, hsplit, heq, hfar, hbefore, hafter⟩
      · rw [heq]
        by_cases hz : cycDist c page (pathPage c z.1) > best.maxCycDist
        · right
          refine ⟨xs, z, [], rfl, if_pos hz, hz, ?_, by simp⟩
          intro y hy
          exact (hall y hy).trans_lt hz
        · left
          refine ⟨fun y hy => ?_, if_neg hz⟩
          rcases List.mem_append.mp hy with hy | hy
          · exact hall y hy
          · obtain rfl := List.mem_singleton.mp hy
            exact not_lt.mp hz
      · rw [heq]
        right
        by_cases hz : cycDist c page (pathPage c z.1) > cycDist c page (pathPage c x.1)
        · refine ⟨xs, z, [], rfl, if_pos hz, hfar.trans hz, ?_, by simp⟩
          intro y hy
          rw [hsplit] at hy
          rcases List.mem_append.mp hy with hy | hy
          · exact (hbefore y hy).trans hz
          · rcases List.mem_cons.mp hy with rfl | hy
            · exact hz
            · exact (hafter y hy).trans_lt hz
        · refine ⟨before, x, after ++ [z], by simp [hsplit], if_neg hz, hfar, hbefore, ?_⟩
          intro y hy
          rcases List.mem_append.mp hy with hy | hy
          · exact hafter y hy
          · obtain rfl := List.mem_singleton.mp hy
            exact not_lt.mp hz

/-- The casts of the distance are exact on page numbers. -/
theorem cycDist_eq {page q : Nat} (hpage : page < c.numPages) (hq : q < c.numPages) :
    cycDist c page q =
      min ((c.numPages : Int) - ((page : Int) - q).natAbs) ((page : Int) - q).natAbs := by
  have hlt := c.numPages_lt
  have hsize : toInt32 c.numPages = c.numPages :=
    toInt32_of_range (by unfold intMin; omega) (by unfold intMax; omega)
  have hdelta : toInt32 ((page : Int) - q) = page - q :=
    toInt32_of_range (by unfold intMin; omega) (by unfold intMax; omega)
  unfold cycDist
  dsimp only
  rw [toInt32_toUInt64, hsize, hdelta]

theorem cycDist_pos {page q : Nat} (hpage : page < c.numPages) (hq : q < c.numPages)
    (hne : page ≠ q) : 0 < cycDist c page q := by
  rw [cycDist_eq hpage hq]
  omega

/-- The cyclic distance of two page numbers. -/
def cyclicDistance (c : Widths) (p q : Nat) : Nat :=
  min ((p : Int) - q).natAbs (c.numPages - ((p : Int) - q).natAbs)

/-- Between pages, the arithmetic of the source does not wrap. -/
theorem cycDist_eq_cyclicDistance {page q : Nat} (hpage : page < c.numPages)
    (hq : q < c.numPages) : cycDist c page q = cyclicDistance c page q := by
  rw [cycDist_eq hpage hq, cyclicDistance]
  omega

/-- A mapped page. -/
def Resident (c : Widths) (m : PhysicalMemory) (q : Nat) : Prop :=
  q < c.numPages ∧ frameOf c m q ≠ none

theorem frameOf_of_not_resident {c : Widths} {q : Nat} (hq : q < c.numPages)
    (habsent : ¬ Resident c m q) : frameOf c m q = none := by
  by_contra hmapped
  exact habsent ⟨hq, hmapped⟩

/-- What is at the bottom is a resident page. -/
theorem PageTree.resident (h : PageTree c m) (hlen : p.length = c.tablesDepth)
    (hf : frameAt c m p = some f) : Resident c m (pathPage c p) :=
  ⟨h.pages p f hlen hf, mapped_of_frameOf (frameOf_pathPage hlen hf)⟩

/-- `q` is a resident page at the largest cyclic distance from `page`, and the
first of these. -/
structure Farthest (c : Widths) (m : PhysicalMemory) (page q : Nat) : Prop where
  resident : Resident c m q
  farthest : ∀ r, Resident c m r → cyclicDistance c page r ≤ cyclicDistance c page q
  least : ∀ r, Resident c m r → cyclicDistance c page r = cyclicDistance c page q → q ≤ r

/-- The content pages that a search from the root visits are the resident pages,
in ascending order. -/
theorem leaves_ascending (c : MemoryConstants) (m : PhysicalMemory) :
    (leaves (entry c m) c.pageSize c.tablesDepth 0 []).Pairwise fun x y =>
      pathPage c x.1 < pathPage c y.1 := by
  apply leaves_pairwise (R := fun p q => pathPage c p < pathPage c q) entry_lt
  intro p i j q r hij hlen hslots
  exact ofDigits_lt_of_digit_lt c.one_lt_pageSize hij hlen hslots p

/-- The search comes to every resident page. -/
theorem mem_leaves_of_resident {q : Nat} (hq : Resident c m q) :
    ∃ x ∈ leaves (entry c m) c.pageSize c.tablesDepth 0 [], pathPage c x.1 = q := by
  obtain ⟨g, hg⟩ := Option.ne_none_iff_exists'.mp hq.2
  refine ⟨(pagePath c q, g), ?_, pathPage_pagePath c hq.1⟩
  exact (mem_leaves entry_lt).mpr ⟨pagePath c q, length_pagePath c q, rfl, hg⟩

/-- The search comes to resident pages only. -/
theorem resident_of_mem_leaves (h : PageTree c m) {x : List Nat × Nat}
    (hx : x ∈ leaves (entry c m) c.pageSize c.tablesDepth 0 []) :
    x.1.length = c.tablesDepth ∧ frameAt c m x.1 = some x.2 ∧ Resident c m (pathPage c x.1) := by
  obtain ⟨q, hlen, hpath, hw⟩ := (mem_leaves entry_lt).mp hx
  rw [List.nil_append] at hpath
  subst hpath
  exact ⟨hlen, hw, h.resident hlen hw⟩

/-- In that order the first candidate at the largest distance is the page that
the choice is to be. -/
theorem farthest_of_split {page : Nat} (h : PageTree c m) (hpage : page < c.numPages)
    {before after : List (List Nat × Nat)} {x : List Nat × Nat}
    (hsplit : leaves (entry c m) c.pageSize c.tablesDepth 0 [] = before ++ x :: after)
    (hbefore : ∀ y ∈ before, cycDist c page (pathPage c y.1) < cycDist c page (pathPage c x.1))
    (hafter : ∀ y ∈ after, cycDist c page (pathPage c y.1) ≤ cycDist c page (pathPage c x.1)) :
    Farthest c m page (pathPage c x.1) := by
  have hx := (resident_of_mem_leaves h (x := x) (by simp [hsplit])).2.2
  have hascending := leaves_ascending c m
  rw [hsplit] at hascending
  have hlater := (List.pairwise_cons.mp (List.pairwise_append.mp hascending).2.1).1
  -- a resident page is nearer, or it is not farther and comes later
  have hcompare : ∀ r, Resident c m r →
      cyclicDistance c page r < cyclicDistance c page (pathPage c x.1) ∨
        cyclicDistance c page r ≤ cyclicDistance c page (pathPage c x.1) ∧ pathPage c x.1 ≤ r := by
    intro r hr
    obtain ⟨y, hy, rfl⟩ := mem_leaves_of_resident hr
    have hdist := cycDist_eq_cyclicDistance hpage hr.1
    have hdist' := cycDist_eq_cyclicDistance hpage hx.1
    rw [hsplit] at hy
    rcases List.mem_append.mp hy with hy | hy
    · have hlt := hbefore y hy
      exact Or.inl (by omega)
    · rcases List.mem_cons.mp hy with rfl | hy
      · exact Or.inr ⟨le_rfl, le_rfl⟩
      · have hle := hafter y hy
        exact Or.inr ⟨by omega, (hlater y hy).le⟩
  refine ⟨hx, fun r hr => ?_, fun r hr heq => ?_⟩
  · rcases hcompare r hr with hlt | hle
    · exact hlt.le
    · exact hle.1
  · rcases hcompare r hr with hlt | hle
    · omega
    · exact hle.2

/-- With a page resident, and the faulting page not among them, the search from
the root finds the first of the farthest resident pages. -/
theorem findFrameToEvict_spec {page : Nat} (h : PageTree c m) (hpage : page < c.numPages)
    (habsent : frameOf c m page = none) (hres : ∃ r, Resident c m r) :
    ∃ q g, q.length = c.tablesDepth ∧ frameAt c m q = some g ∧ Farthest c m page (pathPage c q) ∧
      findFrameToEvict c m page c.tablesDepth
        { maxCycDist := 0, pageToEvict := 0, evictedFrame := 0, evictedAddressInParent := 0 }
        0 0 0 = .ok (evictionOf c m page (q, g)) := by
  have hsearch := findFrameToEvict_eq h page
    { maxCycDist := 0, pageToEvict := 0, evictedFrame := 0, evictedAddressInParent := 0 }
    (frameAt_nil c m) (Nat.zero_add c.tablesDepth)
  rcases foldl_visitLeaf (c := c) (m := m) page (leaves (entry c m) c.pageSize c.tablesDepth 0 [])
      { maxCycDist := 0, pageToEvict := 0, evictedFrame := 0, evictedAddressInParent := 0 } with
    ⟨hall, _⟩ | ⟨before, ⟨q, g⟩, after, hsplit, hfound, _, hbefore, hafter⟩
  · -- every resident page is at a positive distance
    obtain ⟨r, hr⟩ := hres
    obtain ⟨x, hx, hxr⟩ := mem_leaves_of_resident hr
    have hne : page ≠ r := by
      rintro rfl
      exact hr.2 habsent
    have hdist := cycDist_pos hpage hr.1 hne
    have hle : cycDist c page (pathPage c x.1) ≤ 0 := hall x hx
    rw [hxr] at hle
    omega
  · have hmem : (q, g) ∈ leaves (entry c m) c.pageSize c.tablesDepth 0 [] := by simp [hsplit]
    obtain ⟨hlen, hw, _⟩ := resident_of_mem_leaves h hmem
    exact ⟨q, g, hlen, hw, farthest_of_split h hpage hsplit hbefore hafter,
      hsearch.trans (congrArg Except.ok hfound)⟩

/-! ## The search for an unused frame -/

/-- A table other than `used` whose entries are all zero. -/
def UnusedTable (c : MemoryConstants) (m : PhysicalMemory) (used : Int) (f : Nat) : Prop :=
  (∀ i < c.pageSize, m.ram f i = 0) ∧ (f : Int) ≠ used

instance (used : Int) : DecidablePred (UnusedTable c m used) := fun f =>
  inferInstanceAs (Decidable ((∀ i < c.pageSize, m.ram f i = 0) ∧ (f : Int) ≠ used))

/-- The out-parameters for an unused table. -/
def noteUnused (c : MemoryConstants) (m : PhysicalMemory) (used : Int) (u : Int × Nat)
    (x : List Nat × Nat) : Int × Nat :=
  if UnusedTable c m used x.2 then ((x.2 : Int), entryAddress c m x.1) else u

/-- What is found after the tables `ts` and the frames `gs`. -/
def UnusedOrMax.visit (c : MemoryConstants) (m : PhysicalMemory) (used : Int)
    (found : UnusedOrMax) (ts : List (List Nat × Nat)) (gs : List Nat) : UnusedOrMax :=
  let u := ts.foldl (noteUnused c m used) (found.unusedFrame, found.unusedAddressInParent)
  { unusedFrame := u.1
    unusedAddressInParent := u.2
    maxFrame := gs.foldl largerFrame found.maxFrame }

theorem UnusedOrMax.visit_append (used : Int) (found : UnusedOrMax)
    (ts ts' : List (List Nat × Nat)) (gs gs' : List Nat) :
    found.visit c m used (ts ++ ts') (gs ++ gs') =
      (found.visit c m used ts gs).visit c m used ts' gs' := by
  simp [UnusedOrMax.visit, List.foldl_append]

/-- The tables under the entry `i` of a table. -/
def tablesUnder (c : MemoryConstants) (m : PhysicalMemory) (levels f : Nat) (p : List Nat)
    (i : Nat) : List (List Nat × Nat) :=
  (entry c m f i).elim [] fun g => tables (entry c m) c.pageSize levels g (p ++ [i])

/-- The frames under the entry `i` of a table, its own first. -/
def framesUnder (c : MemoryConstants) (m : PhysicalMemory) (levels f i : Nat) : List Nat :=
  (entry c m f i).elim [] fun g => g :: descendants (entry c m) c.pageSize levels g

/-- One round of the loop over the rows of a table. -/
def visitRow (c : MemoryConstants) (m : PhysicalMemory) (used : Int) (levels f : Nat)
    (p : List Nat) (x : UnusedOrMax × Bool) (i : Nat) : UnusedOrMax × Bool :=
  (x.1.visit c m used (tablesUnder c m levels f p i) (framesUnder c m levels f i),
    x.2 || decide (m.ram f i ≠ 0))

/-- The rounds visit what is under the rows, one row after the other. -/
theorem UnusedOrMax.foldl_visit (used : Int) (ts : Nat → List (List Nat × Nat))
    (gs : Nat → List Nat) (busy : Nat → Bool) (rows : List Nat) (x : UnusedOrMax × Bool) :
    rows.foldl (fun x i => (x.1.visit c m used (ts i) (gs i), x.2 || busy i)) x =
      (x.1.visit c m used (rows.flatMap ts) (rows.flatMap gs), x.2 || rows.any busy) := by
  induction rows generalizing x with
  | nil => simp [UnusedOrMax.visit]
  | cons i rows ih =>
      rw [List.foldl_cons, ih]
      simp only [List.flatMap_cons, List.any_cons, UnusedOrMax.visit_append, Bool.or_assoc]

/-- By induction over the rows, the loop visits the tables and the frames
under each. -/
theorem foldl_visitRow (used : Int) (levels f : Nat) (p : List Nat) (rows : List Nat)
    (x : UnusedOrMax × Bool) : rows.foldl (visitRow c m used levels f p) x =
      (x.1.visit c m used (rows.flatMap (tablesUnder c m levels f p))
        (rows.flatMap (framesUnder c m levels f)),
        x.2 || rows.any fun i => decide (m.ram f i ≠ 0)) :=
  UnusedOrMax.foldl_visit used _ _ _ rows x

/-- The table itself comes after everything under it. -/
theorem UnusedOrMax.visit_table (used : Int) (found : UnusedOrMax) (p : List Nat) (f : Nat) :
    found.visit c m used [(p, f)] [] = if (∀ i < c.pageSize, m.ram f i = 0) ∧ (f : Int) ≠ used then
      { found with unusedAddressInParent := entryAddress c m p, unusedFrame := f } else found := by
  by_cases hunused : UnusedTable c m used f
  · refine Eq.trans ?_ (if_pos hunused).symm
    simp [UnusedOrMax.visit, noteUnused, hunused]
  · refine Eq.trans ?_ (if_neg hunused).symm
    simp [UnusedOrMax.visit, noteUnused, hunused]

/-- One round over a row, for any search of what is below it: the frame of the entry is
seen first, then what is under it. -/
theorem visit_row (h : PageTree c m) {used : Int} (hlt : p.length < c.tablesDepth)
    (hf : frameAt c m p = some f) {i : Nat} (hi : i < c.pageSize)
    {search : UnusedOrMax → Int → Nat → Except AssertionFailure UnusedOrMax}
    {ts : List (List Nat × Nat)} {gs : List Nat}
    (hnone : entry c m f i = none → ts = [] ∧ gs = [])
    (hsome : ∀ g, entry c m f i = some g → ∃ below, gs = g :: below ∧
      ∀ found, search found g (physicalAddress c f i) = .ok (found.visit c m used ts below))
    (x : UnusedOrMax × Bool) :
    (do
      let childFrame ← pmRead c m (physicalAddress c f i)
      if childFrame ≠ 0 then
        let found := { x.1 with
          maxFrame := if x.1.maxFrame < childFrame then childFrame else x.1.maxFrame }
        let found ← search found childFrame (physicalAddress c f i)
        .ok (found, true)
      else .ok (x.1, x.2)) =
      (.ok (x.1.visit c m used ts gs, x.2 || decide (m.ram f i ≠ 0)) :
        Except AssertionFailure (UnusedOrMax × Bool)) := by
  have hread := pmRead_row m (h.frameAt_lt hlt.le hf) hi
  rcases h.row_cases hlt hf hi with ⟨hzero, hentry⟩ | ⟨g, hg, _, hram, hentry⟩
  · obtain ⟨rfl, rfl⟩ := hnone hentry
    simp [hread, bind, Except.bind, UnusedOrMax.visit, hzero]
  · obtain ⟨below, rfl, hsearch⟩ := hsome g hentry
    simp [hread, bind, Except.bind, UnusedOrMax.visit, hram, hg, hsearch, largerFrame]

/-- **The unused-frame search** visits the tables bottom-up and looks at every
frame below the root. -/
theorem getUnusedOrMaxFrame_eq (h : PageTree c m) (used : Int) {levels : Nat}
    (found : UnusedOrMax) (hf : frameAt c m p = some f)
    (hlen : p.length + levels = c.tablesDepth) :
    getUnusedOrMaxFrame c m used levels found f (entryAddress c m p) =
      .ok (found.visit c m used (tables (entry c m) c.pageSize levels f p)
        (descendants (entry c m) c.pageSize levels f)) := by
  induction levels generalizing found f p with
  | zero => rfl
  | succ levels ih =>
      have hlt : p.length < c.tablesDepth := by omega
      have htables : tables (entry c m) c.pageSize (levels + 1) f p =
          (List.range c.pageSize).flatMap (tablesUnder c m levels f p) ++ [(p, f)] := rfl
      have hframes : descendants (entry c m) c.pageSize (levels + 1) f =
          (List.range c.pageSize).flatMap (framesUnder c m levels f) ++ [] :=
        (List.append_nil _).symm
      unfold getUnusedOrMaxFrame
      rw [htables, hframes, UnusedOrMax.visit_append, foldlM_ok (visitRow c m used levels f p),
        foldl_visitRow]
      · have hempty : (List.range c.pageSize).any (fun i => decide (m.ram f i ≠ 0)) = false ↔
            ∀ i < c.pageSize, m.ram f i = 0 := by
          simp
        rw [UnusedOrMax.visit_table]
        simp only [bind, Except.bind, Bool.false_or, hempty]
        split <;> rfl
      · intro x i hrow
        apply visit_row h hlt hf (List.mem_range.mp hrow)
        · intro hnone
          simp [tablesUnder, framesUnder, hnone]
        · intro g hsome
          have hstep : frameAt c m (p ++ [i]) = some g := (frameAt_snoc hf i).trans hsome
          have hdeep : (p ++ [i]).length + levels = c.tablesDepth := by
            simp only [List.length_append, List.length_singleton]
            omega
          have hsub := fun found => ih found hstep hdeep
          rw [entryAddress_snoc hf] at hsub
          refine ⟨descendants (entry c m) c.pageSize levels g, by simp [framesUnder, hsome], ?_⟩
          simpa [tablesUnder, hsome] using hsub

/-- From the root the largest frame found is the largest one in use. -/
theorem foldl_descendants (h : Forest c m none top) :
    (descendants (entry c m) c.pageSize c.tablesDepth 0).foldl largerFrame 0 = top := by
  obtain ⟨hlo, hall, hattained⟩ :=
    foldl_largerFrame (descendants (entry c m) c.pageSize c.tablesDepth 0) 0
  have htop : (top : Int) ≤
      (descendants (entry c m) c.pageSize c.tablesDepth 0).foldl largerFrame 0 := by
    by_cases hzero : top = 0
    · rw [hzero]
      exact hlo
    · obtain ⟨p, hp, hw⟩ := (h.frames top).mpr ⟨le_rfl, by simp⟩
      apply hall
      refine (mem_descendants entry_lt).mpr ⟨p, ?_, hp, hw⟩
      apply List.length_pos_iff.mpr
      rintro rfl
      exact hzero (Option.some.inj hw).symm
  rcases hattained with hzero | ⟨g, hg, hval⟩
  · omega
  · obtain ⟨p, _, hp, hw⟩ := (mem_descendants entry_lt).mp hg
    have hle := h.frameAt_le hp hw
    omega

/-- What the unused-frame search finds from the root: the largest frame in use,
and, unless there is none, a table without entries together with the address
of the entry that refers to it.  The root itself counts as nothing found. -/
theorem getUnusedOrMaxFrame_spec (h : Forest c m none top) (used : Int) :
    ∃ found, getUnusedOrMaxFrame c m used c.tablesDepth
        { unusedFrame := 0, unusedAddressInParent := 0, maxFrame := 0 } 0 0 = .ok found ∧
      found.maxFrame = top ∧
      ((found.unusedFrame = 0 ∧ ∀ p f, p.length < c.tablesDepth → frameAt c m p = some f →
          UnusedTable c m used f → f = 0) ∨
        ∃ p f i g, p.length + 1 < c.tablesDepth ∧ frameAt c m p = some f ∧ i < c.pageSize ∧
          frameAt c m (p ++ [i]) = some g ∧ g ≠ 0 ∧ UnusedTable c m used g ∧
          found.unusedFrame = g ∧ found.unusedAddressInParent = physicalAddress c f i) := by
  have heq := getUnusedOrMaxFrame_eq h.toPageTree used
    { unusedFrame := 0, unusedAddressInParent := 0, maxFrame := 0 }
    (frameAt_nil c m) (Nat.zero_add c.tablesDepth)
  refine ⟨_, heq, foldl_descendants h, ?_⟩
  rcases foldl_last_choice (fun x : List Nat × Nat => UnusedTable c m used x.2)
      (fun x => ((x.2 : Int), entryAddress c m x.1))
      (tables (entry c m) c.pageSize c.tablesDepth 0 []) ((0 : Int), 0) with
    ⟨hnone, hval⟩ | ⟨⟨path, g⟩, hmem, hunused, hval⟩
  · left
    refine ⟨congrArg Prod.fst hval, ?_⟩
    intro p f hp hw hunused
    exact absurd hunused (hnone (p, f) ((mem_tables entry_lt).mpr ⟨p, hp, rfl, hw⟩))
  · obtain ⟨q, hlen, hpath, hw⟩ := (mem_tables entry_lt).mp hmem
    obtain rfl : path = q := hpath
    have hframe : frameAt c m path = some g := hw
    rcases List.eq_nil_or_concat path with rfl | ⟨p, i, rfl⟩
    · left
      obtain rfl : 0 = g := Option.some.inj hw
      refine ⟨congrArg Prod.fst hval, ?_⟩
      intro p f hp hpf _
      by_contra hne
      have hnil : p ≠ [] := by
        rintro rfl
        exact hne (Option.some.inj hpf).symm
      rw [Forest.frameAt_below_childless hframe (fun _ => hunused.1) List.nil_prefix hp.le
        hnil] at hpf
      cases hpf
    · right
      rw [List.concat_eq_append] at *
      obtain ⟨f, hf, hentry⟩ := frameAt_snoc_eq_some.mp hframe
      have hlt : p.length + 1 < c.tablesDepth := by simpa using hlen
      obtain ⟨_, hpos⟩ := h.ram_of_entry (by omega) hf hentry
      refine ⟨p, f, i, g, hlt, hf, entry_lt f i g hentry, hframe, hpos, hunused,
        congrArg Prod.fst hval, ?_⟩
      rw [← entryAddress_snoc hf i]
      exact congrArg Prod.snd hval

end Paging
