import HujiOS.Paging.FreeFrames
import Mathlib.Data.Set.Subsingleton

/-!
# Empty tables never accumulate

Cutting off a page can leave its table empty, and taking an empty table away can
leave its parent empty.  But a frame is cut off to be linked elsewhere, and before
a page is evicted there is no empty table left to take: every fault empties one
table at most, and uses up the one that was empty before.  The table that the
translation stands in gets an entry before it moves on, and what it moves to is
where it stands next.

So there is never a choice between empty tables, and the search finds the same one
in whatever order it goes through the rows.
-/

namespace Paging

open Loops MachineInt PointerTree Runs

/-- The empty tables other than the root and `used`. -/
def emptyTables (c : Widths) (m : PhysicalMemory) (used : Nat) : Set Nat :=
  {x | EmptyTable c m used x ∧ x ≠ 0}

/-- `getUnusedOrMaxFrame` with an order of the rows for each table. -/
def getUnusedOrMaxFrameIn (c : Widths) (rows : Int → List Nat) (m : PhysicalMemory)
    (usedEmptyFrame : Int) :
    Nat → UnusedOrMax → Int → Nat → Except AssertionFailure UnusedOrMax
  | 0, found, _, _ => .ok found
  | levels + 1, found, currFrame, cameFromPhysicalAddress => do
      let (found, hasChildren) ← (rows currFrame).foldlM
        (fun (found, hasChildren) rowIdx => do
          let physicalAddress := physicalAddress c currFrame rowIdx
          let childFrame ← pmRead c m physicalAddress
          if childFrame ≠ 0 then
            let found := { found with
              maxFrame := if found.maxFrame < childFrame then childFrame else found.maxFrame }
            let found ← getUnusedOrMaxFrameIn c rows m usedEmptyFrame levels found childFrame
              physicalAddress
            .ok (found, true)
          else .ok (found, hasChildren)) (found, false)
      if hasChildren = false ∧ currFrame ≠ usedEmptyFrame then
        .ok { found with
          unusedAddressInParent := cameFromPhysicalAddress
          unusedFrame := currFrame }
      else .ok found

/-- What the search from the root finds does not depend on the order, and it is the
empty table if there is one. -/
structure FindsEmptyTable (c : Widths) (m : PhysicalMemory) (used : Nat) (found : UnusedOrMax) :
    Prop where
  search : getUnusedOrMaxFrame c m used c.tablesDepth
    { unusedFrame := 0, unusedAddressInParent := 0, maxFrame := 0 } 0 0 = .ok found
  any_order : ∀ rows : Int → List Nat, (∀ f, (rows f).Perm (List.range c.pageSize)) →
    getUnusedOrMaxFrameIn c rows m used c.tablesDepth
      { unusedFrame := 0, unusedAddressInParent := 0, maxFrame := 0 } 0 0 = .ok found
  finds : ∀ x, EmptyTable c m used x → found.unusedFrame = x

variable {c : MemoryConstants} {m₀ m m' : PhysicalMemory} {top₀ top top' page depth f g : Nat}
  {p r : List Nat}

/-! ## The order of the search -/

/-- The larger of two frames does not depend on which was seen first. -/
theorem largerFrame_right_comm (w : Int) (g g' : Nat) :
    largerFrame (largerFrame w g) g' = largerFrame (largerFrame w g') g := by
  unfold largerFrame
  split_ifs <;> omega

/-- The order of the visits does not matter when no two tables are unused. -/
theorem UnusedOrMax.visit_perm {used : Int} {ts ts' : List (List Nat × Nat)} {gs gs' : List Nat}
    (hts : ts.Perm ts') (hgs : gs.Perm gs')
    (hunique : ∀ x ∈ ts, ∀ y ∈ ts, UnusedTable c m used x.2 → UnusedTable c m used y.2 → x = y)
    (found : UnusedOrMax) : found.visit c m used ts gs = found.visit c m used ts' gs' := by
  have hunused := foldl_choice_perm (fun x : List Nat × Nat => UnusedTable c m used x.2)
    (fun x => ((x.2 : Int), entryAddress c m x.1)) hts hunique
    (found.unusedFrame, found.unusedAddressInParent)
  have hmax := hgs.foldl_eq' (f := largerFrame)
    (fun x _ y _ w => largerFrame_right_comm w x y) found.maxFrame
  unfold UnusedOrMax.visit
  rw [hmax]
  exact congrArg (fun u : Int × Nat =>
    ({ unusedFrame := u.1, unusedAddressInParent := u.2
       maxFrame := gs'.foldl largerFrame found.maxFrame } : UnusedOrMax)) hunused

/-- **In any order** the search visits each table and each frame once. -/
theorem getUnusedOrMaxFrameIn_eq (h : PageTree c m) (used : Int) {rows : Int → List Nat}
    (hrows : ∀ f, (rows f).Perm (List.range c.pageSize)) {levels : Nat}
    (hf : frameAt c m p = some f) (hlen : p.length + levels = c.tablesDepth) :
    ∃ ts gs, ts.Perm (tables (entry c m) c.pageSize levels f p) ∧
      gs.Perm (descendants (entry c m) c.pageSize levels f) ∧
      ∀ found, getUnusedOrMaxFrameIn c rows m used levels found f (entryAddress c m p) =
        .ok (found.visit c m used ts gs) := by
  induction levels generalizing f p with
  | zero => exact ⟨[], [], .refl _, .refl _, fun _ => rfl⟩
  | succ levels ih =>
      have hlt : p.length < c.tablesDepth := by omega
      -- what is under one row, in some order
      have hunder : ∀ i, ∃ ts gs, ts.Perm (tablesUnder c m levels f p i) ∧
          gs.Perm (framesUnder c m levels f i) ∧ (entry c m f i = none → ts = [] ∧ gs = []) ∧
          ∀ g, entry c m f i = some g → ∃ below, gs = g :: below ∧ ∀ found,
            getUnusedOrMaxFrameIn c rows m used levels found g (physicalAddress c f i) =
              .ok (found.visit c m used ts below) := by
        intro i
        cases hentry : entry c m f i with
        | none =>
            exact ⟨[], [], by simp [tablesUnder, hentry], by simp [framesUnder, hentry],
              fun _ => ⟨rfl, rfl⟩, by simp⟩
        | some g =>
            have hstep : frameAt c m (p ++ [i]) = some g := (frameAt_snoc hf i).trans hentry
            have hdeep : (p ++ [i]).length + levels = c.tablesDepth := by
              simp only [List.length_append, List.length_singleton]
              omega
            obtain ⟨ts, gs, hts, hgs, hsub⟩ := ih hstep hdeep
            rw [entryAddress_snoc hf] at hsub
            refine ⟨ts, g :: gs, by simpa [tablesUnder, hentry] using hts,
              by simpa [framesUnder, hentry] using hgs, by simp, fun g' hg' => ?_⟩
            obtain rfl : g = g' := Option.some.inj hg'
            exact ⟨gs, rfl, hsub⟩
      choose ts gs hts hgs hnone hsome using hunder
      have hmem : ∀ i ∈ rows f, i < c.pageSize := fun i hi =>
        List.mem_range.mp ((hrows f).mem_iff.mp hi)
      refine ⟨(rows f).flatMap ts ++ [(p, f)], (rows f).flatMap gs ++ [], ?_, ?_, fun found => ?_⟩
      · apply List.Perm.append_right
        exact ((hrows f).flatMap_right ts).trans
          (List.Perm.flatMap_left _ fun i _ => hts i)
      · rw [List.append_nil]
        exact ((hrows f).flatMap_right gs).trans
          (List.Perm.flatMap_left _ fun i _ => hgs i)
      · have hempty : (rows f).any (fun i => decide (m.ram f i ≠ 0)) = false ↔
            ∀ i < c.pageSize, m.ram f i = 0 := by
          simp [(hrows f).mem_iff]
        unfold getUnusedOrMaxFrameIn
        rw [foldlM_ok (fun x i => (x.1.visit c m used (ts i) (gs i),
            x.2 || decide (m.ram f i ≠ 0)))
            fun x i hi => visit_row h hlt hf (hmem i hi) (hnone i) (hsome i) x,
          UnusedOrMax.foldl_visit, UnusedOrMax.visit_append, UnusedOrMax.visit_table]
        simp only [bind, Except.bind, Bool.false_or, hempty]
        split <;> rfl

/-! ## One fault -/

/-- An empty table is at a path, and is no table that is left out. -/
theorem mem_emptyTables_iff (h : PageTree c m) {x : Nat} : x ∈ emptyTables c m f ↔
    ∃ p, p.length < c.tablesDepth ∧ frameAt c m p = some x ∧ UnusedTable c m f x ∧ x ≠ 0 := by
  constructor
  · intro hmem
    obtain ⟨hx, hne⟩ := hmem
    obtain ⟨p, hp, hw, hunused⟩ := (emptyTable_iff h).mp hx
    exact ⟨p, hp, hw, hunused, hne⟩
  · intro hpath
    obtain ⟨p, hp, hw, hunused, hne⟩ := hpath
    exact ⟨(emptyTable_iff h).mpr ⟨p, hp, hw, hunused⟩, hne⟩

/-- **An allocation empties one table at most**, the one that its frame was taken
from, and the table that was empty before is what it takes. -/
theorem Allocates.emptied (h : Forest c m none top)
    (halloc : Allocates c m f depth top g top' m') (hone : (emptyTables c m f).Subsingleton) :
    ∃ y, ∀ p x, p.length < c.tablesDepth → frameAt c m p = some x → UnusedTable c m' f x →
      x ≠ 0 → x ≠ g → x = y := by
  -- a table that is empty in `m` as well is the one that is taken
  have hold : ∀ p x, p.length < c.tablesDepth → frameAt c m p = some x → UnusedTable c m' f x →
      x ≠ 0 → m'.ram x = m.ram x → x ∈ emptyTables c m f := by
    intro p x hp hw hunused hne hsame
    refine (mem_emptyTables_iff h.toPageTree).mpr ⟨p, hp, hw, ⟨fun i hi => ?_, hunused.2⟩, hne⟩
    rw [← hsame]
    exact hunused.1 i hi
  cases halloc with
  | @reuse r y i _ hlen hy hg hpos hunusedg =>
      refine ⟨y, fun p x hp hw hunused hne hxg => ?_⟩
      by_contra hxy
      have hsame : (m.store y i 0).ram x = m.ram x := by
        simp [PhysicalMemory.store, hxy]
      have htaken : g ∈ emptyTables c m f :=
        (mem_emptyTables_iff h.toPageTree).mpr ⟨_, by simpa using hlen, hg, hunusedg, hpos⟩
      exact hxg (hone (hold p x hp hw hunused hne hsame) htaken)
  | fresh hnone _ =>
      refine ⟨0, fun p x hp hw hunused hne _ => ?_⟩
      exact hnone p x hp hw hunused
  | @evict r y i _ hnone _ hlen hy hg hpos =>
      refine ⟨y, fun p x hp hw hunused hne hxg => ?_⟩
      by_contra hxy
      have hempty := hold p x hp hw hunused hne (m.evicted_ram c hxy hxg)
      obtain ⟨q, hq, hwq, hunusedx, _⟩ := (mem_emptyTables_iff h.toPageTree).mp hempty
      exact hne (hnone q x hq hwq hunusedx)

/-- What is empty after the frame was linked was empty, or emptied, before. -/
theorem Translating.emptyTables_linked (hpage : page < c.numPages) (hdepth : depth < c.tablesDepth)
    (h : Translating c m₀ top₀ page depth f m top)
    (hzero : m.ram f (fetchDepthOffset c page depth) = 0) (habsent : frameOf c m page = none)
    (halloc : Allocation c m m' page ((pagePath c page).take depth) g top') (htop : top ≤ top')
    {x : Nat}
    (hx : x ∈ emptyTables c (m'.store f (fetchDepthOffset c page depth) g) g) :
    x ≠ 0 ∧ x ≠ g ∧ UnusedTable c m' f x ∧
      ∃ p, p.length < c.tablesDepth ∧ frameAt c m p = some x := by
  have hrlen := length_take_pagePath page hdepth.le
  have hr : ((pagePath c page).take depth).length < c.tablesDepth := by omega
  have hi : fetchDepthOffset c page depth < c.pageSize := fetchOffset_lt c _
  have hnext := h.linked hpage hdepth hzero habsent halloc htop
  obtain ⟨p, hp, hw, hunused, hne⟩ := (mem_emptyTables_iff hnext.forest.toPageTree).mp hx
  have hxg : x ≠ g := fun heq => hunused.2 (congrArg Nat.cast heq)
  have hgpos : g ≠ 0 := halloc.forest.free_ne_zero
  -- the table that the translation stands in has got an entry
  have hxf : x ≠ f := by
    intro heq
    subst heq
    have hword := hunused.1 _ hi
    simp [PhysicalMemory.store, hgpos] at hword
  have hbare := halloc.childless (fetchDepthOffset c page depth)
  rw [Forest.frameAt_link halloc.forest (halloc.path.trans h.walked) hr hi
    (halloc.row f _ h.walked hzero) hbare hp.le] at hw
  split at hw
  · exact absurd (Option.some.inj hw).symm hxg
  · refine ⟨hne, hxg, ⟨fun i hi => ?_, fun heq => hxf (by exact_mod_cast heq)⟩, p, hp,
      halloc.mapped p x hp.le hw⟩
    have hword := hunused.1 i hi
    simpa [PhysicalMemory.store, hxf] using hword

/-- **One round** of the loop keeps at most one table empty besides the one that the
translation stands in. -/
theorem findFrameStep_emptyTables (hpage : page < c.numPages) (hdepth : depth < c.tablesDepth)
    (h : Translating c m₀ top₀ page depth f m top) (hone : (emptyTables c m f).Subsingleton)
    (hstep : findFrameStep c page ((f : Int), m) depth = .ok ((g : Int), m')) :
    (emptyTables c m' g).Subsingleton := by
  have hrlen := length_take_pagePath page hdepth.le
  have hr : ((pagePath c page).take depth).length < c.tablesDepth := by omega
  have hi : fetchDepthOffset c page depth < c.pageSize := fetchOffset_lt c _
  have hread := pmRead_row m (h.forest.frameAt_lt hr.le h.walked) hi
  unfold findFrameStep at hstep
  rcases h.forest.row_cases hr h.walked hi with ⟨hzero, _⟩ | ⟨x, hx, _, hram, _⟩
  · obtain ⟨x, top', m₁, hcreate, hout, halloc, habsent⟩ := h.createFrame_spec hpage hdepth hzero
    have hkept := halloc.path.trans h.walked
    simp only [hread, bind, Except.bind, hzero, if_true, hcreate,
      pmWrite_entry halloc.forest hr.le hkept hi, Except.ok.injEq, Prod.mk.injEq] at hstep
    obtain ⟨hxg, rfl⟩ := hstep
    obtain rfl : x = g := by exact_mod_cast hxg
    obtain ⟨y, hy⟩ := hout.emptied h.forest hone
    have hall : ∀ z ∈ emptyTables c (m₁.store f (fetchDepthOffset c page depth) x) x, z = y := by
      intro z hz
      obtain ⟨hne, hzx, hunused, p, hp, hw⟩ :=
        h.emptyTables_linked hpage hdepth hzero habsent halloc hout.top_le hz
      exact hy p z hp hw hunused hne hzx
    intro z hz z' hz'
    rw [hall z hz, hall z' hz']
  · simp only [hread, bind, Except.bind, hram, Nat.cast_eq_zero, hx, if_false, Except.ok.injEq,
      Prod.mk.injEq] at hstep
    obtain ⟨_, rfl⟩ := hstep
    -- the table that the translation comes from is not empty
    apply hone.anti
    intro z hmem
    obtain ⟨hz, hne⟩ := hmem
    refine ⟨⟨hz.table, ?_, hz.zero⟩, hne⟩
    intro heq
    subst heq
    have hword := hz.zero _ hi
    rw [hram] at hword
    exact hx (by exact_mod_cast hword)

/-! ## A whole translation, and a whole run -/

/-- **The loop** of `findFrame`, cut off at any depth. -/
theorem Inv.walk_emptyTables (h : Inv c m₀ top₀) (hone : (emptyTables c m₀ 0).Subsingleton)
    (hpage : page < c.numPages) (hdepth : depth ≤ c.tablesDepth)
    (hloop : (List.range depth).foldlM (findFrameStep c page) (0, m₀) = .ok ((f : Int), m)) :
    (emptyTables c m f).Subsingleton := by
  induction depth generalizing f m with
  | zero =>
      obtain ⟨hf, rfl⟩ := Prod.mk.inj (Except.ok.inj hloop)
      obtain rfl : 0 = f := by exact_mod_cast hf
      exact hone
  | succ depth ih =>
      obtain ⟨f₁, m₁, top₁, hloop₁, htrans, _⟩ := h.walk hpage (Nat.le_of_succ_le hdepth)
      obtain ⟨f₂, m₂, _, hstep, _, _⟩ := findFrameStep_spec hpage hdepth htrans
      obtain ⟨hf, rfl⟩ :=
        Prod.mk.inj (Except.ok.inj ((foldlM_range_succ hloop₁ hstep).symm.trans hloop))
      obtain rfl : f₂ = f := by exact_mod_cast hf
      exact findFrameStep_emptyTables hpage hdepth htrans (ih (Nat.le_of_succ_le hdepth) hloop₁)
        hstep

/-- Memories that agree on the tables have the same empty ones. -/
theorem emptyTables_subset (h : PageTree c m) (h' : PageTree c m') (used : Nat)
    (hsame : ∀ p x i, p.length < c.tablesDepth → frameAt c m p = some x → i < c.pageSize →
      m'.ram x i = m.ram x i) : emptyTables c m' used ⊆ emptyTables c m used := by
  intro x hx
  obtain ⟨p, hp, hw, hunused, hne⟩ := (mem_emptyTables_iff h').mp hx
  rw [Forest.frameAt_congr hsame hp.le] at hw
  refine (mem_emptyTables_iff h).mpr ⟨p, hp, hw, ⟨fun i hi => ?_, hunused.2⟩, hne⟩
  rw [← hsame p x i hp hw hi]
  exact hunused.1 i hi

/-- The frame of a page is no table, so that what is done to it alone does not
matter. -/
theorem emptyTables_page (h : PageTree c m) (h' : PageTree c m') (hf : frameOf c m page = some f)
    (hsame : ∀ x, x ≠ f → m'.ram x = m.ram x) (used : Nat) :
    emptyTables c m' used ⊆ emptyTables c m used := by
  apply emptyTables_subset h h'
  intro p x i hp hw _
  rw [hsame x (h.leaf_ne_table (length_pagePath c page) hf hp hw).symm]

theorem PhysicalMemory.restored_ram (m : PhysicalMemory) (f page : Nat) {x : Nat} (hx : x ≠ f) :
    (m.restored f page).ram x = m.ram x := by
  unfold restored
  cases m.swapFile page with
  | none => rfl
  | some words => simp [load, setSwap, record, hx]

theorem PhysicalMemory.store_ram (m : PhysicalMemory) (f i : Nat) (value : Int) {x : Nat}
    (hx : x ≠ f) : (m.store f i value).ram x = m.ram x := by
  funext j
  simp [store, hx]

/-- **A translation** leaves at most one table empty. -/
theorem Inv.findFrame_emptyTables (h : Inv c m₀ top₀) (hone : (emptyTables c m₀ 0).Subsingleton)
    (hpage : page < c.numPages) (hfind : findFrame c m₀ page = .ok (f, m)) :
    (emptyTables c m 0).Subsingleton := by
  obtain ⟨g, m₁, top₁, hloop, hend, _⟩ := h.walk hpage le_rfl
  have hlt := h.walk_emptyTables hone hpage le_rfl hloop
  have hg := hend.forest.frameAt_lt (length_pagePath c page).le hend.frame
  unfold findFrame at hfind
  simp only [hloop, bind, Except.bind, toUInt64_frame hg, pmRestore_ok hg, Except.ok.injEq,
    Prod.mk.injEq] at hfind
  obtain ⟨rfl, rfl⟩ := hfind
  have hdone := hend.restored h hpage
  -- where the loop stands at last is a page and no table
  have hlast : emptyTables c m₁ 0 ⊆ emptyTables c m₁ g := by
    intro x hx
    obtain ⟨p, hp, hw, hunused, hne⟩ := (mem_emptyTables_iff hend.forest.toPageTree).mp hx
    have hxg := (hend.forest.leaf_ne_table (length_pagePath c page) hend.frame hp hw).symm
    exact (mem_emptyTables_iff hend.forest.toPageTree).mpr
      ⟨p, hp, hw, ⟨hunused.1, by exact_mod_cast hxg⟩, hne⟩
  exact hlt.anti ((emptyTables_page hend.forest.toPageTree hdone.inv.toPageTree hend.frame
    (fun x hx => m₁.restored_ram g page hx) 0).trans hlast)

/-- **Step lemma.**  A call leaves at most one table empty. -/
theorem next_emptyTables (h : Inv c m top) (hone : (emptyTables c m 0).Subsingleton)
    {access : Access} (hnext : next c m access = some m') : (emptyTables c m' 0).Subsingleton := by
  by_cases ha : access.virtualAddress < c.virtualMemorySize
  · have hpage := fetchPageAddress_lt c ha
    obtain ⟨f, m₁, top', hfind, hdone⟩ := findFrame_spec h hpage
    have hone₁ := h.findFrame_emptyTables hone hpage hfind
    have hflt := hdone.inv.frameAt_lt (length_pagePath c _).le hdone.frame
    cases access with
    | read a value =>
        have hrun : next c m (.read a value) = some m₁ := by
          simp only [Access.virtualAddress] at ha hfind
          simp [next, vmRead, not_le.mpr ha, hfind, bind, Except.bind,
            pmRead_row m₁ hflt (fetchOffset_lt c a), Except.toOption]
        obtain rfl : m₁ = m' := Option.some.inj (hrun.symm.trans hnext)
        exact hone₁
    | write a value =>
        have hrun : next c m (.write a value) = some (m₁.store f (fetchOffset c a) value) := by
          simp only [Access.virtualAddress] at ha hfind
          simp [next, vmWrite, not_le.mpr ha, hfind, bind, Except.bind,
            pmWrite_row m₁ hflt (fetchOffset_lt c a), Except.toOption]
        obtain rfl := Option.some.inj (hrun.symm.trans hnext)
        exact hone₁.anti (emptyTables_page hdone.inv.toPageTree
          (hdone.store (fetchOffset c a) value).1.toPageTree hdone.frame
          (fun x hx => m₁.store_ram f (fetchOffset c a) value hx) 0)
  · have hrun : next c m access = some m := by
      rcases next_cases h access with ⟨_, hrun⟩ | ⟨_, _, _, _, _, rfl, hlt, _⟩ |
          ⟨_, _, _, _, _, rfl, hlt, _⟩
      · exact hrun
      · exact absurd hlt ha
      · exact absurd hlt ha
    obtain rfl : m = m' := Option.some.inj (hrun.symm.trans hnext)
    exact hone

/-- With the root alone in use no other table is empty. -/
theorem Forest.emptyTables_root_alone (h : Forest c m none 0) (used : Nat) :
    emptyTables c m used = ∅ := by
  apply Set.eq_empty_of_forall_notMem
  intro x hx
  obtain ⟨p, hp, hw, _, hne⟩ := (mem_emptyTables_iff h.toPageTree).mp hx
  exact hne (Nat.le_zero.mp (h.frameAt_le hp.le hw))

/-- **Run lemma.** -/
theorem Reachable.emptyTables (h : Reachable c m) : (emptyTables c m 0).Subsingleton := by
  obtain ⟨m₀, m₁, hinit, hrun⟩ := h
  have hinv := vmInitialize_inv hinit
  have hboth := hrun.invariant
    (fun x => (∃ top, Inv c x top) ∧ (Paging.emptyTables c x 0).Subsingleton) ?_ ?_
  · exact hboth.2
  · intro x access y hinvs hnext
    obtain ⟨⟨top, hx⟩, hone⟩ := hinvs
    obtain ⟨y', top', hrun', hy, _⟩ := next_inv hx access
    obtain rfl : y' = y := Option.some.inj (hrun'.symm.trans hnext)
    exact ⟨⟨top', hy⟩, next_emptyTables hx hone hnext⟩
  · refine ⟨⟨0, hinv⟩, ?_⟩
    rw [hinv.toForest.emptyTables_root_alone]
    exact Set.subsingleton_empty

/-! ## What the search finds -/

/-- With one empty table at most the search finds it in any order. -/
theorem Forest.findsEmptyTable (h : Forest c m none top) (hone : (emptyTables c m f).Subsingleton)
    (hr : r.length ≤ c.tablesDepth) (hf : frameAt c m r = some f) :
    ∃ found, FindsEmptyTable c m f found := by
  have htree := h.toPageTree
  have hmem : ∀ p x, p.length < c.tablesDepth → frameAt c m p = some x → UnusedTable c m f x →
      x ∈ emptyTables c m f := by
    intro p x hp hw hunused
    refine (mem_emptyTables_iff htree).mpr ⟨p, hp, hw, hunused, ?_⟩
    intro hzero
    subst hzero
    exact not_unusedTable_root hr hf hunused
  have hlen : ([] : List Nat).length + c.tablesDepth = c.tablesDepth := Nat.zero_add _
  obtain ⟨found, hsearch, _, hcase⟩ := getUnusedOrMaxFrame_spec h f
  refine ⟨found, hsearch, fun rows hrows => ?_, fun x hx => ?_⟩
  · obtain ⟨ts, gs, hts, hgs, heq⟩ :=
      getUnusedOrMaxFrameIn_eq htree f hrows (frameAt_nil c m) hlen
    have hunique : ∀ x ∈ ts, ∀ y ∈ ts, UnusedTable c m f x.2 → UnusedTable c m f y.2 → x = y := by
      intro s hx t hy hux huy
      obtain ⟨p, x⟩ := s
      obtain ⟨q, y⟩ := t
      obtain ⟨p', hp, hpath, hwp⟩ := (mem_tables entry_lt).mp (hts.mem_iff.mp hx)
      obtain ⟨q', hq, hqath, hwq⟩ := (mem_tables entry_lt).mp (hts.mem_iff.mp hy)
      obtain rfl : p = p' := hpath
      obtain rfl : q = q' := hqath
      obtain rfl : x = y := hone (hmem p x hp hwp hux) (hmem q y hq hwq huy)
      exact Prod.ext (htree.path_unique hp.le hq.le hwp hwq) rfl
    have hstart := getUnusedOrMaxFrame_eq htree f
      { unusedFrame := 0, unusedAddressInParent := 0, maxFrame := 0 } (frameAt_nil c m) hlen
    refine (heq _).trans (Eq.trans ?_ (hstart.symm.trans hsearch))
    exact congrArg Except.ok (UnusedOrMax.visit_perm hts hgs hunique _)
  · obtain ⟨p, hp, hw, hunused⟩ := (emptyTable_iff htree).mp hx
    have hxmem := hmem p x hp hw hunused
    rcases hcase with ⟨_, hnone⟩ | ⟨q, y, i, g, hq, _, _, hg, _, hunusedg, hframe, _⟩
    · exact absurd (hnone p x hp hw hunused) hxmem.2
    · have hgmem := hmem (q ++ [i]) g (by simpa using hq) hg hunusedg
      rw [hframe, hone hgmem hxmem]

/-- **Empty tables never accumulate.**  In every reachable memory at most one table
other than the root is empty, and at every fault at most one besides the root and the
table that the fault is in; so the search finds it in whatever order it goes through
the rows of the tables. -/
theorem empty_tables_bounded {c : Widths} (hc : c.Numbered) (hroom : c.tablesDepth < c.numFrames)
    (h : Reachable c m₀) : (emptyTables c m₀ 0).Subsingleton ∧
      ∀ page < c.numPages, ∀ depth f m, FaultAt c m₀ page depth f m →
        (emptyTables c m f).Subsingleton ∧ ∃ found, FindsEmptyTable c m f found := by
  rcases Nat.eq_zero_or_pos c.tablesDepth with hnone | hlevel
  · constructor
    · intro x hx
      obtain ⟨d, hd, _⟩ := hx.1.table
      omega
    · intro page _ depth f m hfault
      have hdepth := hfault.depth_lt
      omega
  obtain ⟨c, rfl⟩ := hc.exists_constants (Widths.offsetWidth_lt hlevel) hroom
  refine ⟨h.emptyTables, fun page hpage depth f m hfault => ?_⟩
  have hdepth := hfault.depth_lt.le
  obtain ⟨top₀, hinv⟩ := h.inv
  obtain ⟨f', m₁, top, hloop, htrans, _⟩ := hinv.walk hpage hdepth
  obtain ⟨hf, rfl⟩ := Prod.mk.inj (Except.ok.inj (hloop.symm.trans hfault.walked))
  obtain rfl : f' = f := by exact_mod_cast hf
  have hone := hinv.walk_emptyTables h.emptyTables hpage hdepth hloop
  have hr := length_take_pagePath (c := c) page hdepth
  exact ⟨hone, htrans.forest.findsEmptyTable hone (hr.trans_le hdepth) htrans.walked⟩

/-- The small memory of the tests. -/
def smallMemory : MemoryConstants :=
  .ofSizes { offsetWidth := 1, physicalAddressWidth := 4, virtualAddressWidth := 5 }
    (by decide) (by decide) (by decide) (by decide) (by decide)

/-- The second page takes up the last frames and the frame of the first. -/
theorem smallMemory_run : ((run (next smallMemory) (.filled 0) [.read 15 0, .read 19 0]).any
    fun m => decide (m.ram 0 0 = 1 ∧ m.ram 1 1 = 2 ∧ m.ram 2 1 = 3 ∧
      ∀ i : Nat, i < 2 → m.ram 3 i = 0)) = true := by
  decide +kernel

/-- The table of the first page is then empty, and no other is. -/
theorem empty_tables_bounded_evicted :
    ∃ m, run (next smallMemory) (.filled 0) [.read 15 0, .read 19 0] = some m ∧
      emptyTables smallMemory m 0 = {3} := by
  obtain ⟨m, hrun, hwords⟩ := (Option.any_eq_true _ _).mp smallMemory_run
  obtain ⟨h₀, h₁, h₂, hzero⟩ := of_decide_eq_true hwords
  have hreach : Reachable smallMemory m := ⟨_, _, vmInitialize_zeros smallMemory 5, _, hrun⟩
  have hone := (empty_tables_bounded smallMemory.numbered smallMemory.tablesDepth_lt hreach).1
  have htable : InTree smallMemory m 3 3 :=
    ((InTree.root.entry (by decide) (by decide) h₀ (by decide)).entry (by decide) (by decide) h₁
      (by decide)).entry (by decide) (by decide) h₂ (by decide)
  have hempty : 3 ∈ emptyTables smallMemory m 0 :=
    ⟨⟨⟨3, by decide, htable⟩, by decide, hzero⟩, by decide⟩
  exact ⟨m, hrun, hone.eq_singleton_of_mem hempty⟩

/-! ## More pages than an `int` can count -/

/-- Room for one path of tables and three pages, and `2 ^ 39` pages, which are 0 as
an `int`. -/
def manyPages : Widths :=
  { offsetWidth := 3, physicalAddressWidth := 7, virtualAddressWidth := 42 }

/-- Three pages take up all frames.  A write to a fourth then finds no page to evict
and goes to the root table: what it writes is the frame of page 0, whose words are
the frames of the other two. -/
theorem manyPages_run : ((run (next manyPages) (.filled 0)
    [.write 0 14, .write 1 15, .read 8 0, .read 16 0, .write 25 13]).any fun m =>
      decide (m.ram 0 1 = 13 ∧ m.ram 13 0 = 14 ∧ m.ram 13 1 = 15 ∧
        ∀ i : Nat, i < 8 → m.ram 14 i = 0 ∧ m.ram 15 i = 0)) = true := by
  decide +kernel

/-- The two are then empty tables. -/
theorem manyPages_two_empty : manyPages.tablesDepth < manyPages.numFrames ∧
    ∃ m, Reachable manyPages m ∧ ¬ (emptyTables manyPages m 0).Subsingleton := by
  obtain ⟨m, hrun, hwords⟩ := (Option.any_eq_true _ _).mp manyPages_run
  obtain ⟨h₀, h₁, h₂, hzero⟩ := of_decide_eq_true hwords
  let fewerPages : MemoryConstants := .ofSizes { manyPages with virtualAddressWidth := 20 }
    (by decide) (by decide) (by decide) (by decide) (by decide)
  have hreach : Reachable manyPages m := ⟨_, _, vmInitialize_zeros fewerPages 42, _, hrun⟩
  have hparent : InTree manyPages m 1 13 :=
    InTree.root.entry (by decide) (by decide) h₀ (by decide)
  have hleft : 14 ∈ emptyTables manyPages m 0 :=
    ⟨⟨⟨2, by decide, hparent.entry (by decide) (by decide) h₁ (by decide)⟩, by decide,
      fun i hi => (hzero i hi).1⟩, by decide⟩
  have hright : 15 ∈ emptyTables manyPages m 0 :=
    ⟨⟨⟨2, by decide, hparent.entry (by decide) (by decide) h₂ (by decide)⟩, by decide,
      fun i hi => (hzero i hi).2⟩, by decide⟩
  exact ⟨by decide, m, hreach, fun hone => absurd (hone hleft hright) (by decide)⟩

end Paging
