import HujiOS.Paging.PageTables
import Mathlib.Order.Bounds.Basic

/-!
# Free frames first

What `createFrame` hands out at a fault, in the words of the tables alone: an
empty table as long as there is one, then the first frame above those in use,
and only with every frame in use the frame of a page.  The one table that may be
empty and stay is the table that the fault is in.

This needs numbers that fit in an `int`: where the pages do not, the cyclic
distances come out wrong and the root table is handed out.
-/

namespace Paging

open PointerTree Runs

/-- Entry `i` of table `x` refers to frame `g`. -/
structure Refers (c : Widths) (m : PhysicalMemory) (x i g : Nat) : Prop where
  table : ∃ d < c.tablesDepth, InTree c m d x
  row_lt : i < c.pageSize
  word : m.ram x i = g

/-- A table other than `used` with no entries. -/
structure EmptyTable (c : Widths) (m : PhysicalMemory) (used x : Nat) : Prop where
  table : ∃ d < c.tablesDepth, InTree c m d x
  other : x ≠ used
  zero : ∀ i < c.pageSize, m.ram x i = 0

/-- The frames in use. -/
def treeFrames (c : Widths) (m : PhysicalMemory) : Set Nat := {f | ∃ d, InTree c m d f}

/-- The translation of `page` from `m₀` has come to table `f` at `depth`, and
the entry it needs is missing. -/
structure FaultAt (c : Widths) (m₀ : PhysicalMemory) (page depth f : Nat) (m : PhysicalMemory) :
    Prop where
  depth_lt : depth < c.tablesDepth
  walked : (List.range depth).foldlM (findFrameStep c page) (0, m₀) = .ok ((f : Int), m)
  missing : pmRead c m (physicalAddress c f (fetchDepthOffset c page depth)) = .ok 0

/-- What `createFrame` does at such a fault when it returns `g`. -/
structure FreeFrameFirst (c : Widths) (m₀ : PhysicalMemory) (page depth f : Nat)
    (m : PhysicalMemory) (g : Nat) (m' : PhysicalMemory) : Prop where
  /-- an empty table is cut off from the one entry that refers to it -/
  reuse : (∃ x, EmptyTable c m f x) → EmptyTable c m f g ∧ ∃ x i, Refers c m x i g ∧
    (∀ y j, Refers c m y j g → y = x ∧ j = i) ∧ m' = m.store x i 0
  /-- without one, a frame that was never used is taken as it is -/
  fresh : (¬ ∃ x, EmptyTable c m f x) → ∀ top, IsGreatest (treeFrames c m) top →
    top < c.numFrames - 1 → g = top + 1 ∧ m' = m ∧ ∀ i < c.pageSize, m.ram g i = 0
  /-- without that either, a page is evicted and its entry cleared -/
  evict : (¬ ∃ x, EmptyTable c m f x) → ∀ top, IsGreatest (treeFrames c m) top →
    c.numFrames - 1 ≤ top → ∃ q x i, q < c.numPages ∧ frameOf c m q = some g ∧ Refers c m x i g ∧
      (∀ y j, Refers c m y j g → y = x ∧ j = i) ∧ m' = m.evicted c depth x i g q
  largest : ∃ top, IsGreatest (treeFrames c m) top
  ne_zero : g ≠ 0
  unreferenced : ∀ x i, ¬ Refers c m' x i g
  /-- the path that the translation has come by is left alone -/
  off_path : ∀ k ≤ depth, ∀ (y : Nat) x,
    (List.range k).foldlM (findFrameStep c page) (0, m₀) = .ok ((y : Int), x) → y ≠ g
  /-- what is to become a table is empty -/
  bare : depth < c.tablesDepth - 1 → ∀ i < c.pageSize, m'.ram g i = 0
  evicts_full : m'.trace ≠ m.trace → ∀ x < c.numFrames, x ∈ treeFrames c m

variable {c : MemoryConstants} {m₀ m m' : PhysicalMemory} {top₀ top top' page depth f g x i : Nat}
  {p r : List Nat}

/-! ## The words of the tables and the paths -/

theorem inTree_of_frameAt (h : PageTree c m) (hp : p.length ≤ c.tablesDepth)
    (hw : frameAt c m p = some f) : InTree c m p.length f :=
  (inTree_iff h).mpr ⟨p, rfl, hp, hw⟩

theorem refers_iff (h : PageTree c m) (hg : g ≠ 0) :
    Refers c m x i g ↔ ∃ p, p.length < c.tablesDepth ∧ frameAt c m p = some x ∧
      frameAt c m (p ++ [i]) = some g := by
  constructor
  · rintro ⟨⟨d, hd, hx⟩, hi, hword⟩
    obtain ⟨p, rfl, _, hw⟩ := (inTree_iff h).mp hx
    exact ⟨p, hd, hw, (frameAt_snoc hw i).trans (entry_of_row hi hword hg)⟩
  · rintro ⟨p, hp, hx, hw⟩
    have hentry := (frameAt_snoc hx i).symm.trans hw
    exact ⟨⟨p.length, hp, inTree_of_frameAt h hp.le hx⟩, entry_lt x i g hentry,
      (h.ram_of_entry hp hx hentry).1⟩

/-- A frame is referred to by one entry. -/
theorem refers_unique (h : PageTree c m) (hp : p.length < c.tablesDepth)
    (hx : frameAt c m p = some x) (hg : frameAt c m (p ++ [i]) = some g) (hpos : g ≠ 0) :
    ∀ y j, Refers c m y j g → y = x ∧ j = i := by
  intro y j hy
  obtain ⟨q, hq, hwy, hwg⟩ := (refers_iff h hpos).mp hy
  have hpaths : q ++ [j] = p ++ [i] :=
    h.path_unique (by simpa [Nat.succ_le_iff] using hq) (by simpa [Nat.succ_le_iff] using hp) hwg hg
  obtain ⟨rfl, hrow⟩ := List.append_inj' hpaths rfl
  exact ⟨Option.some.inj (hwy.symm.trans hx), by simpa using hrow⟩

theorem emptyTable_iff (h : PageTree c m) : EmptyTable c m f x ↔
    ∃ p, p.length < c.tablesDepth ∧ frameAt c m p = some x ∧ UnusedTable c m f x := by
  constructor
  · rintro ⟨⟨d, hd, hx⟩, hother, hzero⟩
    obtain ⟨p, rfl, _, hw⟩ := (inTree_iff h).mp hx
    exact ⟨p, hd, hw, hzero, by exact_mod_cast hother⟩
  · rintro ⟨p, hp, hw, hzero, hother⟩
    exact ⟨⟨p.length, hp, inTree_of_frameAt h hp.le hw⟩, by exact_mod_cast hother, hzero⟩

/-- The root is empty only if it is the one table there is. -/
theorem not_unusedTable_root (hr : r.length ≤ c.tablesDepth) (hf : frameAt c m r = some f) :
    ¬ UnusedTable c m f 0 := by
  intro hunused
  have hroot : r ≠ [] := by
    rintro rfl
    exact hunused.2 (congrArg Nat.cast (Option.some.inj hf))
  rw [Forest.frameAt_below_childless (frameAt_nil c m) (fun _ => hunused.1) List.nil_prefix hr
    hroot] at hf
  cases hf

theorem not_emptyTable (h : PageTree c m) (hnone : NoUnusedTable c m f)
    (hr : r.length ≤ c.tablesDepth) (hf : frameAt c m r = some f) : ¬ ∃ x, EmptyTable c m f x := by
  rintro ⟨x, hx⟩
  obtain ⟨p, hp, hw, hunused⟩ := (emptyTable_iff h).mp hx
  obtain rfl := hnone p x hp hw hunused
  exact not_unusedTable_root hr hf hunused

theorem Forest.mem_treeFrames (h : Forest c m none top) : x ∈ treeFrames c m ↔ x ≤ top := by
  have hframes := h.frames x
  simp only [ne_eq, reduceCtorEq, not_false_eq_true, and_true] at hframes
  rw [← hframes]
  constructor
  · rintro ⟨d, hx⟩
    obtain ⟨p, rfl, hd, hw⟩ := (inTree_iff h.toPageTree).mp hx
    exact ⟨p, hd, hw⟩
  · rintro ⟨p, hp, hw⟩
    exact ⟨p.length, inTree_of_frameAt h.toPageTree hp hw⟩

theorem Forest.isGreatest (h : Forest c m none top) : IsGreatest (treeFrames c m) top :=
  ⟨h.mem_treeFrames.mpr le_rfl, fun _ hx => h.mem_treeFrames.mp hx⟩

/-! ## The outcomes -/

section Outcomes

variable (h : Forest c m none top) (hr : r.length ≤ c.tablesDepth) (hf : frameAt c m r = some f)

include h hr hf

/-- **An empty table is reused**, and only then. -/
theorem Allocates.reuses (halloc : Allocates c m f depth top g top' m')
    (hempty : ∃ x, EmptyTable c m f x) : EmptyTable c m f g ∧ ∃ x i, Refers c m x i g ∧
      (∀ y j, Refers c m y j g → y = x ∧ j = i) ∧ m' = m.store x i 0 := by
  cases halloc with
  | reuse hlen hx hg hpos hunused =>
      have hp := Nat.lt_of_succ_lt hlen
      refine ⟨(emptyTable_iff h.toPageTree).mpr ⟨_, by simpa using hlen, hg, hunused⟩, _, _,
        (refers_iff h.toPageTree hpos).mpr ⟨_, hp, hx, hg⟩, ?_, rfl⟩
      exact refers_unique h.toPageTree hp hx hg hpos
  | fresh hnone _ => exact absurd hempty (not_emptyTable h.toPageTree hnone hr hf)
  | evict hnone => exact absurd hempty (not_emptyTable h.toPageTree hnone hr hf)

omit hr hf in
/-- **A fresh frame is taken** where there is no empty table. -/
theorem Allocates.takes_fresh (halloc : Allocates c m f depth top g top' m')
    (hempty : ¬ ∃ x, EmptyTable c m f x) (hroom : top < c.numFrames - 1) :
    g = top + 1 ∧ m' = m ∧ ∀ i < c.pageSize, m.ram g i = 0 := by
  cases halloc with
  | reuse hlen _ hg _ hunused =>
      exact absurd ⟨g, (emptyTable_iff h.toPageTree).mpr ⟨_, by simpa using hlen, hg, hunused⟩⟩
        hempty
  | fresh _ hlt => exact ⟨rfl, rfl, fun i hi => h.unused _ i (Nat.lt_succ_self top) hlt hi⟩
  | evict _ hfull => omega

omit hr hf in
/-- **A page is evicted** where there is no fresh frame either. -/
theorem Allocates.evicts (halloc : Allocates c m f depth top g top' m')
    (hempty : ¬ ∃ x, EmptyTable c m f x) (hroom : c.numFrames - 1 ≤ top) :
    ∃ q x i, q < c.numPages ∧ frameOf c m q = some g ∧ Refers c m x i g ∧
      (∀ y j, Refers c m y j g → y = x ∧ j = i) ∧ m' = m.evicted c depth x i g q := by
  cases halloc with
  | reuse hlen _ hg _ hunused =>
      exact absurd ⟨g, (emptyTable_iff h.toPageTree).mpr ⟨_, by simpa using hlen, hg, hunused⟩⟩
        hempty
  | fresh _ hlt => omega
  | @evict p x i _ _ _ hlen hx hg hpos =>
      have hp : p.length < c.tablesDepth := by omega
      have hglen : (p ++ [i]).length = c.tablesDepth := by simpa using hlen
      refine ⟨_, _, _, h.pages _ g hglen hg, frameOf_pathPage hglen hg,
        (refers_iff h.toPageTree hpos).mpr ⟨_, hp, hx, hg⟩, ?_, rfl⟩
      exact refers_unique h.toPageTree hp hx hg hpos

omit hr hf in
/-- **Pages are moved out only when every frame is in use.** -/
theorem Allocates.full_of_trace_ne (halloc : Allocates c m f depth top g top' m')
    (htrace : m'.trace ≠ m.trace) : ∀ x < c.numFrames, x ∈ treeFrames c m := by
  cases halloc with
  | reuse => exact absurd rfl htrace
  | fresh => exact absurd rfl htrace
  | evict _ hfull =>
      intro x hx
      exact h.mem_treeFrames.mpr (by omega)

end Outcomes

/-- The detached frame is not referred to. -/
theorem Allocation.unreferenced (h : Allocation c m m' page r g top') :
    ∀ x i, ¬ Refers c m' x i g := by
  intro x i hx
  obtain ⟨p, hp, _, hw⟩ := (refers_iff h.forest.toPageTree h.forest.free_ne_zero).mp hx
  exact h.forest.free_not_frameAt (by simpa [Nat.succ_le_iff] using hp) hw

/-- The detached frame is not on the path. -/
theorem Allocation.off_path (h : Allocation c m m' page r g top') (hr : r.length ≤ c.tablesDepth)
    (hf : frameAt c m r = some f) (hp : p <+: r) (hx : frameAt c m p = some x) : x ≠ g := by
  rintro rfl
  exact h.forest.free_not_frameAt (hp.length_le.trans hr) ((h.prefix_kept hr hf hp).trans hx)

/-- **Free frames first.**  At every fault of every translation from a reachable
memory, `createFrame` uses up empty tables and fresh frames before it evicts a
page, and its frame is fit for its place. -/
theorem free_frame_first {c : Widths} (hc : c.Numbered) (hroom : c.tablesDepth < c.numFrames)
    (h : Reachable c m₀) (hpage : page < c.numPages) (hfault : FaultAt c m₀ page depth f m) :
    ∃ (g : Nat) (m' : PhysicalMemory), createFrame c m page f depth = .ok ((g : Int), m') ∧
      FreeFrameFirst c m₀ page depth f m g m' := by
  obtain ⟨c, rfl⟩ := hc.exists_constants (Widths.offsetWidth_lt hfault.depth_lt) hroom
  obtain ⟨top₀, hinv⟩ := h.inv
  have hdepth := hfault.depth_lt
  obtain ⟨f', m₁, top, hloop, htrans, hpath⟩ := hinv.walk hpage hdepth.le
  obtain ⟨hf, rfl⟩ := Prod.mk.inj (Except.ok.inj (hloop.symm.trans hfault.walked))
  obtain rfl : f' = f := by exact_mod_cast hf
  have hrlen := length_take_pagePath (c := c) page hdepth.le
  have hr : ((pagePath c page).take depth).length < c.tablesDepth := by omega
  have hi : fetchDepthOffset c page depth < c.pageSize := fetchOffset_lt c _
  have hread := pmRead_row m₁ (htrans.forest.frameAt_lt hr.le htrans.walked) hi
  have hzero := Except.ok.inj (hread.symm.trans hfault.missing)
  obtain ⟨g, top', m', hcreate, hout, halloc, _⟩ := htrans.createFrame_spec hpage hdepth hzero
  have hgreatest := htrans.forest.isGreatest
  refine ⟨g, m', hcreate, ?_⟩
  exact
    { reuse := hout.reuses htrans.forest hr.le htrans.walked
      fresh := by
        intro hempty top₁ htop hroom
        obtain rfl := htop.unique hgreatest
        exact hout.takes_fresh htrans.forest hempty hroom
      evict := by
        intro hempty top₁ htop hroom
        obtain rfl := htop.unique hgreatest
        exact hout.evicts htrans.forest hempty hroom
      largest := ⟨top, hgreatest⟩
      ne_zero := halloc.forest.free_ne_zero
      unreferenced := halloc.unreferenced
      off_path := by
        intro k hk y x hrun
        exact halloc.off_path hr.le htrans.walked (List.take_prefix_take_left hk)
          (hpath k hk y x hrun)
      bare := by
        intro hmid
        exact halloc.bare (by omega)
      evicts_full := hout.full_of_trace_ne htrans.forest }

/-- The first fault after initialization: the root is the only table. -/
theorem free_frame_first_start :
    ∃ m₁, vmInitialize memoryConstants (.filled 64) = .ok m₁ ∧
      ∃ (g : Nat) (m' : PhysicalMemory),
        createFrame memoryConstants m₁ 5 (0 : Nat) 0 = .ok ((g : Int), m') ∧
        FreeFrameFirst memoryConstants m₁ 5 0 0 m₁ g m' := by
  have hinit := vmInitialize_ok memoryConstants (.filled 64)
  have hi : fetchDepthOffset memoryConstants 5 0 < memoryConstants.pageSize :=
    fetchOffset_lt memoryConstants _
  have hreach : Reachable memoryConstants _ := ⟨_, _, hinit, Reaches.refl _⟩
  refine ⟨_, hinit, free_frame_first memoryConstants.numbered memoryConstants.tablesDepth_lt hreach
    (by decide) ⟨by decide, rfl, ?_⟩⟩
  rw [pmRead_row _ memoryConstants.numFrames_pos hi]
  simp [hi, memoryConstants.numFrames_pos]

/-! ## More pages than an `int` can count -/

/-- Room for one path of tables and its page, and `2 ^ 45` pages, which are 0 as
an `int`. -/
def widePages : Widths :=
  { offsetWidth := 3, physicalAddressWidth := 7, virtualAddressWidth := 48 }

/-- Clearing a RAM of zeros, whose size does not depend on the number of pages. -/
theorem vmInitialize_zeros (c : MemoryConstants) (virtualAddressWidth : Nat) :
    vmInitialize { (c : Widths) with virtualAddressWidth := virtualAddressWidth } (.filled 0) =
      .ok (.filled 0) := by
  refine (vmInitialize_ok c (.filled 0)).trans ?_
  simp [PhysicalMemory.filled]

theorem widePages_initialize : vmInitialize widePages (.filled 0) = .ok (.filled 0) :=
  vmInitialize_zeros (.ofSizes { widePages with virtualAddressWidth := 20 }
    (by decide) (by decide) (by decide) (by decide) (by decide)) 48

/-- Page 0 takes up all frames.  At the fault of page 1 its cyclic distance is
`min (0 - 1) 1`, so no page is chosen. -/
theorem widePages_fault : ((next widePages (.filled 0) (.read 0 0)).any fun m₀ =>
    ((List.range 14).foldlM (findFrameStep widePages 1) (0, m₀)).toOption.any fun walked =>
      decide (walked.1 = 14) && decide ((pmRead widePages walked.2
        (physicalAddress widePages 14 (fetchDepthOffset widePages 1 14))).toOption = some 0) &&
      ((createFrame widePages walked.2 1 14 14).toOption.any fun made =>
        decide (made.1 = 0))) = true := by
  decide +kernel

theorem ok_of_toOption {ε α : Type} {e : Except ε α} {a : α} (h : e.toOption = some a) :
    e = .ok a := by
  cases e with
  | error e => cases h
  | ok b => exact congrArg Except.ok (Option.some.inj h)

/-- The allocation then returns the root table. -/
theorem widePages_allocates_root :
    widePages.tablesDepth < widePages.numFrames ∧ 1 < widePages.numPages ∧ ∃ m₀ m m',
      Reachable widePages m₀ ∧ FaultAt widePages m₀ 1 14 14 m ∧
      createFrame widePages m 1 (14 : Nat) 14 = .ok (((0 : Nat) : Int), m') ∧
      ∀ g : Nat, createFrame widePages m 1 (14 : Nat) 14 = .ok ((g : Int), m') →
        ¬ FreeFrameFirst widePages m₀ 1 14 14 m g m' := by
  refine ⟨by decide, by decide, ?_⟩
  obtain ⟨m₀, hnext, hrest⟩ := (Option.any_eq_true _ _).mp widePages_fault
  obtain ⟨⟨w, m⟩, hloop, hrest⟩ := (Option.any_eq_true _ _).mp hrest
  simp only [Bool.and_eq_true, decide_eq_true_eq] at hrest
  obtain ⟨⟨rfl, hread⟩, hmade⟩ := hrest
  obtain ⟨⟨v, m'⟩, hcreate, hv⟩ := (Option.any_eq_true _ _).mp hmade
  obtain rfl : v = 0 := by simpa using hv
  have hroot := ok_of_toOption hcreate
  refine ⟨m₀, m, m', ⟨_, _, widePages_initialize, (Reaches.refl _).snoc hnext⟩,
    ⟨by decide, ok_of_toOption hloop, ok_of_toOption hread⟩, hroot, ?_⟩
  intro g hg hfirst
  have hzero : (0 : Int) = g := congrArg Prod.fst (Except.ok.inj (hroot.symm.trans hg))
  exact hfirst.ne_zero (by omega)

end Paging
