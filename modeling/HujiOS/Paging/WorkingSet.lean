import HujiOS.Paging.EmptyTables
import Mathlib.Data.List.Infix

/-!
# Pages are evicted for want of frames only

A page needs a frame for itself and one for every table on its path, and pages
share the tables that their paths have in common.  As long as the frames suffice
for what was accessed so far no table is emptied, so that a fault takes a fresh
frame; the first fault without one evicts.
-/

namespace Paging

open Loops MachineInt PointerTree Runs

/-- The pages that the calls access. -/
def accessedPages (c : Widths) (accesses : List Access) : List Nat :=
  (accesses.filter fun access => access.virtualAddress < c.virtualMemorySize).map
    fun access => fetchPageAddress c access.virtualAddress

/-- The paths that need a frame: those of the accessed pages and of the tables
above them. -/
def demanded (c : Widths) (accesses : List Access) : Finset (List Nat) :=
  insert [] ((accessedPages c accesses).flatMap fun page => (pagePath c page).inits).toFinset

/-- A page was moved out. -/
def PageMove.IsEvict : PageMove → Prop
  | .evict .. => True
  | .restore .. => False

/-- The frames hold the paths of `paths` and no others. -/
structure Filled (c : MemoryConstants) (m : PhysicalMemory) (top : Nat)
    (paths : Finset (List Nat)) : Prop where
  maps : ∀ p, p.length ≤ c.tablesDepth → (frameAt c m p ≠ none ↔ p ∈ paths)
  card : paths.card = top + 1

/-- From `m₁` on no page was moved out and the frames hold `paths`, or a page was
moved out and `paths` needs more frames than there are. -/
def FilledOrEvicted (c : MemoryConstants) (m₁ m : PhysicalMemory) (top : Nat)
    (paths : Finset (List Nat)) : Prop :=
  ∃ moves, m.trace = m₁.trace ++ moves ∧
    ((∀ move ∈ moves, ¬ move.IsEvict) ∧ Filled c m top paths ∨
      (∃ move ∈ moves, move.IsEvict) ∧ c.numFrames < paths.card)

/-- Every table has an entry, but the one at `last` and the root. -/
def NoBareTable (c : Widths) (paths : Finset (List Nat)) (last : List Nat) : Prop :=
  ∀ p ∈ paths, p.length < c.tablesDepth → p = last ∨ p = [] ∨ ∃ i, p ++ [i] ∈ paths

variable {c : MemoryConstants} {m₀ m₁ m m' : PhysicalMemory} {top₀ top top' page depth f g : Nat}
  {paths : Finset (List Nat)}

/-! ## One fault -/

theorem frameAt_missing (hdepth : depth < c.tablesDepth)
    (hwalked : frameAt c m ((pagePath c page).take depth) = some f)
    (hzero : m.ram f (fetchDepthOffset c page depth) = 0) :
    frameAt c m ((pagePath c page).take (depth + 1)) = none := by
  have hi : fetchDepthOffset c page depth < c.pageSize := fetchOffset_lt c _
  rw [take_succ_pagePath c page hdepth, frameAt_snoc hwalked]
  exact (entry_eq_none_iff hi).mpr hzero

/-- Where every other table has an entry none is reused. -/
theorem Filled.not_unused (h : Filled c m top paths) {r p : List Nat}
    (hbare : NoBareTable c paths r) (hf : frameAt c m r = some f) (hp : p.length < c.tablesDepth)
    (hg : frameAt c m p = some g) (hpos : g ≠ 0) : ¬ UnusedTable c m f g := by
  intro hunused
  have hmem : p ∈ paths := (h.maps p hp.le).mp (by simp [hg])
  rcases hbare p hmem hp with rfl | rfl | ⟨i, hchild⟩
  · obtain rfl := Option.some.inj (hf.symm.trans hg)
    exact hunused.2 rfl
  · exact hpos (Option.some.inj (hg.symm.trans (frameAt_nil c m)))
  · have hmapped := (h.maps (p ++ [i]) (by simpa [Nat.succ_le_iff] using hp)).mpr hchild
    rw [frameAt_snoc hg] at hmapped
    obtain ⟨x, hx⟩ := Option.ne_none_iff_exists'.mp hmapped
    have hi := entry_lt g i x hx
    rw [(entry_eq_none_iff hi).mpr (hunused.1 i hi)] at hx
    cases hx

/-- **One fault.**  The new path gets the next frame, or there is none left. -/
theorem FilledOrEvicted.fault (hdepth : depth < c.tablesDepth)
    (h : Translating c m₀ top₀ page depth f m top) (hout : FilledOrEvicted c m₁ m top paths)
    (hbare : NoBareTable c paths ((pagePath c page).take depth))
    (hzero : m.ram f (fetchDepthOffset c page depth) = 0)
    (halloc : Allocates c m f depth top g top' m')
    (hall : Allocation c m m' page ((pagePath c page).take depth) g top') :
    FilledOrEvicted c m₁ (m'.store f (fetchDepthOffset c page depth) g) top'
      (insert ((pagePath c page).take (depth + 1)) paths) := by
  have hrlen := length_take_pagePath (c := c) page hdepth.le
  have hr : ((pagePath c page).take depth).length < c.tablesDepth := by omega
  have hi : fetchDepthOffset c page depth < c.pageSize := fetchOffset_lt c _
  have hmissing := frameAt_missing hdepth h.walked hzero
  obtain ⟨moves, htrace, ⟨hquiet, hfilled⟩ | ⟨hevicted, hcard⟩⟩ := hout
  · have hnew : (pagePath c page).take (depth + 1) ∉ paths := by
      rw [← hfilled.maps _ ((length_take_pagePath page hdepth).trans_le hdepth)]
      exact not_not.mpr hmissing
    cases halloc with
    | reuse hlen _ hg hpos hunused =>
        exact absurd hunused (hfilled.not_unused hbare h.walked (by simpa using hlen) hg hpos)
    | fresh _ _ =>
        refine ⟨moves, htrace, Or.inl ⟨hquiet, fun p hp => ?_, ?_⟩⟩
        · rw [Forest.frameAt_link hall.forest h.walked hr hi hzero (hall.childless _) hp,
            ← take_succ_pagePath c page hdepth, Finset.mem_insert, ← hfilled.maps p hp]
          split
          · next heq => simp [heq]
          · next hne => simp [hne]
        · rw [Finset.card_insert_of_notMem hnew, hfilled.card]
    | @evict r x i _ _ hfull =>
        let move := PageMove.evict g (pathPage c (r ++ [i]))
        have hmem : move ∈ moves ++ [move] := List.mem_append_right _ (List.mem_singleton_self _)
        refine ⟨moves ++ [move], ?_, Or.inr ⟨⟨move, hmem, trivial⟩, ?_⟩⟩
        · show (m.evicted c depth x i g _).trace = _
          rw [PhysicalMemory.evicted_trace, htrace, List.append_assoc]
        · rw [Finset.card_insert_of_notMem hnew, hfilled.card]
          omega
  · obtain ⟨more, hmore, _⟩ := hall.moves
    obtain ⟨move, hmem, hevict⟩ := hevicted
    refine ⟨moves ++ more, ?_, Or.inr ⟨⟨move, List.mem_append_left _ hmem, hevict⟩,
      hcard.trans_le (Finset.card_le_card (Finset.subset_insert _ _))⟩⟩
    show m'.trace = _
    rw [hmore, htrace, List.append_assoc]

/-- **One round** of the loop. -/
theorem FilledOrEvicted.round (hpage : page < c.numPages) (hdepth : depth < c.tablesDepth)
    (h : Translating c m₀ top₀ page depth f m top) (hout : FilledOrEvicted c m₁ m top paths)
    (hbare : NoBareTable c paths ((pagePath c page).take depth)) :
    ∃ g m' top', findFrameStep c page ((f : Int), m) depth = .ok (((g : Nat) : Int), m') ∧
      Translating c m₀ top₀ page (depth + 1) g m' top' ∧
      FilledOrEvicted c m₁ m' top' (insert ((pagePath c page).take (depth + 1)) paths) := by
  have hrlen := length_take_pagePath (c := c) page hdepth.le
  have hr : ((pagePath c page).take depth).length < c.tablesDepth := by omega
  have hi : fetchDepthOffset c page depth < c.pageSize := fetchOffset_lt c _
  have hread := pmRead_row m (h.forest.frameAt_lt hr.le h.walked) hi
  unfold findFrameStep
  rcases h.forest.row_cases hr h.walked hi with ⟨hzero, _⟩ | ⟨g, hg, _, hram, hsome⟩
  · obtain ⟨g, top', m', hcreate, halloc, hall, habsent⟩ := h.createFrame_spec hpage hdepth hzero
    have hkept := hall.path.trans h.walked
    refine ⟨g, _, top', ?_, h.linked hpage hdepth hzero habsent hall halloc.top_le,
      hout.fault hdepth h hbare hzero halloc hall⟩
    simp only [hread, bind, Except.bind, hzero, if_true, hcreate,
      pmWrite_entry hall.forest hr.le hkept hi]
  · have hwalked : frameAt c m ((pagePath c page).take (depth + 1)) = some g := by
      rw [take_succ_pagePath c page hdepth, frameAt_snoc h.walked, hsome]
    refine ⟨g, m, top, ?_, ⟨h.forest, h.top_le, hwalked, h.others, h.swapped, h.swap_page, h.hit,
      h.moves⟩, ?_⟩
    · simp [hread, bind, Except.bind, hram, hg]
    · obtain ⟨moves, htrace, ⟨hquiet, hfilled⟩ | ⟨hevicted, hcard⟩⟩ := hout
      · have hold : (pagePath c page).take (depth + 1) ∈ paths :=
          (hfilled.maps _ ((length_take_pagePath page hdepth).trans_le hdepth)).mp
            (by simp [hwalked])
        rw [Finset.insert_eq_of_mem hold]
        exact ⟨moves, htrace, Or.inl ⟨hquiet, hfilled⟩⟩
      · exact ⟨moves, htrace, Or.inr ⟨hevicted,
          hcard.trans_le (Finset.card_le_card (Finset.subset_insert _ _))⟩⟩

/-! ## A whole translation -/

/-- The prefixes of the path of a page up to a depth. -/
def pathsTo (c : Widths) (page depth : Nat) : Finset (List Nat) :=
  ((pagePath c page).take depth).inits.toFinset

theorem mem_pathsTo {p : List Nat} :
    p ∈ pathsTo c page depth ↔ p <+: (pagePath c page).take depth := by
  rw [pathsTo, List.mem_toFinset, List.mem_inits]

theorem pathsTo_succ (hdepth : depth < c.tablesDepth) : pathsTo c page (depth + 1) =
    insert ((pagePath c page).take (depth + 1)) (pathsTo c page depth) := by
  ext p
  rw [Finset.mem_insert, mem_pathsTo, mem_pathsTo, take_succ_pagePath c page hdepth]
  exact List.prefix_concat_iff

/-- While a path is walked its end is the one new table without an entry. -/
theorem NoBareTable.walked (h : NoBareTable c paths []) (page depth : Nat) :
    NoBareTable c (paths ∪ pathsTo c page depth) ((pagePath c page).take depth) := by
  intro p hp hlen
  rcases Finset.mem_union.mp hp with hold | hnew
  · rcases h p hold hlen with hroot | hroot | ⟨i, hchild⟩
    · exact Or.inr (Or.inl hroot)
    · exact Or.inr (Or.inl hroot)
    · exact Or.inr (Or.inr ⟨i, Finset.mem_union_left _ hchild⟩)
  · obtain ⟨rest, hrest⟩ := mem_pathsTo.mp hnew
    cases rest with
    | nil => exact Or.inl ((List.append_nil p).symm.trans hrest)
    | cons i rest =>
        refine Or.inr (Or.inr ⟨i, Finset.mem_union_right _ (mem_pathsTo.mpr ⟨rest, ?_⟩)⟩)
        rw [List.append_assoc]
        exact hrest

/-- **The loop** of `findFrame`, cut off at any depth. -/
theorem FilledOrEvicted.walk (h : Inv c m₀ top₀) (hout : FilledOrEvicted c m₁ m₀ top₀ paths)
    (hroot : [] ∈ paths) (hbare : NoBareTable c paths []) (hpage : page < c.numPages)
    (hdepth : depth ≤ c.tablesDepth) : ∃ f m top,
      (List.range depth).foldlM (findFrameStep c page) (0, m₀) = .ok (((f : Nat) : Int), m) ∧
      Translating c m₀ top₀ page depth f m top ∧
      FilledOrEvicted c m₁ m top (paths ∪ pathsTo c page depth) := by
  induction depth with
  | zero =>
      have hsame : paths ∪ pathsTo c page 0 = paths := by
        apply Finset.union_eq_left.mpr
        intro p hp
        rw [List.prefix_nil.mp (mem_pathsTo.mp hp)]
        exact hroot
      rw [hsame]
      exact ⟨0, m₀, top₀, rfl, ⟨h.toForest, le_rfl, frameAt_nil c m₀, fun _ _ _ => rfl,
        fun q hq _ hres => h.swapped q hq hres, rfl, fun _ => rfl, .of_trace_eq rfl⟩, hout⟩
  | succ depth ih =>
      obtain ⟨f, m, top, hloop, htrans, hwalked⟩ := ih (Nat.le_of_succ_le hdepth)
      obtain ⟨g, m', top', hstep, hnext, hround⟩ :=
        hwalked.round hpage hdepth htrans (hbare.walked page depth)
      refine ⟨g, m', top', foldlM_range_succ hloop hstep, hnext, ?_⟩
      rw [pathsTo_succ hdepth, Finset.union_insert]
      exact hround

/-- What does not touch the tables nor move a page out. -/
theorem FilledOrEvicted.congr (hout : FilledOrEvicted c m₁ m top paths) {more : List PageMove}
    (hmaps : ∀ p, p.length ≤ c.tablesDepth → frameAt c m' p = frameAt c m p)
    (htrace : m'.trace = m.trace ++ more) (hquiet : ∀ move ∈ more, ¬ move.IsEvict) :
    FilledOrEvicted c m₁ m' top paths := by
  obtain ⟨moves, hmoves, hcase⟩ := hout
  refine ⟨moves ++ more, by rw [htrace, hmoves, List.append_assoc], ?_⟩
  rcases hcase with ⟨hall, hfilled⟩ | ⟨⟨move, hmem, hevict⟩, hcard⟩
  · refine Or.inl ⟨fun move hmem => ?_, fun p hp => ?_, hfilled.card⟩
    · rcases List.mem_append.mp hmem with hold | hnew
      · exact hall move hold
      · exact hquiet move hnew
    · rw [hmaps p hp]
      exact hfilled.maps p hp
  · exact Or.inr ⟨⟨move, List.mem_append_left _ hmem, hevict⟩, hcard⟩

/-- With the page in its frame the path is whole. -/
theorem NoBareTable.translated (h : NoBareTable c paths []) (page : Nat) :
    NoBareTable c (paths ∪ pathsTo c page c.tablesDepth) [] := by
  intro p hp hlen
  rcases h.walked page c.tablesDepth p hp hlen with rfl | hcase
  · rw [length_take_pagePath page le_rfl] at hlen
    exact absurd hlen (lt_irrefl _)
  · exact Or.inr hcase

theorem PhysicalMemory.restored_trace (m : PhysicalMemory) (f page : Nat) :
    (m.restored f page).trace = m.trace ++ [.restore f page] := by
  unfold restored
  cases m.swapFile page <;> rfl

/-- **A translation** demands the path of its page. -/
theorem FilledOrEvicted.findFrame (h : Inv c m top) (hout : FilledOrEvicted c m₁ m top paths)
    (hroot : [] ∈ paths) (hbare : NoBareTable c paths []) (hpage : page < c.numPages) :
    ∃ f m' top', findFrame c m page = .ok (f, m') ∧ Translated c m top page f m' top' ∧
      FilledOrEvicted c m₁ m' top' (paths ∪ pathsTo c page c.tablesDepth) := by
  obtain ⟨f, m', top', hloop, hend, hwalked⟩ := hout.walk h hroot hbare hpage le_rfl
  have hflt := hend.forest.frameAt_lt (length_pagePath c page).le hend.frame
  refine ⟨f, m'.restored f page, top', ?_, hend.restored h hpage, ?_⟩
  · unfold Paging.findFrame
    simp only [hloop, bind, Except.bind, toUInt64_frame hflt, pmRestore_ok hflt]
  · refine hwalked.congr (fun p hp => Forest.frameAt_congr ?_ hp) (m'.restored_trace f page) ?_
    · intro q x i hq hx _
      rw [m'.restored_ram f page
        (hend.forest.leaf_ne_table (length_pagePath c page) hend.frame hq hx).symm]
    · intro move hmove
      rw [List.mem_singleton.mp hmove]
      exact not_false

/-! ## A whole run -/

theorem demanded_nil : demanded c [] = {[]} := rfl

theorem nil_mem_demanded (accesses : List Access) : [] ∈ demanded c accesses :=
  Finset.mem_insert_self _ _

/-- A call in range demands the path of its page, another one demands nothing. -/
theorem demanded_snoc (accesses : List Access) (access : Access) :
    demanded c (accesses ++ [access]) =
      if access.virtualAddress < c.virtualMemorySize then
        demanded c accesses ∪ pathsTo c (fetchPageAddress c access.virtualAddress) c.tablesDepth
      else demanded c accesses := by
  split
  · next hrange =>
      ext p
      simp [demanded, accessedPages, hrange, mem_pathsTo, length_pagePath, List.take_of_length_le]
  · next hrange =>
      simp [demanded, accessedPages, hrange]

theorem noBareTable_demanded (c : MemoryConstants) (accesses : List Access) :
    NoBareTable c (demanded c accesses) [] := by
  induction accesses using List.reverseRecOn with
  | nil =>
      intro p hp _
      exact Or.inl (Finset.mem_singleton.mp hp)
  | append_singleton accesses access ih =>
      rw [demanded_snoc]
      split
      · exact ih.translated _
      · exact ih

/-- After the translation a call in range touches the frame of its page alone. -/
theorem next_translated {access : Access} (hrange : access.virtualAddress < c.virtualMemorySize)
    (hfind : findFrame c m (fetchPageAddress c access.virtualAddress) = .ok (f, m₁))
    (hdone : Translated c m top (fetchPageAddress c access.virtualAddress) f m₁ top')
    (hnext : next c m access = some m') : Inv c m' top' ∧ m'.trace = m₁.trace ∧
      ∀ p, p.length ≤ c.tablesDepth → frameAt c m' p = frameAt c m₁ p := by
  have hflt := hdone.inv.frameAt_lt (length_pagePath c _).le hdone.frame
  cases access with
  | read a value =>
      have hrun : next c m (.read a value) = some m₁ := by
        simp only [Access.virtualAddress] at hrange hfind
        simp [next, vmRead, not_le.mpr hrange, hfind, bind, Except.bind,
          pmRead_row m₁ hflt (fetchOffset_lt c a), Except.toOption]
      obtain rfl : m₁ = m' := Option.some.inj (hrun.symm.trans hnext)
      exact ⟨hdone.inv, rfl, fun _ _ => rfl⟩
  | write a value =>
      have hrun : next c m (.write a value) = some (m₁.store f (fetchOffset c a) value) := by
        simp only [Access.virtualAddress] at hrange hfind
        simp [next, vmWrite, not_le.mpr hrange, hfind, bind, Except.bind,
          pmWrite_row m₁ hflt (fetchOffset_lt c a), Except.toOption]
      obtain rfl := Option.some.inj (hrun.symm.trans hnext)
      refine ⟨(hdone.store (fetchOffset c a) value).1, rfl, fun p hp => ?_⟩
      apply Forest.frameAt_congr _ hp
      intro q x i hq hx _
      rw [m₁.store_ram f (fetchOffset c a) value
        (hdone.inv.leaf_ne_table (length_pagePath c _) hdone.frame hq hx).symm]

/-- **Step lemma.** -/
theorem FilledOrEvicted.next (h : Inv c m top) (hout : FilledOrEvicted c m₁ m top paths)
    (hroot : [] ∈ paths) (hbare : NoBareTable c paths []) {access : Access}
    (hrange : access.virtualAddress < c.virtualMemorySize)
    (hnext : next c m access = some m') : ∃ top', Inv c m' top' ∧ FilledOrEvicted c m₁ m' top'
      (paths ∪ pathsTo c (fetchPageAddress c access.virtualAddress) c.tablesDepth) := by
  obtain ⟨f, m₂, top', hfind, hdone, hmoved⟩ :=
    hout.findFrame h hroot hbare (fetchPageAddress_lt c hrange)
  obtain ⟨hinv, htrace, hmaps⟩ := next_translated hrange hfind hdone hnext
  have hquiet : m'.trace = m₂.trace ++ [] := htrace.trans (List.append_nil _).symm
  exact ⟨top', hinv, hmoved.congr hmaps hquiet (by simp)⟩

/-- **Run lemma.** -/
theorem filledOrEvicted_run (hinit : vmInitialize c m₀ = .ok m₁) {accesses : List Access}
    (hrun : run (Paging.next c) m₁ accesses = some m) :
    ∃ top, Inv c m top ∧ FilledOrEvicted c m₁ m top (demanded c accesses) := by
  induction accesses using List.reverseRecOn generalizing m with
  | nil =>
      obtain rfl : m₁ = m := Option.some.inj hrun
      have hinv := vmInitialize_inv hinit
      refine ⟨0, hinv, [], (List.append_nil _).symm, Or.inl ⟨by simp, fun p hp => ?_, rfl⟩⟩
      rw [demanded_nil, Finset.mem_singleton]
      constructor
      · intro hmapped
        obtain ⟨x, hx⟩ := Option.ne_none_iff_exists'.mp hmapped
        obtain rfl : x = 0 := Nat.le_zero.mp (hinv.frameAt_le hp hx)
        exact hinv.path_unique hp (Nat.zero_le _) hx (frameAt_nil c m₁)
      · intro hroot
        rw [hroot, frameAt_nil]
        exact Option.some_ne_none 0
  | append_singleton accesses access ih =>
      obtain ⟨m₂, hleft, hright⟩ := run_split hrun
      obtain ⟨m₃, hnext, hlast⟩ := run_cons_some hright
      obtain rfl : m₃ = m := Option.some.inj hlast
      obtain ⟨top, hinv, hout⟩ := ih hleft
      rw [demanded_snoc]
      split
      · next hrange =>
          exact hout.next hinv (nil_mem_demanded accesses) (noBareTable_demanded c accesses)
            hrange hnext
      · next hrange =>
          rcases next_cases hinv access with ⟨_, hsame⟩ | ⟨_, _, _, _, _, rfl, hlt, _⟩ |
              ⟨_, _, _, _, _, rfl, hlt, _⟩
          · obtain rfl : m₂ = m₃ := Option.some.inj (hsame.symm.trans hnext)
            exact ⟨top, hinv, hout⟩
          · exact absurd hlt hrange
          · exact absurd hlt hrange

/-- **Pages are evicted for want of frames only.**  A run evicts a page exactly if
the pages that it accesses and their tables are more than the frames.  As long as
they are not, every page that was accessed is in a frame, and the frames in use are
the first ones, one for each page and table. -/
theorem evicts_iff_too_few_frames (c : MemoryConstants) {m₀ m₁ m : PhysicalMemory}
    {accesses : List Access} (hinit : vmInitialize c m₀ = .ok m₁)
    (hrun : run (Paging.next c) m₁ accesses = some m) :
    ∃ moves, m.trace = m₁.trace ++ moves ∧
      ((∃ move ∈ moves, move.IsEvict) ↔ c.numFrames < (demanded c accesses).card) ∧
      ((demanded c accesses).card ≤ c.numFrames →
        (∀ page ∈ accessedPages c accesses, frameOf c m page ≠ none) ∧
          treeFrames c m = {f | f < (demanded c accesses).card}) := by
  obtain ⟨top, hinv, moves, htrace, hcase⟩ := filledOrEvicted_run hinit hrun
  refine ⟨moves, htrace, ?_⟩
  have htop := hinv.top_lt
  rcases hcase with ⟨hquiet, hfilled⟩ | ⟨hevicted, hmany⟩
  · have hcard := hfilled.card
    refine ⟨⟨?_, fun hmany => by omega⟩, fun _ => ⟨fun page hpage => ?_, ?_⟩⟩
    · intro hevicted
      obtain ⟨move, hmem, hevict⟩ := hevicted
      exact absurd hevict (hquiet move hmem)
    · apply (hfilled.maps (pagePath c page) (length_pagePath c page).le).mpr
      apply Finset.mem_insert_of_mem
      rw [List.mem_toFinset, List.mem_flatMap]
      exact ⟨page, hpage, List.mem_inits _ _ |>.mpr (List.prefix_refl _)⟩
    · ext x
      rw [hinv.mem_treeFrames, hcard]
      exact Nat.lt_succ_iff.symm
  · exact ⟨⟨fun _ => hmany, fun _ => hevicted⟩, fun hfew => absurd hmany (not_lt.mpr hfew)⟩

/-- Pages 7 and 6 share their tables and fit in the eight frames.  Pages 7 and 9 share
the root alone and do not. -/
theorem evicts_iff_too_few_frames_small :
    (∃ m, run (Paging.next smallMemory) (.filled 0) [.read 15 0, .write 12 3] = some m ∧
      treeFrames smallMemory m = {f | f < 6}) ∧
    ∃ m, run (Paging.next smallMemory) (.filled 0) [.read 15 0, .read 19 0] = some m ∧
      ∃ move ∈ m.trace, move.IsEvict := by
  have hinit := vmInitialize_zeros smallMemory 5
  constructor
  · obtain ⟨m, hrun⟩ := Option.isSome_iff_exists.mp (show
      (run (Paging.next smallMemory) (.filled 0) [.read 15 0, .write 12 3]).isSome = true by
        decide +kernel)
    obtain ⟨moves, _, _, hfew⟩ := evicts_iff_too_few_frames smallMemory hinit hrun
    exact ⟨m, hrun, (hfew (by decide +kernel)).2⟩
  · obtain ⟨m, hrun, _⟩ := (Option.any_eq_true _ _).mp smallMemory_run
    obtain ⟨moves, htrace, hiff, _⟩ := evicts_iff_too_few_frames smallMemory hinit hrun
    obtain ⟨move, hmem, hevict⟩ := hiff.mpr (by decide +kernel)
    refine ⟨m, hrun, move, ?_, hevict⟩
    rw [htrace]
    exact List.mem_append_right _ hmem

end Paging
