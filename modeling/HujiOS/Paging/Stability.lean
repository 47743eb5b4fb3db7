import HujiOS.Paging.FreeFrames

/-!
# Translation is stable

After `findFrame` the entries on the path of the page lead to the frame that was
returned, whatever was allocated or evicted on the way down.  So a second call
finds every entry, allocates nothing and returns the same frame, and since the
page is no longer in the swap file it loads nothing.
-/

namespace Paging

open MachineInt PointerTree Runs

/-- Reading at each depth the entry of `page` meets non-zero entries only and
ends in `f`. -/
def WalksTo (c : Widths) (m : PhysicalMemory) (page f : Nat) : Prop :=
  ∃ frames : Nat → Nat, frames 0 = 0 ∧ frames c.tablesDepth = f ∧ ∀ d < c.tablesDepth,
    pmRead c m (physicalAddress c (frames d) (fetchDepthOffset c page d)) =
      .ok ((frames (d + 1) : Nat) : Int) ∧ frames (d + 1) ≠ 0

variable {c : MemoryConstants} {m m' : PhysicalMemory} {top page f : Nat}

/-- The frames on the path of a mapped page. -/
theorem frameAt_take (hf : frameOf c m page = some f) (d : Nat) :
    ∃ x, frameAt c m ((pagePath c page).take d) = some x :=
  walk_prefix (List.take_prefix d (pagePath c page)) hf

/-- A mapped page is walked to. -/
theorem PageTree.walksTo (h : PageTree c m) (hf : frameOf c m page = some f) :
    WalksTo c m page f := by
  choose frames hframes using frameAt_take hf
  refine ⟨frames, ?_, ?_, fun d hd => ?_⟩
  · exact (Option.some.inj (hframes 0)).symm
  · have hend := hframes c.tablesDepth
    rw [List.take_of_length_le (length_pagePath c page).le] at hend
    exact Option.some.inj (hend.symm.trans hf)
  · have hlen : ((pagePath c page).take d).length < c.tablesDepth := by
      rw [length_take_pagePath page hd.le]
      exact hd
    have hi : fetchDepthOffset c page d < c.pageSize := fetchOffset_lt c _
    have hentry : entry c m (frames d) (fetchDepthOffset c page d) = some (frames (d + 1)) := by
      rw [← frameAt_snoc (hframes d), ← take_succ_pagePath c page hd]
      exact hframes (d + 1)
    obtain ⟨hword, hpos⟩ := h.ram_of_entry hlen (hframes d) hentry
    rw [pmRead_row m (h.frameAt_lt hlen.le (hframes d)) hi, hword]
    exact ⟨rfl, hpos⟩

/-- **A mapped page is found as it is.** -/
theorem Inv.findFrame_mapped (h : Inv c m top) (hpage : page < c.numPages)
    (hf : frameOf c m page = some f) :
    findFrame c m page = .ok (f, m.record (.restore f page)) := by
  obtain ⟨g, m', _, hloop, hend, _⟩ := h.walk hpage le_rfl
  have hmapped := mapped_of_frameOf hf
  obtain rfl := hend.hit hmapped
  obtain rfl : g = f := Option.some.inj (hend.frame.symm.trans hf)
  have hlt := h.frameAt_lt (length_pagePath c page).le hf
  have hswap := h.swapped page hpage hmapped
  unfold findFrame
  simp only [hloop, bind, Except.bind, toUInt64_frame hlt, pmRestore_ok hlt,
    restored_of_unswapped hswap]

/-- What a translation leaves behind: the entries lead to the frame, the page is
not in the swap file, and the same call again returns the same frame and leaves the
RAM and the swap file alone; it moves no page, it only asks for one that is there. -/
structure Stable (c : Widths) (m : PhysicalMemory) (page f : Nat) : Prop where
  walks : WalksTo c m page f
  loaded : m.swapFile page = none
  again : ∃ m', findFrame c m page = .ok (f, m') ∧ m'.ram = m.ram ∧ m'.swapFile = m.swapFile ∧
    m'.trace = m.trace ++ [.restore f page]

theorem Translated.stable {m₀ : PhysicalMemory} {top₀ : Nat}
    (h : Translated c m₀ top₀ page f m top) (hpage : page < c.numPages) :
    Stable c m page f where
  walks := h.inv.toPageTree.walksTo h.frame
  loaded := h.inv.swapped page hpage (mapped_of_frameOf h.frame)
  again := ⟨_, h.inv.findFrame_mapped hpage h.frame, rfl, rfl, rfl⟩

section WithoutTables

variable {c : Widths}

/-- Without tables the one page is in frame 0. -/
theorem findFrame_without_tables (hnone : c.tablesDepth = 0) (hframes : 0 < c.numFrames)
    (m : PhysicalMemory) (page : Nat) : findFrame c m page = .ok (0, m.restored 0 page) := by
  have hzero : toUInt64 (0 : Int) = 0 := rfl
  unfold findFrame
  simp only [hnone, List.range_zero, List.foldlM_nil, pure, Except.pure, bind, Except.bind, hzero,
    pmRestore_ok hframes]

theorem stable_without_tables (hnone : c.tablesDepth = 0) (hframes : 0 < c.numFrames)
    (m : PhysicalMemory) (page : Nat) : Stable c (m.restored 0 page) page 0 := by
  have hloaded := restored_swapFile_self m 0 page
  refine ⟨⟨fun _ => 0, rfl, rfl, fun d hd => ?_⟩, hloaded, _,
    findFrame_without_tables hnone hframes _ page, ?_⟩
  · omega
  · rw [restored_of_unswapped hloaded]
    exact ⟨rfl, rfl, rfl⟩

end WithoutTables

/-- **Translation is stable.**  From every reachable memory, the translation of a
page leaves a memory in which it is stable, whatever was allocated or evicted. -/
theorem translation_stable {c : Widths} (hc : c.Numbered) (hroom : c.tablesDepth < c.numFrames)
    (h : Reachable c m) (hpage : page < c.numPages) :
    ∃ f m', findFrame c m page = .ok (f, m') ∧ Stable c m' page f := by
  rcases Nat.eq_zero_or_pos c.tablesDepth with hnone | hlevel
  · rw [hnone] at hroom
    exact ⟨0, _, findFrame_without_tables hnone hroom m page,
      stable_without_tables hnone hroom m page⟩
  · obtain ⟨c, rfl⟩ := hc.exists_constants (Widths.offsetWidth_lt hlevel) hroom
    obtain ⟨top, hinv⟩ := h.inv
    obtain ⟨f, m', top', hfind, hdone⟩ := findFrame_spec hinv hpage
    exact ⟨f, m', hfind, hdone.stable hpage⟩

/-- The last page, right after initialization. -/
theorem translation_stable_first :
    ∃ m₁ f m', vmInitialize memoryConstants (.filled 64) = .ok m₁ ∧
      findFrame memoryConstants m₁ (2 ^ 16 - 1) = .ok (f, m') ∧
      WalksTo memoryConstants m' (2 ^ 16 - 1) f := by
  have hinit := vmInitialize_ok memoryConstants (.filled 64)
  have hreach : Reachable memoryConstants _ := ⟨_, _, hinit, Reaches.refl _⟩
  obtain ⟨f, m', hfind, hstable⟩ := translation_stable memoryConstants.numbered
    memoryConstants.tablesDepth_lt hreach (show 2 ^ 16 - 1 < memoryConstants.numPages by decide)
  exact ⟨_, f, m', hinit, hfind, hstable.walks⟩

/-- With more pages than an `int` can count the frame of page 1 is the root, and
its first entry is cleared. -/
theorem widePages_translation : ((next widePages (.filled 0) (.read 0 0)).any fun m₀ =>
    (findFrame widePages m₀ 1).toOption.any fun found =>
      decide (found.1 = 0) && decide ((pmRead widePages found.2
        (physicalAddress widePages 0 (fetchDepthOffset widePages 1 0))).toOption = some 0)) =
    true := by
  decide +kernel

/-- The walk of page 1 then ends at the first step. -/
theorem widePages_not_walked : widePages.tablesDepth < widePages.numFrames ∧
    1 < widePages.numPages ∧
    ∃ m₀ m, Reachable widePages m₀ ∧ findFrame widePages m₀ 1 = .ok (0, m) ∧
      ∀ f, ¬ WalksTo widePages m 1 f := by
  refine ⟨by decide, by decide, ?_⟩
  obtain ⟨m₀, hnext, hrest⟩ := (Option.any_eq_true _ _).mp widePages_translation
  obtain ⟨⟨w, m⟩, hfind, hrest⟩ := (Option.any_eq_true _ _).mp hrest
  simp only [Bool.and_eq_true, decide_eq_true_eq] at hrest
  obtain ⟨rfl, hread⟩ := hrest
  refine ⟨m₀, m, ⟨_, _, widePages_initialize, (Reaches.refl _).snoc hnext⟩,
    ok_of_toOption hfind, ?_⟩
  rintro f ⟨frames, hstart, _, hwalk⟩
  obtain ⟨hword, hpos⟩ := hwalk 0 (by decide)
  rw [hstart] at hword
  have hzero := Except.ok.inj (hword.symm.trans (ok_of_toOption hread))
  exact hpos (by exact_mod_cast hzero)

end Paging
