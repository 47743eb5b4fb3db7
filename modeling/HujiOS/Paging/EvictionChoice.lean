import HujiOS.Paging.FreeFrames

/-!
# The choice of the page to evict

For every memory whose tables form a tree, not only for the reachable ones: the
frame, the page number and the address that `findFrameToEvict` returns belong to
one resident page, which is the first of those farthest from the page that is
faulting, and `evictFrame` moves that page out.
-/

namespace Paging

open PointerTree Runs

/-- The tables form a page tree.  A zero entry refers to nothing, so frame 0 is
never referred to. -/
structure WellFormedTree (c : Widths) (m : PhysicalMemory) : Prop where
  entry_range : ∀ d f i, InTree c m d f → d < c.tablesDepth → i < c.pageSize →
    0 ≤ m.ram f i ∧ m.ram f i < c.numFrames
  /-- no frame is referred to twice -/
  refers_once : ∀ x i y j g, g ≠ 0 → Refers c m x i g → Refers c m y j g → x = y ∧ i = j
  /-- what is mapped is a page -/
  pages : ∀ p f, p.length = c.tablesDepth → frameAt c m p = some f → pathPage c p < c.numPages

variable {m m' : PhysicalMemory} {top page q f g x i depth : Nat} {p r : List Nat}

namespace WellFormedTree

variable {c : Widths}

/-- The last entry on a path that is not empty. -/
theorem refers_of_frameAt (h : WellFormedTree c m) (hlen : p.length < c.tablesDepth)
    (hx : InTree c m p.length x) (hentry : entry c m x i = some g) :
    Refers c m x i g ∧ g ≠ 0 := by
  have hi := entry_lt x i g hentry
  obtain ⟨hlo, _⟩ := h.entry_range p.length x i hx hlen hi
  have hne : m.ram x i ≠ 0 := fun hzero => by
    rw [(entry_eq_none_iff hi).mpr hzero] at hentry
    cases hentry
  have hval : (m.ram x i).toNat = g := by simpa [entry, hi, hne] using hentry
  exact ⟨⟨⟨p.length, hlen, hx⟩, hi, by omega⟩, by omega⟩

theorem inTree_of_frameAt (h : WellFormedTree c m) (hlen : p.length ≤ c.tablesDepth)
    (hw : frameAt c m p = some f) : InTree c m p.length f := by
  induction p using List.reverseRecOn generalizing f with
  | nil =>
      obtain rfl : 0 = f := Option.some.inj hw
      exact .root
  | append_singleton p i ih =>
      obtain ⟨x, hx, hentry⟩ := frameAt_snoc_eq_some.mp hw
      have hlt : p.length < c.tablesDepth := by simpa [Nat.succ_le_iff] using hlen
      have hparent := ih hlt.le hx
      obtain ⟨hrefers, hpos⟩ := h.refers_of_frameAt hlt hparent hentry
      rw [List.length_append, List.length_singleton]
      exact .entry hparent hlt hrefers.row_lt hrefers.word hpos

theorem refers_of_snoc (h : WellFormedTree c m) (hlen : (p ++ [i]).length ≤ c.tablesDepth)
    (hx : frameAt c m p = some x) (hg : frameAt c m (p ++ [i]) = some g) :
    Refers c m x i g ∧ g ≠ 0 := by
  have hlt : p.length < c.tablesDepth := by simpa [Nat.succ_le_iff] using hlen
  exact h.refers_of_frameAt hlt (h.inTree_of_frameAt hlt.le hx) ((frameAt_snoc hx i).symm.trans hg)

/-- **Entries that are not shared make a tree.**  Two paths to one frame end in
the same entry. -/
theorem path_unique (h : WellFormedTree c m) (hp : p.length ≤ c.tablesDepth)
    (hr : r.length ≤ c.tablesDepth) (hwp : frameAt c m p = some f)
    (hwr : frameAt c m r = some f) : p = r := by
  induction p using List.reverseRecOn generalizing r f with
  | nil =>
      obtain rfl : 0 = f := Option.some.inj hwp
      rcases List.eq_nil_or_concat r with rfl | ⟨r, i, rfl⟩
      · rfl
      · rw [List.concat_eq_append] at *
        obtain ⟨x, hx, _⟩ := frameAt_snoc_eq_some.mp hwr
        exact absurd rfl (h.refers_of_snoc hr hx hwr).2
  | append_singleton p i ih =>
      obtain ⟨x, hx, _⟩ := frameAt_snoc_eq_some.mp hwp
      obtain ⟨hrefers, hpos⟩ := h.refers_of_snoc hp hx hwp
      rcases List.eq_nil_or_concat r with rfl | ⟨r, j, rfl⟩
      · exact absurd (Option.some.inj hwr).symm hpos
      · rw [List.concat_eq_append] at *
        obtain ⟨y, hy, _⟩ := frameAt_snoc_eq_some.mp hwr
        obtain ⟨rfl, rfl⟩ := h.refers_once x i y j f hpos hrefers (h.refers_of_snoc hr hy hwr).1
        have hp' : p.length ≤ c.tablesDepth := (List.prefix_append p [i]).length_le.trans hp
        have hr' : r.length ≤ c.tablesDepth := (List.prefix_append r [i]).length_le.trans hr
        rw [ih hp' hr' hx hy]

theorem frame_lt_of_snoc (h : WellFormedTree c m) (hlen : (p ++ [i]).length ≤ c.tablesDepth)
    (hg : frameAt c m (p ++ [i]) = some g) : g < c.numFrames := by
  obtain ⟨x, hx, _⟩ := frameAt_snoc_eq_some.mp hg
  have hlt : p.length < c.tablesDepth := by simpa [Nat.succ_le_iff] using hlen
  have hrefers := (h.refers_of_snoc hlen hx hg).1
  have hrange := h.entry_range _ x i (h.inTree_of_frameAt hlt.le hx) hlt hrefers.row_lt
  rw [hrefers.word] at hrange
  omega

/-- A mapped page is at the end of a path of as many frames as there are levels
of tables and one more. -/
theorem tablesDepth_lt (h : WellFormedTree c m) (hf : frameOf c m q = some f)
    (hpos : 0 < c.tablesDepth) : c.tablesDepth < c.numFrames := by
  have hlen := length_pagePath c q
  have hroot : 0 < c.numFrames := by
    obtain ⟨i, rest, hpath⟩ := List.exists_cons_of_length_pos (hlen ▸ hpos)
    obtain ⟨g, hg⟩ := walk_prefix (p := [i]) ⟨rest, hpath.symm⟩ hf
    exact (Nat.zero_le g).trans_lt (h.frame_lt_of_snoc (p := []) hpos hg)
  have hbound : ∀ p x, p <+: pagePath c q → frameAt c m p = some x → x < c.numFrames := by
    intro p x hp hx
    rcases List.eq_nil_or_concat p with rfl | ⟨p, i, rfl⟩
    · obtain rfl : 0 = x := Option.some.inj hx
      exact hroot
    · rw [List.concat_eq_append] at hp hx
      exact h.frame_lt_of_snoc (hp.length_le.trans hlen.le) hx
  have htree : IsTree (entry c m) 0 c.tablesDepth := fun _ _ _ hp hr hwp hwr =>
    h.path_unique hp hr hwp hwr
  have hcard := htree.length_lt_card hlen.le hf (Finset.range c.numFrames)
    fun p x hp hx => Finset.mem_range.mpr (hbound p x hp hx)
  rwa [hlen, Finset.card_range] at hcard

end WellFormedTree

variable {c : MemoryConstants}

theorem WellFormedTree.pageTree (h : WellFormedTree c m) : PageTree c m where
  tree := fun _ _ _ hp hq hwp hwq => h.path_unique hp hq hwp hwq
  entries := fun p f i hlen hw hi =>
    h.entry_range p.length f i (h.inTree_of_frameAt hlen.le hw) hlen hi
  pages := h.pages

/-- The other way round, so the tables of every reachable memory are such a
tree. -/
theorem PageTree.wellFormedTree (h : PageTree c m) : WellFormedTree c m where
  entry_range := by
    intro d f i hf hd hi
    obtain ⟨p, rfl, _, hw⟩ := (inTree_iff h).mp hf
    exact h.entries p f i hd hw hi
  refers_once := by
    intro x i y j g hpos hx hy
    obtain ⟨p, hp, hwx, hwg⟩ := (refers_iff h hpos).mp hx
    obtain ⟨rfl, rfl⟩ := refers_unique h hp hwx hwg hpos y j hy
    exact ⟨rfl, rfl⟩
  pages := h.pages

/-- The table and the row that map a page. -/
theorem parent_of_snoc (hp : p.length + 1 = c.tablesDepth) (hx : frameAt c m p = some x)
    (hg : frameAt c m (p ++ [i]) = some g) :
    frameAt c m ((pagePath c (pathPage c (p ++ [i]))).take (c.tablesDepth - 1)) = some x ∧
      fetchDepthOffset c (pathPage c (p ++ [i])) (c.tablesDepth - 1) = i := by
  have hlen : (p ++ [i]).length = c.tablesDepth := by simpa using hp
  have hlast : c.tablesDepth - 1 < c.tablesDepth := by omega
  have hpath := pagePath_pathPage c hlen (frameAt_slots hg)
  have hsplit := take_succ_pagePath c (pathPage c (p ++ [i])) hlast
  rw [List.take_of_length_le (by rw [length_pagePath]; omega), hpath] at hsplit
  obtain ⟨hfront, hrow⟩ := List.append_inj' hsplit rfl
  rw [hpath, ← hfront]
  exact ⟨hx, by simpa using hrow.symm⟩

/-- Without tables every page is in frame 0. -/
theorem tablesDepth_pos_of_absent {c : Widths} (habsent : frameOf c m page = none) :
    0 < c.tablesDepth := by
  by_contra hnone
  have hpath : pagePath c page = [] := by
    rw [← List.length_eq_zero_iff, length_pagePath]
    omega
  rw [frameOf, hpath] at habsent
  cases habsent

/-- **The eviction choice.**  On a well-formed page tree with a page resident and
`page` not among them: the search returns a resident page, its frame and the
address of the entry that maps it; the page is at the largest cyclic distance and
the first such page; and unless the swap file has it already, the eviction moves
its content there and clears that entry. -/
theorem eviction_choice {c : Widths} (hc : c.Numbered) (h : WellFormedTree c m)
    (hpage : page < c.numPages) (habsent : ¬ Resident c m page) (hres : ∃ r, Resident c m r) :
    ∃ q g x address, Farthest c m page q ∧ frameOf c m q = some g ∧
      frameAt c m ((pagePath c q).take (c.tablesDepth - 1)) = some x ∧
      address = physicalAddress c x (fetchDepthOffset c q (c.tablesDepth - 1)) ∧
      pmRead c m address = .ok (g : Int) ∧
      findFrameToEvict c m page c.tablesDepth
          { maxCycDist := 0, pageToEvict := 0, evictedFrame := 0, evictedAddressInParent := 0 }
          0 0 0 =
        .ok { maxCycDist := cyclicDistance c page q, pageToEvict := q, evictedFrame := (g : Int)
              evictedAddressInParent := address } ∧
      ∀ depth, (m.swapFile q = none → evictFrame c m page depth = .ok ((g : Int),
          m.evicted c depth x (fetchDepthOffset c q (c.tablesDepth - 1)) g q)) ∧
        (m.swapFile q ≠ none → evictFrame c m page depth = .error (.evictedTwice q)) := by
  have hnone := frameOf_of_not_resident hpage habsent
  have hlevel := tablesDepth_pos_of_absent hnone
  have hroom : c.tablesDepth < c.numFrames := by
    obtain ⟨r, _, hr⟩ := hres
    obtain ⟨f, hf⟩ := Option.ne_none_iff_exists'.mp hr
    exact h.tablesDepth_lt hf hlevel
  obtain ⟨c, rfl⟩ := hc.exists_constants (Widths.offsetWidth_lt hlevel) hroom
  have htree := h.pageTree
  obtain ⟨p, x, i, g, hlen, hx, hg, _, hfar, hsearch, hevict⟩ :=
    evictFrame_spec htree hpage hnone hres
  have hglen : (p ++ [i]).length = c.tablesDepth := by simpa using hlen
  obtain ⟨hparent, hrow⟩ := parent_of_snoc hlen hx hg
  have hentry := (frameAt_snoc hx i).symm.trans hg
  have hword := (htree.ram_of_entry (by omega) hx hentry).1
  have hxf := htree.frameAt_lt (by omega) hx
  refine ⟨pathPage c (p ++ [i]), g, x, physicalAddress c x i, hfar, frameOf_pathPage hglen hg,
    hparent, by rw [hrow], ?_, ?_, fun depth => ?_⟩
  · rw [pmRead_row m hxf (entry_lt x i g hentry), hword]
  · rw [hsearch, evictionOf, entryAddress_snoc hx i,
      cycDist_eq_cyclicDistance hpage hfar.resident.1]
  · rw [hrow, hevict depth]
    refine ⟨fun hswap => ?_, fun hswap => ?_⟩
    · rw [hswap]
      rfl
    · exact if_pos (Option.isSome_iff_ne_none.mpr hswap)

/-- After the first access to an empty memory its page is the only one. -/
theorem exists_single_resident (c : MemoryConstants) :
    ∃ m, Reachable c m ∧ (∀ q, Resident c m q ↔ q = 0) ∧ ∀ q < c.numPages, m.swapFile q = none := by
  obtain ⟨m₁, hinit, hempty⟩ : ∃ m₁, vmInitialize c (.filled 0) = .ok m₁ ∧
      ∀ q, m₁.swapFile q = none := ⟨_, vmInitialize_ok c _, fun _ => rfl⟩
  have hinv := vmInitialize_inv hinit
  have hin : 0 < c.virtualMemorySize := Nat.two_pow_pos _
  obtain ⟨f, m, top, hdone, hread⟩ := vmRead_spec hinv hin 0
  have hzero : fetchPageAddress c 0 = 0 := by simp [fetchPageAddress_eq]
  rw [hzero] at hdone
  have hnext : next c m₁ (.read 0 0) = some m := by
    simp only [next, hread, Except.toOption, Option.map_some]
  have hnum : 0 < c.numPages := by
    rw [c.numPages_eq]
    exact Nat.two_pow_pos _
  -- the other pages have no content
  have hother : ∀ q < c.numPages, q ≠ 0 → pageContent c m q = none := by
    intro q hq hne
    rw [hdone.others q hq hne, pageContent_absent (hinv.toForest.frameOf_root_alone q)]
    exact hempty q
  have hframe : ∀ q < c.numPages, q ≠ 0 → frameOf c m q = none := by
    intro q hq hne
    by_contra hres
    obtain ⟨g, hg⟩ := Option.ne_none_iff_exists'.mp hres
    have hnone := hother q hq hne
    rw [pageContent_resident hg] at hnone
    cases hnone
  refine ⟨m, ⟨_, _, hinit, (Reaches.refl _).snoc hnext⟩, fun q => ⟨?_, ?_⟩, fun q hq => ?_⟩
  · rintro ⟨hq, hres⟩
    by_contra hne
    exact hres (hframe q hq hne)
  · rintro rfl
    exact ⟨hnum, mapped_of_frameOf hdone.frame⟩
  · by_cases hne : q = 0
    · subst hne
      exact hdone.inv.swapped 0 hq (mapped_of_frameOf hdone.frame)
    · rw [← hother q hq hne, pageContent_absent (hframe q hq hne)]

/-- With one page resident that page is moved out. -/
theorem eviction_choice_single : ∃ m g m', Reachable memoryConstants m ∧
    evictFrame memoryConstants m 1 3 = .ok (g, m') ∧ m'.swapFile 0 ≠ none := by
  obtain ⟨m, hreach, hres, hswap⟩ := exists_single_resident memoryConstants
  obtain ⟨top, hinv⟩ := hreach.inv
  obtain ⟨q, g, x, _, hfar, _, _, _, _, _, hevict⟩ := eviction_choice
    memoryConstants.numbered hinv.toPageTree.wellFormedTree
    (show 1 < memoryConstants.numPages by decide)
    (fun hone => absurd ((hres 1).mp hone) (by decide)) ⟨0, (hres 0).mpr rfl⟩
  obtain rfl := (hres q).mp hfar.resident
  refine ⟨m, g, _, hreach, (hevict 3).1 (hswap 0 hfar.resident.1), ?_⟩
  simp [PhysicalMemory.evicted_swapFile]

/-- A page that is mapped and in the swap file as well cannot be moved out: the
assertion of `PMevict` fails. -/
theorem evictFrame_swapped_twice : ∃ m, WellFormedTree memoryConstants m ∧
    Resident memoryConstants m 0 ∧ ¬ Resident memoryConstants m 1 ∧
    ∀ depth, evictFrame memoryConstants m 1 depth = .error (.evictedTwice 0) := by
  obtain ⟨m, hreach, hres, _⟩ := exists_single_resident memoryConstants
  obtain ⟨top, hinv⟩ := hreach.inv
  have hforest : Forest memoryConstants (m.setSwap 0 (some fun _ => 0)) none top :=
    hinv.toForest.of_tables_unchanged (fun _ _ _ _ _ _ => rfl) fun _ _ _ => rfl
  have hres' : ∀ q, Resident memoryConstants (m.setSwap 0 (some fun _ => 0)) q ↔ q = 0 := hres
  have hone : ¬ Resident memoryConstants (m.setSwap 0 (some fun _ => 0)) 1 :=
    fun hmapped => absurd ((hres' 1).mp hmapped) (by decide)
  refine ⟨_, hforest.toPageTree.wellFormedTree, (hres' 0).mpr rfl, hone, fun depth => ?_⟩
  have hnum : 1 < memoryConstants.numPages := by decide
  obtain ⟨p, x, i, g, _, _, _, _, hfar, _, hevict⟩ :=
    evictFrame_spec hforest.toPageTree hnum (frameOf_of_not_resident hnum hone)
      ⟨0, (hres' 0).mpr rfl⟩
  have hzero := (hres' _).mp hfar.resident
  rw [hevict depth, hzero]
  exact if_pos rfl

end Paging
