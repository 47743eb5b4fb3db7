import HujiOS.Paging.Translation

/-!
# The page tables in every reachable memory

The representation invariant in the words of the tables alone: which frames
are reached through non-zero entries, and from how many of them.  Together
with it, the safety of the physical memory operations: no assertion fails, and
the root table is never evicted.
-/

namespace Paging

open PointerTree Runs

/-- Frame `f` is reached from the root table through `d` non-zero entries. -/
inductive InTree (c : Widths) (m : PhysicalMemory) : Nat → Nat → Prop
  | root : InTree c m 0 0
  | entry {d f i g : Nat} (hf : InTree c m d f) (hd : d < c.tablesDepth) (hi : i < c.pageSize)
      (hword : m.ram f i = g) (hg : g ≠ 0) : InTree c m (d + 1) g

/-- The non-zero entries of the tables form a tree on the frames `0 .. top`. -/
structure PageTables (c : MemoryConstants) (m : PhysicalMemory) (top : Nat) : Prop where
  entry_range : ∀ d f i, InTree c m d f → d < c.tablesDepth → i < c.pageSize →
    0 ≤ m.ram f i ∧ m.ram f i < c.numFrames
  /-- no frame is referenced by two entries -/
  entry_unique : ∀ d f i d' f' i', InTree c m d f → d < c.tablesDepth → i < c.pageSize →
    InTree c m d' f' → d' < c.tablesDepth → i' < c.pageSize → m.ram f i ≠ 0 →
    m.ram f i = m.ram f' i' → f = f' ∧ i = i'
  root_unreferenced : ∀ d, ¬ InTree c m (d + 1) 0
  /-- no frame is at two depths, so none is both a table and a content page -/
  depth_unique : ∀ d d' f, InTree c m d f → InTree c m d' f → d = d'
  frames : ∀ f, (∃ d, InTree c m d f) ↔ f ≤ top
  top_lt : top < c.numFrames
  unused : ∀ f i, top < f → f < c.numFrames → i < c.pageSize → m.ram f i = 0
  /-- what is mapped is a page, and it is not in the swap file -/
  mapped : ∀ p f, p.length = c.tablesDepth → frameAt c m p = some f →
    pathPage c p < c.numPages ∧ m.swapFile (pathPage c p) = none

variable {c : MemoryConstants} {m m' : PhysicalMemory} {top d f i : Nat}

/-- The frames of the tree are the frames at the paths. -/
theorem inTree_iff (h : PageTree c m) :
    InTree c m d f ↔ ∃ p, p.length = d ∧ d ≤ c.tablesDepth ∧ frameAt c m p = some f := by
  constructor
  · intro hf
    induction hf with
    | root => exact ⟨[], rfl, Nat.zero_le _, rfl⟩
    | @entry d f i g _ hd hi hword hg ih =>
        obtain ⟨p, hp, _, hw⟩ := ih
        refine ⟨p ++ [i], by simp [hp], hd, ?_⟩
        rw [frameAt_snoc hw]
        exact entry_of_row hi hword hg
  · rintro ⟨p, rfl, hle, hw⟩
    induction p using List.reverseRecOn generalizing f with
    | nil =>
        obtain rfl : 0 = f := Option.some.inj hw
        exact .root
    | append_singleton p i ih =>
        rw [List.length_append, List.length_singleton] at hle ⊢
        obtain ⟨x, hx, hentry⟩ := frameAt_snoc_eq_some.mp hw
        obtain ⟨hword, hf⟩ := h.ram_of_entry (by omega) hx hentry
        exact .entry (ih (by omega) hx) (by omega) (entry_lt x i f hentry) hword hf

theorem Inv.pageTables (h : Inv c m top) : PageTables c m top := by
  have htree := h.toPageTree
  refine ⟨?_, ?_, ?_, ?_, ?_, h.top_lt, h.unused, ?_⟩
  · intro d f i hf hd hi
    obtain ⟨p, rfl, _, hw⟩ := (inTree_iff htree).mp hf
    exact h.entries p f i hd hw hi
  · intro d f i d' f' i' hf hd hi hf' hd' hi' hne heq
    obtain ⟨p, rfl, _, hw⟩ := (inTree_iff htree).mp hf
    obtain ⟨p', rfl, _, hw'⟩ := (inTree_iff htree).mp hf'
    rcases h.row_cases hd hw hi with ⟨hzero, _⟩ | ⟨g, hg, _, hword, hsome⟩
    · exact absurd hzero hne
    have hsome' : entry c m f' i' = some g := entry_of_row hi' (heq.symm.trans hword) hg
    have hpaths : p ++ [i] = p' ++ [i'] := by
      have hat := (frameAt_snoc hw i).trans hsome
      have hat' := (frameAt_snoc hw' i').trans hsome'
      refine h.path_unique ?_ ?_ hat hat'
      · simpa [Nat.succ_le_iff] using hd
      · simpa [Nat.succ_le_iff] using hd'
    obtain ⟨hp, hrow⟩ := List.append_inj' hpaths rfl
    subst hp
    exact ⟨Option.some.inj (hw.symm.trans hw'), by simpa using hrow⟩
  · intro d hf
    obtain ⟨p, hp, hd, hw⟩ := (inTree_iff htree).mp hf
    have hnil := h.path_unique (hp.le.trans hd) (Nat.zero_le _) hw (frameAt_nil c m)
    rw [hnil, List.length_nil] at hp
    omega
  · intro d d' f hf hf'
    obtain ⟨p, hp, hd, hw⟩ := (inTree_iff htree).mp hf
    obtain ⟨p', hp', hd', hw'⟩ := (inTree_iff htree).mp hf'
    rw [← hp, ← hp', h.path_unique (hp.le.trans hd) (hp'.le.trans hd') hw hw']
  · intro f
    have hframes := h.frames f
    constructor
    · rintro ⟨d, hf⟩
      obtain ⟨p, hp, hd, hw⟩ := (inTree_iff htree).mp hf
      exact (hframes.mp ⟨p, hp.le.trans hd, hw⟩).1
    · intro hle
      obtain ⟨p, hp, hw⟩ := hframes.mpr ⟨hle, by simp⟩
      exact ⟨p.length, (inTree_iff htree).mpr ⟨p, rfl, hp, hw⟩⟩
  · intro p f hp hw
    obtain ⟨hnum, hmapped⟩ := h.toPageTree.resident hp hw
    exact ⟨hnum, h.swapped _ hnum hmapped⟩

/-- **The page tables are well formed** in every reachable memory, and the
largest frame in use never decreases along a run. -/
theorem reachable_pageTables (h : Reachable c m) :
    ∃ top, PageTables c m top ∧ ∀ m', Reaches (next c) m m' →
      ∃ top', PageTables c m' top' ∧ top ≤ top' := by
  obtain ⟨top, hinv⟩ := h.inv
  refine ⟨top, hinv.pageTables, ?_⟩
  intro m' hrun
  obtain ⟨top', hinv', hle⟩ := hinv.reaches hrun
  exact ⟨top', hinv'.pageTables, hle⟩

/-- After the first write to a memory filled with garbage. -/
theorem reachable_pageTables_write :
    ∃ m₁ m top, vmInitialize memoryConstants (.filled 64) = .ok m₁ ∧
      next memoryConstants m₁ (.write 13 3) = some m ∧ PageTables memoryConstants m top := by
  have hinit := vmInitialize_ok memoryConstants (.filled 64)
  obtain ⟨m, _, hrun, _⟩ := next_inv (vmInitialize_inv hinit) (.write 13 3)
  obtain ⟨top, htables, _⟩ := reachable_pageTables
    ⟨_, _, hinit, (Reaches.refl _).snoc hrun⟩
  exact ⟨_, m, top, hinit, hrun, htables⟩

/-- **No assertion fails.**  In every reachable memory both calls go through at
every address, and the pages they move are moved between frames and page
numbers that exist, never out of frame 0. -/
theorem no_assertion_fails (h : Reachable c m) (virtualAddress : Nat) (value : Int) :
    (∃ ret word m', vmRead c m virtualAddress value = .ok (ret, word, m') ∧ SafeMoves c m m') ∧
      ∃ ret m', vmWrite c m virtualAddress value = .ok (ret, m') ∧ SafeMoves c m m' := by
  obtain ⟨top, hinv⟩ := h.inv
  by_cases ha : virtualAddress < c.virtualMemorySize
  · obtain ⟨f, m', _, hdone, hread⟩ := vmRead_spec hinv ha value
    obtain ⟨f', m'', _, hdone', hwrite⟩ := vmWrite_spec hinv ha value
    exact ⟨⟨_, _, _, hread, hdone.moves⟩,
      ⟨_, _, hwrite, hdone'.moves.trans (.of_trace_eq rfl)⟩⟩
  · obtain ⟨hread, hwrite⟩ := vm_out_of_range (c := c) (m := m) (not_lt.mp ha) value
    exact ⟨⟨_, _, _, hread, .of_trace_eq rfl⟩, ⟨_, _, hwrite, .of_trace_eq rfl⟩⟩

/-- A read of the last address right after initialization. -/
theorem no_assertion_fails_first :
    ∃ m₁, vmInitialize memoryConstants (.filled 64) = .ok m₁ ∧
      ∃ ret word m', vmRead memoryConstants m₁ (2 ^ 20 - 1) 0 = .ok (ret, word, m') ∧
        SafeMoves memoryConstants m₁ m' := by
  have hinit := vmInitialize_ok memoryConstants (.filled 64)
  exact ⟨_, hinit, (no_assertion_fails ⟨_, _, hinit, Reaches.refl _⟩ (2 ^ 20 - 1) 0).1⟩

end Paging
