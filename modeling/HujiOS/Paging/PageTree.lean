import HujiOS.Paging.Frames

/-!
# The frame tree

`entry` reads the tables as pointers, so that the frames in use are the nodes
of a pointer tree of depth `tablesDepth`: tables above, content pages at the
bottom.  `PageTree` says that much; `Forest` adds that the frames in use are
the first ones, and is the representation invariant.  Its parameter `free` is
the one frame that an allocation has taken out of the tree and not yet linked
again; between calls there is none.

Allocation only ever unlinks a frame without children, changes words of frames
that are no tables, and links the detached frame.  Each of these three moves
has a lemma that gives the new invariant and the new walks.
-/

namespace Paging

open PointerTree RadixDigits

/-- The frame that a non-zero table entry refers to. -/
def entry (c : Widths) (m : PhysicalMemory) (f i : Nat) : Option Nat :=
  if i < c.pageSize ∧ m.ram f i ≠ 0 then some (m.ram f i).toNat else none

/-- The frame at a path from the root table. -/
def frameAt (c : Widths) (m : PhysicalMemory) (path : List Nat) : Option Nat :=
  walk (entry c m) 0 path

/-- The frame of a page that is mapped by the tables. -/
def frameOf (c : Widths) (m : PhysicalMemory) (page : Nat) : Option Nat :=
  frameAt c m (pagePath c page)

/-- The tables form a tree. -/
structure PageTree (c : MemoryConstants) (m : PhysicalMemory) : Prop where
  tree : IsTree (entry c m) 0 c.tablesDepth
  /-- every entry of a table is a frame number -/
  entries : ∀ p f i, p.length < c.tablesDepth → frameAt c m p = some f → i < c.pageSize →
    0 ≤ m.ram f i ∧ m.ram f i < c.numFrames
  /-- what is mapped at the bottom is a page -/
  pages : ∀ p f, p.length = c.tablesDepth → frameAt c m p = some f → pathPage c p < c.numPages

/-- **The representation invariant.**  The tables form a tree on the frames
`0 .. top` except `free`. -/
structure Forest (c : MemoryConstants) (m : PhysicalMemory) (free : Option Nat) (top : Nat) : Prop
    extends PageTree c m where
  frames : ∀ f, (∃ p, p.length ≤ c.tablesDepth ∧ frameAt c m p = some f) ↔ f ≤ top ∧ free ≠ some f
  top_lt : top < c.numFrames
  /-- frames that were never used are zero -/
  unused : ∀ f i, top < f → f < c.numFrames → i < c.pageSize → m.ram f i = 0

variable {m m' : PhysicalMemory} {free : Option Nat} {top f g i : Nat} {p q r : List Nat}

section AnyWidths

variable {c : Widths}

theorem entry_lt (f i g : Nat) (h : entry c m f i = some g) : i < c.pageSize := by
  unfold entry at h
  split at h
  · next hcond => exact hcond.1
  · cases h

/-- A walk takes slots of a page only. -/
theorem frameAt_slots (h : frameAt c m p = some f) : ∀ i ∈ p, i < c.pageSize :=
  walk_slots entry_lt h

@[simp] theorem frameAt_nil (c : Widths) (m : PhysicalMemory) : frameAt c m [] = some 0 := rfl

theorem frameAt_snoc (hf : frameAt c m p = some f) (i : Nat) :
    frameAt c m (p ++ [i]) = entry c m f i := by
  unfold frameAt at hf ⊢
  rw [walk_snoc, hf]
  rfl

theorem frameAt_snoc_eq_some :
    frameAt c m (p ++ [i]) = some g ↔ ∃ f, frameAt c m p = some f ∧ entry c m f i = some g :=
  walk_snoc_eq_some

theorem entry_eq_none_iff (hi : i < c.pageSize) : entry c m f i = none ↔ m.ram f i = 0 := by
  simp [entry, hi]

theorem entry_of_row (hi : i < c.pageSize) (hg : m.ram f i = g) (hpos : g ≠ 0) :
    entry c m f i = some g := by
  simp [entry, hi, hg, hpos]

end AnyWidths

variable {c : MemoryConstants}

/-- What is at the bottom is the frame of a page. -/
theorem frameOf_pathPage (hp : p.length = c.tablesDepth) (hf : frameAt c m p = some f) :
    frameOf c m (pathPage c p) = some f := by
  unfold frameOf
  rw [pagePath_pathPage c hp (frameAt_slots hf)]
  exact hf

theorem mapped_of_frameOf {page : Nat} (hf : frameOf c m page = some f) :
    frameOf c m page ≠ none := by
  rw [hf]
  exact Option.some_ne_none f

namespace PageTree

/-- An entry of a table is empty or refers to a frame. -/
theorem row_cases (h : PageTree c m) (hlen : p.length < c.tablesDepth)
    (hf : frameAt c m p = some f) (hi : i < c.pageSize) :
    (m.ram f i = 0 ∧ entry c m f i = none) ∨
      ∃ g : Nat, g ≠ 0 ∧ g < c.numFrames ∧ m.ram f i = g ∧ entry c m f i = some g := by
  obtain ⟨hlo, hhi⟩ := h.entries p f i hlen hf hi
  by_cases hzero : m.ram f i = 0
  · exact Or.inl ⟨hzero, (entry_eq_none_iff hi).mpr hzero⟩
  · obtain ⟨g, hg⟩ := Int.eq_ofNat_of_zero_le hlo
    have hpos : g ≠ 0 := by
      rintro rfl
      exact hzero hg
    exact Or.inr ⟨g, hpos, by omega, hg, entry_of_row hi hg hpos⟩

/-- The word of an entry is the frame it refers to. -/
theorem ram_of_entry (h : PageTree c m) (hlen : p.length < c.tablesDepth)
    (hf : frameAt c m p = some f) (hentry : entry c m f i = some g) :
    m.ram f i = g ∧ g ≠ 0 := by
  rcases h.row_cases hlen hf (entry_lt f i g hentry) with ⟨_, hnone⟩ | ⟨x, hx, _, hram, hsome⟩
  · rw [hnone] at hentry
    cases hentry
  · obtain rfl : x = g := Option.some.inj (hsome.symm.trans hentry)
    exact ⟨hram, hx⟩

/-- A frame is at one path only. -/
theorem path_unique (h : PageTree c m) (hp : p.length ≤ c.tablesDepth)
    (hq : q.length ≤ c.tablesDepth) (hwp : frameAt c m p = some f)
    (hwq : frameAt c m q = some f) : p = q :=
  h.tree p q f hp hq hwp hwq

/-- The frame of a page is no table. -/
theorem leaf_ne_table (h : PageTree c m) (hp : p.length = c.tablesDepth)
    (hwp : frameAt c m p = some g) (hq : q.length < c.tablesDepth)
    (hwq : frameAt c m q = some f) : g ≠ f := by
  rintro rfl
  have heq := h.path_unique hp.le hq.le hwp hwq
  rw [heq] at hp
  omega

/-- Every frame of the tree is in the RAM. -/
theorem frameAt_lt (h : PageTree c m) (hlen : p.length ≤ c.tablesDepth)
    (hf : frameAt c m p = some f) : f < c.numFrames := by
  rcases List.eq_nil_or_concat p with rfl | ⟨q, i, rfl⟩
  · obtain rfl : 0 = f := Option.some.inj hf
    exact c.numFrames_pos
  · rw [List.concat_eq_append] at hf hlen
    have hlt : q.length < c.tablesDepth := by simpa [Nat.succ_le_iff] using hlen
    obtain ⟨x, hx, hentry⟩ := frameAt_snoc_eq_some.mp hf
    have hword := (h.ram_of_entry hlt hx hentry).1
    have hrange := h.entries q x i hlt hx (entry_lt x i f hentry)
    omega

end PageTree

namespace Forest

/-- No frame of the tree is beyond `top`. -/
theorem frameAt_le (h : Forest c m free top) (hlen : p.length ≤ c.tablesDepth)
    (hf : frameAt c m p = some f) : f ≤ top :=
  ((h.frames f).mp ⟨p, hlen, hf⟩).1

/-- A detached frame is not the root. -/
theorem free_ne_zero (h : Forest c m (some g) top) : g ≠ 0 := by
  rintro rfl
  exact ((h.frames 0).mp ⟨[], Nat.zero_le _, rfl⟩).2 rfl

/-- A free frame is not in the tree. -/
theorem free_not_frameAt (h : Forest c m (some g) top) (hp : p.length ≤ c.tablesDepth) :
    frameAt c m p ≠ some g :=
  fun hw => ((h.frames g).mp ⟨p, hp, hw⟩).2 rfl

/-! ### Words of frames that are no tables -/

/-- Memories that agree on the tables have the same walks. -/
theorem frameAt_congr
    (hsame : ∀ p f i, p.length < c.tablesDepth → frameAt c m p = some f → i < c.pageSize →
      m'.ram f i = m.ram f i) (hq : q.length ≤ c.tablesDepth) :
    frameAt c m' q = frameAt c m q := by
  refine walk_congr ?_ hq
  intro p f hp hw i
  unfold entry
  by_cases hi : i < c.pageSize
  · rw [hsame p f i hp hw hi]
  · simp [hi]

/-- **Data.**  Changing words of frames in use that are no tables keeps the
invariant. -/
theorem of_tables_unchanged (h : Forest c m free top)
    (hsame : ∀ p f i, p.length < c.tablesDepth → frameAt c m p = some f → i < c.pageSize →
      m'.ram f i = m.ram f i)
    (habove : ∀ f i, top < f → m'.ram f i = m.ram f i) : Forest c m' free top := by
  have hwalk : ∀ q, q.length ≤ c.tablesDepth → frameAt c m' q = frameAt c m q :=
    fun q hq => frameAt_congr hsame hq
  refine ⟨⟨?_, ?_, ?_⟩, ?_, h.top_lt, ?_⟩
  · apply h.tree.mono
    intro p f hp hw
    exact (hwalk p hp).symm.trans hw
  · intro p f i hp hw hi
    rw [hwalk p hp.le] at hw
    rw [hsame p f i hp hw hi]
    exact h.entries p f i hp hw hi
  · intro p f hp hw
    exact h.pages p f hp ((hwalk p hp.le).symm.trans hw)
  · intro f
    rw [← h.frames f]
    constructor
    · rintro ⟨p, hp, hw⟩
      exact ⟨p, hp, (hwalk p hp).symm.trans hw⟩
    · rintro ⟨p, hp, hw⟩
      exact ⟨p, hp, (hwalk p hp).trans hw⟩
  · intro f i hf hlt hi
    rw [habove f i hf]
    exact h.unused f i hf hlt hi

/-! ### Unlinking -/

theorem entry_store_zero (c : MemoryConstants) (m : PhysicalMemory) (f i : Nat) :
    entry c (m.store f i 0) = setChild (entry c m) f i none := by
  funext g j
  by_cases hslot : g = f ∧ j = i
  · simp [entry, PhysicalMemory.store, setChild, hslot]
  · simp [entry, PhysicalMemory.store, setChild, hslot]

/-- A frame is childless when it is at the bottom or is an empty table. -/
def Childless (c : MemoryConstants) (m : PhysicalMemory) (p : List Nat) (g : Nat) : Prop :=
  p.length < c.tablesDepth → ∀ i < c.pageSize, m.ram g i = 0

/-- A table without children has no entries. -/
theorem entry_childless (hbare : Childless c m p g) (hlen : p.length < c.tablesDepth) (j : Nat) :
    entry c m g j = none := by
  by_cases hj : j < c.pageSize
  · exact (entry_eq_none_iff hj).mpr (hbare hlen j hj)
  · simp [entry, hj]

theorem frameAt_below_childless (hg : frameAt c m p = some g) (hbare : Childless c m p g)
    (hpre : p <+: q) (hq : q.length ≤ c.tablesDepth) (hne : q ≠ p) : frameAt c m q = none := by
  obtain ⟨t, rfl⟩ := hpre
  cases t with
  | nil => simp at hne
  | cons j t =>
      have hlt : p.length < c.tablesDepth := by
        simp only [List.length_append, List.length_cons] at hq
        omega
      have hnone := entry_childless hbare hlt j
      unfold frameAt at hg ⊢
      rw [walk_append, hg]
      simp [walk_cons, hnone]

section Unlink

variable (h : Forest c m none top) (hf : frameAt c m r = some f) (hr : r.length < c.tablesDepth)
  (hg : frameAt c m (r ++ [i]) = some g) (hbare : Childless c m (r ++ [i]) g)

include h hf hr hg hbare

/-- Clearing one entry cuts its frame off, and nothing else where that has no
children. -/
theorem frameAt_unlink (hq : q.length ≤ c.tablesDepth) :
    frameAt c (m.store f i 0) q = if q = r ++ [i] then none else frameAt c m q := by
  have hwalk := walk_unlink (i := i) h.tree hf hr hq
  rw [← entry_store_zero] at hwalk
  by_cases hcut : r ++ [i] <+: q
  · rw [if_pos hcut] at hwalk
    by_cases heq : q = r ++ [i]
    · rw [if_pos heq]
      exact hwalk
    · rw [if_neg heq, frameAt_below_childless hg hbare hcut hq heq]
      exact hwalk
  · rw [if_neg hcut] at hwalk
    have hne : q ≠ r ++ [i] := by
      rintro rfl
      exact hcut (List.prefix_refl _)
    rw [if_neg hne]
    exact hwalk

/-- **Unlinking** a frame without children detaches that frame only. -/
theorem unlink : Forest c (m.store f i 0) (some g) top := by
  have hwalk : ∀ q, q.length ≤ c.tablesDepth → ∀ x,
      frameAt c (m.store f i 0) q = some x ↔ q ≠ r ++ [i] ∧ frameAt c m q = some x := by
    intro q hq x
    rw [frameAt_unlink h hf hr hg hbare hq]
    by_cases heq : q = r ++ [i]
    · simp [heq]
    · simp [heq]
  have hlen : (r ++ [i]).length ≤ c.tablesDepth := by simpa [Nat.succ_le_iff] using hr
  have hftop : f ≤ top := h.frameAt_le hr.le hf
  refine ⟨⟨?_, ?_, ?_⟩, ?_, h.top_lt, ?_⟩
  · apply h.tree.mono
    intro p x hp hw
    exact ((hwalk p hp x).mp hw).2
  · intro p x j hp hw hj
    have hold := h.entries p x j hp ((hwalk p hp.le x).mp hw).2 hj
    have hroot := c.numFrames_pos
    unfold PhysicalMemory.store
    dsimp only
    split
    · omega
    · exact hold
  · intro p x hp hw
    exact h.pages p x hp ((hwalk p hp.le x).mp hw).2
  · intro x
    constructor
    · rintro ⟨p, hp, hw⟩
      obtain ⟨hne, hw⟩ := (hwalk p hp x).mp hw
      refine ⟨h.frameAt_le hp hw, ?_⟩
      intro heq
      obtain rfl : g = x := Option.some.inj heq
      exact hne (h.path_unique hp hlen hw hg)
    · rintro ⟨hle, hne⟩
      obtain ⟨p, hp, hw⟩ := (h.frames x).mpr ⟨hle, by simp⟩
      refine ⟨p, hp, (hwalk p hp x).mpr ⟨?_, hw⟩⟩
      rintro rfl
      exact hne (hg.symm.trans hw)
  · intro x j hx hlt hj
    unfold PhysicalMemory.store
    dsimp only
    rw [if_neg (by omega)]
    exact h.unused x j hx hlt hj

end Unlink

/-! ### Linking -/

theorem entry_store (c : MemoryConstants) (m : PhysicalMemory) (f : Nat) (hi : i < c.pageSize)
    (hg : g ≠ 0) : entry c (m.store f i g) = setChild (entry c m) f i (some g) := by
  funext x j
  by_cases hslot : x = f ∧ j = i
  · simp [entry, PhysicalMemory.store, setChild, hslot, hi, hg]
  · simp [entry, PhysicalMemory.store, setChild, hslot]

section Link

variable (h : Forest c m (some g) top) (hf : frameAt c m r = some f)
  (hr : r.length < c.tablesDepth) (hi : i < c.pageSize) (hempty : m.ram f i = 0)
  (hbare : Childless c m (r ++ [i]) g)

include h hf hr hi hempty hbare

/-- Setting one empty entry adds one path. -/
theorem frameAt_link (hq : q.length ≤ c.tablesDepth) :
    frameAt c (m.store f i g) q = if q = r ++ [i] then some g else frameAt c m q := by
  have hwalk := walk_link h.tree hf hr ((entry_eq_none_iff hi).mpr hempty)
    (fun p hp => h.free_not_frameAt hp)
    (fun hdeep => entry_childless hbare (by simpa using hdeep)) hq
  rw [← entry_store c m f hi h.free_ne_zero] at hwalk
  exact hwalk

/-- **Linking** the detached frame completes the tree. -/
theorem link (hgtop : g ≤ top)
    (hpage : r.length + 1 = c.tablesDepth → pathPage c (r ++ [i]) < c.numPages) :
    Forest c (m.store f i g) none top := by
  have hwalk : ∀ q, q.length ≤ c.tablesDepth → ∀ x, frameAt c (m.store f i g) q = some x ↔
      (q = r ++ [i] ∧ x = g) ∨ (q ≠ r ++ [i] ∧ frameAt c m q = some x) := by
    intro q hq x
    rw [frameAt_link h hf hr hi hempty hbare hq]
    by_cases heq : q = r ++ [i]
    · simp [heq, eq_comm]
    · simp [heq]
  have hlen : (r ++ [i]).length ≤ c.tablesDepth := by simpa [Nat.succ_le_iff] using hr
  have hftop : f ≤ top := h.frameAt_le hr.le hf
  have hnone : entry c m f i = none := (entry_eq_none_iff hi).mpr hempty
  refine ⟨⟨?_, ?_, ?_⟩, ?_, h.top_lt, ?_⟩
  · rw [entry_store c m f hi h.free_ne_zero]
    exact h.tree.link hf hr hnone (fun p hp => h.free_not_frameAt hp)
      (fun hdeep => entry_childless hbare (by simpa using hdeep))
  · intro p x j hp hw hj
    have hgf : g < c.numFrames := hgtop.trans_lt h.top_lt
    have hroot := c.numFrames_pos
    unfold PhysicalMemory.store
    dsimp only
    split
    · omega
    · rcases (hwalk p hp.le x).mp hw with ⟨rfl, rfl⟩ | ⟨_, hold⟩
      · rw [hbare hp j hj]
        omega
      · exact h.entries p x j hp hold hj
  · intro p x hp hw
    rcases (hwalk p hp.le x).mp hw with ⟨rfl, _⟩ | ⟨_, hold⟩
    · exact hpage (by simpa using hp)
    · exact h.pages p x hp hold
  · intro x
    simp only [ne_eq, reduceCtorEq, not_false_eq_true, and_true]
    constructor
    · rintro ⟨p, hp, hw⟩
      rcases (hwalk p hp x).mp hw with ⟨_, rfl⟩ | ⟨_, hold⟩
      · exact hgtop
      · exact h.frameAt_le hp hold
    · intro hle
      by_cases hx : x = g
      · exact ⟨r ++ [i], hlen, (hwalk _ hlen x).mpr (Or.inl ⟨rfl, hx⟩)⟩
      · obtain ⟨p, hp, hw⟩ := (h.frames x).mpr ⟨hle, fun heq => hx (Option.some.inj heq).symm⟩
        refine ⟨p, hp, (hwalk p hp x).mpr (Or.inr ⟨?_, hw⟩)⟩
        rintro rfl
        rw [frameAt_snoc hf, hnone] at hw
        cases hw
  · intro x j hx hlt hj
    unfold PhysicalMemory.store
    dsimp only
    rw [if_neg (by omega)]
    exact h.unused x j hx hlt hj

end Link

/-- A frame above the used ones counts as detached. -/
theorem take_fresh (h : Forest c m none top) (hlt : top + 1 < c.numFrames) :
    Forest c m (some (top + 1)) (top + 1) := by
  refine ⟨h.toPageTree, ?_, hlt, ?_⟩
  · intro f
    rw [h.frames f]
    simp only [ne_eq, reduceCtorEq, not_false_eq_true, and_true, Option.some.injEq]
    omega
  · intro f i hf hlt hi
    exact h.unused f i (by omega) hlt hi

/-- **Clearing** a detached frame. -/
theorem clear (h : Forest c m (some g) top) (hgtop : g ≤ top) :
    Forest c (m.cleared c g) (some g) top ∧
      ∀ q, q.length ≤ c.tablesDepth → frameAt c (m.cleared c g) q = frameAt c m q := by
  have hsame : ∀ p f i, p.length < c.tablesDepth → frameAt c m p = some f → i < c.pageSize →
      (m.cleared c g).ram f i = m.ram f i := by
    intro p f i hp hw _
    have hne : f ≠ g := by
      rintro rfl
      exact h.free_not_frameAt hp.le hw
    simp [PhysicalMemory.cleared, hne]
  refine ⟨h.of_tables_unchanged hsame ?_, fun q hq => frameAt_congr hsame hq⟩
  intro f i hf
  have hne : f ≠ g := by omega
  simp [PhysicalMemory.cleared, hne]

end Forest

/-- The tree of a memory filled with zeros is the root table alone. -/
theorem forest_zero (hzero : ∀ f i, f < c.numFrames → i < c.pageSize → m.ram f i = 0) :
    Forest c m none 0 := by
  have hroot := c.numFrames_pos
  have hbare : Forest.Childless c m [] 0 := fun _ i hi => hzero 0 i hroot hi
  have honly : ∀ p f, p.length ≤ c.tablesDepth → frameAt c m p = some f → p = [] ∧ f = 0 := by
    intro p f hp hw
    by_cases hne : p = []
    · subst hne
      exact ⟨rfl, (Option.some.inj hw).symm⟩
    · rw [Forest.frameAt_below_childless rfl hbare (List.nil_prefix) hp hne] at hw
      cases hw
  refine ⟨⟨?_, ?_, ?_⟩, ?_, hroot, ?_⟩
  · intro p q f hp hq hwp hwq
    rw [(honly p f hp hwp).1, (honly q f hq hwq).1]
  · intro p f i hp hw hi
    obtain ⟨rfl, rfl⟩ := honly p f hp.le hw
    rw [hzero 0 i hroot hi]
    omega
  · intro p f hp hw
    have hpos := c.tablesDepth_pos
    obtain ⟨rfl, _⟩ := honly p f hp.le hw
    rw [List.length_nil] at hp
    omega
  · intro f
    constructor
    · rintro ⟨p, hp, hw⟩
      simp [(honly p f hp hw).2]
    · rintro ⟨hle, _⟩
      exact ⟨[], Nat.zero_le _, by simp [Nat.le_zero.mp hle]⟩
  · intro f i _ hlt hi
    exact hzero f i hlt hi

/-! ## What a page holds -/

/-- The content of a page, in its frame or in the swap file. -/
def pageContent (c : MemoryConstants) (m : PhysicalMemory) (page : Nat) : Option Page :=
  match frameOf c m page with
  | some f => some (m.ram f)
  | none => m.swapFile page

/-- The content of a resident page is in its frame. -/
theorem pageContent_resident {page : Nat} (hf : frameOf c m page = some f) :
    pageContent c m page = some (m.ram f) := by
  simp [pageContent, hf]

/-- The content of a page that is not resident is in the swap file. -/
theorem pageContent_absent {page : Nat} (hf : frameOf c m page = none) :
    pageContent c m page = m.swapFile page := by
  simp [pageContent, hf]

/-- A page keeps its content where its frame, the words in it and its swap
entry stay. -/
theorem pageContent_congr {page : Nat} (hframe : frameOf c m' page = frameOf c m page)
    (hram : ∀ f, frameOf c m page = some f → m'.ram f = m.ram f)
    (hswap : m'.swapFile page = m.swapFile page) :
    pageContent c m' page = pageContent c m page := by
  unfold pageContent
  rw [hframe, hswap]
  cases hf : frameOf c m page with
  | none => rfl
  | some f => simp [hram f hf]

end Paging
