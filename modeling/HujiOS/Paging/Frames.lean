import HujiOS.Paging.VirtualMemory
import HujiOS.RadixDigits
import HujiOS.PointerTree
import Mathlib.Data.Nat.Bitwise
import Mathlib.Tactic.Ring

/-!
# Frames and addresses

Within the memory bounds an address is a frame and a row, and the physical
memory operations do what they say without failing an assertion.  Everything
above this file works with frames and rows, and with the frame tree that the
table entries span.
-/

namespace Paging

open MachineInt PointerTree RadixDigits

/-! ## The constants -/

namespace Widths

variable {c : Widths}

theorem pageSize_pos (c : Widths) : 0 < c.pageSize := Nat.two_pow_pos _

theorem numPages_eq (hlt : c.offsetWidth < c.virtualAddressWidth) :
    c.numPages = 2 ^ (c.virtualAddressWidth - c.offsetWidth) :=
  Nat.pow_div hlt.le (by norm_num)

/-- The levels cover the page number and at most one offset width more. -/
theorem tablesDepth_spec (hpos : 1 ≤ c.offsetWidth) (hlt : c.offsetWidth < c.virtualAddressWidth) :
    c.virtualAddressWidth - c.offsetWidth ≤ c.offsetWidth * c.tablesDepth ∧
      c.offsetWidth * c.tablesDepth < c.virtualAddressWidth := by
  have hdiv := Nat.div_add_mod (c.virtualAddressWidth - c.offsetWidth) c.offsetWidth
  have hmod := Nat.mod_lt (c.virtualAddressWidth - c.offsetWidth) hpos
  unfold tablesDepth
  dsimp only
  split
  · omega
  · rw [Nat.mul_add_one]
    omega

theorem tablesDepth_pos (hpos : 1 ≤ c.offsetWidth) (hlt : c.offsetWidth < c.virtualAddressWidth) :
    0 < c.tablesDepth := by
  have hle := (tablesDepth_spec hpos hlt).1
  apply Nat.pos_of_ne_zero
  intro hzero
  rw [hzero, Nat.mul_zero] at hle
  omega

/-- There is a path for every page. -/
theorem numPages_le_pow (hpos : 1 ≤ c.offsetWidth) (hlt : c.offsetWidth < c.virtualAddressWidth) :
    c.numPages ≤ c.pageSize ^ c.tablesDepth := by
  rw [numPages_eq hlt, pageSize, ← Nat.pow_mul]
  exact Nat.pow_le_pow_right (by norm_num) (tablesDepth_spec hpos hlt).1

end Widths

namespace MemoryConstants

variable (c : MemoryConstants)

theorem one_lt_pageSize : 1 < c.pageSize := Nat.one_lt_two_pow (by have := c.offsetWidth_pos; omega)

/-- A row of a frame is below the end of the frames. -/
theorem frame_row_lt {f i : Nat} (hf : f < c.numFrames) (hi : i < c.pageSize) :
    f * c.pageSize + i < c.numFrames * c.pageSize := by
  calc f * c.pageSize + i < (f + 1) * c.pageSize := by rw [Nat.add_one_mul]; omega
    _ ≤ c.numFrames * c.pageSize := Nat.mul_le_mul_right _ hf

theorem frame_row_lt_ramSize {f i : Nat} (hf : f < c.numFrames) (hi : i < c.pageSize) :
    f * c.pageSize + i < c.ramSize :=
  (c.frame_row_lt hf hi).trans_le (Nat.div_mul_le_self _ _)

theorem numFrames_lt : c.numFrames < 2 ^ 31 := by
  have := c.numFrames_le
  unfold intMax at this
  omega

theorem pageSize_lt : c.pageSize < 2 ^ 31 := by
  have := c.pageSize_le
  unfold intMax at this
  omega

/-- An address in the RAM is far from the end of a `uint64_t`. -/
theorem numFrames_mul_pageSize_lt : c.numFrames * c.pageSize < 2 ^ 62 := by
  calc c.numFrames * c.pageSize < 2 ^ 31 * 2 ^ 31 :=
        Nat.mul_lt_mul_of_lt_of_le c.numFrames_lt c.pageSize_lt.le (by norm_num)
    _ = 2 ^ 62 := by norm_num

theorem numFrames_pos : 0 < c.numFrames := (Nat.zero_le _).trans_lt c.tablesDepth_lt

theorem numPages_eq : c.numPages = 2 ^ (c.virtualAddressWidth - c.offsetWidth) :=
  Widths.numPages_eq c.offsetWidth_lt

theorem numPages_lt : c.numPages < 2 ^ 31 := by
  have := c.numPages_le
  unfold intMax at this
  omega

theorem tablesDepth_pos : 0 < c.tablesDepth :=
  Widths.tablesDepth_pos c.offsetWidth_pos c.offsetWidth_lt

/-- So a virtual address has room to spare in a `uint64_t`. -/
theorem virtualAddressWidth_le : c.virtualAddressWidth ≤ 62 := by
  have hpages := c.numPages_lt
  rw [c.numPages_eq] at hpages
  have hpage : c.virtualAddressWidth - c.offsetWidth < 31 :=
    (Nat.pow_lt_pow_iff_right (by norm_num)).mp hpages
  have hoffset : c.offsetWidth < 31 := (Nat.pow_lt_pow_iff_right (by norm_num)).mp c.pageSize_lt
  omega

end MemoryConstants

section Slots

variable (c : Widths)

/-- The offset is the remainder by the page size. -/
theorem fetchOffset_eq (a : Nat) : fetchOffset c a = a % c.pageSize := by
  unfold fetchOffset Widths.pageSize
  rw [Nat.one_shiftLeft, Nat.and_two_pow_sub_one_eq_mod]

theorem fetchOffset_lt (a : Nat) : fetchOffset c a < c.pageSize := by
  rw [fetchOffset_eq]
  exact Nat.mod_lt _ c.pageSize_pos

/-- The page number is the quotient by the page size. -/
theorem fetchPageAddress_eq (a : Nat) : fetchPageAddress c a = a / c.pageSize :=
  Nat.shiftRight_eq_div_pow _ _

/-- The slots that translation takes are the digits of the page number. -/
theorem fetchDepthOffset_eq (page depth : Nat) :
    fetchDepthOffset c page depth = digit c.pageSize c.tablesDepth page depth := by
  unfold fetchDepthOffset digit
  rw [fetchOffset_eq, Nat.shiftRight_eq_div_pow, Nat.mul_comm, Nat.pow_mul]
  rfl

end Slots

/-- The path of a page from the root table. -/
def pagePath (c : Widths) (page : Nat) : List Nat := digits c.pageSize c.tablesDepth page

/-- The page number that a path stands for. -/
def pathPage (c : Widths) (path : List Nat) : Nat := ofDigits c.pageSize path

/-- A path takes one slot at each level. -/
@[simp] theorem length_pagePath (c : Widths) (page : Nat) :
    (pagePath c page).length = c.tablesDepth :=
  length_digits _ _ _

namespace Widths

variable {c : Widths} (hpos : 1 ≤ c.offsetWidth) (hlt : c.offsetWidth < c.virtualAddressWidth)

include hpos

theorem one_lt_pageSize : 1 < c.pageSize := Nat.one_lt_two_pow (by omega)

/-- The path of a path's page is the path. -/
theorem pagePath_pathPage {path : List Nat} (hlen : path.length = c.tablesDepth)
    (hslots : ∀ i ∈ path, i < c.pageSize) : pagePath c (pathPage c path) = path := by
  unfold pagePath pathPage
  rw [← hlen]
  exact digits_ofDigits (one_lt_pageSize hpos) hslots

include hlt

theorem pathPage_pagePath {page : Nat} (hpage : page < c.numPages) :
    pathPage c (pagePath c page) = page :=
  ofDigits_digits (hpage.trans_le (numPages_le_pow hpos hlt))

/-- The page number of the next level, as the eviction search computes it:
nothing is shifted out of a `uint64_t`. -/
theorem pathPage_snoc (hwide : c.virtualAddressWidth ≤ 62) {path : List Nat} {i : Nat}
    (hlen : path.length < c.tablesDepth) (hslots : ∀ j ∈ path ++ [i], j < c.pageSize) :
    toUInt64 ((pathPage c path <<< c.offsetWidth : Nat) + i) = pathPage c (path ++ [i]) := by
  have hbits := (tablesDepth_spec hpos hlt).2
  have hfit : pathPage c (path ++ [i]) < 2 ^ 62 := by
    calc pathPage c (path ++ [i]) < c.pageSize ^ (path ++ [i]).length :=
          ofDigits_lt (one_lt_pageSize hpos) hslots
      _ ≤ c.pageSize ^ c.tablesDepth := by
          apply Nat.pow_le_pow_right c.pageSize_pos
          simpa [Nat.succ_le_iff] using hlen
      _ = 2 ^ (c.offsetWidth * c.tablesDepth) := (Nat.pow_mul ..).symm
      _ ≤ 2 ^ 62 := Nat.pow_le_pow_right (by norm_num) (by omega)
  have hval : (pathPage c path <<< c.offsetWidth) + i = pathPage c (path ++ [i]) := by
    unfold pathPage
    rw [ofDigits_snoc, Nat.shiftLeft_eq, pageSize]
  rw [← Nat.cast_add, hval]
  exact toUInt64_of_lt (by omega)

end Widths

variable (c : MemoryConstants)

/-- An address of the virtual memory is in one of its pages. -/
theorem fetchPageAddress_lt {a : Nat} (ha : a < c.virtualMemorySize) :
    fetchPageAddress c a < c.numPages := by
  rw [fetchPageAddress_eq, Nat.div_lt_iff_lt_mul c.pageSize_pos, c.numPages_eq, Widths.pageSize,
    ← Nat.pow_add, Nat.sub_add_cancel c.offsetWidth_lt.le]
  exact ha

theorem pathPage_pagePath {page : Nat} (hpage : page < c.numPages) :
    pathPage c (pagePath c page) = page :=
  Widths.pathPage_pagePath c.offsetWidth_pos c.offsetWidth_lt hpage

/-- Two pages have different paths. -/
theorem pagePath_inj {q page : Nat} (hq : q < c.numPages) (hpage : page < c.numPages)
    (h : pagePath c q = pagePath c page) : q = page := by
  rw [← pathPage_pagePath c hq, h, pathPage_pagePath c hpage]

theorem pagePath_pathPage {path : List Nat} (hlen : path.length = c.tablesDepth)
    (hslots : ∀ i ∈ path, i < c.pageSize) : pagePath c (pathPage c path) = path :=
  Widths.pagePath_pathPage c.offsetWidth_pos hlen hslots

/-- The walk to a page goes on with the slot that translation fetches. -/
theorem take_succ_pagePath (page : Nat) {depth : Nat} (hdepth : depth < c.tablesDepth) :
    (pagePath c page).take (depth + 1) =
      (pagePath c page).take depth ++ [fetchDepthOffset c page depth] := by
  rw [fetchDepthOffset_eq]
  exact take_succ_digits hdepth

theorem pathPage_snoc {path : List Nat} {i : Nat} (hlen : path.length < c.tablesDepth)
    (hslots : ∀ j ∈ path, j < c.pageSize) (hi : i < c.pageSize) :
    toUInt64 ((pathPage c path <<< c.offsetWidth : Nat) + i) = pathPage c (path ++ [i]) := by
  apply Widths.pathPage_snoc c.offsetWidth_pos c.offsetWidth_lt c.virtualAddressWidth_le hlen
  intro j hj
  rcases List.mem_append.mp hj with hj | hj
  · exact hslots j hj
  · exact (List.mem_singleton.mp hj) ▸ hi

/-! ## The primitives inside their bounds -/

variable {c} {m : PhysicalMemory} {f i : Nat}

/-- The address of a row does not wrap. -/
theorem physicalAddress_eq (hf : f < c.numFrames) (hi : i < c.pageSize) :
    physicalAddress c f i = f * c.pageSize + i := by
  have hlt := (c.frame_row_lt hf hi).trans c.numFrames_mul_pageSize_lt
  have hcast : (f : Int) * c.pageSize + i = ((f * c.pageSize + i : Nat) : Int) := by push_cast; rfl
  unfold physicalAddress
  rw [hcast]
  exact toUInt64_of_lt (by omega)

theorem frame_row_div_mod (hi : i < c.pageSize) :
    (f * c.pageSize + i) / c.pageSize = f ∧ (f * c.pageSize + i) % c.pageSize = i := by
  constructor
  · rw [Nat.mul_comm, Nat.mul_add_div c.pageSize_pos, Nat.div_eq_of_lt hi, Nat.add_zero]
  · rw [Nat.mul_comm, Nat.mul_add_mod, Nat.mod_eq_of_lt hi]

/-- A row of a frame is read without a failure. -/
theorem pmRead_row (m : PhysicalMemory) (hf : f < c.numFrames) (hi : i < c.pageSize) :
    pmRead c m (physicalAddress c f i) = .ok (m.ram f i) := by
  obtain ⟨hdiv, hmod⟩ := frame_row_div_mod (f := f) hi
  rw [physicalAddress_eq hf hi, pmRead, if_pos (c.frame_row_lt_ramSize hf hi), hdiv, hmod]

/-- A row of a frame is written without a failure. -/
theorem pmWrite_row (m : PhysicalMemory) (hf : f < c.numFrames) (hi : i < c.pageSize)
    (value : Int) : pmWrite c m (physicalAddress c f i) value = .ok (m.store f i value) := by
  obtain ⟨hdiv, hmod⟩ := frame_row_div_mod (f := f) hi
  rw [physicalAddress_eq hf hi, pmWrite, if_pos (c.frame_row_lt_ramSize hf hi), hdiv, hmod]

/-- A page that is not swapped out is evicted without a failure. -/
theorem pmEvict_ok {page : Nat} (hf : f < c.numFrames) (hpage : page < c.numPages)
    (hswap : m.swapFile page = none) :
    pmEvict c m f page = .ok ((m.setSwap page (m.ram f)).record (.evict f page)) := by
  simp [pmEvict, hf, hpage, hswap]

/-- The memory after `pmRestore`: the page is loaded if it was swapped out. -/
def PhysicalMemory.restored (m : PhysicalMemory) (frame page : Nat) : PhysicalMemory :=
  match m.swapFile page with
  | none => m.record (.restore frame page)
  | some content => ((m.record (.restore frame page)).load frame content).setSwap page none

/-- Restoring a page that is not swapped out moves nothing. -/
theorem restored_of_unswapped {page : Nat} (hswap : m.swapFile page = none) :
    m.restored f page = m.record (.restore f page) := by
  simp [PhysicalMemory.restored, hswap]

/-- A page that was restored is not in the swap file. -/
theorem restored_swapFile_self (m : PhysicalMemory) (frame page : Nat) :
    (m.restored frame page).swapFile page = none := by
  unfold PhysicalMemory.restored
  cases hswap : m.swapFile page with
  | none => exact hswap
  | some content => exact if_pos rfl

/-- A page is restored into any frame without a failure. -/
theorem pmRestore_ok {c : Widths} {page : Nat} (hf : f < c.numFrames) :
    pmRestore c m f page = .ok (m.restored f page) := by
  unfold pmRestore PhysicalMemory.restored PhysicalMemory.record
  rw [if_neg (not_not.mpr hf)]
  cases hswap : m.swapFile page with
  | none => simp only [hswap]
  | some content => simp only [hswap]

/-- The memory after a table was filled with zeros. -/
def PhysicalMemory.cleared (c : Widths) (m : PhysicalMemory) (frame : Nat) :
    PhysicalMemory :=
  { m with ram := fun f i => if f = frame ∧ i < c.pageSize then 0 else m.ram f i }

/-- By induction, the first rows of the table are zero. -/
theorem clearTable_rows (hf : f < c.numFrames) (n : Nat) (hn : n ≤ c.pageSize) :
    (List.range n).foldlM (fun m i => pmWrite c m (physicalAddress c f i) 0) m =
      .ok { m with ram := fun g i => if g = f ∧ i < n then 0 else m.ram g i } := by
  induction n with
  | zero => simp [pure, Except.pure]
  | succ n ih =>
      rw [List.range_succ, List.foldlM_append, ih (by omega)]
      simp only [bind, Except.bind, List.foldlM_cons, List.foldlM_nil, pure, Except.pure,
        pmWrite_row _ hf (show n < c.pageSize by omega), PhysicalMemory.store]
      congr 2
      funext g i
      by_cases hg : g = f
      · by_cases hi : i = n
        · simp [hg, hi]
        · simp [hg, hi, show (i < n + 1) ↔ (i < n) by omega]
      · simp [hg]

/-- A table is cleared without a failure. -/
theorem clearTable_ok (hf : f < c.numFrames) : clearTable c m f = .ok (m.cleared c f) :=
  clearTable_rows hf c.pageSize le_rfl

/-- By induction, the first frames are zero. -/
theorem vmInitialize_frames (n : Nat) (hn : n ≤ c.numFrames) :
    (List.range n).foldlM (clearTable c) m =
      .ok { m with ram := fun f i => if f < n ∧ i < c.pageSize then 0 else m.ram f i } := by
  induction n with
  | zero => simp [pure, Except.pure]
  | succ n ih =>
      rw [List.range_succ, List.foldlM_append, ih (by omega)]
      simp only [bind, Except.bind, List.foldlM_cons, List.foldlM_nil, pure, Except.pure,
        clearTable_ok (show n < c.numFrames by omega), PhysicalMemory.cleared]
      congr 2
      funext f i
      by_cases hf : f = n
      · simp [hf]
      · simp [hf, show (f < n + 1) ↔ (f < n) by omega]

/-- After the initialisation every frame is zero, whatever the RAM held. -/
theorem vmInitialize_ok (c : MemoryConstants) (m : PhysicalMemory) :
    vmInitialize c m =
      .ok { m with ram := fun f i => if f < c.numFrames ∧ i < c.pageSize then 0 else m.ram f i } :=
  vmInitialize_frames c.numFrames le_rfl

end Paging
