import HujiOS.MachineInt
import Mathlib.Data.Nat.Basic

/-!
# Physical memory and the swap file

`MemoryConstants.h` and `PhysicalMemory.cpp`.  The widths are compile-time
constants there; here they are a value, and `MemoryConstants` carries the
bounds under which the code is meant to be built.  The operations are those of
any widths.  A failed `assert` is an `Except.error` that names the assertion.

`RAM` is never empty: the first access fills it with zero pages, so an empty
vector is the zero memory.  A page is read at the offsets below `pageSize`
only.
-/

namespace Paging

open MachineInt

/-- The three widths that `MemoryConstants.h` defines. -/
structure Widths where
  offsetWidth : Nat
  physicalAddressWidth : Nat
  virtualAddressWidth : Nat
  deriving DecidableEq, Repr

namespace Widths

variable (c : Widths)

/-- `PAGE_SIZE`, in words. -/
def pageSize : Nat := 2 ^ c.offsetWidth

/-- `RAM_SIZE`, in words. -/
def ramSize : Nat := 2 ^ c.physicalAddressWidth

/-- `VIRTUAL_MEMORY_SIZE`, in words. -/
def virtualMemorySize : Nat := 2 ^ c.virtualAddressWidth

/-- `NUM_FRAMES`. -/
def numFrames : Nat := c.ramSize / c.pageSize

/-- `NUM_PAGES`. -/
def numPages : Nat := c.virtualMemorySize / c.pageSize

/-- The macro `CEIL` of the quotient of two widths, which as a `double` is
whole exactly when the division is exact. -/
def tablesDepth : Nat :=
  let quotient := (c.virtualAddressWidth - c.offsetWidth) / c.offsetWidth
  if (c.virtualAddressWidth - c.offsetWidth) % c.offsetWidth = 0 then quotient
  else quotient + 1

end Widths

/-- Widths that give the page table room: at least one level of tables, more
frames than levels, and rows, frames and pages that an `int` can number. -/
structure MemoryConstants extends Widths where
  offsetWidth_pos : 1 ≤ offsetWidth
  offsetWidth_lt : offsetWidth < virtualAddressWidth
  tablesDepth_lt : toWidths.tablesDepth < toWidths.numFrames
  pageSize_le : (toWidths.pageSize : Int) ≤ intMax
  numFrames_le : (toWidths.numFrames : Int) ≤ intMax
  numPages_le : (toWidths.numPages : Int) ≤ intMax

instance : Coe MemoryConstants Widths := ⟨MemoryConstants.toWidths⟩

/-- It is enough that the two memory sizes fit in an `int`. -/
def MemoryConstants.ofSizes (c : Widths) (offsetWidth_pos : 1 ≤ c.offsetWidth)
    (offsetWidth_lt : c.offsetWidth < c.virtualAddressWidth)
    (tablesDepth_lt : c.tablesDepth < c.numFrames) (ramSize_le : (c.ramSize : Int) ≤ intMax)
    (virtualMemorySize_le : (c.virtualMemorySize : Int) ≤ intMax) : MemoryConstants where
  toWidths := c
  offsetWidth_pos := offsetWidth_pos
  offsetWidth_lt := offsetWidth_lt
  tablesDepth_lt := tablesDepth_lt
  pageSize_le := by
    have hle : c.pageSize ≤ c.virtualMemorySize :=
      Nat.pow_le_pow_right Nat.two_pos (Nat.le_of_lt offsetWidth_lt)
    omega
  numFrames_le := by
    have hle : c.numFrames ≤ c.ramSize := Nat.div_le_self _ _
    omega
  numPages_le := by
    have hle : c.numPages ≤ c.virtualMemorySize := Nat.div_le_self _ _
    omega

/-- An `int` can number the rows, the frames and the pages. -/
structure Widths.Numbered (c : Widths) : Prop where
  offsetWidth_pos : 1 ≤ c.offsetWidth
  pageSize_le : (c.pageSize : Int) ≤ intMax
  numFrames_le : (c.numFrames : Int) ≤ intMax
  numPages_le : (c.numPages : Int) ≤ intMax

/-- With a level of tables, and frames for one path of them. -/
theorem Widths.Numbered.exists_constants {c : Widths} (h : c.Numbered)
    (hlevel : c.offsetWidth < c.virtualAddressWidth) (hroom : c.tablesDepth < c.numFrames) :
    ∃ c' : MemoryConstants, (c' : Widths) = c :=
  ⟨⟨c, h.offsetWidth_pos, hlevel, hroom, h.pageSize_le, h.numFrames_le, h.numPages_le⟩, rfl⟩

theorem MemoryConstants.numbered (c : MemoryConstants) : (c : Widths).Numbered :=
  ⟨c.offsetWidth_pos, c.pageSize_le, c.numFrames_le, c.numPages_le⟩

/-- A level of tables is there for a second page only. -/
theorem Widths.offsetWidth_lt {c : Widths} {depth : Nat} (h : depth < c.tablesDepth) :
    c.offsetWidth < c.virtualAddressWidth := by
  by_contra hle
  have hnone : c.tablesDepth = 0 := by
    simp [tablesDepth, Nat.sub_eq_zero_of_le (not_lt.mp hle)]
  omega

/-- The widths of `MemoryConstants.h`. -/
def memoryConstants : MemoryConstants :=
  .ofSizes { offsetWidth := 4, physicalAddressWidth := 10, virtualAddressWidth := 20 }
    (by decide) (by decide) (by decide) (by decide) (by decide)

/-- `page_t`: the words, each an `int`, at the offsets of a page. -/
abbrev Page := Nat → Int

/-- A call that moves a page, as the tests trace it. -/
inductive PageMove
  | evict (frameIndex evictedPageIndex : Nat)
  | restore (frameIndex restoredPageIndex : Nat)
  deriving DecidableEq, Repr

/-- `RAM` by frames, `swapFile` as a partial map from pages, and what was
moved. -/
structure PhysicalMemory where
  ram : Nat → Page
  swapFile : Nat → Option Page
  /-- the pages moved so far; nothing reads it -/
  trace : List PageMove

/-- A RAM full of one word, as the tests prepare it, and an empty swap file. -/
def PhysicalMemory.filled (value : Int) : PhysicalMemory :=
  { ram := fun _ _ => value, swapFile := fun _ => none, trace := [] }

/-- The assertions of `PhysicalMemory.cpp`, with the value that fails them. -/
inductive AssertionFailure
  | readAddress (physicalAddress : Nat)
  | writeAddress (physicalAddress : Nat)
  | evictedFrame (frameIndex : Nat)
  | evictedPage (evictedPageIndex : Nat)
  | evictedTwice (evictedPageIndex : Nat)
  | restoredFrame (frameIndex : Nat)
  deriving DecidableEq, Repr

/-- The memory after one word was overwritten. -/
def PhysicalMemory.store (m : PhysicalMemory) (frame row : Nat) (value : Int) :
    PhysicalMemory :=
  { m with ram := fun f i => if f = frame ∧ i = row then value else m.ram f i }

/-- The memory after a frame got the content of a page. -/
def PhysicalMemory.load (m : PhysicalMemory) (frame : Nat) (page : Page) : PhysicalMemory :=
  { m with ram := fun f => if f = frame then page else m.ram f }

/-- The swap file with the entry of one page set or erased. -/
def PhysicalMemory.setSwap (m : PhysicalMemory) (page : Nat) (content : Option Page) :
    PhysicalMemory :=
  { m with swapFile := fun q => if q = page then content else m.swapFile q }

/-- A move is traced. -/
def PhysicalMemory.record (m : PhysicalMemory) (move : PageMove) : PhysicalMemory :=
  { m with trace := m.trace ++ [move] }

section Operations

variable (c : Widths) (m : PhysicalMemory)

/-- `PMread`, with its assertion on the address. -/
def pmRead (physicalAddress : Nat) : Except AssertionFailure Int :=
  if physicalAddress < c.ramSize then
    .ok (m.ram (physicalAddress / c.pageSize) (physicalAddress % c.pageSize))
  else .error (.readAddress physicalAddress)

/-- `PMwrite`, with its assertion on the address. -/
def pmWrite (physicalAddress : Nat) (value : Int) : Except AssertionFailure PhysicalMemory :=
  if physicalAddress < c.ramSize then
    .ok (m.store (physicalAddress / c.pageSize) (physicalAddress % c.pageSize) value)
  else .error (.writeAddress physicalAddress)

/-- `PMevict`, whose last assertion is that the page is not in the swap file
already. -/
def pmEvict (frameIndex evictedPageIndex : Nat) : Except AssertionFailure PhysicalMemory :=
  if ¬ frameIndex < c.numFrames then .error (.evictedFrame frameIndex)
  else if ¬ evictedPageIndex < c.numPages then .error (.evictedPage evictedPageIndex)
  else if (m.swapFile evictedPageIndex).isSome then .error (.evictedTwice evictedPageIndex)
  else .ok ((m.setSwap evictedPageIndex (m.ram frameIndex)).record
    (.evict frameIndex evictedPageIndex))

/-- `PMrestore`: where the page is not in the swap file the frame stays as it
is. -/
def pmRestore (frameIndex restoredPageIndex : Nat) : Except AssertionFailure PhysicalMemory :=
  if ¬ frameIndex < c.numFrames then .error (.restoredFrame frameIndex)
  else
    let m := m.record (.restore frameIndex restoredPageIndex)
    match m.swapFile restoredPageIndex with
    | none => .ok m
    | some content => .ok ((m.load frameIndex content).setSwap restoredPageIndex none)

end Operations

end Paging
