import HujiOS.Paging.Frames
import Mathlib.Algebra.Order.Floor.Div

/-!
# Pages and table paths

Translation takes the page number apart, one row of one table a level, with
shifts and masks counted from the top.  The eviction search walks the tables
and puts the number of the page it comes to together again from the rows.
Here the two are inverse for every pair of widths that a 64-bit address allows,
also where the top row has fewer bits than the others: no number, frame or row
has to fit in an `int`.
-/

namespace Paging

open MachineInt RadixDigits

/-- The rows that `findFrame` takes on the way to a page. -/
def pageRows (c : Widths) (page : Nat) : List Nat :=
  (List.range c.tablesDepth).map (fetchDepthOffset c page)

/-- The page number that `findFrameToEvict` carries down along the rows. -/
def currLeafPage (c : Widths) (rows : List Nat) : Nat :=
  rows.foldl (fun currLeafPage rowIdx =>
    toUInt64 ((currLeafPage <<< c.offsetWidth : Nat) + rowIdx)) 0

variable {c : Widths}

theorem pageRows_eq (c : Widths) (page : Nat) : pageRows c page = pagePath c page :=
  List.map_congr_left fun depth _ => fetchDepthOffset_eq c page depth

/-- As many levels as offset widths cover the page number, rounded up. -/
theorem tablesDepth_eq_ceil (hpos : 1 ≤ c.offsetWidth)
    (hlt : c.offsetWidth < c.virtualAddressWidth) :
    c.tablesDepth = (c.virtualAddressWidth - c.offsetWidth) ⌈/⌉ c.offsetWidth := by
  obtain ⟨hle, hgt⟩ := Widths.tablesDepth_spec hpos hlt
  have hdepth := Widths.tablesDepth_pos hpos hlt
  apply eq_of_forall_ge_iff
  intro n
  rw [ceilDiv_le_iff_le_mul hpos]
  constructor
  · intro hn
    exact hle.trans (Nat.mul_le_mul_left _ hn)
  · intro hn
    by_contra hfew
    have hone : c.offsetWidth * n + c.offsetWidth ≤ c.offsetWidth * c.tablesDepth := by
      rw [← Nat.mul_add_one]
      exact Nat.mul_le_mul_left _ (not_le.mp hfew)
    omega

section

variable (hpos : 1 ≤ c.offsetWidth) (hlt : c.offsetWidth < c.virtualAddressWidth)
  (hwide : c.virtualAddressWidth ≤ 62)

include hpos hlt hwide

/-- Going down the tables gives the number whose digits are the rows. -/
theorem currLeafPage_eq {rows : List Nat} (hlen : rows.length ≤ c.tablesDepth)
    (hrows : ∀ i ∈ rows, i < c.pageSize) : currLeafPage c rows = pathPage c rows := by
  induction rows using List.reverseRecOn with
  | nil => simp [currLeafPage, pathPage]
  | append_singleton rows i ih =>
      rw [List.length_append, List.length_singleton] at hlen
      have hfront : currLeafPage c rows = pathPage c rows :=
        ih (by omega) fun j hj => hrows j (List.mem_append_left _ hj)
      have hstep : currLeafPage c (rows ++ [i]) =
          toUInt64 ((currLeafPage c rows <<< c.offsetWidth : Nat) + i) := by
        simp [currLeafPage]
      rw [hstep, hfront]
      exact Widths.pathPage_snoc hpos hlt hwide hlen hrows

/-- The eviction search names the page by the number that translation took
apart. -/
theorem currLeafPage_pageRows {page : Nat} (hpage : page < c.numPages) :
    currLeafPage c (pageRows c page) = page := by
  rw [pageRows_eq, currLeafPage_eq hpos hlt hwide (length_pagePath c page).le]
  · exact Widths.pathPage_pagePath hpos hlt hpage
  · exact digits_lt c.pageSize_pos _ _

/-- Translation of the number that the search computed takes the same rows. -/
theorem pageRows_currLeafPage {rows : List Nat} (hlen : rows.length = c.tablesDepth)
    (hrows : ∀ i ∈ rows, i < c.pageSize) : pageRows c (currLeafPage c rows) = rows := by
  rw [currLeafPage_eq hpos hlt hwide hlen.le hrows, pageRows_eq]
  exact Widths.pagePath_pathPage hpos hlen hrows

end

/-- An address is its page and its offset. -/
theorem fetchPageAddress_shiftLeft_add {a : Nat} (ha : a < 2 ^ 64) :
    toUInt64 ((fetchPageAddress c a <<< c.offsetWidth : Nat) + fetchOffset c a) = a := by
  have hval : fetchPageAddress c a <<< c.offsetWidth + fetchOffset c a = a := by
    rw [fetchPageAddress_eq, fetchOffset_eq, Nat.shiftLeft_eq]
    exact Nat.div_add_mod' a c.pageSize
  rw [← Nat.cast_add, hval]
  exact toUInt64_of_lt ha

/-- **Pages and paths agree.**  For every offset width and every width of a
virtual address above it up to 62, the rows of a page lead the search to its
number, every full path of rows is the path of the number it leads to, and an
address is its page number and offset. -/
theorem pages_are_paths (hpos : 1 ≤ c.offsetWidth)
    (hlow : c.offsetWidth + 1 ≤ c.virtualAddressWidth) (hwide : c.virtualAddressWidth ≤ 62) :
    1 ≤ c.tablesDepth ∧
      c.tablesDepth = (c.virtualAddressWidth - c.offsetWidth) ⌈/⌉ c.offsetWidth ∧
      (∀ page < c.numPages, (∀ depth < c.tablesDepth, fetchDepthOffset c page depth < c.pageSize) ∧
        currLeafPage c (pageRows c page) = page) ∧
      (∀ rows : List Nat, rows.length = c.tablesDepth → (∀ i ∈ rows, i < c.pageSize) →
        pageRows c (currLeafPage c rows) = rows) ∧
      (∀ p < c.numPages, ∀ q < c.numPages, pageRows c p = pageRows c q → p = q) ∧
      (∀ a < 2 ^ 64,
        toUInt64 ((fetchPageAddress c a <<< c.offsetWidth : Nat) + fetchOffset c a) = a) := by
  have hlt : c.offsetWidth < c.virtualAddressWidth := hlow
  refine ⟨Widths.tablesDepth_pos hpos hlt, tablesDepth_eq_ceil hpos hlt, ?_, ?_, ?_, ?_⟩
  · intro page hpage
    exact ⟨fun depth _ => fetchOffset_lt c _, currLeafPage_pageRows hpos hlt hwide hpage⟩
  · intro rows hlen hrows
    exact pageRows_currLeafPage hpos hlt hwide hlen hrows
  · intro p hp q hq hsame
    rw [← currLeafPage_pageRows hpos hlt hwide hp, hsame, currLeafPage_pageRows hpos hlt hwide hq]
  · intro a ha
    exact fetchPageAddress_shiftLeft_add ha

/-- Offsets of 3 bits do not divide the 17 bits of the page number. -/
theorem pages_are_paths_uneven :
    let c : Widths := { offsetWidth := 3, physicalAddressWidth := 10, virtualAddressWidth := 20 }
    c.tablesDepth = 6 ∧ pageRows c 0x1ABCD = [3, 2, 5, 7, 1, 5] ∧
      currLeafPage c [3, 2, 5, 7, 1, 5] = 0x1ABCD := by
  intro c
  have hpages := (pages_are_paths (c := c) (by decide) (by decide) (by decide)).2.2.1
  have hrows : pageRows c 0x1ABCD = [3, 2, 5, 7, 1, 5] := by decide
  exact ⟨by decide, hrows, hrows ▸ (hpages 0x1ABCD (by decide)).2⟩

end Paging
