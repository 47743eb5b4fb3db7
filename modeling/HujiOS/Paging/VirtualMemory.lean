import HujiOS.Paging.PhysicalMemory
import HujiOS.Runs

/-!
# The virtual memory

`VirtualMemory.cpp`.  A table entry is the frame of the next table or page, 0
for none, and frame 0 is the root table.  The out-parameters of the two
searches are the fields of `Eviction` and `UnusedOrMax`; a search reads the
memory only, so it is a function of it.  The recursions count the levels left
instead of the depth, `tablesDepth - depth`.
-/

namespace Paging

open MachineInt

variable (c : Widths)

/-- `frame * PAGE_SIZE + row` in a `uint64_t`. -/
def physicalAddress (frame : Int) (row : Nat) : Nat := toUInt64 (frame * c.pageSize + row)

/-- `clearTable`: zero in every row of the frame. -/
def clearTable (m : PhysicalMemory) (frameIndex : Nat) :
    Except AssertionFailure PhysicalMemory :=
  (List.range c.pageSize).foldlM (fun m i => pmWrite c m (physicalAddress c frameIndex i) 0) m

/-- The low bits of an address, its offset in a page. -/
def fetchOffset (virtualAddress : Nat) : Nat := virtualAddress &&& ((1 <<< c.offsetWidth) - 1)

/-- The high bits of an address, its page number. -/
def fetchPageAddress (virtualAddress : Nat) : Nat := virtualAddress >>> c.offsetWidth

/-- The row that translation takes in the table at `depth`. -/
def fetchDepthOffset (address depth : Nat) : Nat :=
  fetchOffset c (address >>> ((c.tablesDepth - depth - 1) * c.offsetWidth))

/-! ## The search for a page to evict -/

/-- The out-parameters of `findFrameToEvict`. -/
structure Eviction where
  maxCycDist : Int
  pageToEvict : Nat
  evictedFrame : Int
  evictedAddressInParent : Nat
  deriving DecidableEq, Repr

/-- The cyclic distance of two pages, in the arithmetic of the source. -/
def cycDist (page currLeafPage : Nat) : Int :=
  let absDelta : Int := (toInt32 (toUInt64 (page - currLeafPage))).natAbs
  min (toInt32 c.numPages - absDelta) absDelta

/-- A leaf replaces the best one so far only if it is strictly further
away. -/
def computeAndUpdateMaxCycDist (page : Nat) (best : Eviction) (addressInParent : Nat)
    (currFrame : Int) (currLeafPage : Nat) : Eviction :=
  if cycDist c page currLeafPage > best.maxCycDist then
    { maxCycDist := cycDist c page currLeafPage
      pageToEvict := currLeafPage
      evictedFrame := currFrame
      evictedAddressInParent := addressInParent }
  else best

/-- The depth-first search for the leaf to evict, with the number of levels
below `currFrame`. -/
def findFrameToEvict (m : PhysicalMemory) (page : Nat) :
    Nat → Eviction → Nat → Int → Nat → Except AssertionFailure Eviction
  | 0, best, addressInParent, currFrame, currLeafPage =>
      .ok (computeAndUpdateMaxCycDist c page best addressInParent currFrame currLeafPage)
  | levels + 1, best, _, currFrame, currLeafPage =>
      (List.range c.pageSize).foldlM (fun best rowIdx => do
        let physicalAddress := physicalAddress c currFrame rowIdx
        let nextFrame ← pmRead c m physicalAddress
        if nextFrame ≠ 0 then
          findFrameToEvict m page levels best physicalAddress nextFrame
            (toUInt64 ((currLeafPage <<< c.offsetWidth : Nat) + rowIdx))
        else .ok best) best

/-! ## The search for an unused frame -/

/-- The out-parameters of `getUnusedOrMaxFrame`. -/
structure UnusedOrMax where
  unusedFrame : Int
  unusedAddressInParent : Nat
  maxFrame : Int
  deriving DecidableEq, Repr

/-- The depth-first search for a table without children, other than
`usedEmptyFrame`, and for the largest frame in use. -/
def getUnusedOrMaxFrame (m : PhysicalMemory) (usedEmptyFrame : Int) :
    Nat → UnusedOrMax → Int → Nat → Except AssertionFailure UnusedOrMax
  | 0, found, _, _ => .ok found
  | levels + 1, found, currFrame, cameFromPhysicalAddress => do
      let (found, hasChildren) ← (List.range c.pageSize).foldlM
        (fun (found, hasChildren) rowIdx => do
          let physicalAddress := physicalAddress c currFrame rowIdx
          let childFrame ← pmRead c m physicalAddress
          if childFrame ≠ 0 then
            let found := { found with
              maxFrame := if found.maxFrame < childFrame then childFrame else found.maxFrame }
            let found ← getUnusedOrMaxFrame m usedEmptyFrame levels found childFrame
              physicalAddress
            .ok (found, true)
          else .ok (found, hasChildren)) (found, false)
      if hasChildren = false ∧ currFrame ≠ usedEmptyFrame then
        .ok { found with
          unusedAddressInParent := cameFromPhysicalAddress
          unusedFrame := currFrame }
      else .ok found

/-! ## Allocation -/

/-- The frame, or 0 when every frame is in use. -/
def createUnusedOrMaxFrame (m : PhysicalMemory) (formerChosenUnusedFrame : Int) :
    Except AssertionFailure (Int × PhysicalMemory) := do
  let found ← getUnusedOrMaxFrame c m formerChosenUnusedFrame c.tablesDepth
    { unusedFrame := 0, unusedAddressInParent := 0, maxFrame := 0 } 0 0
  if found.unusedFrame ≠ 0 then
    let m ← pmWrite c m found.unusedAddressInParent 0
    .ok (found.unusedFrame, m)
  else if found.maxFrame < c.numFrames - 1 then .ok (found.maxFrame + 1, m)
  else .ok (0, m)

/-- A page is swapped out and its entry cleared; a frame that becomes a table
is filled with zeros. -/
def evictFrame (m : PhysicalMemory) (page depthOfFrame : Nat) :
    Except AssertionFailure (Int × PhysicalMemory) := do
  let best ← findFrameToEvict c m page c.tablesDepth
    { maxCycDist := 0, pageToEvict := 0, evictedFrame := 0, evictedAddressInParent := 0 } 0 0 0
  let m ← pmEvict c m (toUInt64 best.evictedFrame) best.pageToEvict
  let m ← pmWrite c m best.evictedAddressInParent 0
  if depthOfFrame < c.tablesDepth - 1 then
    let m ← clearTable c m (toUInt64 best.evictedFrame)
    .ok (best.evictedFrame, m)
  else .ok (best.evictedFrame, m)

/-- An unused frame if there is one, else that of a page that has to go. -/
def createFrame (m : PhysicalMemory) (page : Nat) (formerChosenUnusedFrame : Int)
    (depthOfFrame : Nat) : Except AssertionFailure (Int × PhysicalMemory) := do
  let (maxOrUnusedFrame, m) ← createUnusedOrMaxFrame c m formerChosenUnusedFrame
  if maxOrUnusedFrame ≠ 0 then .ok (maxOrUnusedFrame, m)
  else evictFrame c m page depthOfFrame

/-! ## Translation -/

/-- One round of the loop of `findFrame`. -/
def findFrameStep (pageAddress : Nat) (walked : Int × PhysicalMemory) (currDepth : Nat) :
    Except AssertionFailure (Int × PhysicalMemory) := do
  let (currFrame, m) := walked
  let currOffset := fetchDepthOffset c pageAddress currDepth
  let physicalAddress := physicalAddress c currFrame currOffset
  let nextFrame ← pmRead c m physicalAddress
  if nextFrame = 0 then
    let (nextFrame, m) ← createFrame c m pageAddress currFrame currDepth
    let m ← pmWrite c m physicalAddress nextFrame
    .ok (nextFrame, m)
  else .ok (nextFrame, m)

/-- `findFrame`: the walk from the root, which makes what is missing, and the
restore of the page, on every access. -/
def findFrame (m : PhysicalMemory) (pageAddress : Nat) :
    Except AssertionFailure (Nat × PhysicalMemory) := do
  let (currFrame, m) ← (List.range c.tablesDepth).foldlM (findFrameStep c pageAddress) (0, m)
  let m ← pmRestore c m (toUInt64 currFrame) pageAddress
  .ok (toUInt64 currFrame, m)

/-! ## The interface -/

/-- `VMinitialize`: every frame is cleared. -/
def vmInitialize (m : PhysicalMemory) : Except AssertionFailure PhysicalMemory :=
  (List.range c.numFrames).foldlM (clearTable c) m

/-- The return value, `*value` after the call, and the memory. -/
def vmRead (m : PhysicalMemory) (virtualAddress : Nat) (value : Int) :
    Except AssertionFailure (Int × Int × PhysicalMemory) :=
  if virtualAddress ≥ c.virtualMemorySize then .ok (0, value, m)
  else do
    let (frameIndex, m) ← findFrame c m (fetchPageAddress c virtualAddress)
    let value ← pmRead c m (physicalAddress c frameIndex (fetchOffset c virtualAddress))
    .ok (1, value, m)

/-- The return value and the memory. -/
def vmWrite (m : PhysicalMemory) (virtualAddress : Nat) (value : Int) :
    Except AssertionFailure (Int × PhysicalMemory) :=
  if virtualAddress ≥ c.virtualMemorySize then .ok (0, m)
  else do
    let (frameIndex, m) ← findFrame c m (fetchPageAddress c virtualAddress)
    let m ← pmWrite c m (physicalAddress c frameIndex (fetchOffset c virtualAddress)) value
    .ok (1, m)

/-- A call of the paging interface; `value` is what `*value` held before a
read. -/
inductive Access
  | read (virtualAddress : Nat) (value : Int)
  | write (virtualAddress : Nat) (value : Int)
  deriving DecidableEq, Repr

/-- The address of an access. -/
def Access.virtualAddress : Access → Nat
  | .read a _ => a
  | .write a _ => a

/-- The memory after a call, if no assertion failed. -/
def next (m : PhysicalMemory) (access : Access) : Option PhysicalMemory :=
  match access with
  | .read a value => (vmRead c m a value).toOption.map fun (_, _, m) => m
  | .write a value => (vmWrite c m a value).toOption.map fun (_, m) => m

/-- The accesses of the tests' flow example, on their small memory: the second
read evicts two pages. -/
example : ((do
      let c : Widths :=
        { offsetWidth := 1, physicalAddressWidth := 4, virtualAddressWidth := 5 }
      let m ← vmInitialize c (.filled 8)
      let (_, m) ← vmWrite c m 13 3
      let (_, value, m) ← vmRead c m 13 0
      let (_, _, m) ← vmRead c m 6 0
      let (_, _, m) ← vmRead c m 31 0
      .ok (value, (List.range 8).map (m.ram · 0), (List.range 8).map (m.ram · 1), m.trace) :
      Except AssertionFailure _)) =
    .ok (3, [1, 5, 0, 0, 0, 0, 0, 0], [4, 0, 7, 2, 3, 6, 0, 0],
      [.restore 4 6, .restore 4 6, .restore 7 3, .evict 4 6, .evict 7 3, .restore 7 15]) := by
  decide +kernel

/-- The memories that a program using the interface can see. -/
def Reachable (m : PhysicalMemory) : Prop :=
  ∃ m₀ m₁, vmInitialize c m₀ = .ok m₁ ∧ Runs.Reaches (next c) m₁ m

end Paging
