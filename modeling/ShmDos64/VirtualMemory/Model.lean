import ShmDos64.Cpu
import ShmDos64.Common.Run
import ShmDos64.Common.Tiling
/-!
# The virtual page allocator

`VirtualMemoryManagerPrivate`'s page allocator, as
`VirtualMemoryManager.cpp` has it: a table of free lists by the highest
set bit of the region size, and one word per page, `m_memoryRegions`, that
tags the first and the last page of each region. The word of a free
region is the address of its list item, the word of a busy one its size
above the flag bits, the word of every inner page zero.

Addresses are numbers and the null pointer is `0`; the list items live in
a memory from addresses to records.
-/

namespace ShmDos64

open Function (update)

/-- `VMM_REG_SIZE_SHIFT`. -/
abbrev vmmRegSizeShift : ℕ := 12

/-- `VMM_REG_ALLOC_FLAG`. -/
abbrev vmmRegAllocFlag : ℕ := 1

/-- `VMM_REG_BUSY_FLAG`. -/
abbrev vmmRegBusyFlag : ℕ := 2

/-- `word & VMM_REG_PTR_MASK`: the two flag bits cleared. -/
def vmmRegPtr (word : ℕ) : ℕ := word - (word &&& 3)

/-- `g_maxAllocIterations`. -/
abbrev maxAllocIterations : ℕ := 32

/-- `std::numeric_limits<size_t>::max()`. -/
abbrev sizeMax : ℕ := 2 ^ 64 - 1

/-- `sizeof(VmmFreeMemoryListItem)`. -/
abbrev vmmItemSize : ℕ := 32

/-- `VmmFreeMemoryListItem`. -/
structure VmmItem where
  numPages : ℕ := 0
  pageBase : ℕ := 0
  prev : ℕ := 0
  next : ℕ := 0

/-- The allocator's fields. -/
structure Vmm where
  /-- The memory of the list items. -/
  item : ℕ → VmmItem
  memoryRegions : ℕ → ℕ
  freeListTable : ℕ → ℕ
  freeListTableCounters : ℕ → ℕ
  freeListTableSize : ℕ
  freeListItems : ℕ
  freeListItemsStart : ℕ
  virtualPages : ℕ

namespace Vmm

section

variable (v : Vmm)

/-- The item `addFreeRegion` takes: one that was given back, or else the
next of the array. -/
def takeItem : ℕ × Vmm :=
  if v.freeListItems = 0 then
    (v.freeListItemsStart, { v with freeListItemsStart := v.freeListItemsStart + vmmItemSize })
  else
    (v.freeListItems, { v with freeListItems := (v.item v.freeListItems).next })

/-- `addFreeRegion`, once it has its item. -/
def linkFreeRegion (item pageBase numPages : ℕ) : Vmm :=
  let tblIndex := cpuLastOneBitIndex numPages
  let flt := v.freeListTable tblIndex
  let mem := update v.item item { numPages, pageBase, prev := 0, next := flt }
  let mem := if flt ≠ 0 then update mem flt { mem flt with prev := item } else mem
  let regions := update v.memoryRegions pageBase item
  { v with
    item := mem
    freeListTable := update v.freeListTable tblIndex item
    freeListTableCounters :=
      update v.freeListTableCounters tblIndex (v.freeListTableCounters tblIndex + 1)
    memoryRegions :=
      if 1 < numPages then update regions (pageBase + numPages - 1) item else regions }

/-- `addFreeRegion`. -/
def addFreeRegion (pageBase numPages : ℕ) : Vmm :=
  v.takeItem.2.linkFreeRegion v.takeItem.1 pageBase numPages

/-- The first half of `deleteFreeRegion`: the region leaves its list. -/
def unlinkFreeRegion (tableIndex region : ℕ) : Vmm :=
  if region = v.freeListTable tableIndex then
    { v with freeListTable := update v.freeListTable tableIndex (v.item region).next }
  else
    let rNext := (v.item region).next
    let rPrev := (v.item region).prev
    let mem := update v.item rPrev { v.item rPrev with next := rNext }
    { v with
      item :=
        if rNext ≠ 0 then update mem rNext { mem rNext with prev := (mem region).prev } else mem }

/-- `deleteFreeRegion`. The item's size and base stay readable, as the
callers need them to. -/
def deleteFreeRegion (tableIndex region : ℕ) : Vmm :=
  let v := v.unlinkFreeRegion tableIndex region
  { v with
    item := update v.item region { v.item region with next := v.freeListItems }
    freeListItems := region
    freeListTableCounters :=
      update v.freeListTableCounters tableIndex (v.freeListTableCounters tableIndex - 1) }

/-- The word that tags the first page of a busy region. -/
def busyWord (numPages : ℕ) : ℕ := numPages <<< vmmRegSizeShift ||| vmmRegBusyFlag

/-- `setBusyRegion`. -/
def setBusyRegion (tableIndex region numPages : ℕ) : Vmm :=
  let pagesBase := (v.item region).pageBase
  let v := v.deleteFreeRegion tableIndex region
  let regions := update v.memoryRegions pagesBase (busyWord numPages)
  { v with
    memoryRegions :=
      if 1 < numPages then update regions (pagesBase + numPages - 1) vmmRegBusyFlag else regions }

/-! ## `allocPages`

The search reads the lists and changes nothing, so it is a function of
its own; `allocPages` then acts on the exit it took. -/

/-- What the bounded scan of the first bucket ends with: a region of the
exact size, or the best larger one with what would be left of it (null
when there is none) and the item the scan stopped at. -/
inductive Scan where
  | exact (item : ℕ)
  | done (minItem minDelta curListItem : ℕ)

/-- The `for` loop over the first bucket, with the iterations left. -/
def scanBucket (v : Vmm) (numPages : ℕ) : ℕ → ℕ → ℕ → ℕ → Scan
  | 0, curListItem, minItem, minDelta => .done minItem minDelta curListItem
  | k + 1, curListItem, minItem, minDelta =>
    let size := (v.item curListItem).numPages
    let next := (v.item curListItem).next
    if numPages ≤ size then
      if size - numPages = 0 then .exact curListItem
      else if size - numPages < minDelta then
        scanBucket v numPages k next curListItem (size - numPages)
      else scanBucket v numPages k next minItem minDelta
    else scanBucket v numPages k next minItem minDelta

/-- The `for` loop over the larger buckets: the first that is not empty. -/
def findLarger (v : Vmm) : ℕ → ℕ → Option ℕ
  | 0, _ => none
  | k + 1, idx => if 0 < v.freeListTableCounters idx then some idx else findLarger v k (idx + 1)

/-- The closing `while` loop: the first item from `curListItem` on that is
large enough, null when there is none. No list is longer than the pages
there are, which is the fuel it runs on. -/
def scanRest (v : Vmm) (numPages : ℕ) : ℕ → ℕ → ℕ
  | 0, _ => 0
  | k + 1, curListItem =>
    if curListItem = 0 then 0
    else if numPages ≤ (v.item curListItem).numPages then curListItem
    else scanRest v numPages k (v.item curListItem).next

/-- The exits of `allocPages`. -/
inductive AllocExit where
  | exactFit (item : ℕ)
  | bestFit (item delta : ℕ)
  | larger (idx : ℕ)
  | fallback (item : ℕ)
  | fail

/-- The last two loops: a larger bucket, else the rest of the first one. -/
def searchPast (numPages curListItem : ℕ) : AllocExit :=
  let tblIndex := cpuLastOneBitIndex numPages
  match v.findLarger (v.freeListTableSize - (tblIndex + 1)) (tblIndex + 1) with
  | some idx => .larger idx
  | none =>
    let item := v.scanRest numPages (v.virtualPages + 1) curListItem
    if item = 0 then .fail else .fallback item

/-- The exit `allocPages` takes. -/
def allocExit (numPages : ℕ) : AllocExit :=
  let tblIndex := cpuLastOneBitIndex numPages
  let maxIterateNodes := min (v.freeListTableCounters tblIndex) maxAllocIterations
  if 0 < maxIterateNodes then
    match v.scanBucket numPages maxIterateNodes (v.freeListTable tblIndex) 0 sizeMax with
    | .exact item => .exactFit item
    | .done minItem minDelta curListItem =>
      if minItem ≠ 0 then .bestFit minItem minDelta else v.searchPast numPages curListItem
  else v.searchPast numPages 0

/-- A region is split: its front becomes busy, the rest of it, `rest`
pages, is a new free region. -/
def splitRegion (tableIndex item numPages rest : ℕ) : ℕ × Vmm :=
  let v' := v.setBusyRegion tableIndex item numPages
  ((v.item item).pageBase, v'.addFreeRegion ((v'.item item).pageBase + numPages) rest)

/-- `allocPages`; `none` is `g_invalidPageOffset`. -/
def allocPages (numPages : ℕ) : Option ℕ × Vmm :=
  let tblIndex := cpuLastOneBitIndex numPages
  match v.allocExit numPages with
  | .exactFit item => (some (v.item item).pageBase, v.setBusyRegion tblIndex item numPages)
  | .bestFit item delta =>
    let r := v.splitRegion tblIndex item numPages delta
    (some r.1, r.2)
  | .larger idx =>
    let item := v.freeListTable idx
    let r := v.splitRegion idx item numPages
      (((v.setBusyRegion idx item numPages).item item).numPages - numPages)
    (some r.1, r.2)
  -- the whole region is taken out of its list, `numPages` of it become busy
  | .fallback item => (some (v.item item).pageBase, v.setBusyRegion tblIndex item numPages)
  | .fail => (none, v)

/-! ## `freePages` -/

/-- The region a word points to, null for a busy word and for zero. -/
def freeItemOf (word : ℕ) : ℕ :=
  if word &&& vmmRegBusyFlag = 0 then vmmRegPtr word else 0

/-- The merge with the region before: the new base and the pages added. -/
def mergePrev (pageBase : ℕ) : ℕ × ℕ × Vmm :=
  if 0 < pageBase then
    let item := freeItemOf (v.memoryRegions (pageBase - 1))
    if item ≠ 0 then
      let itemNumPages := (v.item item).numPages
      let v' := v.deleteFreeRegion (cpuLastOneBitIndex itemNumPages) item
      let regions := update v'.memoryRegions pageBase 0
      ((v.item item).pageBase, itemNumPages,
        { v' with
          memoryRegions :=
            if 1 < itemNumPages then update regions (pageBase - 1) 0 else regions })
    else (pageBase, 0, v)
  else (pageBase, 0, v)

/-- The merge with the region that starts at `pageEnd`: the pages added. -/
def mergeNext (pageEnd : ℕ) : ℕ × Vmm :=
  let item := freeItemOf (v.memoryRegions pageEnd)
  if item ≠ 0 then
    let itemNumPages := (v.item item).numPages
    let v' := v.deleteFreeRegion (cpuLastOneBitIndex itemNumPages) item
    let itemBase := (v'.item item).pageBase
    (itemNumPages,
      { v' with memoryRegions := update (update v'.memoryRegions (itemBase - 1) 0) itemBase 0 })
  else (0, v)

/-- `freePages`: the pages freed, `0` when the page starts no busy
region. -/
def freePages (pageBase : ℕ) : ℕ × Vmm :=
  let word := v.memoryRegions pageBase
  let numPages := word >>> vmmRegSizeShift
  if word &&& vmmRegBusyFlag = 0 then (0, v)
  else if numPages = 0 then (0, v)
  else
    let prev := v.mergePrev pageBase
    let next := prev.2.2.mergeNext (pageBase + numPages)
    (numPages, next.2.addFreeRegion prev.1 (numPages + prev.2.1 + next.1))

end

/-- `regionsSize`: the bytes of `m_memoryRegions`, one word a page and one
past the last. -/
def regionsSize (needPages : ℕ) : ℕ := cpuAlignAddrHi ((needPages + 1) * 8)

/-- `freeListSize`: the bytes of the array of items. -/
def freeListSize (needPages : ℕ) : ℕ := cpuAlignAddrHi (needPages * vmmItemSize)

/-- The fields as the constructor sets them, before its last statement
adds the free region; the two arrays take the first of the `needPages`
pages, and the second starts at `freeListItemsStart`. -/
def zeroed (needPages freeListItemsStart : ℕ) : Vmm where
  item := fun _ => {}
  memoryRegions := fun _ => 0
  freeListTable := fun _ => 0
  freeListTableCounters := fun _ => 0
  freeListTableSize := cpuLastOneBitIndex needPages + 1
  freeListItems := 0
  freeListItemsStart := freeListItemsStart
  virtualPages := needPages - (regionsSize needPages + freeListSize needPages) / pageSize

/-- The constructor's state: one free region holds every page. -/
def constructed (needPages freeListItemsStart : ℕ) : Vmm :=
  (zeroed needPages freeListItemsStart).addFreeRegion 0
    (zeroed needPages freeListItemsStart).virtualPages

end Vmm

/-! ## Runs -/

/-- The calls a run is made of. -/
inductive VmmCall where
  | allocPages (numPages : ℕ)
  | freePages (pageBase : ℕ)

/-- The allocator, and the regions it has handed out and not taken back. -/
structure VmmState where
  vmm : Vmm
  live : List Span

/-- What a call does. -/
def VmmState.call (s : VmmState) : VmmCall → VmmState
  | .allocPages n =>
    let r := s.vmm.allocPages n
    { vmm := r.2, live := (r.1.map fun base => ⟨base, n⟩).toList ++ s.live }
  | .freePages base =>
    let r := s.vmm.freePages base
    { vmm := r.2, live := if r.1 = 0 then s.live else s.live.eraseP fun x => x.base = base }

/-- The calls the callers make: at least one page is asked for, and a
page to free is one of the managed pages. -/
def VmmState.Allowed (s : VmmState) : VmmCall → Prop
  | .allocPages n => 1 ≤ n
  | .freePages base => base < s.vmm.virtualPages

/-- `KERNEL_MAX_VIRTUAL_MEMORY`. -/
abbrev kernelMaxVirtualMemory : ℕ := 511 * 2 ^ 30

/-- The runs of the allocator from the constructor's state. The arrays
leave at least one page, and the array of items is page aligned and not
null. -/
def vmmMachine : Machine VmmState VmmCall where
  init s := ∃ needPages itemsStart,
    needPages * pageSize ≤ kernelMaxVirtualMemory ∧
    1 ≤ (Vmm.zeroed needPages itemsStart).virtualPages ∧
    0 < itemsStart ∧ pageSize ∣ itemsStart ∧
    s = { vmm := Vmm.constructed needPages itemsStart, live := [] }
  step s c t := s.Allowed c ∧ t = s.call c

end ShmDos64
