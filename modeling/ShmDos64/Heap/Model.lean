import ShmDos64.Cpu
import ShmDos64.Common.Run
import ShmDos64.Common.Tiling
/-!
# The kernel heap

`Heap` as `Heap.cpp` has it. Memory from the virtual memory manager comes
in units; a unit is a chain of regions, each with a header at its start,
ended by a header with a null `m_addrNext`. Free regions are also on
lists by the highest set bit of their size, through `m_szNext` and
`m_szPrev`; `m_szNext` is in a union with the marker of a busy region.

The headers' memory is kept field by field, from addresses to words, and
the null pointer is `0`. What the memory manager does is a parameter of
the calls: the unit it returns, and what the bytes it hands out, or takes
back in the middle of a region, hold afterwards.
-/

namespace ShmDos64

open Function (update)

/-- `HEAP_MARKER_BUSY`. -/
abbrev heapMarkerBusy : ℕ := 0xFFFFFFFFFFFFFFFF

/-- `HEAP_ALLOC_UNIT_SIZE`. -/
abbrev heapAllocUnitSize : ℕ := 0x101000

/-- `HEAP_MEM_REGION_LIMIT`. -/
abbrev heapMemRegionLimit : ℕ := 0x100000

/-- `g_heapMaxIterations`. -/
abbrev heapMaxIterations : ℕ := 32

/-- `HeapLogTableSize`. -/
abbrev heapLogTableSize : ℕ := 21

/-- `MemRegionAlign`, the size of a header. -/
abbrev memRegionAlign : ℕ := 32

/-- The headers' memory: `MemoryRegionHeader`, field by field. -/
structure HeaderMem where
  /-- `m_szNext`, and `m_busyMarker`. -/
  szNext : ℕ → ℕ
  szPrev : ℕ → ℕ
  addrNext : ℕ → ℕ
  addrPrev : ℕ → ℕ

/-- The bytes from `lo` to `hi` hold something else. -/
def HeaderMem.scrub (m : HeaderMem) (lo hi : ℕ) (junk : HeaderMem) : HeaderMem where
  szNext a := if lo ≤ a ∧ a < hi then junk.szNext a else m.szNext a
  szPrev a := if lo ≤ a ∧ a < hi then junk.szPrev a else m.szPrev a
  addrNext a := if lo ≤ a ∧ a < hi then junk.addrNext a else m.addrNext a
  addrPrev a := if lo ≤ a ∧ a < hi then junk.addrPrev a else m.addrPrev a

/-- The heap's fields and its headers. -/
structure Heap extends HeaderMem where
  freeListTable : ℕ → ℕ
  virtualMemorySize : ℕ

namespace Heap

section

variable (h : Heap) (region : ℕ)

/-- `MemoryRegionHeader::size`, a difference of `size_t`. -/
@[irreducible] def size : ℕ := (h.addrNext region + 2 ^ 64 - region) % 2 ^ 64

/-- Memory handed out, or taken back, by the memory manager. -/
def scrub (h : Heap) (lo hi : ℕ) (junk : HeaderMem) : Heap :=
  { h with toHeaderMem := h.toHeaderMem.scrub lo hi junk }

/-- `region->m_busyMarker = HEAP_MARKER_BUSY`. -/
def setBusy : Heap :=
  { h with szNext := update h.szNext region heapMarkerBusy }

/-- `lower->m_addrNext = upper`. -/
def setAddrNext (lower upper : ℕ) : Heap :=
  { h with addrNext := update h.addrNext lower upper }

/-- `upper->m_addrPrev = lower`. -/
def setAddrPrev (upper lower : ℕ) : Heap :=
  { h with addrPrev := update h.addrPrev upper lower }

/-- The region is pushed on a free list. The source writes this out in
`allocMore`, `allocNew`, `updateMemRegion` and `addMemRegion`. -/
def pushMemRegion (region tblIndex : ℕ) : Heap :=
  let hdr := h.freeListTable tblIndex
  { h with
    szNext := update h.szNext region hdr
    szPrev := if hdr ≠ 0 then update h.szPrev hdr region else h.szPrev
    freeListTable := update h.freeListTable tblIndex region }

/-- `deleteMemRegion`. -/
def deleteMemRegion (region tableIdx : ℕ) : Heap :=
  if region = h.freeListTable tableIdx then
    { h with freeListTable := update h.freeListTable tableIdx (h.szNext region) }
  else
    let regSzPrev := h.szPrev region
    let regSzNext := h.szNext region
    { h with
      szNext := update h.szNext regSzPrev regSzNext
      szPrev := if regSzNext ≠ 0 then update h.szPrev regSzNext regSzPrev else h.szPrev }

/-- `updateMemRegion`. -/
def updateMemRegion (region oldTableIdx : ℕ) : Heap :=
  let tblIndex := cpuLastOneBitIndex (h.size region)
  if tblIndex ≠ oldTableIdx then
    (h.deleteMemRegion region oldTableIdx).pushMemRegion region tblIndex
  else h

/-- `addMemRegion`. -/
def addMemRegion : Heap :=
  h.pushMemRegion region (cpuLastOneBitIndex (h.size region))

/-! ## `alloc` -/

/-- `allocEqual`: the list's head is the table's own entry, so this is
`deleteMemRegion` and the marker. -/
def allocEqual (tblIndex region : ℕ) : ℕ × Heap :=
  (region + memRegionAlign, (h.deleteMemRegion region tblIndex).setBusy region)

/-- `allocMore`. -/
def allocMore (region size : ℕ) : ℕ × Heap :=
  let freeRegion := region + size
  let regNext := h.addrNext region
  let h := h.deleteMemRegion region (cpuLastOneBitIndex (h.size region))
  let h := (h.setAddrPrev freeRegion region).setAddrNext freeRegion regNext
  let h := (h.setAddrNext region freeRegion).setAddrPrev regNext freeRegion
  let h := h.pushMemRegion freeRegion (cpuLastOneBitIndex (h.size freeRegion))
  (region + memRegionAlign, h.setBusy region)

/-- `allocNew`, with the memory manager's answer. -/
def allocNew (size : ℕ) (unit : Option ℕ) (junk : HeaderMem) : Option ℕ × Heap :=
  match unit with
  | none => (none, h)
  | some region =>
    let h := h.scrub region (region + heapAllocUnitSize) junk
    let h := { h with virtualMemorySize := (h.virtualMemorySize + heapAllocUnitSize) % 2 ^ 64 }
    let freeRegion := region + size
    let nullRegion := region + heapAllocUnitSize - memRegionAlign
    let h := (h.setAddrPrev region 0).setAddrNext region freeRegion
    let h := (h.setAddrPrev freeRegion region).setAddrNext freeRegion nullRegion
    let h := h.setAddrNext nullRegion 0
    let h := h.pushMemRegion freeRegion (cpuLastOneBitIndex (nullRegion - freeRegion))
    (some (region + memRegionAlign), h.setBusy region)

/-- `virtualSize` of `allocHuge`. -/
def hugeSize (size : ℕ) : ℕ := cpuAlignAddrHi (size + memRegionAlign)

/-- `allocHuge`, with the memory manager's answer, which it takes to be a
unit. -/
def allocHuge (size region : ℕ) (junk : HeaderMem) : ℕ × Heap :=
  let h := h.scrub region (region + hugeSize size) junk
  let h := { h with virtualMemorySize := (h.virtualMemorySize + hugeSize size) % 2 ^ 64 }
  let nullRegion := region + size
  let h := (h.setAddrPrev region 0).setAddrNext region nullRegion
  let h := h.setAddrNext nullRegion 0
  (region + memRegionAlign, h.setBusy region)

/-- `alloc` rounds the size up to whole headers, with one for the
region's own. -/
def regionSize (size : ℕ) : ℕ := (size + memRegionAlign * 2 - 1) / memRegionAlign * memRegionAlign

/-- The way `alloc` takes. -/
inductive AllocPath where
  | equal (region : ℕ)
  | more (region : ℕ)
  | new
  | huge

/-- The loop over the first free list, with the iterations left: a region
of the exact size, else the one with the least left over (null when there
is none). -/
def scanFreeList (h : Heap) (size : ℕ) : ℕ → ℕ → ℕ → ℕ → AllocPath ⊕ ℕ
  | 0, _, minRegion, _ => .inr minRegion
  | cnt + 1, cur, minRegion, minDelta =>
    if cur = 0 then .inr minRegion
    else
      let regSize := h.size cur
      if size ≤ regSize then
        if regSize - size < minDelta then
          if regSize - size = 0 then .inl (.equal cur)
          else scanFreeList h size cnt (h.szNext cur) cur (regSize - size)
        else scanFreeList h size cnt (h.szNext cur) minRegion minDelta
      else scanFreeList h size cnt (h.szNext cur) minRegion minDelta

/-- The loop over the larger lists. -/
def findLarger (h : Heap) : ℕ → ℕ → AllocPath
  | 0, _ => .new
  | k + 1, idx =>
    if h.freeListTable idx ≠ 0 then .more (h.freeListTable idx) else findLarger h k (idx + 1)

/-- The way `alloc` takes for a region of `size` bytes. -/
def allocPath (size : ℕ) : AllocPath :=
  if heapMemRegionLimit ≤ size then .huge
  else
    let tblIndex := cpuLastOneBitIndex size
    let larger := h.findLarger (heapLogTableSize - (tblIndex + 1)) (tblIndex + 1)
    if h.freeListTable tblIndex ≠ 0 then
      match h.scanFreeList size heapMaxIterations (h.freeListTable tblIndex) 0 (2 ^ 64 - 1) with
      | .inl path => path
      | .inr minRegion => if minRegion ≠ 0 then .more minRegion else larger
    else larger

/-- `alloc`. `unit` is what `m_vmm.alloc` answers, when it is called, and
`junk` what its memory holds. -/
def alloc (size : ℕ) (unit : Option ℕ) (junk : HeaderMem) : Option ℕ × Heap :=
  if size = 0 then (none, h)
  else
    let size := regionSize size
    match h.allocPath size with
    | .equal region =>
      let r := h.allocEqual (cpuLastOneBitIndex size) region
      (some r.1, r.2)
    | .more region =>
      let r := h.allocMore region size
      (some r.1, r.2)
    | .new => h.allocNew size unit junk
    | .huge =>
      let r := h.allocHuge size (unit.getD 0) junk
      (some r.1, r.2)

/-- The bytes `alloc` asks the memory manager for. -/
def unitBytes (size : ℕ) : Option ℕ :=
  match h.allocPath (regionSize size) with
  | .equal _ => none
  | .more _ => none
  | .new => some heapAllocUnitSize
  | .huge => some (hugeSize (regionSize size))

/-! ## `free` -/

/-- The pages from `fpBase` to `fpEnd` are given back to the memory
manager. -/
def freeRamPages (fpBase fpEnd : ℕ) (junk : HeaderMem) : Heap :=
  if fpBase < fpEnd then h.scrub fpBase fpEnd junk else h

/-- Where `cleanMemRegionUN` and `cleanMemRegionUNP` stop: in the next
region, at most a page past its start. -/
def unionEnd : ℕ :=
  let regNext := h.addrNext region
  cpuAlignAddrLo (regNext + min (h.size regNext) pageMask)

/-- Where `cleanMemRegionUP` and `cleanMemRegionUNP` start: at the page of
the block, unless that holds the header of the region before. -/
def unionBase (ptr region : ℕ) : ℕ :=
  let fpBase := cpuAlignAddrLo ptr
  if fpBase < h.addrPrev region + memRegionAlign then fpBase + pageSize else fpBase

/-- `cleanMemRegion`. -/
def cleanMemRegion (ptr region : ℕ) (junk : HeaderMem) : Heap :=
  h.freeRamPages (cpuAlignAddrHi ptr) (cpuAlignAddrLo (h.addrNext region)) junk

/-- `cleanMemRegionUN`. -/
def cleanMemRegionUN (ptr region : ℕ) (junk : HeaderMem) : Heap :=
  h.freeRamPages (cpuAlignAddrHi ptr) (h.unionEnd region) junk

/-- `cleanMemRegionUNP`. -/
def cleanMemRegionUNP (ptr region : ℕ) (junk : HeaderMem) : Heap :=
  h.freeRamPages (h.unionBase ptr region) (h.unionEnd region) junk

/-- `cleanMemRegionUP`. -/
def cleanMemRegionUP (ptr region : ℕ) (junk : HeaderMem) : Heap :=
  h.freeRamPages (h.unionBase ptr region) (cpuAlignAddrLo (h.addrNext region)) junk

/-- A whole unit goes back to the memory manager. -/
def freeUnit (lower upper : ℕ) : Option ℕ × Heap :=
  (some lower, { h with
    virtualMemorySize :=
      (h.virtualMemorySize + 2 ^ 64 - (upper - lower + memRegionAlign)) % 2 ^ 64 })

/-- `free`, with the unit it gives back to the memory manager. -/
def free (ptr : ℕ) (junk : HeaderMem) : Option ℕ × Heap :=
  let region := ptr - memRegionAlign
  let regNext := h.addrNext region
  let regPrev := h.addrPrev region
  let regNextNext := h.addrNext regNext
  if regPrev ≠ 0 ∧ h.szNext regPrev ≠ heapMarkerBusy then
    let oldTblIndex := cpuLastOneBitIndex (h.size regPrev)
    if regNextNext ≠ 0 then
      if h.szNext regNext ≠ heapMarkerBusy then
        let h := h.deleteMemRegion regNext (cpuLastOneBitIndex (h.size regNext))
        if h.addrPrev regPrev = 0 ∧ h.addrNext regNextNext = 0 then
          (h.deleteMemRegion regPrev oldTblIndex).freeUnit regPrev regNextNext
        else
          let h := h.cleanMemRegionUNP ptr region junk
          let h := (h.setAddrNext regPrev regNextNext).setAddrPrev regNextNext regPrev
          (none, h.updateMemRegion regPrev oldTblIndex)
      else
        let h := h.cleanMemRegionUP ptr region junk
        let h := (h.setAddrNext regPrev regNext).setAddrPrev regNext regPrev
        (none, h.updateMemRegion regPrev oldTblIndex)
    else if h.addrPrev regPrev = 0 then
      (h.deleteMemRegion regPrev oldTblIndex).freeUnit regPrev regNext
    else
      let h := h.cleanMemRegionUP ptr region junk
      (none, (h.setAddrNext regPrev regNext).updateMemRegion regPrev oldTblIndex)
  else if regNextNext ≠ 0 then
    if h.szNext regNext ≠ heapMarkerBusy then
      let h := h.deleteMemRegion regNext (cpuLastOneBitIndex (h.size regNext))
      if regPrev = 0 ∧ h.addrNext regNextNext = 0 then h.freeUnit region regNextNext
      else
        let h := h.cleanMemRegionUN ptr region junk
        let h := (h.setAddrNext region regNextNext).setAddrPrev regNextNext region
        (none, h.addMemRegion region)
    else (none, (h.cleanMemRegion ptr region junk).addMemRegion region)
  else if regPrev = 0 then h.freeUnit region regNext
  else (none, (h.cleanMemRegion ptr region junk).addMemRegion region)

/-- What the memory manager is asked to take back: the bytes from
`fpBase` up to `fpEnd`, if there are any. -/
def ramPagesRange (fpBase fpEnd : ℕ) : Option (ℕ × ℕ) :=
  if fpBase < fpEnd then some (fpBase, fpEnd) else none

/-- The range `free` passes to `freeRamPages`, if it calls it. -/
def trim (ptr : ℕ) : Option (ℕ × ℕ) :=
  let region := ptr - memRegionAlign
  let regNext := h.addrNext region
  let regPrev := h.addrPrev region
  let regNextNext := h.addrNext regNext
  if regPrev ≠ 0 ∧ h.szNext regPrev ≠ heapMarkerBusy then
    if regNextNext ≠ 0 then
      if h.szNext regNext ≠ heapMarkerBusy then
        let h := h.deleteMemRegion regNext (cpuLastOneBitIndex (h.size regNext))
        if h.addrPrev regPrev = 0 ∧ h.addrNext regNextNext = 0 then none
        else ramPagesRange (h.unionBase ptr region) (h.unionEnd region)
      else ramPagesRange (h.unionBase ptr region) (cpuAlignAddrLo (h.addrNext region))
    else if h.addrPrev regPrev = 0 then none
    else ramPagesRange (h.unionBase ptr region) (cpuAlignAddrLo (h.addrNext region))
  else if regNextNext ≠ 0 then
    if h.szNext regNext ≠ heapMarkerBusy then
      let h := h.deleteMemRegion regNext (cpuLastOneBitIndex (h.size regNext))
      if regPrev = 0 ∧ h.addrNext regNextNext = 0 then none
      else ramPagesRange (cpuAlignAddrHi ptr) (h.unionEnd region)
    else ramPagesRange (cpuAlignAddrHi ptr) (cpuAlignAddrLo (h.addrNext region))
  else if regPrev = 0 then none
  else ramPagesRange (cpuAlignAddrHi ptr) (cpuAlignAddrLo (h.addrNext region))

end

end Heap

/-! ## Runs -/

/-- A block a caller holds, with the size asked for. -/
structure HeapBlock where
  ptr : ℕ
  size : ℕ
  deriving DecidableEq, Repr

/-- The heap, the units the memory manager has handed it, and the blocks
the callers hold. -/
structure HeapState where
  heap : Heap
  units : List Span
  live : List HeapBlock

/-- What happens in a run: the two calls, with what the memory manager
does in them, and a write by the callers into their blocks. -/
inductive HeapCall where
  | alloc (size : ℕ) (unit : Option ℕ) (junk : HeaderMem)
  | free (ptr : ℕ) (junk : HeaderMem)
  | write (mem : HeaderMem)

namespace HeapState

/-- What a call does. -/
def call (s : HeapState) : HeapCall → HeapState
  | .alloc size unit junk =>
    let r := s.heap.alloc size unit junk
    { heap := r.2
      units := (((s.heap.unitBytes size).bind fun n => unit.map fun b => ⟨b, n⟩).toList) ++ s.units
      live := (r.1.map fun ptr => ⟨ptr, size⟩).toList ++ s.live }
  | .free ptr junk =>
    let r := s.heap.free ptr junk
    { heap := r.2
      units := s.units.filter fun u => r.1 ≠ some u.base
      live := s.live.filter fun b => b.ptr ≠ ptr }
  | .write mem => { s with heap := { s.heap with toHeaderMem := mem } }

/-- What the memory manager may answer when asked for `n` bytes: page
aligned memory that overlaps none of the units. -/
structure Fresh (s : HeapState) (n b : ℕ) : Prop where
  pos : 0 < b
  aligned : pageSize ∣ b
  bound : b + n ≤ 2 ^ 64
  disjoint : ∀ u ∈ s.units, b + n ≤ u.base ∨ u.base + u.size ≤ b

/-- The calls a run may make. A failed answer of the memory manager is
one `allocNew` checks for. -/
def Allowed (s : HeapState) : HeapCall → Prop
  | .alloc size unit _ =>
    1 ≤ size ∧ size < 2 ^ 48 ∧
    ∀ n, s.heap.unitBytes size = some n →
      (unit = none ∧ Heap.regionSize size < heapMemRegionLimit) ∨ ∃ b, unit = some b ∧ s.Fresh n b
  | .free ptr _ => ∃ b ∈ s.live, b.ptr = ptr
  | .write mem =>
    -- a header's bytes change only where they are bytes of a block
    ∀ a, memRegionAlign ∣ a → (∀ b ∈ s.live, a + memRegionAlign ≤ b.ptr ∨ b.ptr + b.size ≤ a) →
      mem.szNext a = s.heap.szNext a ∧ mem.szPrev a = s.heap.szPrev a ∧
      mem.addrNext a = s.heap.addrNext a ∧ mem.addrPrev a = s.heap.addrPrev a

end HeapState

/-- The runs of the heap from its constructor. -/
def heapMachine : Machine HeapState HeapCall where
  init s := (∀ i, s.heap.freeListTable i = 0) ∧ s.heap.virtualMemorySize = 0 ∧
    s.units = [] ∧ s.live = []
  step s c t := s.Allowed c ∧ t = s.call c

end ShmDos64
