import ShmDos64.Paging.Operations
import ShmDos64.RamAllocator.Model
import ShmDos64.VirtualMemory.Model
/-!
# `VirtualMemoryManagerPrivate`

The calls of the manager, over the page allocator, the page tables and the
list of free RAM pages. A page of a region is committed at once, or armed
with `PAGE_FLAG_ALLOCATED` and filled by the page fault of its first
access; `mapMmio` reserves a region and maps it to device memory.

Pointers are numbers and the null pointer is `0`; `none` is a panic. The
flushes of the TLB, and the mutex, are not modelled: a call is one step.
-/

namespace ShmDos64

open Function (update)

/-- `VMM_NOACCESS`. -/
abbrev vmmNoaccess : ℕ := 1

/-- `VMM_READONLY`. -/
abbrev vmmReadonly : ℕ := 2

/-- `VMM_READWRITE`. -/
abbrev vmmReadwrite : ℕ := 4

/-- `VMM_NOCACHE`. -/
abbrev vmmNocache : ℕ := 0x200

/-- `VMM_COMMIT`. -/
abbrev vmmCommit : ℕ := 0x10000

/-- `MemoryType`. -/
inductive MemoryType where
  | default
  | cacheDisabled
  | writeTrought
  | writeCombined
  deriving DecidableEq

/-- `m_memoryRegions[base] |= VMM_REG_ALLOC_FLAG`. -/
def Vmm.markAllocated (v : Vmm) (base : ℕ) : Vmm :=
  { v with
    memoryRegions := update v.memoryRegions base (v.memoryRegions base ||| vmmRegAllocFlag) }

/-- The manager: the page allocator, `m_virtualBase`, and the tables and
the free RAM pages that it shares with the rest of the kernel. -/
structure VmManager where
  vmm : Vmm
  virtualBase : ℕ
  root : PageDir 3
  ram : RamPages

namespace VmManager

/-- The tables and the free pages after a walk. -/
def withTables (m : VmManager) (w : Walk RamPages 3) : VmManager :=
  { m with root := w.1, ram := w.2.1 }

/-- The region at `base` has pages to free with it. -/
def markAllocated (m : VmManager) (base : ℕ) : VmManager :=
  { m with vmm := m.vmm.markAllocated base }

/-- The loop of `alloc` with `VMM_COMMIT`, with the pages left, and what
follows it. -/
def commitPages (base vBase : ℕ) (pflags : UInt64) : ℕ → ℕ → VmManager → Option (ℕ × VmManager)
  | 0, _, m => some (vBase, m.markAllocated base)
  | numPages + 1, curPageBase, m =>
    (RamPages.allocPage m.ram).bind fun r =>
      let m := { m with ram := r.2 }
      -- `g_invalidPageOffset`
      if r.1 = 0xFFFFFFFFFFFFFFFF then
        (Paging.freeRamPages vBase (curPageBase - vBase) false m.root m.ram).map fun w =>
          let m := m.withTables w
          (0, { m with vmm := (m.vmm.freePages base).2 })
      else
        (Paging.mapPage curPageBase r.1 pflags m.root m.ram).bind fun w =>
          commitPages base vBase pflags numPages (curPageBase + pageSize) (m.withTables w)

/-- The end of `alloc` without `VMM_COMMIT`: the pages are armed. -/
def armPages (base vBase size : ℕ) (pflags : UInt64) (m : VmManager) : Option (ℕ × VmManager) :=
  (Paging.setPagesFlags vBase size 0xFFF pflags m.root m.ram).map fun w =>
    (vBase, (m.withTables w).markAllocated base)

/-- `(size + PAGE_MASK) / PAGE_SIZE`. -/
def numPages (size : ℕ) : ℕ := (size + pageMask) % 2 ^ 64 / pageSize

/-- `pflags` before the access flags; `m_pageDefaultFlag` is
`PAGE_FLAG_GLOBAL`. -/
def cacheFlags (flags : ℕ) : UInt64 :=
  pageFlagGlobal ||| if flags &&& vmmNocache ≠ 0 then pageFlagCacheDisable else 0

/-- `alloc`: the pointer, and the manager. -/
def alloc (m : VmManager) (size flags : ℕ) : Option (ℕ × VmManager) :=
  if numPages size = 0 then some (0, m)
  else
    let r := m.vmm.allocPages (numPages size)
    let m := { m with vmm := r.2 }
    match r.1 with
    | none => some (0, m)
    | some base =>
      let vBase := m.virtualBase + base * pageSize
      if flags &&& vmmCommit ≠ 0 then
        if flags &&& vmmReadwrite ≠ 0 then
          m.commitPages base vBase (cacheFlags flags ||| (pageFlagWrite ||| pageFlagPresent))
            (numPages size) vBase
        else m.commitPages base vBase (cacheFlags flags ||| pageFlagPresent) (numPages size) vBase
      else if flags &&& vmmReadwrite ≠ 0 then
        m.armPages base vBase size (cacheFlags flags ||| (pageFlagAllocated ||| pageFlagWrite))
      else if flags &&& vmmReadonly ≠ 0 then
        m.armPages base vBase size (cacheFlags flags ||| pageFlagAllocated)
      else some (vBase, m)

/-- `free`. -/
def free (m : VmManager) (pointer : ℕ) : Option (Bool × VmManager) :=
  if pointer < m.virtualBase then some (false, m)
  else
    let base := (pointer - m.virtualBase) / pageSize
    if m.vmm.virtualPages ≤ base then some (false, m)
    else
      let allocated := m.vmm.memoryRegions base &&& vmmRegAllocFlag
      let r := m.vmm.freePages base
      let m := { m with vmm := r.2 }
      if r.1 = 0 then some (false, m)
      else if allocated ≠ 0 then
        (Paging.freeRamPages pointer (r.1 * pageSize) false m.root m.ram).map fun w =>
          (true, m.withTables w)
      else some (true, m)

/-- `isRamMappingPtr`. -/
def isRamMappingPtr (base : ℕ) : Bool := ramVirtualBase ≤ base && base < kernelVirtualBase

/-- `freeRamPages`. -/
def freeRamPages (m : VmManager) (base size : ℕ) (realloc : Bool) : Option VmManager :=
  if isRamMappingPtr base then
    let physAddr := base - ramVirtualBase
    if physAddr &&& pageMask ≠ 0 then none
    else some { m with
      ram := (List.range ((size + pageMask) / pageSize)).foldl
        (fun ram i => RamPages.freePage (UInt64.ofNat (physAddr + i * pageSize)) ram) m.ram }
  else if size ≤ pageSize then
    (Paging.freeRamPage base realloc m.root m.ram).map m.withTables
  else (Paging.freeRamPages base size realloc m.root m.ram).map m.withTables

/-- The flags of the entries that `mapMmio` writes. -/
def mmioFlags (memoryType : MemoryType) : UInt64 :=
  (pageFlagPresent ||| pageFlagWrite ||| pageFlagGlobal) |||
    match memoryType with
    | .default => 0
    | .cacheDisabled => pageFlagCacheDisable
    | .writeTrought => pageFlagWt
    | .writeCombined => pageFlagWc

/-- `alignSize` of `mapMmio`. -/
def alignSize (mmioBase : UInt64) (size : ℕ) : ℕ := ((mmioBase &&& 0xFFF).toNat + size) % 2 ^ 64

/-- `mapMmio`. -/
def mapMmio (m : VmManager) (mmioBase : UInt64) (size : ℕ) (memoryType : MemoryType) :
    Option (ℕ × VmManager) :=
  -- `VMM_RESERVED` is 0
  (m.alloc (alignSize mmioBase size) 0).bind fun r =>
    let vBase := r.1
    let m := r.2
    if vBase = 0 then some (0, m)
    else if alignSize mmioBase size ≤ pageSize then
      (Paging.mapPage vBase mmioBase (mmioFlags memoryType) m.root m.ram).map fun w =>
        (vBase + (mmioBase &&& 0xFFF).toNat, m.withTables w)
    else
      (Paging.mapPages RamPages.allocPage vBase mmioBase (alignSize mmioBase size)
        (mmioFlags memoryType) m.root m.ram).map fun w =>
        (vBase + (mmioBase &&& 0xFFF).toNat, m.withTables (w.1, w.2.1.2, w.2.2))

/-- `unmapMmio`. The size that it gives to `setPagesFlags` is the number of
pages. -/
def unmapMmio (m : VmManager) (pointer : ℕ) : Option (Bool × VmManager) :=
  if pointer < m.virtualBase then some (false, m)
  else
    let base := (pointer - m.virtualBase) / pageSize
    if m.vmm.virtualPages ≤ base then some (false, m)
    else
      let r := m.vmm.freePages base
      let m := { m with vmm := r.2 }
      if r.1 = 0 then some (false, m)
      else if r.1 = 1 then
        (Paging.mapPage pointer 0 0 m.root m.ram).map fun w => (true, m.withTables w)
      else
        (Paging.setPagesFlags pointer r.1 0xFFFFFFFFFFFFFFFF 0 m.root m.ram).map fun w =>
          (true, m.withTables w)

/-- `pflags` of `setPagesFlags`. With neither `VMM_NOACCESS` nor
`VMM_READONLY` the source assigns to `flags`, whose new value has no
`VMM_NOCACHE`. -/
def protectFlags (flags : ℕ) : UInt64 :=
  if flags &&& vmmNoaccess ≠ 0 then
    if flags &&& vmmNocache ≠ 0 then pageFlagCacheDisable else 0
  else if flags &&& vmmReadonly ≠ 0 then
    if flags &&& vmmNocache ≠ 0 then pageFlagPresent ||| pageFlagCacheDisable else pageFlagPresent
  else if 3 &&& vmmNocache ≠ 0 then pageFlagCacheDisable else 0

/-- `pageMask` of `setPagesFlags`. -/
abbrev protectMask : UInt64 := pageFlagPresent ||| pageFlagWrite ||| pageFlagCacheDisable

/-- `setPagesFlags`. It is the page index that it gives to the paging
manager as the address. -/
def setPagesFlags (m : VmManager) (pointer size flags : ℕ) : Option (Bool × VmManager) :=
  if pointer < m.virtualBase then some (false, m)
  else
    let stop := (pointer - m.virtualBase + size + pageMask) % 2 ^ 64 / pageSize
    let base := (pointer - m.virtualBase) / pageSize
    if m.vmm.virtualPages < stop then some (false, m)
    else
      let numPages := (stop + 2 ^ 64 - base) % 2 ^ 64
      if m.vmm.memoryRegions base &&& vmmRegBusyFlag = 0 then some (false, m)
      else if m.vmm.memoryRegions base >>> vmmRegSizeShift < numPages then some (false, m)
      else
        (Paging.setPagesFlags base (numPages * pageSize) protectMask (protectFlags flags)
          m.root m.ram).map fun w => (true, m.withTables w)

/-- `PagingManager64::onPageFault`, with the manager's tables. -/
def onPageFault (m : VmManager) (addr errorCode : ℕ) : Option (Bool × VmManager) :=
  (Paging.onPageFault addr errorCode m.root m.ram).map fun r =>
    (r.1, { m with root := r.2.1, ram := r.2.2 })

end VmManager

/-! ## Runs -/

/-- The calls a run is made of. -/
inductive VmCall where
  | alloc (size flags : ℕ)
  | free (pointer : ℕ)
  | freeRamPages (base size : ℕ) (realloc : Bool)
  | mapMmio (mmioBase : UInt64) (size : ℕ) (memoryType : MemoryType)
  | unmapMmio (pointer : ℕ)
  | setPagesFlags (pointer size flags : ℕ)
  | onPageFault (addr errorCode : ℕ)

/-- The manager, and the regions it has handed out and not taken back. -/
structure VmState where
  mgr : VmManager
  live : List Span

namespace VmState

/-- The region that a pointer is in. -/
def pageOf (s : VmState) (pointer : ℕ) : ℕ := (pointer - s.mgr.virtualBase) / pageSize

/-- A call has returned a pointer to a region of so many pages. -/
def given (s : VmState) (n : ℕ) (r : ℕ × VmManager) : VmState :=
  ⟨r.2, if r.1 = 0 then s.live else ⟨s.pageOf r.1, n⟩ :: s.live⟩

/-- A call to give a pointer back has returned. -/
def taken (s : VmState) (pointer : ℕ) (r : Bool × VmManager) : VmState :=
  ⟨r.2, if r.1 then s.live.eraseP fun x => x.base = s.pageOf pointer else s.live⟩

/-- What a call does. -/
def call (s : VmState) : VmCall → Option VmState
  | .alloc size flags => (s.mgr.alloc size flags).map (s.given (VmManager.numPages size))
  | .free pointer => (s.mgr.free pointer).map (s.taken pointer)
  | .freeRamPages base size realloc =>
    (s.mgr.freeRamPages base size realloc).map fun m => { s with mgr := m }
  | .mapMmio mmioBase size memoryType =>
    (s.mgr.mapMmio mmioBase size memoryType).map
      (s.given (VmManager.numPages (VmManager.alignSize mmioBase size)))
  | .unmapMmio pointer => (s.mgr.unmapMmio pointer).map (s.taken pointer)
  | .setPagesFlags pointer size flags =>
    (s.mgr.setPagesFlags pointer size flags).map fun r => { s with mgr := r.2 }
  | .onPageFault addr errorCode =>
    (s.mgr.onPageFault addr errorCode).map fun r => { s with mgr := r.2 }

/-- The arguments are words, and a range of `freeRamPages` is one of the
address space: boot memory from where RAM starts, or pages outside the
window of RAM. -/
def Allowed : VmCall → Prop
  | .alloc size _ => size < 2 ^ 64
  | .free pointer => pointer < 2 ^ 64
  | .freeRamPages base size _ =>
    base % 2 ^ 48 + size ≤ 2 ^ 48 ∧
      if VmManager.isRamMappingPtr base then ramVirtualBase + 0x100000 ≤ base
      else base + size ≤ ramVirtualBase ∨ kernelVirtualBase ≤ base
  | .mapMmio _ size _ => size < 2 ^ 64
  | .unmapMmio pointer => pointer < 2 ^ 64
  | .setPagesFlags pointer size _ => pointer < 2 ^ 64 ∧ size < 2 ^ 64
  | .onPageFault addr _ => addr < 2 ^ 64

end VmState

/-- The runs of the manager from the state its constructor leaves. The two
arrays of the page allocator start at `freeStart`, and the managed pages
after them; the loader has made large pages in the window of RAM only,
`unmapBootPages` has cleared the lower half, and the free pages are pages
of RAM. -/
def vmMachine : Machine VmState VmCall where
  init s := ∃ needPages freeStart,
    kernelVirtualBase ≤ freeStart ∧ pageSize ∣ freeStart ∧
    freeStart + needPages * pageSize ≤ kernelVirtualBase + kernelMaxVirtualMemory ∧
    1 ≤ (Vmm.zeroed needPages (freeStart + Vmm.regionsSize needPages)).virtualPages ∧
    s.mgr.vmm = Vmm.constructed needPages (freeStart + Vmm.regionsSize needPages) ∧
    s.mgr.virtualBase = freeStart + Vmm.regionsSize needPages + Vmm.freeListSize needPages ∧
    Paging.Sound s.mgr.root s.mgr.ram ∧ s.live = []
  step s c t := VmState.Allowed c ∧ s.call c = some t

end ShmDos64
