import ShmDos64.Common.TableTree
import ShmDos64.Paging.Entry
import ShmDos64.RamAllocator.Model
/-!
# The page tables of the loader

`PagingManager64` of the loader writes page tables in pages that the firmware
allocates. The address of a table is in the entry that leads to it, and the table
with the entries of the last page is kept beside them, so that the next page of the
same 2 MB does not start from the root. The memory is modelled as it is, tables at
addresses, so that what the kept table has to agree with is what is in memory.
-/

namespace ShmDos64

open Function (update)

/-- `pageDirAreaSize`: what the entries of one table are for. -/
abbrev pageDirAreaSize : ℕ := 0x200000

/-- An entry that leads to a table. -/
def tableEntry (table : UInt64) : UInt64 := table ||| (pageFlagPresent ||| pageFlagWrite)

/-- An entry of the window at `RAM_VIRTUAL_BASE`. -/
def ramEntry (physBase : UInt64) : UInt64 :=
  physBase ||| (pageFlagPresent ||| pageFlagWrite ||| pageFlagSize ||| pageFlagGlobal)

/-- The flags of a page. -/
def pageFlags (readOnly wc : Bool) : UInt64 :=
  pageFlagPresent ||| (if readOnly then 0 else pageFlagWrite) ||| (if wc then pageFlagWc else 0) |||
    pageFlagGlobal

/-- The entry of a page. -/
def pageEntry (physBase : UInt64) (readOnly wc : Bool) : UInt64 :=
  (physBase &&& ~~~0xFFF) ||| pageFlags readOnly wc

/-- `(virtualBase >> shift) & 0x1FF`. -/
def tableIndex (virtualBase shift : ℕ) : ℕ := virtualBase >>> shift &&& 0x1FF

/-- `PagingManager64` of the loader, with the memory and how many pages have been
allocated. -/
structure BootPaging where
  mem : UInt64 → ℕ → UInt64
  allocated : ℕ
  pageDirPtrTable : UInt64
  currentPageDir : UInt64
  currentPageDirBase : ℕ
  freeKernelVirtualMemory : ℕ

namespace BootPaging

section Model

-- what `AllocatePages` returns, one page after the other
variable (pages : ℕ → UInt64)

section

variable (s : BootPaging) (virtualBase : ℕ)

/-- The next page is allocated and written. -/
def allocTable (row : ℕ → UInt64) : BootPaging :=
  { s with mem := update s.mem (pages s.allocated) row, allocated := s.allocated + 1 }

/-- An entry is written. -/
def write (table : UInt64) (i : ℕ) (e : UInt64) : BootPaging :=
  { s with mem := writeEntry s.mem table i e }

/-- The table that an entry leads to; one with zeros if there is none yet. -/
def accessToTable (table : UInt64) (i : ℕ) : UInt64 × BootPaging :=
  if s.mem table i ≠ 0 then (tableOf (s.mem table i), s)
  else (pages s.allocated,
    (s.allocTable pages fun _ => 0).write table i (tableEntry (pages s.allocated)))

/-- `accessToDirPtrEntry`: the table of the entry, whose index is `tableIndex _ 30`. -/
def accessToDirPtrEntry : UInt64 × BootPaging :=
  s.accessToTable pages s.pageDirPtrTable (tableIndex virtualBase 39)

/-- `accessToPageTableEntry`: the table of the entry, whose index is
`tableIndex _ 12`; `none` is the panic. -/
def accessToPageTableEntry : Option (UInt64 × BootPaging) :=
  if (s.currentPageDirBase + pageDirAreaSize) % 2 ^ 64 ≤ virtualBase ∨
      virtualBase < s.currentPageDirBase then
    let dirPtr := s.accessToDirPtrEntry pages virtualBase
    -- an entry with no flags is a null one too
    if dirPtr.2.mem dirPtr.1 (tableIndex virtualBase 30) &&& pageFlagGlobal ≠ 0 then none
    else
      let dir := dirPtr.2.accessToTable pages dirPtr.1 (tableIndex virtualBase 30)
      let table := dir.2.accessToTable pages dir.1 (tableIndex virtualBase 21)
      some (table.1, { table.2 with
        currentPageDir := table.1
        currentPageDirBase := virtualBase / pageDirAreaSize * pageDirAreaSize })
  else some (s.currentPageDir, s)

/-- `mapPage`. -/
def mapPage (physBase : UInt64) (readOnly wc : Bool) :
    Option BootPaging :=
  (s.accessToPageTableEntry pages virtualBase).map fun r =>
    r.2.write r.1 (tableIndex virtualBase 12) (pageEntry physBase readOnly wc)

/-- The loop of `mapToKernel`; also `virtualAddr` after it. -/
def mapLoop (readOnly wc : Bool) : ℕ → BootPaging → ℕ → UInt64 → Option (ℕ × BootPaging)
  | 0, s, virtualAddr, _ => some (virtualAddr, s)
  | pageCnt + 1, s, virtualAddr, physAddr =>
    (s.mapPage pages virtualAddr physAddr readOnly wc).bind fun s =>
      mapLoop readOnly wc pageCnt s ((virtualAddr + pageSize) % 2 ^ 64) (physAddr + 4096)

/-- `pageCnt`, of the size rounded up. -/
def pageCount (size : ℕ) : ℕ := cpuAlignAddrLo ((size + pageMask) % 2 ^ 64) / pageSize

/-- `mapToKernel`, with the address that it returns. -/
def mapToKernel (physPtr : UInt64) (size : ℕ) (readOnly wc : Bool) :
    Option (ℕ × BootPaging) :=
  (mapLoop pages readOnly wc (pageCount size) s s.freeKernelVirtualMemory physPtr).map fun r =>
    (s.freeKernelVirtualMemory, { r.2 with freeKernelVirtualMemory := r.1 })

/-- A round of `protectPages`. -/
def protectPage : Option BootPaging :=
  (s.accessToPageTableEntry pages virtualBase).map fun r =>
    r.2.write r.1 (tableIndex virtualBase 12)
      (r.2.mem r.1 (tableIndex virtualBase 12) &&& ~~~pageFlagWrite)

/-- The loop of `protectPages`. -/
def protectLoop : ℕ → BootPaging → ℕ → Option BootPaging
  | 0, s, _ => some s
  | pageCnt + 1, s, virtualBase =>
    (s.protectPage pages virtualBase).bind fun s =>
      protectLoop pageCnt s ((virtualBase + pageSize) % 2 ^ 64)

/-- `protectPages`. -/
def protectPages (virtualBase size : ℕ) : Option BootPaging :=
  protectLoop pages (pageCount size) s virtualBase

end

/-- `map1GbPage`. -/
def map1GbPage (support1GbPages : Bool) (s : BootPaging) (virtualBase : ℕ) (physBase : UInt64) :
    Option BootPaging :=
  let dirPtr := s.accessToDirPtrEntry pages virtualBase
  let i := tableIndex virtualBase 30
  if dirPtr.2.mem dirPtr.1 i ≠ 0 then none
  else if support1GbPages then
    some (dirPtr.2.write dirPtr.1 i (ramEntry (physBase &&& ~~~0x3FFFFFFF)))
  else
    let filled := dirPtr.2.allocTable pages fun idx =>
      ramEntry (physBase + UInt64.ofNat idx * 0x200000)
    some (filled.write dirPtr.1 i (tableEntry (pages dirPtr.2.allocated)))

/-- A round of the constructor's loop. -/
def mapRam (support1GbPages : Bool) (s : BootPaging) (k : ℕ) : Option BootPaging :=
  s.map1GbPage pages support1GbPages ((ramVirtualBase + k * 2 ^ 30) % 2 ^ 64)
    (UInt64.ofNat (k * 2 ^ 30))

/-- The root: the lower half of the current one, and zeros. -/
def withRoot (mem : UInt64 → ℕ → UInt64) (cr3 : UInt64) : BootPaging :=
  allocTable pages ⟨mem, 0, pages 0, 0, 0, kernelVirtualBase⟩ fun i =>
    if i < 256 then mem cr3 i else 0

/-- The constructor, in a memory with the current root at `cr3`. -/
def construct (support1GbPages : Bool) (mem : UInt64 → ℕ → UInt64) (cr3 : UInt64)
    (memEnd : ℕ) : Option BootPaging :=
  (List.range ((memEnd + (2 ^ 30 - 1)) / 2 ^ 30)).foldlM (mapRam pages support1GbPages)
    (withRoot pages mem cr3)

end Model

/-- The walk from a table with `n` levels of tables below it: the entry of the page
that the address is in, and the level that it is at. -/
def walkFrom (mem : UInt64 → ℕ → UInt64) (virtualBase : ℕ) : ℕ → UInt64 → Option (ℕ × UInt64)
  | 0, table =>
    let e := mem table (tableIndex virtualBase 12)
    if e &&& pageFlagPresent = 0 then none else some (0, e)
  | n + 1, table =>
    let e := mem table (tableIndex virtualBase (12 + 9 * (n + 1)))
    if e &&& pageFlagPresent = 0 then none
    else if e &&& pageFlagSize ≠ 0 then some (n + 1, e)
    else walkFrom mem virtualBase n (tableOf e)

/-- The walk of the processor, from the root. -/
def walk (s : BootPaging) (virtualBase : ℕ) : Option (ℕ × UInt64) :=
  walkFrom s.mem virtualBase 3 s.pageDirPtrTable

end BootPaging

/-! ## Entries -/

variable {a b e : UInt64}

namespace IsTableAddress

section

variable (h : IsTableAddress a)

include h

theorem tableOf_tableEntry : tableOf (tableEntry a) = a := by
  rw [tableOf, tableEntry, uint64_or_and, h]
  exact UInt64.or_zero

theorem tableEntry_size : tableEntry a &&& pageFlagSize = 0 := by
  rw [tableEntry, uint64_or_and, h.and_eq_zero (by decide)]
  decide

theorem tableEntry_global : tableEntry a &&& pageFlagGlobal = 0 := by
  rw [tableEntry, uint64_or_and, h.and_eq_zero (by decide)]
  decide

theorem tableEntry_present : tableEntry a &&& pageFlagPresent = 1 := by
  rw [tableEntry, uint64_or_and, h.and_eq_zero (by decide)]
  decide

theorem tableEntry_ne_zero : tableEntry a ≠ 0 := by
  intro hzero
  have hpresent := h.tableEntry_present
  rw [hzero] at hpresent
  exact absurd hpresent (by decide)

end

end IsTableAddress

end ShmDos64
