import ShmDos64.Common.Run
import ShmDos64.Cpu
/-!
# The allocator of physical pages

`RamAllocator` keeps the free pages in a list threaded through their
first words, and changes it with a 128-bit compare-exchange on the head
and a counter. The routines are modelled one memory access at a time, so
that a run is any interleaving of those, between any number of callers.
-/

namespace ShmDos64

open Function (update)

/-- `RAM_VIRTUAL_BASE`. -/
@[irreducible] def ramVirtualBase : ℕ := 0xFFFF800000000000

/-- `physToVirtualInt`. -/
@[irreducible] def physToVirtualInt (addr : ℕ) : ℕ := (addr + ramVirtualBase) % 2 ^ 64

/-- `PhysicalMemoryRegion`: the bytes from `start` up to `stop`. -/
structure PhysicalMemoryRegion where
  start : ℕ
  stop : ℕ
  deriving DecidableEq, Repr

/-- `RegionListHeader`. -/
structure RegionListHeader where
  head : ℕ
  refCnt : ℕ
  deriving DecidableEq, Repr

/-- `RamAllocator`, with the words of memory its list is threaded through. -/
structure RamAllocator where
  header : RegionListHeader
  avaibleRamSize : ℕ
  maxRamAddr : ℕ
  mem : ℕ → ℕ

namespace RamAllocator

/-! ## The constructor -/

/-- `ptr + (PAGE_SIZE / sizeof (ptr))`. -/
@[irreducible] def nextPage (ptr : ℕ) : ℕ := (ptr + pageSize) % 2 ^ 64

/-- The loop over the pages of a region: `pageCnt` of them are left after
`ptr`. -/
def linkPages (mem : ℕ → ℕ) (ptr : ℕ) : ℕ → (ℕ → ℕ) × ℕ
  | 0 => (mem, ptr)
  | pageCnt + 1 =>
    linkPages (update mem ptr (nextPage ptr)) (nextPage ptr) pageCnt

/-- The constructor's loop body. -/
def addRegion (a : RamAllocator) (region : PhysicalMemoryRegion) : RamAllocator :=
  let startPtr := physToVirtualInt region.start
  let regSize := region.stop - region.start
  let a := { a with
    maxRamAddr := max a.maxRamAddr region.stop
    avaibleRamSize := (a.avaibleRamSize + regSize) % 2 ^ 64 }
  match regSize / pageSize with
  | 0 => a
  | pageCnt + 1 =>
    let r := linkPages a.mem startPtr pageCnt
    { a with
      mem := update r.1 r.2 a.header.head
      header := { a.header with head := startPtr } }

/-- The constructor; `endList` is the address of `g_endList`. -/
def constructed (endList : ℕ) (mem : ℕ → ℕ) (regions : List PhysicalMemoryRegion) : RamAllocator :=
  regions.foldl addRegion ⟨⟨endList, 0⟩, 0, 0, mem⟩

/-- `cpuInterlockedCompareExchange128` on `m_header`. -/
def compareExchange (a : RamAllocator) (hi lo : ℕ) (ref : RegionListHeader) :
    Bool × RamAllocator :=
  if a.header = ref then (true, { a with header := ⟨lo, hi⟩ }) else (false, a)

end RamAllocator

/-! ## The routines, step by step -/

/-- Where a caller is: the next access it makes, with its locals. -/
inductive RamOp where
  /-- In no routine. -/
  | idle
  /-- `allocPagePtr`, to read `m_head`. -/
  | allocHead (memzero : Bool)
  /-- To read `m_refCnt`. -/
  | allocRefCnt (memzero : Bool) (head : ℕ)
  /-- To compare the head with the end of the list and read its link. -/
  | allocNext (memzero : Bool) (header : RegionListHeader)
  /-- To exchange the header. -/
  | allocExchange (memzero : Bool) (header : RegionListHeader) (next : ℕ)
  /-- To clear the page it took. -/
  | allocZero (ret : ℕ)
  /-- To return the page. -/
  | allocReturn (ret : ℕ)
  /-- `PANIC`. -/
  | panic
  /-- `freePagePtr`, to read `m_head`. -/
  | freeHead (addr : ℕ)
  /-- To read `m_refCnt`. -/
  | freeRefCnt (addr head : ℕ)
  /-- To write the page's link. -/
  | freeLink (addr : ℕ) (header : RegionListHeader)
  /-- To exchange the header. -/
  | freeExchange (addr : ℕ) (header : RegionListHeader)
  deriving DecidableEq, Repr

/-- The page a routine is at work on. -/
def RamOp.holds : RamOp → Option ℕ
  | .allocZero ret | .allocReturn ret => some ret
  | .freeHead addr | .freeRefCnt addr _ | .freeLink addr _ | .freeExchange addr _ => some addr
  | _ => none

/-- The allocator, what each caller is doing, and the pages the callers
own. -/
structure RamState (ι : Type*) where
  ram : RamAllocator
  ops : ι → RamOp
  owned : List (ι × ℕ)

/-- What happens in a run. -/
inductive RamStep (ι : Type*) where
  | alloc (i : ι) (memzero : Bool)
  | free (i : ι) (addr : ℕ)
  /-- The next access of the routine the caller is in. -/
  | run (i : ι)
  /-- A caller writes into a page it owns. -/
  | write (i : ι) (addr value : ℕ)
  /-- A caller hands a page it owns to another. -/
  | give (i j : ι) (addr : ℕ)

namespace RamState

variable {ι : Type*} [DecidableEq ι]

section

variable (s : RamState ι)

def goto (i : ι) (op : RamOp) : RamState ι :=
  { s with ops := update s.ops i op }

/-- `*addr = value`. -/
def store (addr value : ℕ) : RamState ι :=
  { s with ram := { s.ram with mem := update s.ram.mem addr value } }

/-- The compare-exchange of the loops: on success the routine goes on
with `op`, else the loop starts again with `retry`. -/
def exchange (i : ι) (header : RegionListHeader) (lo : ℕ) (op retry : RamOp) :
    RamState ι :=
  let r := s.ram.compareExchange ((header.refCnt + 1) % 2 ^ 64) lo header
  { s with ram := r.2, ops := update s.ops i (if r.1 then op else retry) }

/-- One access of `i`. -/
def exec (endList : ℕ) (s : RamState ι) (i : ι) : RamState ι :=
  match s.ops i with
  | .idle => s
  | .allocHead z => s.goto i (.allocRefCnt z s.ram.header.head)
  | .allocRefCnt z head => s.goto i (.allocNext z ⟨head, s.ram.header.refCnt⟩)
  | .allocNext z header =>
    if header.head = endList then s.goto i .panic
    else s.goto i (.allocExchange z header (s.ram.mem header.head))
  | .allocExchange z header next =>
    s.exchange i header next (if z then .allocZero header.head else .allocReturn header.head)
      (.allocHead z)
  | .allocZero ret => (s.store ret 0).goto i (.allocReturn ret)
  | .allocReturn ret => { s.goto i .idle with owned := (i, ret) :: s.owned }
  | .panic => s
  | .freeHead addr => s.goto i (.freeRefCnt addr s.ram.header.head)
  | .freeRefCnt addr head => s.goto i (.freeLink addr ⟨head, s.ram.header.refCnt⟩)
  | .freeLink addr header => (s.store addr header.head).goto i (.freeExchange addr header)
  | .freeExchange addr header => s.exchange i header addr .idle (.freeHead addr)

/-- The effect of a step. -/
def apply (endList : ℕ) (s : RamState ι) : RamStep ι → RamState ι
  | .alloc i z => s.goto i (.allocHead z)
  | .free i addr => { s.goto i (.freeHead addr) with owned := s.owned.erase (i, addr) }
  | .run i => s.exec endList i
  | .write _ addr value => s.store addr value
  | .give i j addr => { s with owned := (j, addr) :: s.owned.erase (i, addr) }

/-- A caller is in one routine at a time, and frees, writes to and hands
on only pages it owns. -/
def Allowed : RamStep ι → Prop
  | .alloc i _ => s.ops i = .idle
  | .free i addr => s.ops i = .idle ∧ (i, addr) ∈ s.owned
  | .run _ => True
  | .write i addr _ => (i, addr) ∈ s.owned
  | .give i _ addr => (i, addr) ∈ s.owned

/-- No caller is inside a routine. -/
def Quiet : Prop := ∀ i, s.ops i = .idle ∨ s.ops i = .panic

end

end RamState

/-- The interleavings, as long as `m_refCnt` does not wrap around. -/
def ramMachine (ι : Type*) [DecidableEq ι] (endList : ℕ) (regions : List PhysicalMemoryRegion) :
    Machine (RamState ι) (RamStep ι) where
  init s := ∃ mem, s = ⟨.constructed endList mem regions, fun _ => .idle, []⟩
  step s a t := s.Allowed a ∧ t = s.apply endList a ∧ s.ram.header.refCnt ≤ t.ram.header.refCnt

/-- The pages of a region, as the kernel addresses them. -/
def PhysicalMemoryRegion.pages (r : PhysicalMemoryRegion) : List ℕ :=
  (List.range ((r.stop - r.start) / pageSize)).map fun k =>
    physToVirtualInt (r.start + k * pageSize)

/-- The pages the allocator starts with. -/
def ramPages (regions : List PhysicalMemoryRegion) : List ℕ :=
  regions.flatMap PhysicalMemoryRegion.pages

end ShmDos64
