import ShmDos64.Cpu
/-!
# The page table walks

The two walks of `PagingManager64`: `processPages` over a range, which
descends into a directory once for all the pages below it, and
`processPage`, which starts from the root for a single page. Page tables
are a tree: a directory entry is null, or has a value and the table that
its address leads to, and no table has two parents.
-/

namespace ShmDos64

open Function (update)

/-- `PAGE_FLAG_PRESENT`. -/
abbrev pageFlagPresent : UInt64 := 1

/-- `PAGE_FLAG_WRITE`. -/
abbrev pageFlagWrite : UInt64 := 2

/-- `PAGE_FLAG_USER`. -/
abbrev pageFlagUser : UInt64 := 4

/-- The number of entries of a table. -/
abbrev dirEntries : ℕ := 512

/-- A table with `n` levels of tables below it. The entries of the last
level are the page entries; a null entry of a directory is `none`. -/
def PageDir : ℕ → Type
  | 0 => ℕ → UInt64
  | n + 1 => ℕ → Option (UInt64 × PageDir n)

/-- A page of zeros, as a table. -/
def PageDir.zero : (n : ℕ) → PageDir n
  | 0 => fun _ => 0
  | _ + 1 => fun _ => none

/-- The entry of a page, 0 where there is no table for it. -/
def PageDir.entry : (n : ℕ) → PageDir n → ℕ → UInt64
  | 0, dir, page => dir (page % dirEntries)
  | n + 1, dir, page =>
    match dir (page / dirEntries ^ (n + 1) % dirEntries) with
    | none => 0
    | some (_, child) => entry n child page

/-- A table in the course of a walk, with the state that the allocator and
the callback share, and `needShootdown`. -/
abbrev Walk (σ : Type*) (n : ℕ) : Type _ := PageDir n × σ × Bool

namespace Paging

variable {σ : Type*}

/-- `RamAllocator::allocPage(true)`; `none` is the panic. -/
abbrev Alloc (σ : Type*) : Type _ := σ → Option (UInt64 × σ)

/-- A callback on a page entry, with what it has captured by reference. -/
abbrev Callback (σ : Type*) : Type _ := σ → UInt64 → UInt64 × σ

/-- `accessToChildDir`: the entry and the table it leads to. `none` is the
panic, or an index past the end of the table. -/
def accessToChildDir {n : ℕ} (alloc : Alloc σ) (dirFlags : UInt64) (dir : PageDir (n + 1))
    (index : ℕ) (st : σ) : Option ((UInt64 × PageDir n) × σ) :=
  if dirEntries ≤ index then none
  else match dir index with
    | some e => some (e, st)
    | none =>
      if dirFlags = 0 then none
      else (alloc st).map fun r => ((r.1 ||| dirFlags, PageDir.zero n), r.2)

/-- What `f` does to the table the entry leads to. -/
def inChild {n : ℕ} (alloc : Alloc σ) (dirFlags : UInt64) (f : Walk σ n → Option (Walk σ n))
    (index : ℕ) (w : Walk σ (n + 1)) : Option (Walk σ (n + 1)) :=
  (accessToChildDir alloc dirFlags w.1 index w.2.1).bind fun r =>
    (f (r.1.2, r.2, w.2.2)).map fun c => (update w.1 index (some (r.1.1, c.1)), c.2)

/-- The callback is called on an entry of a table of the last level. -/
def visit (callback : Callback σ) (w : Walk σ 0) (index : ℕ) : Option (Walk σ 0) :=
  if dirEntries ≤ index then none
  else
    let value := w.1 index
    let r := callback w.2.1 value
    some (update w.1 index r.1, r.2, w.2.2 || decide (value &&& pageFlagPresent ≠ 0))

/-- `processPagesLevel`, with the number of levels below in the place of
`Levels - level`. -/
def processPagesLevel (alloc : Alloc σ) (dirFlags : UInt64) (callback : Callback σ) :
    (n : ℕ) → ℕ → ℕ → Walk σ n → Option (Walk σ n)
  | 0, pageStart, pageEnd, w =>
    (List.range' pageStart (pageEnd + 1 - pageStart)).foldlM (visit callback) w
  | n + 1, pageStart, pageEnd, w =>
    let shift := (n + 1) * 9
    let size := 1 <<< shift
    let mask := size - 1
    let fistLimit := (pageStart + size) >>> shift <<< shift
    let child := fun pageStart pageEnd =>
      inChild alloc dirFlags (processPagesLevel alloc dirFlags callback n pageStart pageEnd)
    if pageEnd < fistLimit then
      child (pageStart &&& mask) (pageEnd &&& mask) (pageStart >>> shift) w
    else
      let lastPage := (pageEnd + 1) >>> shift
      let first := fistLimit >>> shift
      (child (pageStart &&& mask) mask (pageStart >>> shift) w).bind fun w =>
        ((List.range' first (lastPage - first)).foldlM
          (fun w index => child 0 mask index w) w).bind fun w =>
          if (pageEnd + 1) &&& mask ≠ 0 then child 0 (pageEnd &&& mask) lastPage w else some w

/-- `processPages`: the new tables, the state, and whether other
processors' translations have to go. -/
def processPages (alloc : Alloc σ) (virtualBase size : ℕ) (dirFlags : UInt64)
    (callback : Callback σ) (root : PageDir 3) (st : σ) : Option (Walk σ 3) :=
  if size = 0 then some (root, st, false)
  else
    let normalizeVirtualBase := virtualBase &&& 0xFFFFFFFFFFFF
    processPagesLevel alloc dirFlags callback 3 (normalizeVirtualBase >>> pageShift)
      (((size + normalizeVirtualBase + pageMask) >>> pageShift) - 1) (root, st, false)

/-- The loop of `processPage` from a table with `n` levels below it, and
the callback on the entry it ends at. -/
def walkPage (alloc : Alloc σ) (dirFlags : UInt64) (callback : Callback σ) (virtualBase : ℕ) :
    (n : ℕ) → Walk σ n → Option (Walk σ n)
  | 0, w => visit callback w (virtualBase >>> pageShift &&& 0x1FF)
  | n + 1, w =>
    inChild alloc dirFlags (walkPage alloc dirFlags callback virtualBase n)
      (virtualBase >>> (pageShift + (n + 1) * 9) &&& 0x1FF) w

/-- `processPage`. -/
def processPage (alloc : Alloc σ) (virtualBase : ℕ) (dirFlags : UInt64) (callback : Callback σ)
    (root : PageDir 3) (st : σ) : Option (Walk σ 3) :=
  walkPage alloc dirFlags callback virtualBase 3 (root, st, false)

/-- `processPage` for each page of a list; translations have to go if they
have to for one of them. -/
def processEach (alloc : Alloc σ) (dirFlags : UInt64) (callback : Callback σ) (pages : List ℕ)
    (root : PageDir 3) (st : σ) : Option (Walk σ 3) :=
  pages.foldlM (fun w page =>
    (processPage alloc (page <<< pageShift) dirFlags callback w.1 w.2.1).map fun r =>
      (r.1, r.2.1, w.2.2 || r.2.2)) (root, st, false)

/-- `mapPages`; the callback captures `physBase` and the allocator's state
is next to it. -/
def mapPages (alloc : Alloc σ) (virtualBase : ℕ) (physBase : UInt64) (size : ℕ)
    (pageFlags : UInt64) (root : PageDir 3) (st : σ) : Option (Walk (UInt64 × σ) 3) :=
  processPages (fun s => (alloc s.2).map fun r => (r.1, s.1, r.2)) virtualBase size
    ((pageFlags &&& pageFlagUser) ||| pageFlagPresent ||| pageFlagWrite)
    (fun s _ => (s.1 ||| pageFlags, s.1 + 0x1000, s.2)) root (physBase, st)

end Paging

end ShmDos64
