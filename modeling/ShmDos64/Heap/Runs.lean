import ShmDos64.Heap.Free
/-!
# The heap over whole runs

Each call keeps the invariant, so every reachable state has it. What it
says of a state is put together in `HeapShape`: the units are tiled by
their regions, no two free regions are neighbours, the table lists the
free regions and no others, and the callers' blocks overlap neither each
other nor a header.
-/

namespace ShmDos64

namespace HeapInv

variable {s : HeapState} {U : List HeapUnit} {B : ℕ → List ℕ}

/-- The callers write into their blocks, where no header is. -/
theorem write {mem : HeaderMem} (h : HeapInv s U B) (hc : s.Allowed (.write mem)) :
    HeapInv (s.call (.write mem)) U B := by
  refine h.congr_headers rfl fun u hu a ha => hc a ((h.ok u hu).dvd_header ha) fun b hb => ?_
  exact h.payload_header hb hu ha

/-- **Every call keeps the invariant.** -/
theorem call {c : HeapCall} (h : HeapInv s U B) (hc : s.Allowed c) :
    ∃ U' B', HeapInv (s.call c) U' B' := by
  cases c with
  | alloc size unit junk =>
    obtain ⟨U', B', hinv, -⟩ := h.alloc hc
    exact ⟨U', B', hinv⟩
  | free ptr junk =>
    obtain ⟨U', B', hinv, -⟩ := h.free hc
    exact ⟨U', B', hinv⟩
  | write mem => exact ⟨U, B, h.write hc⟩

/-- The constructor's table is empty. -/
theorem init (h : heapMachine.init s) : HeapInv s [] fun _ => [] where
  units := by simp [h.2.2.1]
  ok := by simp
  disjoint := .nil
  busy := by simp
  buckets := ⟨fun i => h.1 i, fun _ => .nil, fun _ => .nil, by simp⟩
  mem_bucket := by simp
  live := by simp [h.2.2.2]
  nodup := by simp [h.2.2.2]

theorem reachable (h : heapMachine.Reachable s) : ∃ U B, HeapInv s U B := by
  refine h.invariant (I := fun s => ∃ U B, HeapInv s U B) (fun s hs => ⟨_, _, init hs⟩) ?_
  rintro s c t ⟨U, B, hinv⟩ ⟨hc, rfl⟩
  exact hinv.call hc

end HeapInv

/-- The state of a heap whose units have the regions of `U` and whose
free lists are `B`. -/
structure HeapShape (s : HeapState) (U : List HeapUnit) (B : ℕ → List ℕ) : Prop where
  /-- The units are those the memory manager handed out. -/
  units : s.units.Perm (U.map HeapUnit.span)
  /-- A unit's regions follow each other from its first byte to the null
  header, and `m_addrNext` and `m_addrPrev` lead from each to the next
  and back. -/
  tiled : ∀ u ∈ U, u.regions ≠ [] ∧ headAddr u.regions u.stop = u.base ∧
    Layout u.regions u.stop ∧ u.stop + memRegionAlign ≤ u.base + u.bytes ∧
    Seg s.heap.addrNext s.heap.addrPrev 0 u.regions u.stop ∧ s.heap.addrNext u.stop = 0
  /-- No two neighbours are free. -/
  apart : ∀ u ∈ U, u.regions.IsChain fun r r' => r.busy ∨ r'.busy
  /-- The marker is on the busy regions. -/
  marker : ∀ u ∈ U, ∀ r ∈ u.regions, (r.busy ↔ s.heap.szNext r.addr = heapMarkerBusy)
  /-- `B` is what the table's lists hold. -/
  lists : ∀ i, Links s.heap.szNext 0 (s.heap.freeListTable i) (B i)
  /-- A free region is once in the table, in the list of its size. -/
  free : ∀ u ∈ U, ∀ r ∈ u.regions, r.busy = false →
    Nat.log2 r.size < heapLogTableSize ∧
    ∀ i, (B i).count r.addr = if i = Nat.log2 r.size then 1 else 0
  /-- A busy region is in none of the lists. -/
  busy : ∀ u ∈ U, ∀ r ∈ u.regions, r.busy → ∀ i, r.addr ∉ B i
  /-- The lists hold nothing else. -/
  listed : ∀ i, ∀ a ∈ B i, ∃ u ∈ U, ∃ r ∈ u.regions, r.busy = false ∧ r.addr = a
  /-- A block lies in a busy region, behind its header. -/
  live : ∀ b ∈ s.live, ∃ u ∈ U, ∃ r ∈ u.regions, r.busy ∧ r.addr + memRegionAlign = b.ptr ∧
    memRegionAlign + b.size ≤ r.size
  /-- The blocks do not overlap. -/
  payloads : s.live.Pairwise fun b b' => b.ptr + b.size ≤ b'.ptr ∨ b'.ptr + b'.size ≤ b.ptr
  /-- Nor do they overlap a header. -/
  headers : ∀ b ∈ s.live, ∀ u ∈ U, ∀ a ∈ u.headers,
    a + memRegionAlign ≤ b.ptr ∨ b.ptr + b.size ≤ a

namespace HeapInv

variable {s : HeapState} {u : HeapUnit} {r : HeapRegion} {U : List HeapUnit} {B : ℕ → List ℕ}

/-- A free region is once in the table. -/
theorem count_eq (h : HeapInv s U B) (hu : u ∈ U) (hr : r ∈ u.regions) (hf : r.busy = false)
    (i : ℕ) : (B i).count r.addr = if i = cpuLastOneBitIndex r.size then 1 else 0 := by
  split
  · rename_i hi
    rw [hi]
    exact List.count_eq_one_of_mem (h.buckets.nodup _) (h.mem_of_free hu hr hf)
  · rename_i hi
    refine List.count_eq_zero_of_not_mem fun hm => ?_
    exact hi (h.buckets.disjoint _ _ _ hm (h.mem_of_free hu hr hf))

theorem shape (h : HeapInv s U B) : HeapShape s U B where
  units := h.units
  tiled u hu :=
    have hok := h.ok u hu
    ⟨hok.ne_nil, hok.head, hok.layout, hok.fits, hok.seg, hok.null⟩
  apart u hu := (h.ok u hu).apart
  marker u hu r hr := by
    refine ⟨h.busy u hu r hr, fun hm => ?_⟩
    by_contra hb
    exact h.szNext_ne_busy hu hr (by simpa using hb) hm
  lists := h.buckets.links
  free u hu r hr hf := by
    have hcount := h.count_eq hu hr hf
    have hsize : memRegionAlign ≤ r.size := (h.ok u hu).layout.size_le hr
    rw [cpuLastOneBitIndex] at hcount
    refine ⟨(Nat.log2_lt (by simp only [memRegionAlign] at hsize; omega)).mpr ?_, hcount⟩
    exact (h.ok u hu).small hr hf
  busy u hu r hr hb i := h.notMem_of_busy hu hr hb
  listed i a ha := by
    obtain ⟨u, hu, r, hr, hf, hra, -⟩ := (h.mem_bucket a i).mp ha
    exact ⟨u, hu, r, hr, hf, hra⟩
  live := h.live
  payloads := (List.Nodup.of_map _ h.nodup).pairwise_of_forall_ne fun _ hb _ hb' =>
    h.payload_disjoint hb hb'
  headers b hb u hu a ha := h.payload_header hb hu ha

end HeapInv

/-- No memory, no blocks. -/
def emptyHeap : HeapState :=
  ⟨⟨⟨fun _ => 0, fun _ => 0, fun _ => 0, fun _ => 0⟩, fun _ => 0, 0⟩, [], []⟩

/-- One block of a first unit. -/
def firstBlock (size : ℕ) : HeapState :=
  emptyHeap.call (.alloc size (some 0x1000) emptyHeap.heap.toHeaderMem)

theorem allowed_firstBlock {size n : ℕ} (hpos : 1 ≤ size) (hlt : size < 2 ^ 48)
    (hunit : emptyHeap.heap.unitBytes size = some n) (hn : 0x1000 + n ≤ 2 ^ 64) :
    emptyHeap.Allowed (.alloc size (some 0x1000) emptyHeap.heap.toHeaderMem) := by
  refine ⟨hpos, hlt, fun m hm => Or.inr ⟨_, rfl, by decide, by decide, ?_, nofun⟩⟩
  rw [hunit, Option.some_inj] at hm
  exact hm ▸ hn

theorem reachable_firstBlock {size : ℕ} (hpos : 1 ≤ size) (hlt : size < 2 ^ 48)
    (hunit : emptyHeap.heap.unitBytes size = some heapAllocUnitSize) :
    heapMachine.Reachable (firstBlock size) :=
  .step (.init ⟨fun _ => rfl, rfl, rfl, rfl⟩)
    ⟨allowed_firstBlock hpos hlt hunit (by decide), rfl⟩

/-- A block more, from what is left of the unit. -/
def HeapState.nextBlock (s : HeapState) (size : ℕ) : HeapState :=
  s.call (.alloc size none emptyHeap.heap.toHeaderMem)

theorem reachable_nextBlock {s : HeapState} {size : ℕ} (h : heapMachine.Reachable s)
    (hpos : 1 ≤ size) (hlt : size < 2 ^ 48) (hreg : Heap.regionSize size < heapMemRegionLimit) :
    heapMachine.Reachable (s.nextBlock size) := by
  have hc : s.Allowed (.alloc size none emptyHeap.heap.toHeaderMem) :=
    ⟨hpos, hlt, fun _ _ => Or.inl ⟨rfl, hreg⟩⟩
  exact h.step ⟨hc, rfl⟩

end ShmDos64
