import ShmDos64.Heap.Alloc
/-!
# `free` keeps the invariant

The block's region is joined with the free regions beside it, and the
joined region is put on the list of its size; or the unit had no other
busy region and goes back to the memory manager. The pages given back in
between hold none of the headers that stay.
-/

namespace ShmDos64

open Function (update update_of_ne update_self)
open FreeIn Heap

namespace HeapInv

variable {s : HeapState} {u w : HeapUnit} {U : List HeapUnit} {B B' : ℕ → List ℕ}
variable {r y z : HeapRegion} {l₁ l₂ mid : List HeapRegion} {a i ptr lo hi : ℕ} {junk : HeaderMem}
variable {g h₁ : Heap} {B₁ : ℕ → List ℕ}

/-- A free region's link is no marker: it is null or a header. -/
theorem szNext_ne_busy (h : HeapInv s U B) (hu : u ∈ U) (hr : r ∈ u.regions) (hf : r.busy = false) :
    s.heap.szNext r.addr ≠ heapMarkerBusy := by
  have hm := h.mem_of_free hu hr hf
  rcases (h.buckets.links _).next_mem hm with h0 | hmem
  · rw [h0]
    decide
  · obtain ⟨w, hw, ha⟩ := h.header_of_mem hmem
    have hd := (h.ok w hw).dvd_header ha
    intro he
    rw [he] at hd
    exact absurd hd (by decide)

theorem nodup_filter (h : HeapInv s U B) :
    ((s.live.filter fun b => b.ptr ≠ ptr).map HeapBlock.ptr).Nodup :=
  h.nodup.sublist (List.filter_sublist.map _)

/-- The address links of `g` lead past the regions joined to `y`, and are as before
outside them. -/
structure Linked (s : HeapState) (u : HeapUnit) (y : HeapRegion) (l₂ : List HeapRegion)
    (g : Heap) : Prop where
  next : g.addrNext y.addr = headAddr l₂ u.stop
  prev : g.addrPrev y.addr = s.heap.addrPrev y.addr
  keepNext : ∀ a, a < y.addr ∨ headAddr l₂ u.stop ≤ a → g.addrNext a = s.heap.addrNext a
  keepPrev : ∀ a, a < y.addr ∨ headAddr l₂ u.stop < a → g.addrPrev a = s.heap.addrPrev a
  head : l₂ ≠ [] → g.addrPrev (headAddr l₂ u.stop) = y.addr

section

variable (h : HeapInv s (u :: U) B) (hl : u.regions = l₁ ++ y :: mid ++ l₂)

include h hl

theorem layout_joined : Layout (y :: mid) (headAddr l₂ u.stop) ∧ Layout l₂ u.stop := by
  have hlay := h.ok_head.layout
  rw [hl, List.append_assoc] at hlay
  exact Layout.append_iff.mp (Layout.append_iff.mp hlay).2

/-- What stays on the lists is at the joined region's header or outside
it. -/
theorem kept_of_mem (ha : a ∈ B i) (hmid : ∀ z ∈ mid, z.addr ≠ a) :
    a ≤ y.addr ∨ headAddr l₂ u.stop ≤ a := by
  have hok := h.ok_head
  have hlay := hok.layout
  rw [hl, List.append_assoc, List.cons_append] at hlay
  obtain ⟨w, hw, z, hz, -, rfl, -⟩ := (h.mem_bucket _ _).mp ha
  rcases List.mem_cons.mp hw with rfl | hw
  · rw [hl] at hz
    simp only [List.mem_append, List.mem_cons] at hz
    rcases hz with (hz | rfl | hz) | hz
    · have hle := hlay.le_of_mem_left hz
      exact Or.inl (by omega)
    · exact Or.inl le_rfl
    · exact absurd rfl (hmid z hz)
    · exact Or.inr ((h.layout_joined hl).2.bounds hz).1
  · have hy := hok.region_bounds (r := y) (by rw [hl]; simp)
    have hstop := (h.layout_joined hl).2.headAddr_le
    have hfits := hok.fits
    rcases h.header_outside hw (UnitOk.addr_mem hz) with hout | hout
    · exact Or.inl (by omega)
    · exact Or.inr (by omega)

/-- The lists without the joined regions. -/
theorem mem_bucket_kept : (a ∈ B i ∧ ∀ z ∈ y :: mid, z.addr ≠ a) ↔
      (a ∈ B i ∧ ∀ z ∈ u.regions, z.addr ≠ a) ∨ FreeIn l₁ a i ∨ FreeIn l₂ a i := by
  have hlay := h.ok_head.layout
  rw [hl, List.append_assoc] at hlay
  obtain ⟨hlay₁, hlay₂⟩ := Layout.append_iff.mp hlay
  obtain ⟨hlaym, hlay₃⟩ := Layout.append_iff.mp hlay₂
  constructor
  · rintro ⟨hm, hne⟩
    refine (h.mem_bucket_cons.mp hm).imp_right fun hf => ?_
    rw [hl, append_iff, append_iff] at hf
    rcases hf with (hf | ⟨z, hz, -, ha, -⟩) | hf
    · exact Or.inl hf
    · exact absurd ha (hne z hz)
    · exact Or.inr hf
  · rintro (⟨hm, hall⟩ | hf | hf)
    · refine ⟨hm, fun z hz => hall z ?_⟩
      rw [hl]
      exact List.mem_append_left _ (List.mem_append_right _ hz)
    · refine ⟨h.mem_bucket_cons.mpr (Or.inr ?_), fun z hz he => ?_⟩
      · rw [hl, append_iff, append_iff]
        exact Or.inl (Or.inl hf)
      · obtain ⟨w, hw, -, hwa, -⟩ := hf
        have hwe := (hlay₁.bounds hw).2
        have hws : 32 ≤ w.size := hlay₁.size_le hw
        have hz' := (hlay₂.bounds (List.mem_append_left l₂ hz)).1
        omega
    · refine ⟨h.mem_bucket_cons.mpr (Or.inr ?_), fun z hz he => ?_⟩
      · rw [hl, append_iff]
        exact Or.inr hf
      · obtain ⟨w, hw, -, hwa, -⟩ := hf
        have hwe := (hlay₃.bounds hw).1
        have hz' := (hlaym.bounds hz).2
        have hzs : 32 ≤ z.size := hlaym.size_le hz
        omega

/-- The blocks that stay are payloads of regions that stay. -/
theorem live_kept {b : HeapBlock} (hmid : ∀ z ∈ y :: mid, z = r ∨ z.busy = false) (hb : b ∈ s.live)
    (hne : b.ptr ≠ r.addr + memRegionAlign) :
    (∃ w ∈ U, Payload w b) ∨ ∃ z ∈ l₁ ++ l₂, z.busy ∧ z.addr + memRegionAlign = b.ptr ∧
      memRegionAlign + b.size ≤ z.size := by
  refine (h.live_cases hb).imp_right ?_
  rintro ⟨z, hz, hbusy, hptr, hsize⟩
  refine ⟨z, ?_, hbusy, hptr, hsize⟩
  rw [hl] at hz
  simp only [List.mem_append, List.mem_cons] at hz hmid ⊢
  rcases hz with (hz | hz) | hz
  · exact Or.inl hz
  · rcases hmid z hz with rfl | hf
    · exact absurd hptr.symm hne
    · rw [hf] at hbusy
      cases hbusy
  · exact Or.inr hz

/-- **The regions of a block are joined** into a free one. -/
theorem merge (hmid : ∀ z ∈ y :: mid, z = r ∨ z.busy = false)
    (hreg : u.bytes ≤ heapAllocUnitSize) (hfirst : ∀ z ∈ l₁.getLast?, z.busy)
    (hlast : ∀ z ∈ l₂.head?, z.busy) (hg : Linked s u y l₂ g)
    (hks : ∀ a, a < y.addr ∨ headAddr l₂ u.stop ≤ a → (∀ i, a ∉ B i) →
      g.szNext a = s.heap.szNext a)
    (hB : Buckets g.szNext g.szPrev g.freeListTable B')
    (hmem : ∀ a j, a ∈ B' j ↔ (a ∈ B j ∧ ∀ z ∈ y :: mid, z.addr ≠ a) ∨
      a = y.addr ∧ j = cpuLastOneBitIndex (headAddr l₂ u.stop - y.addr)) :
    HeapInv ⟨g, s.units, s.live.filter fun b => b.ptr ≠ r.addr + memRegionAlign⟩
      ({ u with regions := l₁ ++ ⟨y.addr, headAddr l₂ u.stop - y.addr, false⟩ :: l₂ } :: U) B' := by
  have hok := h.ok_head
  have hlay := hok.layout
  rw [hl, List.append_assoc, List.cons_append] at hlay
  obtain ⟨hlaym, hlay₂⟩ := h.layout_joined hl
  have hstop := hlay₂.headAddr_le
  have hfits := hok.fits
  have hyr : y ∈ u.regions := by rw [hl]; simp
  have hy := hok.region_bounds hyr
  have hye : y.addr + y.size ≤ headAddr l₂ u.stop := (hlaym.bounds (List.mem_cons_self ..)).2
  have hys : 32 ≤ y.size := hok.layout.size_le hyr
  simp only [memRegionAlign] at hfits
  refine h.replace ⟨fun a ha => ?_, fun a ha hna => ?_⟩ rfl ?_ (fun z hz hzb => ?_) hB
    (fun a j => ?_) (fun b hb => ?_) h.nodup_filter
  · simp only [memRegionAlign] at ha
    exact ⟨hg.keepNext a (by omega), hg.keepPrev a (by omega)⟩
  · simp only [memRegionAlign] at ha
    exact hks a (by omega) hna
  · have hapart := hok.apart
    rw [hl, List.append_assoc, List.cons_append] at hapart
    obtain ⟨hc₁, hc₂, -⟩ := List.isChain_append.mp hapart
    have hc₃ := (List.isChain_append.mp (List.isChain_cons.mp hc₂).2).2.1
    have hseg := hok.seg
    rw [hl, List.append_assoc, List.cons_append] at hseg
    have hdy := hok.dvd_header (UnitOk.addr_mem hyr)
    -- the first header and the one after the joined regions are whole headers apart
    refine hok.replace (m := y :: mid) (n := [⟨y.addr, headAddr l₂ u.stop - y.addr, false⟩])
      (hl.trans (List.append_assoc ..)) (by simp) rfl ⟨?_, ?_, ?_, trivial⟩
      ⟨hg.next, hg.prev.trans hseg.at_append.2, trivial⟩ (fun z hz => ?_) (fun z hz => ?_) hg.head
      (fun z hz => ?_) ?_ (apart_insert hc₁ hc₃ (fun z hz => Or.inl (hfirst z hz))
        fun z hz => Or.inr (hlast z hz)) hreg
    · change y.addr + (headAddr l₂ u.stop - y.addr) = headAddr l₂ u.stop
      omega
    · simp only [memRegionAlign]
      omega
    · exact Nat.dvd_sub (hlaym.dvd_end hdy) hdy
    · have hle := hlay.le_of_mem_left hz
      have hs : 32 ≤ z.size := hok.layout.size_le (by rw [hl]; simp [hz])
      exact ⟨hg.keepNext _ (by omega), hg.keepPrev _ (by omega)⟩
    · exact hg.keepNext _ (Or.inr (hlay₂.bounds hz).1)
    · exact hg.keepPrev _ (Or.inr (hlay₂.headAddr_lt_of_mem_tail hz))
    · exact hg.keepNext _ (Or.inr hstop)
  · have hzu : z ∈ u.regions ∧ (z.addr < y.addr ∨ headAddr l₂ u.stop ≤ z.addr) := by
      simp only [List.mem_append, List.mem_cons] at hz
      rcases hz with hz | rfl | hz
      · have hle := hlay.le_of_mem_left hz
        have hs : 32 ≤ z.size := hok.layout.size_le (by rw [hl]; simp [hz])
        exact ⟨by rw [hl]; simp [hz], Or.inl (by omega)⟩
      · cases hzb
      · exact ⟨by rw [hl]; simp [hz], Or.inr (hlay₂.bounds hz).1⟩
    rw [hks _ hzu.2 fun i => h.notMem_of_busy (by simp) hzu.1 hzb]
    exact h.busy u (by simp) z hzu.1 hzb
  · rw [hmem, h.mem_bucket_kept hl]
    simp only [append_iff, cons_iff]
    constructor
    · rintro ((hm | hm | hm) | ⟨rfl, rfl⟩)
      · exact Or.inl hm
      · exact Or.inr (Or.inl hm)
      · exact Or.inr (Or.inr (Or.inr hm))
      · exact Or.inr (Or.inr (Or.inl ⟨trivial, rfl, rfl⟩))
    · rintro (hm | hm | ⟨-, rfl, rfl⟩ | hm)
      · exact Or.inl (Or.inl hm)
      · exact Or.inl (Or.inr (Or.inl hm))
      · exact Or.inr ⟨rfl, rfl⟩
      · exact Or.inl (Or.inr (Or.inr hm))
  · rw [List.mem_filter] at hb
    refine (h.live_kept hl hmid hb.1 (by simpa using hb.2)).imp_right ?_
    rintro ⟨z, hz, hpay⟩
    refine ⟨z, ?_, hpay⟩
    simp only [List.mem_append, List.mem_cons] at hz ⊢
    exact hz.imp_right Or.inr

end

/-! ## The stages of `free` -/

theorem freeRamPages_frame {j : HeaderMem} (ha : a < lo ∨ hi ≤ a) :
    (g.freeRamPages lo hi j).szNext a = g.szNext a ∧
      (g.freeRamPages lo hi j).szPrev a = g.szPrev a ∧
      (g.freeRamPages lo hi j).addrNext a = g.addrNext a ∧
      (g.freeRamPages lo hi j).addrPrev a = g.addrPrev a := by
  unfold freeRamPages
  split
  · exact scrub_frame (by omega)
  · exact ⟨rfl, rfl, rfl, rfl⟩

@[simp] theorem freeRamPages_table {j : HeaderMem} :
    (g.freeRamPages lo hi j).freeListTable = g.freeListTable := by
  unfold freeRamPages
  split <;> rfl

theorem freeRamPages_virtualMemorySize {j : HeaderMem} :
    (g.freeRamPages lo hi j).virtualMemorySize = g.virtualMemorySize := by
  unfold freeRamPages
  split <;> rfl

theorem updateMemRegion_virtualMemorySize :
    (g.updateMemRegion a i).virtualMemorySize = g.virtualMemorySize := by
  by_cases hne : cpuLastOneBitIndex (g.size a) ≠ i
  · rw [updateMemRegion_of_ne hne]
    exact deleteMemRegion_virtualMemorySize
  · rw [updateMemRegion_of_eq (not_not.mp hne)]

theorem addMemRegion_virtualMemorySize :
    (g.addMemRegion a).virtualMemorySize = g.virtualMemorySize := rfl

/-- The heap once the address links of the joined region are set: the
lists hold what they did but the regions joined to the first. -/
structure Joined (s : HeapState) (u : HeapUnit) (y : HeapRegion) (mid l₂ : List HeapRegion)
    (B B₁ : ℕ → List ℕ) (g : Heap) : Prop extends Linked s u y l₂ g where
  marker : ∀ a, a < y.addr ∨ headAddr l₂ u.stop ≤ a → (∀ i, a ∉ B i) →
    g.szNext a = s.heap.szNext a
  buckets : Buckets g.szNext g.szPrev g.freeListTable B₁
  mem : ∀ a j, a ∈ B₁ j ↔ a ∈ B j ∧ ∀ z ∈ mid, z.addr ≠ a

/-- The heap `g` is that of `s` but for its lists, which are without the
regions of `mid`. -/
structure Unlisted (s : HeapState) (B : ℕ → List ℕ) (mid : List HeapRegion) (g : Heap)
    (B₁ : ℕ → List ℕ) : Prop where
  buckets : Buckets g.szNext g.szPrev g.freeListTable B₁
  mem : ∀ a j, a ∈ B₁ j ↔ a ∈ B j ∧ ∀ z ∈ mid, z.addr ≠ a
  next : g.addrNext = s.heap.addrNext
  prev : g.addrPrev = s.heap.addrPrev
  marker : ∀ a, (∀ i, a ∉ B i) → g.szNext a = s.heap.szNext a
  total : g.virtualMemorySize = s.heap.virtualMemorySize

namespace Unlisted

theorem nil (h : HeapInv s U B) : Unlisted s B [] s.heap B :=
  ⟨h.buckets, by simp, rfl, rfl, fun _ _ => rfl, rfl⟩

/-- A busy region is on no list. -/
theorem busy (hg : Unlisted s B mid g B₁) (h : HeapInv s (u :: U) B) (hr : r ∈ u.regions)
    (hb : r.busy) : Unlisted s B (r :: mid) g B₁ where
  buckets := hg.buckets
  mem a j := by
    rw [hg.mem, List.forall_mem_cons]
    refine and_congr_right fun hm => (and_iff_right ?_).symm
    rintro rfl
    exact h.notMem_of_busy (by simp) hr hb hm
  next := hg.next
  prev := hg.prev
  marker := hg.marker
  total := hg.total

/-- A free one is taken off its list. -/
theorem delete (hg : Unlisted s B mid g B₁) (h : HeapInv s (u :: U) B) (hr : r ∈ u.regions)
    (hf : r.busy = false) (hne : ∀ z ∈ mid, z.addr ≠ r.addr) :
    ∃ B₂, Unlisted s B (r :: mid) (g.deleteMemRegion r.addr (cpuLastOneBitIndex r.size)) B₂ := by
  obtain ⟨B₂, hB, hmem, hframe⟩ := deleteMemRegion_spec hg.buckets
    ((hg.mem _ _).mpr ⟨h.mem_of_free (by simp) hr hf, hne⟩)
  refine ⟨B₂, hB, fun a j => ?_, ?_, ?_, fun a ha => ?_, ?_⟩
  · rw [hmem, hg.mem, List.forall_mem_cons, and_assoc, ne_comm]
    exact and_congr_right fun _ => and_comm
  · rw [deleteMemRegion_addrNext, hg.next]
  · rw [deleteMemRegion_addrPrev, hg.prev]
  · rw [hframe a fun j hm => ha j ((hg.mem a j).mp hm).1, hg.marker a ha]
  · rw [deleteMemRegion_virtualMemorySize, hg.total]

/-- The pages given back and the links set change no count of bytes. -/
theorem total_pages (hg : Unlisted s B mid g B₁) :
    (g.freeRamPages lo hi junk).virtualMemorySize = s.heap.virtualMemorySize :=
  freeRamPages_virtualMemorySize.trans hg.total

theorem total_next {x y : ℕ} (hg : Unlisted s B mid g B₁) :
    ((g.freeRamPages lo hi junk).setAddrNext x y).virtualMemorySize = s.heap.virtualMemorySize :=
  hg.total_pages

theorem total_links {x y z : ℕ} (hg : Unlisted s B mid g B₁) :
    (((g.freeRamPages lo hi junk).setAddrNext x y).setAddrPrev y z).virtualMemorySize =
      s.heap.virtualMemorySize :=
  hg.total_pages

end Unlisted

/-- The range is in the body of a free region: the joined one. -/
def Trimmed (U : List HeapUnit) (ptr : ℕ) (range : Option (ℕ × ℕ)) : Prop :=
  ∀ lo hi, range = some (lo, hi) → pageSize ∣ lo ∧ pageSize ∣ hi ∧
    ∃ w ∈ U, ∃ z ∈ w.regions, z.busy = false ∧
      z.addr + memRegionAlign ≤ ptr ∧ ptr ≤ z.addr + z.size ∧
      z.addr + memRegionAlign ≤ lo ∧ hi ≤ z.addr + z.size

theorem Trimmed.none : Trimmed U ptr none := by
  intro lo hi h
  cases h

section

variable (h : HeapInv s (u :: U) B) (hl : u.regions = l₁ ++ y :: mid ++ l₂)

include h hl

/-- The pages are given back and the links set. -/
theorem joined (hoff : Unlisted s B mid h₁ B₁) (hlo : y.addr + memRegionAlign ≤ lo)
    (hhi : hi ≤ headAddr l₂ u.stop)
    (hgn : g.addrNext = update (h₁.freeRamPages lo hi junk).addrNext y.addr (headAddr l₂ u.stop))
    (hgp : ∀ a, a ≠ headAddr l₂ u.stop → g.addrPrev a = (h₁.freeRamPages lo hi junk).addrPrev a)
    (hgh : l₂ ≠ [] → g.addrPrev (headAddr l₂ u.stop) = y.addr)
    (hgs : g.szNext = (h₁.freeRamPages lo hi junk).szNext ∧
      g.szPrev = (h₁.freeRamPages lo hi junk).szPrev ∧ g.freeListTable = h₁.freeListTable) :
    Joined s u y mid l₂ B B₁ g := by
  have hlaym := (h.layout_joined hl).1
  have hy := hlaym.bounds (List.mem_cons_self ..)
  have hys : 32 ≤ y.size := hlaym.size_le (List.mem_cons_self ..)
  simp only [memRegionAlign] at hlo
  have hframe : ∀ a, a ≤ y.addr ∨ headAddr l₂ u.stop ≤ a → a < lo ∨ hi ≤ a := by
    intro a ha
    omega
  refine ⟨⟨?_, ?_, fun a ha => ?_, fun a ha => ?_, hgh⟩, fun a ha hna => ?_, ?_, hoff.mem⟩
  · rw [hgn, update_self]
  · rw [hgp _ (by omega), (freeRamPages_frame (hframe _ (Or.inl le_rfl))).2.2.2, hoff.prev]
  · rw [hgn, update_of_ne (by omega), (freeRamPages_frame (hframe a (by omega))).2.2.1, hoff.next]
  · rw [hgp _ (by omega), (freeRamPages_frame (hframe a (by omega))).2.2.2, hoff.prev]
  · rw [hgs.1, (freeRamPages_frame (hframe a (by omega))).1, hoff.marker a hna]
  · rw [hgs.1, hgs.2.1, hgs.2.2]
    have hkept : ∀ j, ∀ x ∈ B₁ j, x < lo ∨ hi ≤ x := fun j x hx =>
      hframe x (h.kept_of_mem hl ((hoff.mem x j).mp hx).1 ((hoff.mem x j).mp hx).2)
    exact hoff.buckets.congr (fun j x hx => (freeRamPages_frame (hkept j x hx)).1)
      fun j x hx => (freeRamPages_frame (hkept j x hx)).2.1

/-- The pages are given back and both links set. -/
theorem joined_links (hoff : Unlisted s B mid h₁ B₁) (hlo : y.addr + memRegionAlign ≤ lo)
    (hhi : hi ≤ headAddr l₂ u.stop) (junk : HeaderMem) :
    Joined s u y mid l₂ B B₁ (((h₁.freeRamPages lo hi junk).setAddrNext y.addr
      (headAddr l₂ u.stop)).setAddrPrev (headAddr l₂ u.stop) y.addr) :=
  h.joined hl hoff hlo hhi rfl (fun _ ha => update_of_ne ha _ _) (fun _ => update_self ..)
    ⟨rfl, rfl, freeRamPages_table⟩

/-- The size of the joined region. -/
theorem Joined.size (hj : Joined s u y mid l₂ B B₁ g) :
    g.size y.addr = headAddr l₂ u.stop - y.addr := by
  have hok := h.ok_head
  obtain ⟨hlaym, hlay₂⟩ := h.layout_joined hl
  have hy := (hlaym.bounds (List.mem_cons_self ..)).2
  have hstop := hlay₂.headAddr_le
  have hfits := hok.fits
  have hbound := hok.bound
  have hpos := hok.pos
  have hyb := (hok.region_bounds (r := y) (by rw [hl]; simp)).1
  simp only [memRegionAlign] at hfits
  unfold Heap.size
  rw [hj.next]
  omega

/-- The joined region was free before, and moves to the list of its size. -/
theorem Joined.update (hj : Joined s u y mid l₂ B B₁ g)
    (hmid : ∀ z ∈ y :: mid, z = r ∨ z.busy = false) (hyf : y.busy = false)
    (hfirst : ∀ z ∈ l₁.getLast?, z.busy) (hlast : ∀ z ∈ l₂.head?, z.busy) :
    ∃ B', HeapInv ⟨g.updateMemRegion y.addr (cpuLastOneBitIndex y.size), s.units,
        s.live.filter fun b => b.ptr ≠ r.addr + memRegionAlign⟩
      ({ u with regions := l₁ ++ ⟨y.addr, headAddr l₂ u.stop - y.addr, false⟩ :: l₂ } :: U) B' := by
  have hyu : y ∈ u.regions := by rw [hl]; simp
  have hok := h.ok_head
  have hlay := hok.layout
  rw [hl, List.append_assoc, List.cons_append] at hlay
  have hymid : ∀ z ∈ mid, z.addr ≠ y.addr := by
    intro z hz he
    have hle := hlay.le_of_append (List.mem_append_left l₂ hz)
    have hs : 32 ≤ y.size := hlay.size_le (by simp)
    omega
  have hy₁ : y.addr ∈ B₁ (cpuLastOneBitIndex y.size) :=
    (hj.mem _ _).mpr ⟨h.mem_of_free (by simp) hyu hyf, hymid⟩
  obtain ⟨B', hB', hmem', hframe', hn', hp'⟩ := updateMemRegion_spec hj.buckets hy₁
  rw [hj.size h hl] at hmem'
  refine ⟨B', h.merge hl hmid (hok.regular_of_free hyu hyf) hfirst hlast
    ⟨hn' ▸ hj.next, hp' ▸ hj.prev, hn' ▸ hj.keepNext, hp' ▸ hj.keepPrev, hp' ▸ hj.head⟩
    (fun a ha hna => ?_) hB' fun a j => ?_⟩
  · rw [hframe' a fun i hm => hna i ((hj.mem a i).mp hm).1]
    exact hj.marker a ha hna
  · rw [hmem', hj.mem]
    simp only [List.mem_cons, forall_eq_or_imp]
    refine or_congr_left ⟨fun ⟨⟨hm, hne⟩, hay⟩ => ⟨hm, hay.symm, hne⟩, fun ⟨hm, hay, hne⟩ =>
      ⟨⟨hm, hne⟩, hay.symm⟩⟩

/-- The joined region was the block's own, and is put on a list. -/
theorem Joined.add (hj : Joined s u y mid l₂ B B₁ g)
    (hmid : ∀ z ∈ mid, z.busy = false) (hyb : y.busy) (hreg : u.bytes ≤ heapAllocUnitSize)
    (hfirst : ∀ z ∈ l₁.getLast?, z.busy) (hlast : ∀ z ∈ l₂.head?, z.busy) :
    ∃ B', HeapInv ⟨g.addMemRegion y.addr, s.units,
        s.live.filter fun b => b.ptr ≠ y.addr + memRegionAlign⟩
      ({ u with regions := l₁ ++ ⟨y.addr, headAddr l₂ u.stop - y.addr, false⟩ :: l₂ } :: U) B' := by
  have hyu : y ∈ u.regions := by rw [hl]; simp
  have hyB : ∀ j, y.addr ∉ B j := fun j => h.notMem_of_busy (by simp) hyu hyb
  have hy0 : y.addr ≠ 0 := by
    have hpos := h.ok_head.pos
    have hb := (h.ok_head.region_bounds hyu).1
    omega
  obtain ⟨B', hB', hmem', hframe'⟩ := pushMemRegion_spec hj.buckets hy0
    (fun j hm => hyB j ((hj.mem _ j).mp hm).1) (cpuLastOneBitIndex (g.size y.addr))
  rw [hj.size h hl] at hmem'
  have hmid' : ∀ z ∈ y :: mid, z = y ∨ z.busy = false := by
    intro z hz
    exact (List.mem_cons.mp hz).imp_right (hmid z)
  refine ⟨B', h.merge hl hmid' hreg hfirst hlast
    ⟨hj.next, hj.prev, hj.keepNext, hj.keepPrev, hj.head⟩ (fun a ha hna => ?_) hB' fun a j => ?_⟩
  · have hlaym := (h.layout_joined hl).1
    have hb := (hlaym.bounds (List.mem_cons_self ..)).2
    have hs : 32 ≤ y.size := hlaym.size_le (List.mem_cons_self ..)
    exact (hframe' a (by omega)).trans (hj.marker a ha hna)
  · rw [hmem', hj.mem]
    simp only [List.mem_cons, forall_eq_or_imp]
    refine or_congr_left ⟨fun ⟨hm, hne⟩ => ⟨hm, fun he => hyB j (he ▸ hm), hne⟩, fun ⟨hm, _, hne⟩ =>
      ⟨hm, hne⟩⟩

/-- What is given back past the joined region's header and before the
next region is in its body. -/
theorem trimmed {lo hi : ℕ} (hr : r ∈ y :: mid) (hdlo : pageSize ∣ lo) (hdhi : pageSize ∣ hi)
    (hlo : y.addr + memRegionAlign ≤ lo) (hhi : hi ≤ headAddr l₂ u.stop) :
    Trimmed ({ u with regions := l₁ ++ ⟨y.addr, headAddr l₂ u.stop - y.addr, false⟩ :: l₂ } :: U)
      (r.addr + memRegionAlign) (ramPagesRange lo hi) := by
  have hlaym := (h.layout_joined hl).1
  have hrb := hlaym.bounds hr
  have hrs := hlaym.size_le hr
  have hy : headAddr (y :: mid) (headAddr l₂ u.stop) = y.addr := rfl
  intro lo' hi' he
  unfold ramPagesRange at he
  split at he
  · obtain ⟨⟩ := he
    refine ⟨hdlo, hdhi, _, List.mem_cons_self .., ⟨y.addr, headAddr l₂ u.stop - y.addr, false⟩,
      by simp, rfl, ?_, ?_, hlo, ?_⟩ <;> dsimp only <;> omega
  · cases he

end

/-! ## What `free` reads -/

section Read

variable {p n : HeapRegion} {l₃ : List HeapRegion}

theorem headAddr_mem (hl : u.regions = l₁ ++ l₂) : headAddr l₂ u.stop ∈ u.headers := by
  cases l₂ with
  | nil => exact UnitOk.stop_mem
  | cons z l₂ => exact UnitOk.addr_mem (by rw [hl]; simp)

/-- `unionBase` is past the header of the region before. -/
theorem le_unionBase {g : Heap} (hp : g.addrPrev r.addr = p.addr)
    (hle : p.addr + memRegionAlign ≤ r.addr) :
    p.addr + memRegionAlign ≤ g.unionBase (r.addr + memRegionAlign) r.addr := by
  have hlt := lt_cpuAlignAddrLo_add (r.addr + memRegionAlign)
  unfold unionBase
  rw [hp]
  simp only
  split <;> omega

theorem dvd_unionBase {g : Heap} : pageSize ∣ g.unionBase ptr a := by
  unfold unionBase
  simp only
  split
  · exact (Nat.dvd_add_right (dvd_cpuAlignAddrLo ptr)).mpr (dvd_refl _)
  · exact dvd_cpuAlignAddrLo ptr

theorem dvd_unionEnd {g : Heap} : pageSize ∣ g.unionEnd a := dvd_cpuAlignAddrLo _

/-- `unionEnd` is within the region after. -/
theorem unionEnd_le {g : Heap} (hn : g.addrNext r.addr = n.addr) (hs : g.size n.addr = n.size) :
    g.unionEnd r.addr ≤ n.addr + n.size := by
  unfold unionEnd
  simp only [hn, hs]
  have hle := cpuAlignAddrLo_le (n.addr + min n.size pageMask)
  omega

variable (h : HeapInv s (u :: U) B)

include h

theorem read_next (hl : u.regions = l₁ ++ r :: l₂) :
    s.heap.addrNext r.addr = headAddr l₂ u.stop :=
  (hl ▸ h.ok_head.seg).at_append.1

theorem read_prev (hl : u.regions = l₁ ++ r :: l₂) :
    s.heap.addrPrev r.addr = lastAddr 0 l₁ :=
  (hl ▸ h.ok_head.seg).at_append.2

theorem header_ne_zero (ha : a ∈ u.headers) : a ≠ 0 := by
  have hpos := h.ok_head.pos
  have hb := (h.ok_head.header_bounds ha).1
  omega

theorem header_le_append (hl : u.regions = l₁ ++ p :: r :: l₂) :
    p.addr + memRegionAlign ≤ r.addr := by
  have hlay := h.ok_head.layout
  rw [hl] at hlay
  have hle := hlay.le_of_append (List.mem_cons_self ..)
  have hs := hlay.size_le (r := p) (by simp)
  omega

theorem end_eq (hl : u.regions = l₁ ++ r :: l₂) :
    r.addr + r.size = headAddr l₂ u.stop := by
  have hlay := h.ok_head.layout
  rw [hl] at hlay
  exact (Layout.append_iff.mp hlay).2.1

/-- The region after a free one is busy. -/
theorem busy_after (hl : u.regions = l₁ ++ r :: l₂)
    (hf : r.busy = false) : ∀ z ∈ l₂.head?, z.busy := by
  have hapart := h.ok_head.apart
  rw [hl] at hapart
  intro z hz
  have hc := (List.isChain_cons.mp (List.isChain_append.mp hapart).2.1).1 z hz
  exact hc.resolve_left (by simp [hf])

/-- So is the one before. -/
theorem busy_before (hl : u.regions = l₁ ++ r :: l₂)
    (hf : r.busy = false) : ∀ z ∈ l₁.getLast?, z.busy := by
  have hapart := h.ok_head.apart
  rw [hl] at hapart
  intro z hz
  exact ((List.isChain_append.mp hapart).2.2 z hz r (by simp)).resolve_right (by simp [hf])

theorem prev_eq_zero_iff (hl : u.regions = l₁ ++ r :: l₂) :
    s.heap.addrPrev r.addr = 0 ↔ l₁ = [] := by
  rw [h.read_prev hl]
  rcases List.eq_nil_or_concat' l₁ with rfl | ⟨l, x, rfl⟩
  · simp [lastAddr]
  · have hx : x.addr ∈ u.headers := UnitOk.addr_mem (by rw [hl]; simp)
    simp [lastAddr_append_singleton, h.header_ne_zero hx]

theorem next_eq_zero_iff (hl : u.regions = l₁ ++ l₂) :
    s.heap.addrNext (headAddr l₂ u.stop) = 0 ↔ l₂ = [] := by
  cases l₂ with
  | nil => simp [headAddr, h.ok_head.null]
  | cons x l =>
    have hl' : u.regions = (l₁ ++ [x]) ++ l := by simpa using hl
    have hx := h.header_ne_zero (headAddr_mem hl')
    have hn : s.heap.addrNext (headAddr (x :: l) u.stop) = headAddr l u.stop := h.read_next hl
    simp [hn, hx]

theorem read_prev_append (hl : u.regions = l₁ ++ p :: r :: l₂) :
    s.heap.addrPrev r.addr = p.addr := by
  have hl' : u.regions = (l₁ ++ [p]) ++ r :: l₂ := by simpa using hl
  rw [h.read_prev hl', lastAddr_append_singleton]

/-- What `free` reads of a free region before the block's. -/
theorem read_prev_free (hl : u.regions = l₁ ++ p :: r :: l₂)
    (hpf : p.busy = false) : s.heap.addrPrev r.addr = p.addr ∧ s.heap.size p.addr = p.size ∧
      p.addr ≠ 0 ∧ s.heap.szNext p.addr ≠ heapMarkerBusy := by
  have hpu : p ∈ u.regions := by rw [hl]; simp
  exact ⟨h.read_prev_append hl, h.ok_head.size_eq hpu, h.header_ne_zero (UnitOk.addr_mem hpu),
    h.szNext_ne_busy (by simp) hpu hpf⟩

/-- And of a free region after it, with the list it is taken off. -/
theorem read_next_free (hl : u.regions = l₁ ++ r :: n :: l₃)
    (hnf : n.busy = false) : s.heap.addrNext r.addr = n.addr ∧
      s.heap.addrNext n.addr = headAddr l₃ u.stop ∧ s.heap.size n.addr = n.size ∧
      headAddr l₃ u.stop ≠ 0 ∧ s.heap.szNext n.addr ≠ heapMarkerBusy ∧
      ∃ g B₁, s.heap.deleteMemRegion n.addr (cpuLastOneBitIndex n.size) = g ∧
        Unlisted s B [n] g B₁ ∧ g.unionEnd r.addr ≤ headAddr l₃ u.stop := by
  have hl₂ : u.regions = (l₁ ++ [r]) ++ n :: l₃ := by simpa using hl
  have hl₃ : u.regions = (l₁ ++ [r, n]) ++ l₃ := by simpa using hl
  have hnu : n ∈ u.regions := by rw [hl]; simp
  have hnext : s.heap.addrNext r.addr = n.addr := h.read_next hl
  have hsize := h.ok_head.size_eq hnu
  obtain ⟨B₁, hoff⟩ := (Unlisted.nil h).delete h hnu hnf (by simp)
  refine ⟨hnext, h.read_next hl₂, hsize, h.header_ne_zero (headAddr_mem hl₃),
    h.szNext_ne_busy (by simp) hnu hnf, _, B₁, rfl, hoff, ?_⟩
  rw [← h.end_eq hl₂]
  exact unionEnd_le (hoff.next ▸ hnext) (deleteMemRegion_size.trans hsize)

/-- No free region before the block's. -/
theorem prev_busy (hl : u.regions = l₁ ++ r :: l₂)
    (hfirst : ∀ z ∈ l₁.getLast?, z.busy) :
    ¬ (s.heap.addrPrev r.addr ≠ 0 ∧ s.heap.szNext (s.heap.addrPrev r.addr) ≠ heapMarkerBusy) := by
  rintro ⟨hne, hnb⟩
  rcases List.eq_nil_or_concat' l₁ with rfl | ⟨l, x, rfl⟩
  · exact hne (h.read_prev hl)
  · rw [h.read_prev hl, lastAddr_append_singleton] at hnb
    exact hnb (h.busy u (by simp) x (by rw [hl]; simp) (hfirst x (by simp)))

end Read

/-! ## The cases of `free` -/

/-- `free` keeps the invariant, and of a tight block the books, and what it gives back to
the memory manager is in the body of a free region. -/
def Frees (s : HeapState) (U : List HeapUnit) (ptr : ℕ) (junk : HeaderMem) : Prop :=
  ∃ U' B', HeapInv (s.call (.free ptr junk)) U' B' ∧ Trimmed U' ptr (s.heap.trim ptr) ∧
    ((∀ b ∈ s.live, b.ptr = ptr → Tight b.size) → Books s U → Books (s.call (.free ptr junk)) U')

theorem length_filter (h : HeapInv s U B) (hlive : ∃ b ∈ s.live, b.ptr = ptr) :
    (s.live.filter fun b => b.ptr ≠ ptr).length + 1 = s.live.length := by
  have hone : (s.live.map HeapBlock.ptr).count ptr = 1 :=
    List.count_eq_one_of_mem h.nodup (List.mem_map.mpr hlive)
  rw [List.count, List.countP_map] at hone
  rw [List.length_eq_countP_add_countP (fun b : HeapBlock => b.ptr == ptr) (l := s.live),
    ← List.countP_eq_length_filter]
  have hnot : s.live.countP (fun b => b.ptr ≠ ptr) =
      s.live.countP fun b => ¬ (b.ptr == ptr) = true :=
    List.countP_congr fun b _ => by simp
  rw [hnot]
  exact (add_comm _ _).trans (congrArg (· + _) hone.symm)

theorem mem_filter_of_loose (htight : ∀ b ∈ s.live, b.ptr = ptr → Tight b.size) :
    ∀ b ∈ s.live, ¬ Tight b.size → b ∈ s.live.filter fun b => b.ptr ≠ ptr := fun b hb hloose =>
  List.mem_filter.mpr ⟨hb, by simpa using fun he => hloose (htight b hb he)⟩

section Cases

variable {p n : HeapRegion} {l₃ : List HeapRegion}
variable (h : HeapInv s (u :: U) B) (hb : r.busy)
  (hlive : ∃ b ∈ s.live, b.ptr = r.addr + memRegionAlign)

include h hlive

/-- The block's region is joined with the free ones beside it. -/
theorem frees_joined (hl : u.regions = l₁ ++ y :: mid ++ l₂) (hr : r ∈ y :: mid)
    (hone : (y :: mid).countP HeapRegion.busy = 1) (hfirst : ∀ z ∈ l₁.getLast?, z.busy)
    (hlast : ∀ z ∈ l₂.head?, z.busy) (hne : ¬ (l₁ = [] ∧ l₂ = [])) (hdlo : pageSize ∣ lo)
    (hdhi : pageSize ∣ hi) (hlo : y.addr + memRegionAlign ≤ lo) (hhi : hi ≤ headAddr l₂ u.stop)
    (hinv : ∃ B', HeapInv ⟨g, s.units, s.live.filter fun b => b.ptr ≠ r.addr + memRegionAlign⟩
      ({ u with regions := l₁ ++ ⟨y.addr, headAddr l₂ u.stop - y.addr, false⟩ :: l₂ } :: U) B')
    (htotal : g.virtualMemorySize = s.heap.virtualMemorySize)
    (hrun : s.heap.free (r.addr + memRegionAlign) junk = (none, g) ∧
      s.heap.trim (r.addr + memRegionAlign) = ramPagesRange lo hi) :
    Frees s (u :: U) (r.addr + memRegionAlign) junk := by
  obtain ⟨B', hinv⟩ := hinv
  have hcall : s.call (.free (r.addr + memRegionAlign) junk) =
      ⟨g, s.units, s.live.filter fun b => b.ptr ≠ r.addr + memRegionAlign⟩ := by
    simp only [HeapState.call, hrun.1]
    congr 1
    exact List.filter_eq_self.mpr fun _ _ => rfl
  rw [Frees, hcall, hrun.2]
  refine ⟨_, B', hinv, h.trimmed hl hr hdlo hdhi hlo hhi, fun htight hbooks =>
    hbooks.replace htotal (mem_filter_of_loose htight) ?_ ?_⟩
  · -- one of the neighbours is there, and is busy
    rw [List.countP_pos_iff]
    rcases List.eq_nil_or_concat' l₁ with rfl | ⟨l, z, rfl⟩
    · obtain ⟨z, l, rfl⟩ := List.exists_cons_of_ne_nil fun he => hne ⟨rfl, he⟩
      exact ⟨z, by simp, hlast z rfl⟩
    · exact ⟨z, by simp, hfirst z (by simp)⟩
  · have hlength := h.length_filter hlive
    simp only [hl, List.countP_append, hone, List.countP_cons_of_neg, Bool.false_eq_true,
      not_false_eq_true]
    omega

/-- The unit has no other busy region, and goes back to the memory
manager. -/
theorem frees_unit (lower : ℕ) (hg : Unlisted s B u.regions g B₁)
    (hall : ∀ z ∈ u.regions, z = r ∨ z.busy = false)
    (hone : u.regions.countP HeapRegion.busy = 1) (hlow : headAddr u.regions u.stop = lower)
    (hrun : s.heap.free (r.addr + memRegionAlign) junk = g.freeUnit lower u.stop ∧
      s.heap.trim (r.addr + memRegionAlign) = none) :
    Frees s (u :: U) (r.addr + memRegionAlign) junk := by
  have hok := h.ok_head
  rw [hok.head] at hlow
  subst hlow
  -- the new count under a name, so that it is not computed
  obtain ⟨v, hv⟩ : ∃ v, v = (g.virtualMemorySize + 2 ^ 64 -
      (u.stop - u.base + memRegionAlign)) % 2 ^ 64 := ⟨_, rfl⟩
  have hcall : s.call (.free (r.addr + memRegionAlign) junk) =
      ⟨{ g with virtualMemorySize := v }, s.units.filter fun x => some u.base ≠ some x.base,
        s.live.filter fun b => b.ptr ≠ r.addr + memRegionAlign⟩ := by
    simp only [HeapState.call, hrun.1, freeUnit, hv]
  rw [Frees, hcall, hrun.2]
  refine ⟨U, B₁, h.dropUnit ⟨fun a _ => ?_, fun a _ => hg.marker a⟩ hg.buckets hg.mem
    (fun b hb => ?_) h.nodup_filter, Trimmed.none, fun htight hbooks => ?_⟩
  · exact ⟨congrFun hg.next a, congrFun hg.prev a⟩
  · rw [List.mem_filter] at hb
    refine (h.live_cases hb.1).resolve_right ?_
    rintro ⟨z, hz, hbusy, hptr, -⟩
    rcases hall z hz with rfl | hf
    · exact absurd hptr.symm (by simpa using hb.2)
    · rw [hf] at hbusy
      cases hbusy
  · have hfull := (hbooks.full u (by simp)).resolve_right ?_
    · exact hbooks.dropUnit hok.bound hfull (mem_filter_of_loose htight) hone
        (h.length_filter hlive) (hg.total ▸ hv) (hok.head ▸ hok.layout.headAddr_le)
    · -- a loose block of the unit would be the one given back
      rintro ⟨b, hb, hptr, hloose⟩
      obtain ⟨z, l, hz⟩ := List.exists_cons_of_ne_nil hok.ne_nil
      have hbase : u.base = z.addr := by rw [← hok.head, hz]; rfl
      rw [hbase] at hptr
      rcases hall z (by simp [hz]) with rfl | hf
      · exact hloose (htight b hb hptr)
      · exact h.ptr_ne_of_free (u := u) (r := z) (by simp) (by simp [hz]) hf hb hptr

include hb

/-- Both neighbours are free. -/
theorem free_both (hl : u.regions = l₁ ++ p :: r :: n :: l₃) (hpf : p.busy = false)
    (hnf : n.busy = false) (hne : ¬ (l₁ = [] ∧ l₃ = [])) :
    Frees s (u :: U) (r.addr + memRegionAlign) junk := by
  have hlr : u.regions = (l₁ ++ [p]) ++ r :: n :: l₃ := by simpa using hl
  have hln : u.regions = (l₁ ++ [p, r]) ++ n :: l₃ := by simpa using hl
  have hlm : u.regions = l₁ ++ p :: [r, n] ++ l₃ := by simpa using hl
  have hl₃ : u.regions = (l₁ ++ [p, r, n]) ++ l₃ := by simpa using hl
  obtain ⟨hprev, hps, hcp⟩ := h.read_prev_free hl hpf
  obtain ⟨hnext, hnn, hns, hcs, hcn, h₁, B₁, hh₁, hoff, hhi⟩ := h.read_next_free hlr hnf
  have hlo := le_unionBase (hoff.prev ▸ hprev) (h.header_le_append hl)
  have hc : ¬ (h₁.addrPrev p.addr = 0 ∧ h₁.addrNext (headAddr l₃ u.stop) = 0) := by
    rw [hoff.prev, hoff.next, h.prev_eq_zero_iff hl, h.next_eq_zero_iff hl₃]
    exact hne
  have hj := h.joined_links hlm (hoff.busy h (by rw [hl]; simp) hb) hlo hhi junk
  refine h.frees_joined hlive hlm (by simp) (by simp [hpf, hb, hnf]) (h.busy_before hl hpf)
    (h.busy_after hln hnf) hne dvd_unionBase dvd_unionEnd hlo hhi
    (hj.update h hlm (by simp [hpf, hnf]) hpf (h.busy_before hl hpf) (h.busy_after hln hnf))
    (updateMemRegion_virtualMemorySize.trans hoff.total_links) ?_
  simp only [Heap.free, trim, Nat.add_sub_cancel, hnext, hprev, hnn, hns, hps, hh₁,
    cleanMemRegionUNP]
  constructor <;> rw [if_pos hcp, if_pos hcs, if_pos hcn, if_neg hc]

/-- The region before is free, the one after is busy. -/
theorem free_prev (hl : u.regions = l₁ ++ p :: r :: n :: l₃) (hpf : p.busy = false) (hnb : n.busy) :
    Frees s (u :: U) (r.addr + memRegionAlign) junk := by
  have hlr : u.regions = (l₁ ++ [p]) ++ r :: n :: l₃ := by simpa using hl
  have hln : u.regions = (l₁ ++ [p, r]) ++ n :: l₃ := by simpa using hl
  have hlm : u.regions = l₁ ++ p :: [r] ++ n :: l₃ := by simpa using hl
  have hl₃ : u.regions = (l₁ ++ [p, r, n]) ++ l₃ := by simpa using hl
  have hnext : s.heap.addrNext r.addr = n.addr := h.read_next hlr
  have hnn := h.read_next hln
  obtain ⟨hprev, hps, hcp⟩ := h.read_prev_free hl hpf
  have hlo := le_unionBase hprev (h.header_le_append hl)
  have hcs := h.header_ne_zero (headAddr_mem hl₃)
  have hcn := not_not.mpr (h.busy u (by simp) n (by rw [hl]; simp) hnb)
  have hoff := (Unlisted.nil h).busy h (by rw [hl]; simp) hb
  have hj := h.joined_links hlm hoff hlo (cpuAlignAddrLo_le n.addr) junk
  refine h.frees_joined hlive hlm (by simp) (by simp [hpf, hb]) (h.busy_before hl hpf)
    (by simp [hnb]) (by simp) dvd_unionBase (dvd_cpuAlignAddrLo _) hlo (cpuAlignAddrLo_le n.addr)
    (hj.update h hlm (by simp [hpf]) hpf (h.busy_before hl hpf) (by simp [hnb]))
    (updateMemRegion_virtualMemorySize.trans hoff.total_links) ?_
  simp only [Heap.free, trim, Nat.add_sub_cancel, hnext, hprev, hnn, hps,
    cleanMemRegionUP]
  constructor <;> rw [if_pos hcp, if_pos hcs, if_neg hcn]
  rfl

/-- The region before is free, and the block's is the last. -/
theorem free_last (hl : u.regions = l₁ ++ [p, r]) (hpf : p.busy = false) (hne : l₁ ≠ []) :
    Frees s (u :: U) (r.addr + memRegionAlign) junk := by
  have hlr : u.regions = (l₁ ++ [p]) ++ [r] := by simpa using hl
  have hlm : u.regions = l₁ ++ p :: [r] ++ [] := by simpa using hl
  have hnext : s.heap.addrNext r.addr = u.stop := h.read_next hlr
  obtain ⟨hprev, hps, hcp⟩ := h.read_prev_free hl hpf
  have hlo := le_unionBase hprev (h.header_le_append hl)
  have hcn : ¬ s.heap.addrNext u.stop ≠ 0 := not_not.mpr h.ok_head.null
  have hcf := mt (h.prev_eq_zero_iff hl).mp hne
  have hoff := (Unlisted.nil h).busy h (by rw [hl]; simp) hb
  have hj : Joined s u p [r] [] B B (setAddrNext (s.heap.freeRamPages _ _ junk) p.addr u.stop) :=
    h.joined hlm hoff hlo (cpuAlignAddrLo_le u.stop) rfl (fun _ _ => rfl) (absurd rfl)
      ⟨rfl, rfl, freeRamPages_table⟩
  refine h.frees_joined hlive hlm (by simp) (by simp [hpf, hb]) (h.busy_before hl hpf) (by simp)
    (fun hc => hne hc.1) dvd_unionBase (dvd_cpuAlignAddrLo _) hlo (cpuAlignAddrLo_le u.stop)
    (hj.update h hlm (by simp [hpf]) hpf (h.busy_before hl hpf) (by simp))
    (updateMemRegion_virtualMemorySize.trans hoff.total_next) ?_
  simp only [Heap.free, trim, Nat.add_sub_cancel, hnext, hprev, hps, cleanMemRegionUP]
  constructor <;> rw [if_pos hcp, if_neg hcn, if_neg hcf]

/-- The region after is free, the one before is not. -/
theorem free_next (hl : u.regions = l₁ ++ r :: n :: l₃) (hnf : n.busy = false)
    (hfirst : ∀ z ∈ l₁.getLast?, z.busy) (hne : ¬ (l₁ = [] ∧ l₃ = [])) :
    Frees s (u :: U) (r.addr + memRegionAlign) junk := by
  have hln : u.regions = (l₁ ++ [r]) ++ n :: l₃ := by simpa using hl
  have hlm : u.regions = l₁ ++ r :: [n] ++ l₃ := by simpa using hl
  have hl₃ : u.regions = (l₁ ++ [r, n]) ++ l₃ := by simpa using hl
  obtain ⟨hnext, hnn, hns, hcs, hcn, h₁, B₁, hh₁, hoff, hhi⟩ := h.read_next_free hl hnf
  have hlo := le_cpuAlignAddrHi (r.addr + memRegionAlign)
  have hcp := h.prev_busy hl hfirst
  have hc : ¬ (s.heap.addrPrev r.addr = 0 ∧ h₁.addrNext (headAddr l₃ u.stop) = 0) := by
    rw [hoff.next, h.prev_eq_zero_iff hl, h.next_eq_zero_iff hl₃]
    exact hne
  have hj := h.joined_links hlm hoff hlo hhi junk
  refine h.frees_joined hlive hlm (by simp) (by simp [hb, hnf]) hfirst (h.busy_after hln hnf) hne
    (dvd_cpuAlignAddrHi _) dvd_unionEnd hlo hhi (hj.add h hlm (by simp [hnf]) hb
      (h.ok_head.regular_of_free (by rw [hl]; simp) hnf) hfirst (h.busy_after hln hnf))
    (addMemRegion_virtualMemorySize.trans hoff.total_links) ?_
  simp only [Heap.free, trim, Nat.add_sub_cancel, hnext, hnn, hns, hh₁, cleanMemRegionUN]
  constructor <;> rw [if_neg hcp, if_pos hcs, if_pos hcn, if_neg hc]

/-- No neighbour is free. -/
theorem free_alone (hl : u.regions = l₁ ++ r :: l₂) (hfirst : ∀ z ∈ l₁.getLast?, z.busy)
    (hlast : ∀ z ∈ l₂.head?, z.busy) (hne : ¬ (l₁ = [] ∧ l₂ = [])) :
    Frees s (u :: U) (r.addr + memRegionAlign) junk := by
  have hlm : u.regions = l₁ ++ r :: [] ++ l₂ := by simpa using hl
  have hnext := h.read_next hl
  have hlo := le_cpuAlignAddrHi (r.addr + memRegionAlign)
  have hcp := h.prev_busy hl hfirst
  -- the block's region is the last of its unit, or a busy one follows
  have hcase : s.heap.addrNext (headAddr l₂ u.stop) = 0 ∧ s.heap.addrPrev r.addr ≠ 0 ∨
      s.heap.addrNext (headAddr l₂ u.stop) ≠ 0 ∧
        ¬ s.heap.szNext (headAddr l₂ u.stop) ≠ heapMarkerBusy := by
    rcases l₂ with _ | ⟨n, l₃⟩
    · exact Or.inl ⟨h.ok_head.null, mt (h.prev_eq_zero_iff hl).mp fun h₁ => hne ⟨h₁, rfl⟩⟩
    · have hl' : u.regions = (l₁ ++ [r]) ++ n :: l₃ := by simpa using hl
      exact Or.inr ⟨mt (h.next_eq_zero_iff hl').mp (by simp),
        not_not.mpr (h.busy u (by simp) n (by rw [hl]; simp) (hlast n rfl))⟩
  have hj : Joined s u r [] l₂ B B (s.heap.freeRamPages (cpuAlignAddrHi (r.addr + memRegionAlign))
      (cpuAlignAddrLo (headAddr l₂ u.stop)) junk) := by
    refine h.joined hlm (.nil h) hlo (cpuAlignAddrLo_le _) ?_ (fun _ _ => rfl) (fun hne => ?_)
      ⟨rfl, rfl, freeRamPages_table⟩
    · have hlt : r.addr < cpuAlignAddrHi (r.addr + memRegionAlign) := lt_of_lt_of_le (by simp) hlo
      rw [Function.eq_update_self_iff, (freeRamPages_frame (Or.inl hlt)).2.2.1, hnext]
    · obtain ⟨n, l₃, rfl⟩ := List.exists_cons_of_ne_nil hne
      rw [(freeRamPages_frame (Or.inr (cpuAlignAddrLo_le _))).2.2.2]
      exact h.read_prev_append hl
  refine h.frees_joined hlive hlm (by simp) (by simp [hb]) hfirst hlast hne (dvd_cpuAlignAddrHi _)
    (dvd_cpuAlignAddrLo _) hlo (cpuAlignAddrLo_le _) (hj.add h hlm (by simp) hb
      (h.ok_head.regular_of_two hl (by tauto)) hfirst hlast)
    (addMemRegion_virtualMemorySize.trans (Unlisted.nil h).total_pages) ⟨?_, ?_⟩
  · simp only [Heap.free, Nat.add_sub_cancel, hnext, cleanMemRegion]
    rw [if_neg hcp]
    rcases hcase with ⟨hnull, hcf⟩ | ⟨hcs, hcn⟩
    · rw [if_neg (not_not.mpr hnull), if_neg hcf]
    · rw [if_pos hcs, if_neg hcn]
  · simp only [trim, Nat.add_sub_cancel, hnext]
    rw [if_neg hcp]
    rcases hcase with ⟨hnull, hcf⟩ | ⟨hcs, hcn⟩
    · rw [if_neg (not_not.mpr hnull), if_neg hcf]
    · rw [if_pos hcs, if_neg hcn]

/-- The unit held the block's region between two free ones. -/
theorem free_unit_both (hl : u.regions = [p, r, n]) (hpf : p.busy = false) (hnf : n.busy = false) :
    Frees s (u :: U) (r.addr + memRegionAlign) junk := by
  have hlp : u.regions = [] ++ p :: r :: [n] := hl
  have hlr : u.regions = [p] ++ r :: n :: [] := hl
  obtain ⟨hprev, hps, hcp⟩ := h.read_prev_free hlp hpf
  obtain ⟨hnext, hnn, hns, hcs, hcn, h₁, B₁, hh₁, hoff, -⟩ := h.read_next_free hlr hnf
  have hne : ∀ z ∈ [r, n], z.addr ≠ p.addr := by
    have h₁ := h.header_le_append hlp
    have h₂ := h.header_le_append hlr
    simp only [memRegionAlign] at h₁ h₂
    simp only [List.forall_mem_cons, List.not_mem_nil, false_imp_iff, implies_true, and_true]
    omega
  obtain ⟨B₂, hoff₂⟩ := (hoff.busy h (by rw [hl]; simp) hb).delete h (by rw [hl]; simp) hpf hne
  have hcs : u.stop ≠ 0 := hcs
  have hc : h₁.addrPrev p.addr = 0 ∧ h₁.addrNext u.stop = 0 :=
    ⟨hoff.prev ▸ h.read_prev hlp, hoff.next ▸ h.ok_head.null⟩
  refine h.frees_unit hlive p.addr (hl ▸ hoff₂) (by simp [hl, hpf, hnf])
    (by simp [hl, hpf, hb, hnf]) (by rw [hl]; rfl) ?_
  simp only [Heap.free, trim, Nat.add_sub_cancel, hnext, hprev, hnn, hns, hps, hh₁, headAddr]
  constructor <;> rw [if_pos hcp, if_pos hcs, if_pos hcn, if_pos hc]

/-- The unit held a free region and the block's. -/
theorem free_unit_prev (hl : u.regions = [p, r]) (hpf : p.busy = false) :
    Frees s (u :: U) (r.addr + memRegionAlign) junk := by
  have hlp : u.regions = [] ++ p :: r :: [] := hl
  have hlr : u.regions = [p] ++ r :: [] := hl
  have hnext : s.heap.addrNext r.addr = u.stop := h.read_next hlr
  have hpp : s.heap.addrPrev p.addr = 0 := h.read_prev hlp
  have hcn : ¬ s.heap.addrNext u.stop ≠ 0 := not_not.mpr h.ok_head.null
  obtain ⟨hprev, hps, hcp⟩ := h.read_prev_free hlp hpf
  have hne : ∀ z ∈ [r], z.addr ≠ p.addr := by
    have h₁ := h.header_le_append hlp
    simp only [memRegionAlign] at h₁
    simp only [List.mem_singleton, forall_eq]
    omega
  obtain ⟨B₁, hoff⟩ := ((Unlisted.nil h).busy h (by rw [hl]; simp) hb).delete h (by rw [hl]; simp)
    hpf hne
  refine h.frees_unit hlive p.addr (hl ▸ hoff) (by simp [hl, hpf]) (by simp [hl, hpf, hb])
    (by rw [hl]; rfl) ?_
  simp only [Heap.free, trim, Nat.add_sub_cancel, hnext, hprev, hps]
  constructor <;> rw [if_pos hcp, if_neg hcn, if_pos hpp]

/-- The unit held the block's region and a free one. -/
theorem free_unit_next (hl : u.regions = [r, n]) (hnf : n.busy = false) :
    Frees s (u :: U) (r.addr + memRegionAlign) junk := by
  have hlr : u.regions = [] ++ r :: n :: [] := hl
  have hprev : s.heap.addrPrev r.addr = 0 := h.read_prev hlr
  have hcp := h.prev_busy hlr (by simp)
  obtain ⟨hnext, hnn, hns, hcs, hcn, h₁, B₁, hh₁, hoff, -⟩ := h.read_next_free hlr hnf
  have hcs : u.stop ≠ 0 := hcs
  have hc : s.heap.addrPrev r.addr = 0 ∧ h₁.addrNext u.stop = 0 :=
    ⟨hprev, hoff.next ▸ h.ok_head.null⟩
  refine h.frees_unit hlive r.addr (hl ▸ hoff.busy h (by rw [hl]; simp) hb) (by simp [hl, hnf])
    (by simp [hl, hb, hnf]) (by rw [hl]; rfl) ?_
  simp only [Heap.free, trim, Nat.add_sub_cancel, hnext, hnn, hns, hh₁, headAddr]
  constructor <;> rw [if_neg hcp, if_pos hcs, if_pos hcn, if_pos hc]

/-- The unit held the block's region alone. -/
theorem free_unit_alone (hl : u.regions = [r]) :
    Frees s (u :: U) (r.addr + memRegionAlign) junk := by
  have hlr : u.regions = [] ++ r :: [] := hl
  have hnext : s.heap.addrNext r.addr = u.stop := h.read_next hlr
  have hprev : s.heap.addrPrev r.addr = 0 := h.read_prev hlr
  have hcp := h.prev_busy hlr (by simp)
  have hcn : ¬ s.heap.addrNext u.stop ≠ 0 := not_not.mpr h.ok_head.null
  refine h.frees_unit hlive r.addr (hl ▸ (Unlisted.nil h).busy h (by rw [hl]; simp) hb)
    (by simp [hl]) (by simp [hl, hb]) (by rw [hl]; rfl) ?_
  simp only [Heap.free, trim, Nat.add_sub_cancel, hnext]
  constructor <;> rw [if_neg hcp, if_neg hcn, if_pos hprev]

/-- The region before is free. -/
theorem free_of_prev_free (hl : u.regions = l₁ ++ p :: r :: l₂) (hpf : p.busy = false) :
    Frees s (u :: U) (r.addr + memRegionAlign) junk := by
  rcases l₂ with _ | ⟨n, l₃⟩
  · by_cases hne : l₁ = []
    · subst hne
      exact h.free_unit_prev hb hlive hl hpf
    · exact h.free_last hb hlive hl hpf hne
  · cases hnf : n.busy with
    | true => exact h.free_prev hb hlive hl hpf hnf
    | false =>
      by_cases hne : l₁ = [] ∧ l₃ = []
      · obtain ⟨rfl, rfl⟩ := hne
        exact h.free_unit_both hb hlive hl hpf hnf
      · exact h.free_both hb hlive hl hpf hnf hne

/-- There is no free region before. -/
theorem free_of_prev_busy (hl : u.regions = l₁ ++ r :: l₂) (hfirst : ∀ z ∈ l₁.getLast?, z.busy) :
    Frees s (u :: U) (r.addr + memRegionAlign) junk := by
  by_cases hlast : ∀ z ∈ l₂.head?, z.busy
  · by_cases hne : l₁ = [] ∧ l₂ = []
    · obtain ⟨rfl, rfl⟩ := hne
      exact h.free_unit_alone hb hlive hl
    · exact h.free_alone hb hlive hl hfirst hlast hne
  · obtain ⟨n, l₃, rfl, hnf⟩ : ∃ n l₃, l₂ = n :: l₃ ∧ n.busy = false := by
      rcases l₂ with _ | ⟨n, l₃⟩
      · simp at hlast
      · exact ⟨n, l₃, rfl, by simpa using hlast⟩
    by_cases hne : l₁ = [] ∧ l₃ = []
    · obtain ⟨rfl, rfl⟩ := hne
      exact h.free_unit_next hb hlive hl hnf
    · exact h.free_next hb hlive hl hnf hfirst hne

end Cases

/-- **`free` keeps the invariant.** -/
theorem free (h : HeapInv s U B) (hc : s.Allowed (.free ptr junk)) : Frees s U ptr junk := by
  obtain ⟨b, hb, rfl⟩ := hc
  obtain ⟨w, hw, r, hr, hbusy, hrp, -⟩ := h.live b hb
  obtain ⟨W, hperm, h⟩ := h.exists_cons hw
  obtain ⟨l₁, l₂, hl⟩ := List.append_of_mem hr
  have hlive : ∃ b ∈ s.live, b.ptr = r.addr + memRegionAlign := ⟨b, hb, hrp.symm⟩
  rw [← hrp]
  have hfrees : Frees s (w :: W) (r.addr + memRegionAlign) junk := by
    by_cases hfirst : ∀ z ∈ l₁.getLast?, z.busy
    · exact h.free_of_prev_busy hbusy hlive hl hfirst
    · rcases List.eq_nil_or_concat' l₁ with rfl | ⟨l, p, rfl⟩
      · simp at hfirst
      · exact h.free_of_prev_free hbusy hlive (by simpa using hl) (by simpa using hfirst)
  obtain ⟨U', B', hinv, htrim, hbooks⟩ := hfrees
  exact ⟨U', B', hinv, htrim, fun ht hs => hbooks ht (hs.perm hperm)⟩

end HeapInv

end ShmDos64
