import ShmDos64.Heap.Runs
/-!
# What `free` gives back to the memory manager

`free` drops the whole pages of the region it has made, and some pages it
shares with the free regions joined to it. The range it computes is in
the body of the free region it leaves behind, where there is no header
and no caller's block.
-/

namespace ShmDos64

namespace HeapInv

variable {s : HeapState} {u w : HeapUnit} {U : List HeapUnit} {B : ℕ → List ℕ}
variable {z : HeapRegion} {b : HeapBlock} {a lo hi : ℕ}

/-- No header is in the body of a region. -/
theorem header_body (h : HeapInv s U B) (hw : w ∈ U) (hz : z ∈ w.regions)
    (hlo : z.addr + memRegionAlign ≤ lo) (hhi : hi ≤ z.addr + z.size) (hu : u ∈ U)
    (ha : a ∈ u.headers) : a + memRegionAlign ≤ lo ∨ hi ≤ a := by
  obtain ⟨U', hp, h'⟩ := h.exists_cons hw
  rcases List.mem_cons.mp (hp.mem_iff.mp hu) with rfl | hu
  · rcases h'.ok_head.header_le hz ha with hle | hle
    · exact Or.inl (by omega)
    · exact Or.inr (by omega)
  · have hb := h'.ok_head.region_bounds hz
    have hfits := h'.ok_head.fits
    rcases h'.header_outside hu ha with hout | hout
    · exact Or.inl (by omega)
    · exact Or.inr (by omega)

/-- Nor is a block in the body of a free region. -/
theorem payload_body (h : HeapInv s U B) (hw : w ∈ U) (hz : z ∈ w.regions) (hfree : z.busy = false)
    (hlo : z.addr + memRegionAlign ≤ lo) (hhi : hi ≤ z.addr + z.size) (hb : b ∈ s.live) :
    b.ptr + b.size ≤ lo ∨ hi ≤ b.ptr := by
  obtain ⟨u, hu, r, hr, hbusy, hptr, hsize⟩ := h.live b hb
  have hne : z ≠ r := by
    rintro rfl
    rw [hfree] at hbusy
    cases hbusy
  obtain ⟨U', hp, h'⟩ := h.exists_cons hw
  rcases List.mem_cons.mp (hp.mem_iff.mp hu) with rfl | hu
  · rcases h'.ok_head.layout.eq_or_le hz hr with heq | hle | hle
    · exact absurd heq hne
    · exact Or.inr (by omega)
    · exact Or.inl (by omega)
  · have hzb := h'.ok_head.region_bounds hz
    have hzf := h'.ok_head.fits
    have hok := h'.ok u (by simp [hu])
    have hrb := hok.region_bounds hr
    have hrf := hok.fits
    rcases (List.pairwise_cons.mp h'.disjoint).1 u hu with hd | hd
    · exact Or.inr (by omega)
    · exact Or.inl (by omega)

end HeapInv

/-- **`free` gives back no byte that is in use.** The range it passes to
`freeRamPages` is made of whole pages of the block's unit, and no page of
it has a byte of a block that is still held or of a header there is when
`free` returns. -/
theorem heap_trim_safe {s : HeapState} {ptr lo hi : ℕ} (h : heapMachine.Reachable s)
    (hb : ∃ b ∈ s.live, b.ptr = ptr) (htrim : s.heap.trim ptr = some (lo, hi)) (junk : HeaderMem) :
    pageSize ∣ lo ∧ pageSize ∣ hi ∧
    (∃ u ∈ s.units, u.base ≤ ptr ∧ ptr ≤ u.base + u.size ∧ u.base ≤ lo ∧ hi ≤ u.base + u.size) ∧
    (∀ b ∈ s.live, b.ptr ≠ ptr → b.ptr + b.size ≤ lo ∨ hi ≤ b.ptr) ∧
    ∃ U B, HeapShape (s.call (.free ptr junk)) U B ∧
      ∀ u ∈ U, ∀ a ∈ u.headers, a + memRegionAlign ≤ lo ∨ hi ≤ a := by
  obtain ⟨U, B, hinv⟩ := HeapInv.reachable h
  have hc : s.Allowed (.free ptr junk) := hb
  obtain ⟨U', B', hinv', ht, -⟩ := hinv.free hc
  obtain ⟨hdlo, hdhi, w, hw, z, hz, hfree, hpl, hph, hlo, hhi⟩ := ht lo hi htrim
  refine ⟨hdlo, hdhi, ?_, fun b hbl hne => ?_, U', B', hinv'.shape, fun u hu a ha => ?_⟩
  · have hspan : w.span ∈ (s.call (.free ptr junk)).units :=
      hinv'.units.mem_iff.mpr (List.mem_map_of_mem hw)
    have hzb := (hinv'.ok w hw).region_bounds hz
    have hfits := (hinv'.ok w hw).fits
    refine ⟨w.span, List.mem_of_mem_filter hspan, ?_, ?_, ?_, ?_⟩ <;>
      simp only [HeapUnit.span] <;> omega
  · refine hinv'.payload_body hw hz hfree hlo hhi (List.mem_filter.mpr ⟨hbl, ?_⟩)
    simpa using hne
  · exact hinv'.header_body hw hz hlo hhi hu ha

/-- A block of three pages is given back while the one after it is held:
the page between the two headers' goes. -/
theorem heap_trim_safe_firstBlock : ∃ s, heapMachine.Reachable s ∧
    s.live = [⟨0x3760, 100⟩, ⟨0x1020, 10000⟩] ∧ s.heap.trim 0x1020 = some (0x2000, 0x3000) ∧
    ∀ b ∈ s.live, b.ptr ≠ 0x1020 → b.ptr + b.size ≤ 0x2000 ∨ 0x3000 ≤ b.ptr := by
  have h₁ : heapMachine.Reachable (firstBlock 10000) :=
    reachable_firstBlock (by decide) (by decide) (by decide +kernel)
  have h₂ : heapMachine.Reachable ((firstBlock 10000).nextBlock 100) :=
    reachable_nextBlock h₁ (by decide) (by decide) (by decide)
  have htrim : ((firstBlock 10000).nextBlock 100).heap.trim 0x1020 = some (0x2000, 0x3000) := by
    decide +kernel
  have hsafe := heap_trim_safe h₂ ⟨⟨0x1020, 10000⟩, by decide +kernel, rfl⟩ htrim
    emptyHeap.heap.toHeaderMem
  exact ⟨_, h₂, by decide +kernel, htrim, hsafe.2.2.2.1⟩

end ShmDos64
