import ShmDos64.Heap.Layout
/-!
# The heap's invariant

Each unit is a list of regions the address links spell; the free regions
are on the list of their size class and nowhere else, the busy ones carry
the marker; and each block a caller holds is the payload of a busy region.
The operations on the free lists touch no address link and no marker.
-/

namespace ShmDos64

open Function (update update_of_ne update_self)

/-- A unit: the memory the manager handed out, its regions, and the
closing header. -/
structure HeapUnit where
  base : ℕ
  bytes : ℕ
  regions : List HeapRegion
  stop : ℕ

/-- The unit's memory. -/
def HeapUnit.span (u : HeapUnit) : Span := ⟨u.base, u.bytes⟩

/-- The unit's headers. -/
def HeapUnit.headers (u : HeapUnit) : List ℕ := u.regions.map HeapRegion.addr ++ [u.stop]

/-- A unit is well formed in the memory. -/
structure UnitOk (next prev : ℕ → ℕ) (u : HeapUnit) : Prop where
  head : headAddr u.regions u.stop = u.base
  ne_nil : u.regions ≠ []
  layout : Layout u.regions u.stop
  fits : u.stop + memRegionAlign ≤ u.base + u.bytes
  seg : Seg next prev 0 u.regions u.stop
  null : next u.stop = 0
  apart : u.regions.IsChain fun r r' => r.busy ∨ r'.busy
  pos : 0 < u.base
  aligned : pageSize ∣ u.base
  bound : u.base + u.bytes ≤ 2 ^ 64
  regular : u.bytes ≤ heapAllocUnitSize ∨ ∃ r, u.regions = [r] ∧ r.busy

/-- The header at `a` is that of a free region of size class `i`. -/
def FreeIn (rs : List HeapRegion) (a i : ℕ) : Prop :=
  ∃ r ∈ rs, r.busy = false ∧ r.addr = a ∧ cpuLastOneBitIndex r.size = i

namespace FreeIn

variable {r : HeapRegion} {rs l₁ l₂ : List HeapRegion} {a i e : ℕ}

@[simp] theorem nil_iff : ¬ FreeIn [] a i := by simp [FreeIn]

@[simp] theorem cons_iff : FreeIn (r :: rs) a i ↔
    (r.busy = false ∧ r.addr = a ∧ cpuLastOneBitIndex r.size = i) ∨ FreeIn rs a i := by
  simp [FreeIn]

@[simp] theorem append_iff : FreeIn (l₁ ++ l₂) a i ↔ FreeIn l₁ a i ∨ FreeIn l₂ a i := by
  simp [FreeIn, or_and_right, exists_or]

theorem ne_of_append (hl : Layout (l₁ ++ r :: l₂) e) (h : FreeIn l₁ a i ∨ FreeIn l₂ a i) :
    a ≠ r.addr := by
  rintro rfl
  rcases h with ⟨r', hr', -, ha, -⟩ | ⟨r', hr', -, ha, -⟩
  · obtain ⟨l₃, l₄, rfl⟩ := List.append_of_mem hr'
    rw [List.append_assoc, List.cons_append] at hl
    have hle : r'.addr + r'.size ≤ r.addr := hl.le_of_append (by simp)
    have hs : 32 ≤ r'.size := hl.size_le (by simp)
    omega
  · have hle := hl.le_of_append hr'
    have hs : 32 ≤ r.size := hl.size_le (by simp)
    omega

/-- The free regions beside one. -/
theorem and_ne_iff (hl : Layout (l₁ ++ r :: l₂) e) :
    FreeIn (l₁ ++ r :: l₂) a i ∧ a ≠ r.addr ↔ FreeIn l₁ a i ∨ FreeIn l₂ a i := by
  simp only [append_iff, cons_iff]
  constructor
  · rintro ⟨h | ⟨-, rfl, -⟩ | h, hne⟩
    · exact Or.inl h
    · exact absurd rfl hne
    · exact Or.inr h
  · exact fun h => ⟨h.imp_right Or.inr, ne_of_append hl h⟩

end FreeIn

/-- **The heap's invariant.** -/
structure HeapInv (s : HeapState) (U : List HeapUnit) (B : ℕ → List ℕ) : Prop where
  units : s.units.Perm (U.map HeapUnit.span)
  ok : ∀ u ∈ U, UnitOk s.heap.addrNext s.heap.addrPrev u
  disjoint : U.Pairwise fun u w => u.base + u.bytes ≤ w.base ∨ w.base + w.bytes ≤ u.base
  busy : ∀ u ∈ U, ∀ r ∈ u.regions, r.busy → s.heap.szNext r.addr = heapMarkerBusy
  buckets : Buckets s.heap.szNext s.heap.szPrev s.heap.freeListTable B
  mem_bucket : ∀ a i, a ∈ B i ↔ ∃ u ∈ U, FreeIn u.regions a i
  live : ∀ b ∈ s.live, ∃ u ∈ U, ∃ r ∈ u.regions, r.busy ∧ r.addr + memRegionAlign = b.ptr ∧
    memRegionAlign + b.size ≤ r.size
  nodup : (s.live.map HeapBlock.ptr).Nodup

/-! ## The free lists -/

namespace Heap

variable {h : Heap} {B : ℕ → List ℕ} {i x a : ℕ}

@[simp] theorem deleteMemRegion_addrNext : (h.deleteMemRegion x i).addrNext = h.addrNext := by
  unfold deleteMemRegion; split <;> rfl

@[simp] theorem deleteMemRegion_addrPrev : (h.deleteMemRegion x i).addrPrev = h.addrPrev := by
  unfold deleteMemRegion; split <;> rfl

@[simp] theorem pushMemRegion_addrNext : (h.pushMemRegion x i).addrNext = h.addrNext := rfl

@[simp] theorem pushMemRegion_addrPrev : (h.pushMemRegion x i).addrPrev = h.addrPrev := rfl

@[simp] theorem deleteMemRegion_virtualMemorySize :
    (h.deleteMemRegion x i).virtualMemorySize = h.virtualMemorySize := by
  unfold deleteMemRegion; split <;> rfl

@[simp] theorem deleteMemRegion_size : (h.deleteMemRegion x i).size a = h.size a := by
  unfold size
  rw [deleteMemRegion_addrNext]

/-- **`deleteMemRegion`** takes the region off its list, and writes to no
header that is on none. -/
theorem deleteMemRegion_spec (hB : Buckets h.szNext h.szPrev h.freeListTable B) (hx : x ∈ B i) :
    ∃ B', Buckets (h.deleteMemRegion x i).szNext (h.deleteMemRegion x i).szPrev
        (h.deleteMemRegion x i).freeListTable B' ∧
      (∀ a j, a ∈ B' j ↔ a ∈ B j ∧ a ≠ x) ∧
      ∀ a, (∀ j, a ∉ B j) → (h.deleteMemRegion x i).szNext a = h.szNext a := by
  refine ⟨update B i ((B i).erase x), ?_, fun a j => ?_, fun a ha => ?_⟩
  · unfold deleteMemRegion
    split
    · rename_i hhd
      exact hB.unlink_head hx hhd.symm (fun _ _ => rfl) fun _ _ => rfl
    · rename_i hhd
      refine hB.unlink_inner hx (Ne.symm hhd) ?_ (fun y _ hy => ?_) (fun h0 => ?_) fun y _ hy => ?_
      · simp
      · simp [hy]
      · simp [h0]
      · simp only
        split
        · exact update_of_ne hy ..
        · rfl
  · rcases eq_or_ne j i with rfl | hj
    · rw [update_self, (hB.nodup j).mem_erase_iff, and_comm]
    · rw [update_of_ne hj]
      refine ⟨fun hm => ⟨hm, fun he => hj (hB.disjoint j i x (he ▸ hm) hx)⟩, fun hm => hm.1⟩
  · unfold deleteMemRegion
    split
    · rfl
    · rename_i hhd
      have hprev := hB.prev_mem hx (Ne.symm hhd)
      refine update_of_ne (fun he => ha i ?_) ..
      rw [he]
      exact hprev.1

/-- **`pushMemRegion`** puts a region that is on no list on one. -/
theorem pushMemRegion_spec (hB : Buckets h.szNext h.szPrev h.freeListTable B) (hx0 : x ≠ 0)
    (hx : ∀ j, x ∉ B j) (i : ℕ) :
    ∃ B', Buckets (h.pushMemRegion x i).szNext (h.pushMemRegion x i).szPrev
        (h.pushMemRegion x i).freeListTable B' ∧
      (∀ a j, a ∈ B' j ↔ a ∈ B j ∨ a = x ∧ j = i) ∧
      ∀ a, a ≠ x → (h.pushMemRegion x i).szNext a = h.szNext a := by
  refine ⟨update B i (x :: B i), ?_, fun a j => ?_, fun a ha => update_of_ne ha ..⟩
  · refine hB.push hx0 hx ?_ (fun y hy => ?_) (fun h0 => ?_) fun y _ hy => ?_
    · simp [pushMemRegion]
    · simp [pushMemRegion, hy]
    · simp [pushMemRegion, h0]
    · simp only [pushMemRegion]
      split
      · exact update_of_ne hy ..
      · rfl
  · rcases eq_or_ne j i with rfl | hj
    · simp [or_comm]
    · simp [hj]

theorem updateMemRegion_of_ne (hne : cpuLastOneBitIndex (h.size x) ≠ i) : h.updateMemRegion x i =
      (h.deleteMemRegion x i).pushMemRegion x (cpuLastOneBitIndex (h.size x)) :=
  if_pos hne

theorem updateMemRegion_of_eq (heq : cpuLastOneBitIndex (h.size x) = i) :
    h.updateMemRegion x i = h :=
  if_neg (not_not.mpr heq)

/-- **`updateMemRegion`** moves a region to the list of its new size. -/
theorem updateMemRegion_spec (hB : Buckets h.szNext h.szPrev h.freeListTable B) (hx : x ∈ B i) :
    ∃ B', Buckets (h.updateMemRegion x i).szNext (h.updateMemRegion x i).szPrev
        (h.updateMemRegion x i).freeListTable B' ∧
      (∀ a j, a ∈ B' j ↔ a ∈ B j ∧ a ≠ x ∨ a = x ∧ j = cpuLastOneBitIndex (h.size x)) ∧
      (∀ a, (∀ j, a ∉ B j) → (h.updateMemRegion x i).szNext a = h.szNext a) ∧
      (h.updateMemRegion x i).addrNext = h.addrNext ∧
      (h.updateMemRegion x i).addrPrev = h.addrPrev := by
  by_cases hidx : cpuLastOneBitIndex (h.size x) = i
  · rw [updateMemRegion_of_eq hidx]
    refine ⟨B, hB, fun a j => ?_, fun _ _ => rfl, rfl, rfl⟩
    rw [hidx]
    by_cases hax : a = x
    · subst hax
      simp only [ne_eq, not_true_eq_false, and_false, true_and, false_or]
      exact ⟨fun hm => hB.disjoint j i a hm hx, fun hj => hj ▸ hx⟩
    · simp [hax]
  · rw [updateMemRegion_of_ne hidx]
    obtain ⟨B₁, hB₁, hmem₁, hframe₁⟩ := deleteMemRegion_spec hB hx
    have hx₁ : ∀ j, x ∉ B₁ j := fun j hm => ((hmem₁ x j).mp hm).2 rfl
    obtain ⟨B₂, hB₂, hmem₂, hframe₂⟩ := pushMemRegion_spec hB₁ ((hB.links i).ne_end x hx) hx₁
      (cpuLastOneBitIndex (h.size x))
    refine ⟨B₂, hB₂, fun a j => ?_, fun a ha => ?_, by simp, by simp⟩
    · rw [hmem₂, hmem₁]
    · rw [hframe₂ a fun he => ha i (he ▸ hx), hframe₁ a ha]

end Heap

/-! ## Units and headers -/

namespace UnitOk

variable {next prev next' prev' : ℕ → ℕ} {u : HeapUnit} {r r' : HeapRegion} {a : ℕ}

theorem region_bounds (h : UnitOk next prev u) (hr : r ∈ u.regions) :
    u.base ≤ r.addr ∧ r.addr + r.size ≤ u.stop :=
  h.head ▸ h.layout.bounds hr

/-- A header's bytes are bytes of the unit. -/
theorem header_bounds (h : UnitOk next prev u) (ha : a ∈ u.headers) :
    u.base ≤ a ∧ a + memRegionAlign ≤ u.base + u.bytes := by
  have hfits := h.fits
  rcases List.mem_append.mp ha with ha | ha
  · obtain ⟨r, hr, rfl⟩ := List.mem_map.mp ha
    have hb := h.region_bounds hr
    have hs := h.layout.size_le hr
    exact ⟨hb.1, by omega⟩
  · rw [List.mem_singleton.mp ha]
    exact ⟨h.head ▸ h.layout.headAddr_le, hfits⟩

theorem dvd_header (h : UnitOk next prev u) (ha : a ∈ u.headers) : memRegionAlign ∣ a := by
  have hbase : memRegionAlign ∣ headAddr u.regions u.stop := by
    rw [h.head]
    exact Dvd.dvd.trans (by norm_num) h.aligned
  rcases List.mem_append.mp ha with ha | ha
  · obtain ⟨r, hr, rfl⟩ := List.mem_map.mp ha
    exact h.layout.dvd_addr hbase hr
  · rw [List.mem_singleton.mp ha]
    exact h.layout.dvd_end hbase

theorem addr_mem (hr : r ∈ u.regions) : r.addr ∈ u.headers :=
  List.mem_append_left _ (List.mem_map_of_mem hr)

theorem stop_mem : u.stop ∈ u.headers := by simp [HeapUnit.headers]

section

variable (h : UnitOk next prev u)

include h

/-- A header is at the start of a region or past its end, never inside. -/
theorem header_le (hr : r ∈ u.regions) (ha : a ∈ u.headers) : a ≤ r.addr ∨ r.addr + r.size ≤ a := by
  rcases List.mem_append.mp ha with ha | ha
  · obtain ⟨r', hr', rfl⟩ := List.mem_map.mp ha
    rcases h.layout.eq_or_le hr hr' with rfl | hle | hle
    · exact Or.inl le_rfl
    · exact Or.inr hle
    · exact Or.inl (by omega)
  · rw [List.mem_singleton.mp ha]
    exact Or.inr (h.region_bounds hr).2

/-- A unit is well formed by its headers' address links alone. -/
theorem congr (heq : ∀ a ∈ u.headers, next' a = next a ∧ prev' a = prev a) : UnitOk next' prev' u :=
  { h with
    seg := h.seg.congr (fun _ hr => (heq _ (addr_mem hr)).1) fun _ hr => (heq _ (addr_mem hr)).2
    null := (heq _ stop_mem).1.trans h.null }

/-- A unit with a free region is not one of `allocHuge`. -/
theorem regular_of_free (hr : r ∈ u.regions) (hf : r.busy = false) :
    u.bytes ≤ heapAllocUnitSize := by
  rcases h.regular with hle | ⟨r', hl, hb⟩
  · exact hle
  · rw [hl, List.mem_singleton] at hr
    rw [hr, hb] at hf
    cases hf

/-- Nor is one of several regions. -/
theorem regular_of_two {l₁ l₂ : List HeapRegion} (hl : u.regions = l₁ ++ r :: l₂)
    (hne : l₁ ≠ [] ∨ l₂ ≠ []) : u.bytes ≤ heapAllocUnitSize := by
  rcases h.regular with hle | ⟨r', hl', -⟩
  · exact hle
  · have hlen := congrArg List.length (hl.symm.trans hl')
    simp only [List.length_append, List.length_cons, List.length_nil] at hlen
    rcases hne with hne | hne
    all_goals
      have := List.length_pos_of_ne_nil hne
      omega

/-- A free region is of a size class the table has. -/
theorem small (hr : r ∈ u.regions) (hf : r.busy = false) : r.size < 2 ^ heapLogTableSize := by
  have hreg := h.regular_of_free hr hf
  have hb := h.region_bounds hr
  have hfits := h.fits
  simp only [heapAllocUnitSize, heapLogTableSize, memRegionAlign] at *
  omega

/-- **Regions of the unit replaced by others** with the same first header. -/
theorem replace {l₁ m n l₂ : List HeapRegion} (hl : u.regions = l₁ ++ (m ++ l₂)) (hne : n ≠ [])
    (ha : headAddr n (headAddr l₂ u.stop) = headAddr m (headAddr l₂ u.stop))
    (hlay : Layout n (headAddr l₂ u.stop))
    (hseg : Seg next' prev' (lastAddr 0 l₁) n (headAddr l₂ u.stop))
    (hn₁ : ∀ z ∈ l₁, next' z.addr = next z.addr ∧ prev' z.addr = prev z.addr)
    (hn₂ : ∀ z ∈ l₂, next' z.addr = next z.addr)
    (hhead : l₂ ≠ [] → prev' (headAddr l₂ u.stop) = lastAddr (lastAddr 0 l₁) n)
    (hp₂ : ∀ z ∈ l₂.tail, prev' z.addr = prev z.addr) (hnull : next' u.stop = next u.stop)
    (hapart : (l₁ ++ (n ++ l₂)).IsChain fun r r' => r.busy ∨ r'.busy)
    (hreg : u.bytes ≤ heapAllocUnitSize) :
    UnitOk next' prev' { u with regions := l₁ ++ (n ++ l₂) } where
  head := by
    have hhd := h.head
    rw [hl, headAddr_append, headAddr_append] at hhd
    rw [headAddr_append, headAddr_append, ha, hhd]
  ne_nil := by simp [hne]
  layout := (hl ▸ h.layout).replace ha hlay
  fits := h.fits
  seg := (hl ▸ h.seg).replace ha hseg hn₁ hn₂ hhead hp₂
  null := hnull.trans h.null
  apart := hapart
  pos := h.pos
  aligned := h.aligned
  bound := h.bound
  regular := Or.inl hreg

end

/-- `size` reads the size of the region. -/
theorem size_eq {heap : Heap} (h : UnitOk heap.addrNext heap.addrPrev u) (hr : r ∈ u.regions) :
    heap.size r.addr = r.size := by
  obtain ⟨l₁, l₂, hl⟩ := List.append_of_mem hr
  have hseg := h.seg
  have hlay := h.layout
  rw [hl] at hseg hlay
  have hnext : heap.addrNext r.addr = r.addr + r.size := by
    rw [hseg.at_append.1]
    exact (Layout.append_iff.mp hlay).2.1.symm
  have hb := h.region_bounds hr
  have hfits := h.fits
  have hbound := h.bound
  have hbase := h.pos
  unfold Heap.size
  rw [hnext]
  omega

end UnitOk

namespace HeapInv

variable {s : HeapState} {u w : HeapUnit} {U U' : List HeapUnit} {B : ℕ → List ℕ}
variable {r r' : HeapRegion} {a i : ℕ}

theorem perm (h : HeapInv s U B) (hp : U.Perm U') : HeapInv s U' B where
  units := h.units.trans (hp.map _)
  ok u hu := h.ok u (hp.mem_iff.mpr hu)
  disjoint := h.disjoint.perm hp fun {x y} hxy => hxy.symm
  busy u hu := h.busy u (hp.mem_iff.mpr hu)
  buckets := h.buckets
  mem_bucket a i := by
    rw [h.mem_bucket]
    exact exists_congr fun u => and_congr_left fun _ => hp.mem_iff
  live b hb := by
    obtain ⟨u, hu, hr⟩ := h.live b hb
    exact ⟨u, hp.mem_iff.mp hu, hr⟩
  nodup := h.nodup

/-- The unit at hand, first in the list. -/
theorem exists_cons (h : HeapInv s U B) (hu : u ∈ U) :
    ∃ U', U.Perm (u :: U') ∧ HeapInv s (u :: U') B := by
  obtain ⟨U₁, U₂, rfl⟩ := List.append_of_mem hu
  exact ⟨U₁ ++ U₂, List.perm_middle, h.perm List.perm_middle⟩

/-- The bytes of the other units are not the unit's. -/
theorem header_outside (h : HeapInv s (u :: U) B) (hw : w ∈ U) (ha : a ∈ w.headers) :
    a + memRegionAlign ≤ u.base ∨ u.base + u.bytes ≤ a := by
  have hb := (h.ok w (by simp [hw])).header_bounds ha
  rcases (List.pairwise_cons.mp h.disjoint).1 w hw with hd | hd <;> omega

theorem ok_head (h : HeapInv s (u :: U) B) : UnitOk s.heap.addrNext s.heap.addrPrev u :=
  h.ok u (by simp)

/-- A region is known by its header. -/
theorem eq_of_addr (h : HeapInv s U B) (hu : u ∈ U) (hw : w ∈ U) (hr : r ∈ u.regions)
    (hr' : r' ∈ w.regions) (ha : r.addr = r'.addr) : r = r' := by
  obtain ⟨U', hp, h'⟩ := h.exists_cons hu
  rcases List.mem_cons.mp (hp.mem_iff.mp hw) with rfl | hw
  · exact h'.ok_head.layout.eq_of_addr hr hr' ha
  · have hout := h'.header_outside hw (UnitOk.addr_mem hr')
    have hin := h'.ok_head.header_bounds (UnitOk.addr_mem hr)
    simp only [memRegionAlign] at hout hin
    omega

/-- A busy region is on no list. -/
theorem notMem_of_busy (h : HeapInv s U B) (hu : u ∈ U) (hr : r ∈ u.regions) (hb : r.busy) :
    r.addr ∉ B i := by
  intro hm
  obtain ⟨w, hw, r', hr', hfree, ha, -⟩ := (h.mem_bucket _ _).mp hm
  rw [h.eq_of_addr hu hw hr hr' ha.symm, hfree] at hb
  cases hb

/-- A free region is on the list of its size. -/
theorem mem_of_free (h : HeapInv s U B) (hu : u ∈ U) (hr : r ∈ u.regions) (hf : r.busy = false) :
    r.addr ∈ B (cpuLastOneBitIndex r.size) :=
  (h.mem_bucket _ _).mpr ⟨u, hu, r, hr, hf, rfl, rfl⟩

/-- What is on a list is a header. -/
theorem header_of_mem (h : HeapInv s U B) (ha : a ∈ B i) : ∃ u ∈ U, a ∈ u.headers := by
  obtain ⟨u, hu, r, hr, -, rfl, -⟩ := (h.mem_bucket _ _).mp ha
  exact ⟨u, hu, UnitOk.addr_mem hr⟩

/-- The lists of the other units. -/
theorem mem_bucket_others (h : HeapInv s (u :: U) B) :
    (∃ w ∈ U, FreeIn w.regions a i) ↔ a ∈ B i ∧ ∀ r ∈ u.regions, r.addr ≠ a := by
  rw [h.mem_bucket]
  constructor
  · rintro ⟨w, hw, r', hr', hfree, rfl, hi⟩
    refine ⟨⟨w, by simp [hw], r', hr', hfree, rfl, hi⟩, fun r hr he => ?_⟩
    have hout := h.header_outside hw (UnitOk.addr_mem hr')
    have hin := h.ok_head.header_bounds (UnitOk.addr_mem hr)
    simp only [memRegionAlign] at hout hin
    omega
  · rintro ⟨⟨w, hw, r', hr', hfree, rfl, hi⟩, hne⟩
    rcases List.mem_cons.mp hw with rfl | hw
    · exact absurd rfl (hne r' hr')
    · exact ⟨w, hw, r', hr', hfree, rfl, hi⟩

theorem mem_bucket_cons (h : HeapInv s (u :: U) B) :
    a ∈ B i ↔ (a ∈ B i ∧ ∀ r ∈ u.regions, r.addr ≠ a) ∨ FreeIn u.regions a i := by
  rw [← h.mem_bucket_others, h.mem_bucket]
  simp only [List.mem_cons, exists_eq_or_imp]
  exact or_comm

/-- What the lists hold without one region of the unit. -/
theorem mem_bucket_ne (h : HeapInv s (u :: U) B) (hr : r ∈ u.regions) : a ∈ B i ∧ a ≠ r.addr ↔
      (a ∈ B i ∧ ∀ r' ∈ u.regions, r'.addr ≠ a) ∨ FreeIn u.regions a i ∧ a ≠ r.addr := by
  constructor
  · rintro ⟨hm, hne⟩
    exact (h.mem_bucket_cons.mp hm).imp_right fun hf => ⟨hf, hne⟩
  · rintro (⟨hm, hall⟩ | ⟨hf, hne⟩)
    · exact ⟨hm, (hall r hr).symm⟩
    · exact ⟨h.mem_bucket_cons.mpr (Or.inr hf), hne⟩

/-- The block is the payload of a busy region. -/
def Payload (u : HeapUnit) (b : HeapBlock) : Prop :=
  ∃ r ∈ u.regions, r.busy ∧ r.addr + memRegionAlign = b.ptr ∧ memRegionAlign + b.size ≤ r.size

/-- The rest of the heap after a change in one unit. -/
structure Frame (h h' : Heap) (u : HeapUnit) (B : ℕ → List ℕ) : Prop where
  addr : ∀ a, a + memRegionAlign ≤ u.base ∨ u.base + u.bytes ≤ a →
    h'.addrNext a = h.addrNext a ∧ h'.addrPrev a = h.addrPrev a
  marker : ∀ a, a + memRegionAlign ≤ u.base ∨ u.base + u.bytes ≤ a → (∀ i, a ∉ B i) →
    h'.szNext a = h.szNext a

variable {B' : ℕ → List ℕ}

/-- **One unit changes**, the others keep their regions. -/
theorem replace {u' : HeapUnit} {heap : Heap} {live : List HeapBlock}
    (h : HeapInv s (u :: U) B) (hframe : Frame s.heap heap u B) (hspan : u'.span = u.span)
    (hok : UnitOk heap.addrNext heap.addrPrev u')
    (hbusy : ∀ r ∈ u'.regions, r.busy → heap.szNext r.addr = heapMarkerBusy)
    (hB : Buckets heap.szNext heap.szPrev heap.freeListTable B')
    (hmem : ∀ a i, a ∈ B' i ↔ (a ∈ B i ∧ ∀ r ∈ u.regions, r.addr ≠ a) ∨ FreeIn u'.regions a i)
    (hlive : ∀ b ∈ live, (∃ w ∈ U, Payload w b) ∨ Payload u' b)
    (hnodup : (live.map HeapBlock.ptr).Nodup) : HeapInv ⟨heap, s.units, live⟩ (u' :: U) B' where
  units := by
    rw [List.map_cons, hspan, ← List.map_cons]
    exact h.units
  ok w hw := by
    rcases List.mem_cons.mp hw with rfl | hw
    · exact hok
    · exact (h.ok w (by simp [hw])).congr fun a ha => hframe.addr a (h.header_outside hw ha)
  disjoint := by
    have hb : u'.base = u.base ∧ u'.bytes = u.bytes := by simpa [HeapUnit.span] using hspan
    have hd := List.pairwise_cons.mp h.disjoint
    refine List.pairwise_cons.mpr ⟨fun w hw => ?_, hd.2⟩
    rw [hb.1, hb.2]
    exact hd.1 w hw
  busy w hw r hr hrb := by
    rcases List.mem_cons.mp hw with rfl | hw
    · exact hbusy r hr hrb
    · have hw' : w ∈ u :: U := by simp [hw]
      exact (hframe.marker _ (h.header_outside hw (UnitOk.addr_mem hr)) fun i =>
        h.notMem_of_busy hw' hr hrb).trans (h.busy w hw' r hr hrb)
  buckets := hB
  mem_bucket a i := by
    rw [hmem, ← h.mem_bucket_others]
    simp only [List.mem_cons, exists_eq_or_imp]
    exact or_comm
  live b hb := by
    rcases hlive b hb with ⟨w, hw, hp⟩ | hp
    · exact ⟨w, by simp [hw], hp⟩
    · exact ⟨u', by simp, hp⟩
  nodup := hnodup

/-- **A unit is added**, with one block. -/
theorem newUnit {u' : HeapUnit} {heap : Heap} {b : HeapBlock}
    (h : HeapInv s U B) (hfresh : s.Fresh u'.bytes u'.base) (hframe : Frame s.heap heap u' B)
    (hok : UnitOk heap.addrNext heap.addrPrev u')
    (hbusy : ∀ r ∈ u'.regions, r.busy → heap.szNext r.addr = heapMarkerBusy)
    (hB : Buckets heap.szNext heap.szPrev heap.freeListTable B')
    (hmem : ∀ a i, a ∈ B' i ↔ a ∈ B i ∨ FreeIn u'.regions a i)
    (hblock : Payload u' b) : HeapInv ⟨heap, u'.span :: s.units, b :: s.live⟩ (u' :: U) B' := by
  have hdisj : ∀ w ∈ U, u'.base + u'.bytes ≤ w.base ∨ w.base + w.bytes ≤ u'.base := by
    intro w hw
    have hm : w.span ∈ s.units := h.units.mem_iff.mpr (List.mem_map_of_mem hw)
    exact hfresh.disjoint w.span hm
  have hout : ∀ w ∈ U, ∀ a ∈ w.headers,
      a + memRegionAlign ≤ u'.base ∨ u'.base + u'.bytes ≤ a := by
    intro w hw a ha
    have hb := (h.ok w hw).header_bounds ha
    rcases hdisj w hw with hd | hd <;> omega
  refine ⟨h.units.cons _, fun w hw => ?_, List.pairwise_cons.mpr ⟨hdisj, h.disjoint⟩,
    fun w hw r hr hrb => ?_, hB, fun a i => ?_, fun c hc => ?_,
    List.nodup_cons.mpr ⟨fun hm => ?_, h.nodup⟩⟩
  · rcases List.mem_cons.mp hw with rfl | hw
    · exact hok
    · exact (h.ok w hw).congr fun a ha => hframe.addr a (hout w hw a ha)
  · rcases List.mem_cons.mp hw with rfl | hw
    · exact hbusy r hr hrb
    · exact (hframe.marker _ (hout w hw _ (UnitOk.addr_mem hr)) fun i =>
        h.notMem_of_busy hw hr hrb).trans (h.busy w hw r hr hrb)
  · rw [hmem, h.mem_bucket]
    simp only [List.mem_cons, exists_eq_or_imp]
    exact or_comm
  · rcases List.mem_cons.mp hc with rfl | hc
    · exact ⟨u', by simp, hblock⟩
    · obtain ⟨w, hw, hp⟩ := h.live c hc
      exact ⟨w, by simp [hw], hp⟩
  · -- no other block starts in the unit
    obtain ⟨c, hc, hptr⟩ := List.mem_map.mp hm
    obtain ⟨w, hw, r, hr, -, hrp, -⟩ := h.live c hc
    obtain ⟨r', hr', -, hrp', -⟩ := hblock
    have hold := hout w hw _ (UnitOk.addr_mem hr)
    have hnew := hok.header_bounds (UnitOk.addr_mem hr')
    simp only [memRegionAlign] at hold hnew
    omega

/-- **A unit is given back.** -/
theorem dropUnit {heap : Heap} {live : List HeapBlock} (h : HeapInv s (u :: U) B)
    (hframe : Frame s.heap heap u B) (hB : Buckets heap.szNext heap.szPrev heap.freeListTable B')
    (hmem : ∀ a i, a ∈ B' i ↔ a ∈ B i ∧ ∀ r ∈ u.regions, r.addr ≠ a)
    (hlive : ∀ b ∈ live, ∃ w ∈ U, Payload w b) (hnodup : (live.map HeapBlock.ptr).Nodup) :
    HeapInv ⟨heap, s.units.filter fun x => some u.base ≠ some x.base, live⟩ U B' where
  units := by
    have hu := h.ok_head
    -- the units have distinct bases, since each holds a header
    have hne : ∀ w ∈ U, u.base ≠ w.base := by
      intro w hw he
      have hout := h.header_outside hw UnitOk.stop_mem
      have hin := (h.ok w (by simp [hw])).header_bounds UnitOk.stop_mem
      have hin' := hu.header_bounds UnitOk.stop_mem
      have hd := (List.pairwise_cons.mp h.disjoint).1 w hw
      simp only [memRegionAlign] at hin hin'
      omega
    refine (h.units.filter _).trans ?_
    rw [List.map_cons, List.filter_cons_of_neg (by simp [HeapUnit.span])]
    refine List.Perm.of_eq (List.filter_eq_self.mpr fun x hx => ?_)
    obtain ⟨w, hw, rfl⟩ := List.mem_map.mp hx
    simpa [HeapUnit.span] using hne w hw
  ok w hw := (h.ok w (by simp [hw])).congr fun a ha => hframe.addr a (h.header_outside hw ha)
  disjoint := (List.pairwise_cons.mp h.disjoint).2
  busy w hw r hr hrb :=
    have hw' : w ∈ u :: U := by simp [hw]
    (hframe.marker _ (h.header_outside hw (UnitOk.addr_mem hr)) fun i =>
      h.notMem_of_busy hw' hr hrb).trans (h.busy w hw' r hr hrb)
  buckets := hB
  mem_bucket a i := by rw [hmem, h.mem_bucket_others]
  live := hlive
  nodup := hnodup

/-- **Writes beside the headers** change nothing. -/
theorem congr_headers {heap : Heap} (h : HeapInv s U B)
    (htable : heap.freeListTable = s.heap.freeListTable)
    (heq : ∀ u ∈ U, ∀ a ∈ u.headers, heap.szNext a = s.heap.szNext a ∧
      heap.szPrev a = s.heap.szPrev a ∧ heap.addrNext a = s.heap.addrNext a ∧
      heap.addrPrev a = s.heap.addrPrev a) :
    HeapInv { s with heap := heap } U B where
  units := h.units
  ok u hu := (h.ok u hu).congr fun a ha => (heq u hu a ha).2.2
  disjoint := h.disjoint
  busy u hu r hr hrb := ((heq u hu _ (UnitOk.addr_mem hr)).1).trans (h.busy u hu r hr hrb)
  buckets := by
    simp only [htable]
    refine h.buckets.congr (fun j y hy => ?_) fun j y hy => ?_
    · obtain ⟨u, hu, ha⟩ := h.header_of_mem hy
      exact (heq u hu y ha).1
    · obtain ⟨u, hu, ha⟩ := h.header_of_mem hy
      exact (heq u hu y ha).2.1
  mem_bucket := h.mem_bucket
  live := h.live
  nodup := h.nodup

/-- **No payload holds a byte of a header.** -/
theorem payload_header {b : HeapBlock} (h : HeapInv s U B) (hb : b ∈ s.live) (hw : w ∈ U)
    (ha : a ∈ w.headers) : a + memRegionAlign ≤ b.ptr ∨ b.ptr + b.size ≤ a := by
  obtain ⟨u, hu, r, hr, -, hptr, hsize⟩ := h.live b hb
  obtain ⟨U', hp, h'⟩ := h.exists_cons hu
  have hbnd := h'.ok_head.region_bounds hr
  have hfits := h'.ok_head.fits
  rcases List.mem_cons.mp (hp.mem_iff.mp hw) with rfl | hw
  · rcases h'.ok_head.header_le hr ha with hle | hle <;> omega
  · rcases h'.header_outside hw ha with hout | hout <;> omega

/-- **The payloads are disjoint.** -/
theorem payload_disjoint {b b' : HeapBlock} (h : HeapInv s U B) (hb : b ∈ s.live)
    (hb' : b' ∈ s.live) (hne : b ≠ b') : b.ptr + b.size ≤ b'.ptr ∨ b'.ptr + b'.size ≤ b.ptr := by
  obtain ⟨u, hu, r, hr, -, hptr, hsize⟩ := h.live b hb
  obtain ⟨w, hw, r', hr', -, hptr', hsize'⟩ := h.live b' hb'
  have hptr_ne : b.ptr ≠ b'.ptr := fun he =>
    hne (List.inj_on_of_nodup_map h.nodup hb hb' he)
  have hph := h.payload_header hb hw (UnitOk.addr_mem hr')
  have hph' := h.payload_header hb' hu (UnitOk.addr_mem hr)
  simp only [memRegionAlign] at *
  omega

end HeapInv

/-! ## The units and the blocks counted -/

/-- A huge region of `alloc` leaves no byte of its pages unused. -/
def Heap.Tight (size : ℕ) : Prop :=
  heapMemRegionLimit ≤ regionSize size → pageSize ∣ regionSize size + memRegionAlign

/-- The unit reaches to the end of its memory, or is that of a block which
leaves some of it unused. -/
def HeapUnit.Covered (live : List HeapBlock) (u : HeapUnit) : Prop :=
  u.stop + memRegionAlign = u.base + u.bytes ∨
    ∃ b ∈ live, b.ptr = u.base + memRegionAlign ∧ ¬ Heap.Tight b.size

theorem HeapUnit.Covered.mono {u : HeapUnit} {live live' : List HeapBlock} (h : u.Covered live)
    (hkeep : ∀ b ∈ live, ¬ Heap.Tight b.size → b ∈ live') : u.Covered live' :=
  h.imp_right fun ⟨b, hb, hptr, hloose⟩ => ⟨b, hkeep b hb hloose, hptr, hloose⟩

/-- **The books balance**: each unit is covered and has a busy region,
`m_virtualMemorySize` is what the units take together,
and there are as many busy regions as blocks. -/
structure Books (s : HeapState) (U : List HeapUnit) : Prop where
  full : ∀ u ∈ U, u.Covered s.live
  used : ∀ u ∈ U, 0 < u.regions.countP HeapRegion.busy
  total : s.heap.virtualMemorySize = (U.map HeapUnit.bytes).sum % 2 ^ 64
  blocks : (U.map fun u => u.regions.countP HeapRegion.busy).sum = s.live.length

namespace Books

variable {s : HeapState} {u : HeapUnit} {U U' : List HeapUnit} {heap : Heap}
variable {units : List Span} {live : List HeapBlock} {rs : List HeapRegion}

theorem perm (h : Books s U) (hp : U.Perm U') : Books s U' where
  full u hu := h.full u (hp.mem_iff.mpr hu)
  used u hu := h.used u (hp.mem_iff.mpr hu)
  total := h.total.trans (by rw [(hp.map _).sum_nat])
  blocks := (hp.map _).sum_nat.symm.trans h.blocks

/-- One unit gets other regions. -/
theorem replace (h : Books s (u :: U)) (htotal : heap.virtualMemorySize = s.heap.virtualMemorySize)
    (hkeep : ∀ b ∈ s.live, ¬ Heap.Tight b.size → b ∈ live)
    (hused : 0 < rs.countP HeapRegion.busy)
    (hcount : rs.countP HeapRegion.busy + s.live.length =
      u.regions.countP HeapRegion.busy + live.length) :
    Books ⟨heap, units, live⟩ ({ u with regions := rs } :: U) where
  full := List.forall_mem_cons.mpr
    ⟨(h.full u (by simp)).mono hkeep, fun w hw => (h.full w (by simp [hw])).mono hkeep⟩
  used := List.forall_mem_cons.mpr ⟨hused, fun w hw => h.used w (by simp [hw])⟩
  total := htotal.trans h.total
  blocks := by
    have hblocks := h.blocks
    simp only [List.map_cons, List.sum_cons] at hblocks ⊢
    omega

/-- A unit is added, with one block. -/
theorem newUnit {b : HeapBlock} (h : Books s U) (hfull : u.Covered (b :: s.live))
    (hone : u.regions.countP HeapRegion.busy = 1)
    (htotal : heap.virtualMemorySize = (s.heap.virtualMemorySize + u.bytes) % 2 ^ 64) :
    Books ⟨heap, units, b :: s.live⟩ (u :: U) where
  full := List.forall_mem_cons.mpr ⟨hfull, fun w hw =>
    (h.full w hw).mono fun _ hb _ => List.mem_cons_of_mem _ hb⟩
  used := List.forall_mem_cons.mpr ⟨by omega, h.used⟩
  total := by
    have := h.total
    simp only [List.map_cons, List.sum_cons]
    omega
  blocks := by
    have := h.blocks
    simp only [List.map_cons, List.sum_cons, List.length_cons]
    omega

/-- A unit is given back, with its last block. -/
theorem dropUnit (h : Books s (u :: U)) (hbound : u.base + u.bytes ≤ 2 ^ 64)
    (hfull : u.stop + memRegionAlign = u.base + u.bytes)
    (hkeep : ∀ b ∈ s.live, ¬ Heap.Tight b.size → b ∈ live)
    (hone : u.regions.countP HeapRegion.busy = 1) (hlive : live.length + 1 = s.live.length)
    (htotal : heap.virtualMemorySize =
      (s.heap.virtualMemorySize + 2 ^ 64 - (u.stop - u.base + memRegionAlign)) % 2 ^ 64)
    (hle : u.base ≤ u.stop) : Books ⟨heap, units, live⟩ U where
  full w hw := (h.full w (by simp [hw])).mono hkeep
  used w hw := h.used w (by simp [hw])
  total := by
    have hsum := h.total
    simp only [List.map_cons, List.sum_cons, memRegionAlign] at hfull hsum htotal
    dsimp only
    omega
  blocks := by
    have hblocks := h.blocks
    simp only [List.map_cons, List.sum_cons] at hblocks ⊢
    omega

end Books

/-- A step from `s` to `t` keeps the invariant, and the books balanced. -/
def Keeps (s t : HeapState) (U : List HeapUnit) : Prop :=
  ∃ U' B', HeapInv t U' B' ∧ (Books s U → Books t U')

theorem Keeps.perm {s t : HeapState} {U U' : List HeapUnit} (hp : U.Perm U') (h : Keeps s t U') :
    Keeps s t U := by
  obtain ⟨W, B, hinv, hbooks⟩ := h
  exact ⟨W, B, hinv, fun hs => hbooks (hs.perm hp)⟩

end ShmDos64
