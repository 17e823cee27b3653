import ShmDos64.Heap.Invariant
/-!
# `alloc` keeps the invariant

The scans find a free region of the asked size, or a larger one; it is
taken whole, or split; or a new unit is laid out. Each way rewrites the
regions of one unit, and the lists accordingly.
-/

namespace ShmDos64

open Function (update update_of_ne update_self)
open Heap FreeIn

namespace HeapInv

variable {s : HeapState} {u w : HeapUnit} {U : List HeapUnit} {B : ℕ → List ℕ}
variable {r : HeapRegion} {l₁ l₂ : List HeapRegion} {a i n x : ℕ}

/-! ## The searches -/

/-- The region of an address on a list. -/
theorem exists_region (h : HeapInv s U B) (hx : x ∈ B i) :
    ∃ u ∈ U, ∃ r ∈ u.regions, r.busy = false ∧ r.addr = x ∧ cpuLastOneBitIndex r.size = i ∧
      s.heap.size x = r.size := by
  obtain ⟨u, hu, r, hr, hf, rfl, hi⟩ := (h.mem_bucket _ _).mp hx
  exact ⟨u, hu, r, hr, hf, rfl, hi, (h.ok u hu).size_eq hr⟩

/-- The bounded scan ends with a region of the list that is large enough,
or with the one it started with. -/
theorem scanFreeList_spec {g : Heap} {l : List ℕ} {k cur m d : ℕ} (hl : Links g.szNext 0 cur l) :
    match g.scanFreeList n k cur m d with
    | .inl path => ∃ x ∈ l, path = .equal x ∧ g.size x = n
    | .inr m' => m' = m ∨ m' ∈ l ∧ n < g.size m' := by
  induction k generalizing cur l m d with
  | zero => exact Or.inl rfl
  | succ k ih =>
    rw [scanFreeList]
    cases l with
    | nil =>
      rw [if_pos (Links.nil_iff.mp hl)]
      exact Or.inl rfl
    | cons y l =>
      obtain ⟨rfl, h0, hl⟩ := hl
      rw [if_neg h0]
      -- what the rest of the scan finds is in the list too
      have hrest : ∀ m' d' : ℕ, (m' = m ∨ m' = cur ∧ n < g.size cur) →
          match g.scanFreeList n k (g.szNext cur) m' d' with
          | .inl path => ∃ x ∈ cur :: l, path = .equal x ∧ g.size x = n
          | .inr m'' => m'' = m ∨ m'' ∈ cur :: l ∧ n < g.size m'' := by
        intro m' d' hm'
        have hih := ih (m := m') (d := d') hl
        cases hs : g.scanFreeList n k (g.szNext cur) m' d' with
        | inl path =>
          rw [hs] at hih
          obtain ⟨x, hx, hp⟩ := hih
          exact ⟨x, List.mem_cons_of_mem _ hx, hp⟩
        | inr m'' =>
          rw [hs] at hih
          rcases hih with rfl | ⟨hm, hlt⟩
          · rcases hm' with rfl | ⟨rfl, hlt⟩
            · exact Or.inl rfl
            · exact Or.inr ⟨by simp, hlt⟩
          · exact Or.inr ⟨List.mem_cons_of_mem _ hm, hlt⟩
      simp only
      by_cases h1 : n ≤ g.size cur
      · by_cases h2 : g.size cur - n < d
        · by_cases h3 : g.size cur - n = 0
          · simp only [if_pos h1, if_pos h2, if_pos h3]
            exact ⟨cur, by simp, rfl, by omega⟩
          · simp only [if_pos h1, if_pos h2, if_neg h3]
            exact hrest _ _ (Or.inr ⟨rfl, by omega⟩)
        · simp only [if_pos h1, if_neg h2]
          exact hrest _ _ (Or.inl rfl)
      · simp only [if_neg h1]
        exact hrest _ _ (Or.inl rfl)

/-- The search of the larger lists ends with the head of one, or with
none. -/
theorem findLarger_spec {g : Heap} {k : ℕ} : g.findLarger k i = .new ∨
      ∃ j, i ≤ j ∧ g.freeListTable j ≠ 0 ∧ g.findLarger k i = .more (g.freeListTable j) := by
  induction k generalizing i with
  | zero => exact Or.inl rfl
  | succ k ih =>
    rw [findLarger]
    by_cases h0 : g.freeListTable i ≠ 0
    · rw [if_pos h0]
      exact Or.inr ⟨i, le_rfl, h0, rfl⟩
    · rw [if_neg h0]
      rcases ih (i := i + 1) with hnew | ⟨j, hj, hne, heq⟩
      · exact Or.inl hnew
      · exact Or.inr ⟨j, by omega, hne, heq⟩

theorem head_mem (h : HeapInv s U B) (h0 : s.heap.freeListTable i ≠ 0) :
    s.heap.freeListTable i ∈ B i := by
  have hl := h.buckets.links i
  cases hB : B i with
  | nil =>
    rw [hB] at hl
    exact absurd hl h0
  | cons y ys =>
    rw [hB] at hl
    rw [hl.1]
    simp

/-- **The way `alloc` takes**: a region of the size, a larger one, or a
new unit. -/
theorem allocPath_spec (h : HeapInv s U B) : match s.heap.allocPath n with
    | .equal x => x ∈ B (cpuLastOneBitIndex n) ∧ s.heap.size x = n
    | .more x => ∃ i, x ∈ B i ∧ n < s.heap.size x
    | .new => n < heapMemRegionLimit
    | .huge => heapMemRegionLimit ≤ n := by
  unfold allocPath
  by_cases hhuge : heapMemRegionLimit ≤ n
  · rw [if_pos hhuge]
    exact hhuge
  · rw [if_neg hhuge]
    have hlarger : match s.heap.findLarger (heapLogTableSize - (cpuLastOneBitIndex n + 1))
        (cpuLastOneBitIndex n + 1) with
        | .equal x => x ∈ B (cpuLastOneBitIndex n) ∧ s.heap.size x = n
        | .more x => ∃ i, x ∈ B i ∧ n < s.heap.size x
        | .new => n < heapMemRegionLimit
        | .huge => heapMemRegionLimit ≤ n := by
      rcases findLarger_spec (g := s.heap) (i := cpuLastOneBitIndex n + 1)
        (k := heapLogTableSize - (cpuLastOneBitIndex n + 1)) with hnew | ⟨j, hj, h0, heq⟩
      · rw [hnew]
        exact Nat.lt_of_not_le hhuge
      · rw [heq]
        have hm := h.head_mem h0
        obtain ⟨u, hu, r, hr, -, -, hi, hsize⟩ := h.exists_region hm
        refine ⟨j, hm, ?_⟩
        rw [hsize]
        exact lt_of_cpuLastOneBitIndex_lt (by omega)
    simp only
    by_cases h0 : s.heap.freeListTable (cpuLastOneBitIndex n) ≠ 0
    · rw [if_pos h0]
      have hscan := scanFreeList_spec (n := n) (k := heapMaxIterations) (m := 0)
        (d := 2 ^ 64 - 1) (h.buckets.links (cpuLastOneBitIndex n))
      cases hs : s.heap.scanFreeList n heapMaxIterations
          (s.heap.freeListTable (cpuLastOneBitIndex n)) 0 (2 ^ 64 - 1) with
      | inl path =>
        rw [hs] at hscan
        obtain ⟨x, hx, rfl, hsize⟩ := hscan
        exact ⟨hx, hsize⟩
      | inr m =>
        rw [hs] at hscan
        by_cases hm : m ≠ 0
        · simp only [if_pos hm]
          rcases hscan with rfl | ⟨hmem, hlt⟩
          · exact absurd rfl hm
          · exact ⟨_, hmem, hlt⟩
        · simp only [if_neg hm]
          exact hlarger
    · rw [if_neg h0]
      exact hlarger

/-! ## The blocks and the unit at hand -/

theorem live_cases {b : HeapBlock} (h : HeapInv s (u :: U) B) (hb : b ∈ s.live) :
    (∃ w ∈ U, Payload w b) ∨ Payload u b := by
  obtain ⟨w, hw, hp⟩ := h.live b hb
  rcases List.mem_cons.mp hw with rfl | hw
  · exact Or.inr hp
  · exact Or.inl ⟨w, hw, hp⟩

/-- No block is the payload of a free region. -/
theorem ptr_ne_of_free {b : HeapBlock} (h : HeapInv s U B) (hu : u ∈ U) (hr : r ∈ u.regions)
    (hf : r.busy = false) (hb : b ∈ s.live) : b.ptr ≠ r.addr + memRegionAlign := by
  intro he
  obtain ⟨w, hw, r', hr', hbusy, hptr, -⟩ := h.live b hb
  have haddr : r'.addr = r.addr := by omega
  rw [h.eq_of_addr hw hu hr' hr haddr, hf] at hbusy
  cases hbusy

variable {size : ℕ}

theorem nodup_cons_of_free (h : HeapInv s U B) (hu : u ∈ U) (hr : r ∈ u.regions)
    (hf : r.busy = false) :
    (((⟨r.addr + memRegionAlign, size⟩ : HeapBlock) :: s.live).map HeapBlock.ptr).Nodup := by
  refine List.nodup_cons.mpr ⟨fun hm => ?_, h.nodup⟩
  obtain ⟨b, hb, hptr⟩ := List.mem_map.mp hm
  exact h.ptr_ne_of_free hu hr hf hb hptr

/-- A region put in the place of others touches no free one. -/
theorem apart_insert (h₁ : l₁.IsChain fun r r' : HeapRegion => r.busy ∨ r'.busy)
    (h₂ : l₂.IsChain fun r r' : HeapRegion => r.busy ∨ r'.busy)
    (hl : ∀ y ∈ l₁.getLast?, y.busy ∨ r.busy) (hr : ∀ y ∈ l₂.head?, r.busy ∨ y.busy) :
    (l₁ ++ r :: l₂).IsChain fun r r' : HeapRegion => r.busy ∨ r'.busy := by
  refine List.isChain_append.mpr ⟨h₁, List.isChain_cons.mpr ⟨hr, h₂⟩, fun y hy z hz => ?_⟩
  cases hz
  exact hl y hy

/-- **The front of a free region is taken**: `tl` is what is left of it. -/
theorem take {heap : Heap} {m size : ℕ} (B' : ℕ → List ℕ) (tl : List HeapRegion)
    (h : HeapInv s (u :: U) B) (hl : u.regions = l₁ ++ r :: l₂) (hf : r.busy = false)
    (htl : ∀ z ∈ tl, z.busy = false) (hframe : Frame s.heap heap u B)
    (hok : UnitOk heap.addrNext heap.addrPrev
      { u with regions := l₁ ++ ⟨r.addr, m, true⟩ :: (tl ++ l₂) })
    (hmark : heap.szNext r.addr = heapMarkerBusy)
    (hkeep : ∀ z ∈ u.regions, z.busy → heap.szNext z.addr = s.heap.szNext z.addr)
    (hB : Buckets heap.szNext heap.szPrev heap.freeListTable B')
    (hmem : ∀ a j, a ∈ B' j ↔ a ∈ B j ∧ a ≠ r.addr ∨ FreeIn tl a j)
    (hsize : memRegionAlign + size ≤ m)
    (htotal : heap.virtualMemorySize = s.heap.virtualMemorySize) :
    Keeps s ⟨heap, s.units, ⟨r.addr + memRegionAlign, size⟩ :: s.live⟩ (u :: U) := by
  have hr : r ∈ u.regions := by rw [hl]; simp
  have hlay := h.ok_head.layout
  rw [hl] at hlay
  refine ⟨{ u with regions := l₁ ++ ⟨r.addr, m, true⟩ :: (tl ++ l₂) } :: U, B',
    h.replace hframe rfl hok (fun z hz hzb => ?_) hB (fun a j => ?_) (fun b hb => ?_)
      (h.nodup_cons_of_free (by simp) hr hf), fun hbooks =>
        hbooks.replace htotal (fun _ hb _ => List.mem_cons_of_mem _ hb) ?_ ?_⟩
  · simp only [List.mem_append, List.mem_cons] at hz
    have hold : ∀ z ∈ u.regions, z.busy → heap.szNext z.addr = heapMarkerBusy := fun z hz hzb =>
      (hkeep z hz hzb).trans (h.busy u (by simp) z hz hzb)
    rcases hz with hz | rfl | hz | hz
    · exact hold z (by simp [hl, hz]) hzb
    · exact hmark
    · exact absurd hzb (by simp [htl z hz])
    · exact hold z (by simp [hl, hz]) hzb
  · rw [hmem, h.mem_bucket_ne hr, hl, and_ne_iff hlay]
    simp only [append_iff, cons_iff]
    tauto
  · rcases List.mem_cons.mp hb with rfl | hb
    · exact Or.inr ⟨⟨r.addr, m, true⟩, by simp, rfl, rfl, hsize⟩
    · refine (h.live_cases hb).imp_right ?_
      rintro ⟨z, hz, hbusy, hpay⟩
      rw [hl] at hz
      refine ⟨z, ?_, hbusy, hpay⟩
      simp only [List.mem_append, List.mem_cons] at hz ⊢
      rcases hz with hz | rfl | hz
      · exact Or.inl hz
      · exact absurd hbusy (by simp [hf])
      · exact Or.inr (Or.inr (Or.inr hz))
  · simp [List.countP_append]
  · have hnone : tl.countP HeapRegion.busy = 0 :=
      List.countP_eq_zero.mpr fun z hz => by simp [htl z hz]
    simp only [hl, List.countP_append, List.countP_cons, hnone, hf, List.length_cons, if_true,
      Bool.false_eq_true, if_false]
    omega

/-- **`allocEqual`** makes a free region busy. -/
theorem allocEqual (h : HeapInv s U B) (hx : x ∈ B i)
    (hsize : memRegionAlign + size ≤ s.heap.size x) :
    Keeps s ⟨(s.heap.allocEqual i x).2, s.units, ⟨x + memRegionAlign, size⟩ :: s.live⟩ U := by
  obtain ⟨u, hu, r, hr, hf, rfl, hi, hrs⟩ := h.exists_region hx
  obtain ⟨W, hperm, h⟩ := h.exists_cons hu
  obtain ⟨l₁, l₂, hl⟩ := List.append_of_mem hr
  have hok := h.ok_head
  have hlay := hok.layout
  have hseg := hok.seg
  have hapart := hok.apart
  rw [hl] at hlay hseg hapart
  obtain ⟨B', hB', hmem', hframe'⟩ := deleteMemRegion_spec h.buckets hx
  have hxB' : ∀ j, r.addr ∉ B' j := fun j hm => ((hmem' _ j).mp hm).2 rfl
  have hin := hok.header_bounds (UnitOk.addr_mem hr)
  refine Keeps.perm hperm (h.take B' [] (m := r.size) hl hf (by simp)
    ⟨fun a ha => ?_, fun a ha hna => ?_⟩ ?_ (update_self ..) (fun z hz hzb => ?_) ?_
    (fun a j => by simp [hmem']) (hrs ▸ hsize) ?_)
  · simp [Heap.allocEqual, setBusy]
  · have hne : a ≠ r.addr := by simp only [memRegionAlign] at ha hin; omega
    simp only [Heap.allocEqual, setBusy, update_of_ne hne]
    exact hframe' a hna
  · simp only [Heap.allocEqual, setBusy, deleteMemRegion_addrNext,
      deleteMemRegion_addrPrev]
    obtain ⟨hc₁, hc₂, -⟩ := List.isChain_append.mp hapart
    obtain ⟨hend, hle, hd, -⟩ := (Layout.append_iff.mp hlay).2
    refine hok.replace (m := [r]) (n := [⟨r.addr, r.size, true⟩]) hl (by simp) rfl
      ⟨hend, hle, hd, trivial⟩ ⟨hseg.at_append.1, hseg.at_append.2, trivial⟩
      (fun _ _ => ⟨rfl, rfl⟩) (fun _ _ => rfl) (fun hne => ?_) (fun _ _ => rfl) rfl
      (apart_insert hc₁ (List.isChain_cons.mp hc₂).2 (by simp) (by simp))
      (hok.regular_of_free hr hf)
    cases l₂ with
    | nil => exact absurd rfl hne
    | cons y l₂ => exact (Seg.append_iff.mp hseg).2.2.2.2.1
  · have hne : z.addr ≠ r.addr := fun he => by
      rw [h.eq_of_addr (by simp) (by simp) hz hr he, hf] at hzb
      cases hzb
    simp only [Heap.allocEqual, setBusy, update_of_ne hne]
    exact hframe' _ fun j => h.notMem_of_busy (by simp) hz hzb
  · simp only [Heap.allocEqual, setBusy]
    refine hB'.congr (fun j y hy => update_of_ne ?_ ..) fun _ _ _ => rfl
    rintro rfl
    exact hxB' j hy
  · simp [Heap.allocEqual, setBusy]

/-- **`allocMore`** takes the front of a larger free region. -/
theorem allocMore (h : HeapInv s U B) (hx : x ∈ B i) (hn : memRegionAlign ∣ n)
    (hsize : memRegionAlign + size ≤ n) (hlt : n < s.heap.size x) :
    Keeps s ⟨(s.heap.allocMore x n).2, s.units, ⟨x + memRegionAlign, size⟩ :: s.live⟩ U := by
  obtain ⟨u, hu, r, hr, hf, rfl, hi, hrs⟩ := h.exists_region hx
  obtain ⟨W, hperm, h⟩ := h.exists_cons hu
  obtain ⟨l₁, l₂, hl⟩ := List.append_of_mem hr
  have hok := h.ok_head
  have hlay := hok.layout
  have hseg := hok.seg
  rw [hl] at hlay hseg
  rw [hrs] at hlt
  have hn32 : 32 ≤ n := by simp only [memRegionAlign] at hsize; omega
  have hend : r.addr + r.size = headAddr l₂ u.stop := (Layout.append_iff.mp hlay).2.1
  have hnext : s.heap.addrNext r.addr = headAddr l₂ u.stop := hseg.at_append.1
  have hbnd := hok.region_bounds hr
  have hfits : u.stop + 32 ≤ u.base + u.bytes := hok.fits
  have hbound := hok.bound
  have hpos := hok.pos
  -- the new header is inside the region, so it is no header yet
  have hnew : ∀ w ∈ u :: W, ∀ a ∈ w.headers, a ≠ r.addr + n := by
    intro w hw a ha he
    rcases List.mem_cons.mp hw with rfl | hw
    · rcases hok.header_le hr ha with hle | hle <;> omega
    · have hout := h.header_outside hw ha
      simp only [memRegionAlign] at hout
      omega
  obtain ⟨B₁, hB₁, hmem₁, hframe₁⟩ := deleteMemRegion_spec h.buckets hx
  -- the heap once the address links are set
  obtain ⟨g, hg, hgn, hgp, hgv, hgs⟩ : ∃ g : Heap,
      (s.heap.allocMore r.addr n).2 =
        (g.pushMemRegion (r.addr + n) (cpuLastOneBitIndex (g.size (r.addr + n)))).setBusy r.addr ∧
      g.addrNext = update (update s.heap.addrNext (r.addr + n) (r.addr + r.size)) r.addr
        (r.addr + n) ∧
      g.addrPrev = update (update s.heap.addrPrev (r.addr + n) r.addr) (r.addr + r.size)
        (r.addr + n) ∧
      g.virtualMemorySize = s.heap.virtualMemorySize ∧
      g.szNext = (s.heap.deleteMemRegion r.addr i).szNext ∧
      g.szPrev = (s.heap.deleteMemRegion r.addr i).szPrev ∧
      g.freeListTable = (s.heap.deleteMemRegion r.addr i).freeListTable := by
    refine ⟨_, rfl, ?_, ?_, ?_, ?_, ?_, ?_⟩
    · simp only [setAddrPrev, setAddrNext, deleteMemRegion_addrNext, hnext, ← hend]
    · simp only [setAddrPrev, setAddrNext, deleteMemRegion_addrPrev, hnext, ← hend]
    · exact deleteMemRegion_virtualMemorySize
    all_goals simp only [setAddrPrev, setAddrNext, hrs, hi]
  have hgsize : g.size (r.addr + n) = r.size - n := by
    unfold Heap.size
    rw [hgn, update_of_ne (by omega), update_self]
    omega
  rw [hg, hgsize]
  have hnotB : ∀ j, r.addr + n ∉ B₁ j := by
    intro j hm
    obtain ⟨w, hw, ha⟩ := h.header_of_mem ((hmem₁ _ j).mp hm).1
    exact hnew w hw _ ha rfl
  have hBg : Buckets g.szNext g.szPrev g.freeListTable B₁ := by
    rw [hgs.1, hgs.2.1, hgs.2.2]
    exact hB₁
  obtain ⟨B₂, hB₂, hmem₂, hframe₂⟩ := pushMemRegion_spec hBg (by omega) hnotB
    (cpuLastOneBitIndex (r.size - n))
  refine Keeps.perm hperm (h.take B₂ [⟨r.addr + n, r.size - n, false⟩] hl hf
    (by simp) ⟨fun a ha => ?_, fun a ha hna => ?_⟩ ?_ (update_self ..) (fun z hz hzb => ?_) ?_
    (fun a j => ?_) hsize hgv)
  · simp only [memRegionAlign] at ha
    simp only [setBusy, pushMemRegion_addrNext, pushMemRegion_addrPrev, hgn, hgp]
    rw [update_of_ne (by omega), update_of_ne (by omega),
      update_of_ne (by omega), update_of_ne (by omega)]
    exact ⟨rfl, rfl⟩
  · simp only [memRegionAlign] at ha
    simp only [setBusy]
    rw [update_of_ne (by omega), hframe₂ a (by omega), hgs.1, hframe₁ a hna]
  · simp only [setBusy, pushMemRegion_addrNext, pushMemRegion_addrPrev, hgn, hgp,
      List.cons_append, List.nil_append]
    have hlay₂ := (Layout.append_iff.mp hlay).2.2.2.2
    have hstop := hlay₂.headAddr_le
    have hrest : memRegionAlign ∣ r.size - n :=
      Nat.dvd_sub (Layout.append_iff.mp hlay).2.2.2.1 hn
    -- what followed the free region is busy, so it may follow the rest of it
    obtain ⟨hc₁, hc₂, -⟩ := List.isChain_append.mp (hl ▸ hok.apart)
    obtain ⟨hc₃, hc₄⟩ := List.isChain_cons.mp hc₂
    have hbusy : ∀ z ∈ l₂.head?, z.busy := fun z hz => (hc₃ z hz).resolve_left (by simp [hf])
    refine hok.replace (m := [r]) (n := [⟨r.addr, n, true⟩, ⟨r.addr + n, r.size - n, false⟩]) hl
      (by simp) rfl ⟨rfl, hn32, hn, ?_, Nat.le_of_dvd (Nat.sub_pos_of_lt hlt) hrest, hrest,
        trivial⟩ ⟨?_, ?_, ?_, ?_, trivial⟩ (fun z hz => ?_)
      (fun z hz => ?_) (fun _ => ?_) (fun z hz => ?_) ?_
      (apart_insert hc₁ (List.isChain_cons.mpr ⟨fun z hz => Or.inr (hbusy z hz), hc₄⟩)
        (by simp) (by simp)) (hok.regular_of_free hr hf)
    · change r.addr + n + (r.size - n) = headAddr l₂ u.stop
      omega
    · exact update_self ..
    · dsimp only
      rw [update_of_ne (by omega), update_of_ne (by omega)]
      exact hseg.at_append.2
    · dsimp only
      rw [update_of_ne (by omega), update_self, hend]
      rfl
    · dsimp only
      rw [update_of_ne (by omega), update_self]
    · have hle := hlay.le_of_mem_left hz
      have hs : 32 ≤ z.size := hlay.size_le (by simp [hz])
      rw [update_of_ne (by omega), update_of_ne (by omega),
        update_of_ne (by omega), update_of_ne (by omega)]
      exact ⟨rfl, rfl⟩
    · have hle := hlay.le_of_append hz
      rw [update_of_ne (by omega), update_of_ne (by omega)]
    · rw [← hend, update_self]
      rfl
    · have hlt' := hlay₂.headAddr_lt_of_mem_tail hz
      rw [update_of_ne (by omega), update_of_ne (by omega)]
    · rw [update_of_ne (by omega), update_of_ne (by omega)]
  · have hne : z.addr ≠ r.addr := fun he => by
      rw [h.eq_of_addr (by simp) (by simp) hz hr he, hf] at hzb
      cases hzb
    simp only [setBusy]
    rw [update_of_ne hne, hframe₂ _ (hnew u (by simp) _ (UnitOk.addr_mem hz)), hgs.1]
    exact hframe₁ _ fun j => h.notMem_of_busy (by simp) hz hzb
  · simp only [setBusy]
    refine hB₂.congr (fun j y hy => update_of_ne ?_ ..) fun _ _ _ => rfl
    rintro rfl
    rcases (hmem₂ _ j).mp hy with hm | ⟨he, -⟩
    · exact ((hmem₁ _ j).mp hm).2 rfl
    · omega
  · rw [hmem₂, hmem₁]
    simp only [cons_iff, nil_iff, or_false, true_and, eq_comm]

/-! ## New units -/

/-- Bytes the memory manager does not touch keep what they hold. -/
theorem scrub_frame {g : Heap} {lo hi : ℕ} {j : HeaderMem} (ha : ¬ (lo ≤ a ∧ a < hi)) :
    (g.scrub lo hi j).szNext a = g.szNext a ∧ (g.scrub lo hi j).szPrev a = g.szPrev a ∧
      (g.scrub lo hi j).addrNext a = g.addrNext a ∧
      (g.scrub lo hi j).addrPrev a = g.addrPrev a :=
  ⟨if_neg ha, if_neg ha, if_neg ha, if_neg ha⟩

/-- What is on a list is no byte of a fresh unit. -/
theorem notMem_fresh {b m j : ℕ} (h : HeapInv s U B) (hfresh : s.Fresh m b) (ha : a ∈ B j) :
    a + memRegionAlign ≤ b ∨ b + m ≤ a := by
  obtain ⟨w, hw, hh⟩ := h.header_of_mem ha
  have hb := (h.ok w hw).header_bounds hh
  have hm : w.span ∈ s.units := h.units.mem_iff.mpr (List.mem_map_of_mem hw)
  rcases hfresh.disjoint w.span hm with hd | hd
  · exact Or.inr (hd.trans hb.1)
  · exact Or.inl (hb.2.trans hd)

variable {junk : HeaderMem}

/-- **`allocHuge`** lays out a unit of one busy region. -/
theorem allocHuge {b size : ℕ} (h : HeapInv s U B)
    (hfresh : s.Fresh (hugeSize n) b) (hn : memRegionAlign ∣ n)
    (hsize : memRegionAlign + size ≤ n) (htight : Tight size → hugeSize n = n + memRegionAlign) :
    Keeps s ⟨(s.heap.allocHuge n b junk).2, ⟨b, hugeSize n⟩ :: s.units,
      ⟨b + memRegionAlign, size⟩ :: s.live⟩ U := by
  have hhuge : n + 32 ≤ hugeSize n := by
    unfold hugeSize cpuAlignAddrHi
    simp only [memRegionAlign, pageMask, pageSize]
    omega
  have hn32 : 32 ≤ n := by simp only [memRegionAlign] at hsize; omega
  obtain ⟨g, hg, hgv, hgn, hgp, hgs, hgsp, hgt⟩ : ∃ g : Heap, (s.heap.allocHuge n b junk).2 = g ∧
      g.virtualMemorySize = (s.heap.virtualMemorySize + hugeSize n) % 2 ^ 64 ∧
      g.addrNext = update (update (s.heap.scrub b (b + hugeSize n) junk).addrNext b (b + n))
        (b + n) 0 ∧
      g.addrPrev = update (s.heap.scrub b (b + hugeSize n) junk).addrPrev b 0 ∧
      g.szNext = update (s.heap.scrub b (b + hugeSize n) junk).szNext b heapMarkerBusy ∧
      g.szPrev = (s.heap.scrub b (b + hugeSize n) junk).szPrev ∧
      g.freeListTable = s.heap.freeListTable :=
    ⟨_, rfl, rfl, rfl, rfl, rfl, rfl, rfl⟩
  rw [hg]
  have hb := hfresh.pos
  have hout : ∀ a, a + 32 ≤ b ∨ b + hugeSize n ≤ a →
      ¬ (b ≤ a ∧ a < b + hugeSize n) := by omega
  have hinv : HeapInv ⟨g, (⟨b, hugeSize n, [⟨b, n, true⟩], b + n⟩ : HeapUnit).span :: s.units,
      ⟨b + memRegionAlign, size⟩ :: s.live⟩
      (⟨b, hugeSize n, [⟨b, n, true⟩], b + n⟩ :: U) B := by
    refine h.newUnit hfresh ⟨fun a ha => ?_, fun a ha _ => ?_⟩ ?_ (fun r hr _ => ?_) ?_
      (fun a j => ?_) ⟨⟨b, n, true⟩, by simp, rfl, rfl, hsize⟩
    · simp only [memRegionAlign] at ha
      have hs := scrub_frame (g := s.heap) (j := junk) (hout a ha)
      rw [hgn, hgp, update_of_ne (by omega), update_of_ne (by omega),
        update_of_ne (by omega)]
      exact hs.2.2
    · simp only [memRegionAlign] at ha
      rw [hgs, update_of_ne (by omega)]
      exact (scrub_frame (hout a ha)).1
    · refine ⟨rfl, by simp, ⟨rfl, hn32, hn, trivial⟩, ?_, ⟨?_, ?_, trivial⟩, ?_, by simp, hb,
        hfresh.aligned, hfresh.bound, Or.inr ⟨_, rfl, rfl⟩⟩
      · simp only [memRegionAlign]
        omega
      · dsimp only
        rw [hgn, update_of_ne (by omega), update_self]
        rfl
      · rw [hgp, update_self]
      · rw [hgn, update_self]
    · rw [List.mem_singleton.mp hr, hgs, update_self]
    · rw [hgs, hgsp, hgt]
      refine h.buckets.congr (fun j y hy => ?_) fun j y hy => ?_
      · have hy' := h.notMem_fresh hfresh hy
        simp only [memRegionAlign] at hy'
        rw [update_of_ne (by omega)]
        exact (scrub_frame (hout y hy')).1
      · have hy' := h.notMem_fresh hfresh hy
        simp only [memRegionAlign] at hy'
        exact (scrub_frame (hout y hy')).2.1
    · simp
  refine ⟨_, _, hinv, fun hbooks => hbooks.newUnit ?_ (by simp) hgv⟩
  by_cases ht : Tight size
  · have := htight ht
    exact Or.inl (by dsimp only; omega)
  · exact Or.inr ⟨_, List.mem_cons_self, rfl, ht⟩

/-- **`allocNew`** lays out a unit of a busy and a free region. -/
theorem allocNew {b size : ℕ} (h : HeapInv s U B)
    (hfresh : s.Fresh heapAllocUnitSize b) (hn : memRegionAlign ∣ n)
    (hsize : memRegionAlign + size ≤ n) (hlim : n < heapMemRegionLimit) :
    Keeps s ⟨(s.heap.allocNew n (some b) junk).2, ⟨b, heapAllocUnitSize⟩ :: s.units,
      ⟨b + memRegionAlign, size⟩ :: s.live⟩ U := by
  have hn32 : 32 ≤ n := by simp only [memRegionAlign] at hsize; omega
  have hpos := hfresh.pos
  simp only [heapMemRegionLimit] at hlim
  obtain ⟨c, hc⟩ : ∃ c, c = b + n := ⟨_, rfl⟩
  obtain ⟨e, he⟩ : ∃ e, e = b + heapAllocUnitSize - memRegionAlign := ⟨_, rfl⟩
  have hend : e + 32 = b + heapAllocUnitSize := by
    simp only [heapAllocUnitSize, memRegionAlign] at he ⊢
    omega
  have hce : c + (heapAllocUnitSize - 32 - n) = e := by
    simp only [heapAllocUnitSize] at hend ⊢
    omega
  -- the heap once the address links are set
  obtain ⟨g, hg, hgv, hgn, hgp, hgs, hgsp, hgt⟩ : ∃ g : Heap,
      (s.heap.allocNew n (some b) junk).2 =
        (g.pushMemRegion c (cpuLastOneBitIndex (e - c))).setBusy b ∧
      g.virtualMemorySize = (s.heap.virtualMemorySize + heapAllocUnitSize) % 2 ^ 64 ∧
      g.addrNext = update (update (update
        (s.heap.scrub b (b + heapAllocUnitSize) junk).addrNext b c) c e) e 0 ∧
      g.addrPrev = update (update
        (s.heap.scrub b (b + heapAllocUnitSize) junk).addrPrev b 0) c b ∧
      g.szNext = (s.heap.scrub b (b + heapAllocUnitSize) junk).szNext ∧
      g.szPrev = (s.heap.scrub b (b + heapAllocUnitSize) junk).szPrev ∧
      g.freeListTable = s.heap.freeListTable := by
    subst hc he
    exact ⟨_, rfl, rfl, rfl, rfl, rfl, rfl, rfl⟩
  rw [hg, show e - c = heapAllocUnitSize - 32 - n by omega]
  have hout : ∀ a, a + 32 ≤ b ∨ b + heapAllocUnitSize ≤ a →
      ¬ (b ≤ a ∧ a < b + heapAllocUnitSize) := by omega
  have hmemOut : ∀ j, ∀ y ∈ B j, y + 32 ≤ b ∨ b + heapAllocUnitSize ≤ y :=
    fun j y hy => h.notMem_fresh hfresh hy
  have hBg : Buckets g.szNext g.szPrev g.freeListTable B := by
    rw [hgs, hgsp, hgt]
    exact h.buckets.congr (fun j y hy => (scrub_frame (hout y (hmemOut j y hy))).1)
      fun j y hy => (scrub_frame (hout y (hmemOut j y hy))).2.1
  have hcB : ∀ j, c ∉ B j := fun j hm => by
    have := hmemOut j c hm
    omega
  obtain ⟨B', hB', hmem', hframe'⟩ := pushMemRegion_spec hBg (by omega) hcB
    (cpuLastOneBitIndex (heapAllocUnitSize - 32 - n))
  have hinv : HeapInv
      ⟨(g.pushMemRegion c (cpuLastOneBitIndex (heapAllocUnitSize - 32 - n))).setBusy b,
      (⟨b, heapAllocUnitSize, [⟨b, n, true⟩, ⟨c, heapAllocUnitSize - 32 - n, false⟩], e⟩ :
        HeapUnit).span :: s.units, ⟨b + memRegionAlign, size⟩ :: s.live⟩
      (⟨b, heapAllocUnitSize, [⟨b, n, true⟩, ⟨c, heapAllocUnitSize - 32 - n, false⟩], e⟩ :: U) B'
      := by
    refine h.newUnit hfresh ⟨fun a ha => ?_, fun a ha _ => ?_⟩ ?_ (fun r hr hb => ?_) ?_
      (fun a j => ?_) ⟨⟨b, n, true⟩, by simp, rfl, rfl, hsize⟩
    · simp only [memRegionAlign] at ha
      have hs := scrub_frame (g := s.heap) (j := junk) (hout a ha)
      simp only [setBusy, pushMemRegion_addrNext, pushMemRegion_addrPrev]
      rw [hgn, hgp, update_of_ne (by omega), update_of_ne (by omega),
        update_of_ne (by omega), update_of_ne (by omega),
        update_of_ne (by omega)]
      exact hs.2.2
    · simp only [memRegionAlign] at ha
      simp only [setBusy]
      rw [update_of_ne (by omega), hframe' a (by omega), hgs]
      exact (scrub_frame (hout a ha)).1
    · have hunit : heapAllocUnitSize = 0x101000 := rfl
      have hd : memRegionAlign ∣ heapAllocUnitSize - 32 - n := Nat.dvd_sub (by decide) hn
      have hrest : 0 < heapAllocUnitSize - 32 - n := by omega
      simp only [setBusy, pushMemRegion_addrNext, pushMemRegion_addrPrev]
      refine ⟨rfl, by simp, ⟨hc.symm, hn32, hn, hce, ?_, hd, trivial⟩, hend.le,
        ⟨?_, ?_, ?_, ?_, trivial⟩, ?_, by simp, hpos, hfresh.aligned, hfresh.bound, Or.inl le_rfl⟩
      · exact Nat.le_of_dvd hrest hd
      · dsimp only
        rw [hgn, update_of_ne (by omega), update_of_ne (by omega),
          update_self]
        rfl
      · dsimp only
        rw [hgp, update_of_ne (by omega), update_self]
      · dsimp only
        rw [hgn, update_of_ne (by omega), update_self]
        rfl
      · rw [hgp, update_self]
      · rw [hgn, update_self]
    · simp only [List.mem_cons, List.not_mem_nil, or_false] at hr
      rcases hr with rfl | rfl
      · simp only [setBusy, update_self]
      · cases hb
    · simp only [setBusy]
      refine hB'.congr (fun j y hy => update_of_ne ?_ ..) fun _ _ _ => rfl
      rintro rfl
      rcases (hmem' _ j).mp hy with hm | ⟨he, -⟩
      · have := hmemOut j _ hm
        omega
      · omega
    · rw [hmem']
      simp only [cons_iff, nil_iff, or_false]
      constructor
      · rintro (hm | ⟨rfl, rfl⟩)
        · exact Or.inl hm
        · exact Or.inr (Or.inr ⟨trivial, rfl, rfl⟩)
      · rintro (hm | ⟨hc, -⟩ | ⟨-, rfl, rfl⟩)
        · exact Or.inl hm
        · cases hc
        · exact Or.inr ⟨rfl, rfl⟩
  exact ⟨_, _, hinv, fun hbooks => hbooks.newUnit (Or.inl hend) (by simp) hgv⟩

/-! ## `alloc` -/

theorem regionSize_spec (size : ℕ) : memRegionAlign ∣ regionSize size ∧
    memRegionAlign + size ≤ regionSize size := by
  unfold regionSize
  simp only [memRegionAlign]
  exact ⟨Dvd.intro_left _ rfl, by omega⟩

/-- **`alloc` keeps the invariant**, and the books balanced. -/
theorem alloc {unit : Option ℕ} (h : HeapInv s U B)
    (hc : s.Allowed (.alloc size unit junk)) : Keeps s (s.call (.alloc size unit junk)) U := by
  obtain ⟨h1, -, hunit⟩ := hc
  obtain ⟨hd, hle⟩ := regionSize_spec size
  have hpath := h.allocPath_spec (n := regionSize size)
  have h0 : ¬ size = 0 := by omega
  cases hp : s.heap.allocPath (regionSize size) with
  | equal x =>
    rw [hp] at hpath
    simp only [HeapState.call, Heap.alloc, unitBytes, if_neg h0, hp]
    exact h.allocEqual hpath.1 (hpath.2 ▸ hle)
  | more x =>
    rw [hp] at hpath
    obtain ⟨i, hx, hlt⟩ := hpath
    simp only [HeapState.call, Heap.alloc, unitBytes, if_neg h0, hp]
    exact h.allocMore hx hd hle hlt
  | new =>
    rw [hp] at hpath
    have hbytes : s.heap.unitBytes size = some heapAllocUnitSize := by
      simp only [unitBytes, hp]
    rcases hunit _ hbytes with ⟨rfl, -⟩ | ⟨b, rfl, hfresh⟩
    · -- the memory manager has no unit, and nothing changes
      have hcall : s.call (.alloc size none junk) = s := by
        simp only [HeapState.call, Heap.alloc, hbytes, if_neg h0, hp]
        rfl
      rw [hcall]
      exact ⟨U, B, h, id⟩
    · simp only [HeapState.call, Heap.alloc, hbytes, if_neg h0, hp]
      exact h.allocNew hfresh hd hle hpath
  | huge =>
    rw [hp] at hpath
    have hbytes : s.heap.unitBytes size = some (hugeSize (regionSize size)) := by
      simp only [unitBytes, hp]
    rcases hunit _ hbytes with ⟨-, hlt⟩ | ⟨b, rfl, hfresh⟩
    · exact absurd hpath (Nat.not_le.mpr hlt)
    · simp only [HeapState.call, Heap.alloc, hbytes, if_neg h0, hp]
      exact h.allocHuge hfresh hd hle fun htight => cpuAlignAddrHi_eq (htight hpath)

end HeapInv

end ShmDos64
