import ShmDos64.Uefi.MemoryMap
/-!
# The memory handed to the kernel

`storeParams` takes the pages that the loader has allocated out of the free
regions, and last the pages of the array in which it stores what is left. Pages
inside a region cut it in two: the upper part is pushed to the end of the vector
and the region keeps the lower one. If there was no room for the push, the vector
has moved by then, and the region is shortened in the buffer that was given up.
-/

namespace ShmDos64

/-- `PagesRegion`: pages that the loader has allocated. -/
structure PagesRegion where
  base : ℕ
  num : ℕ
  deriving DecidableEq

namespace PagesRegion

/-- `end`, a `uintptr_t`. -/
def stop (u : PagesRegion) : ℕ := (u.base + u.num * pageSize) % 2 ^ 64

/-- The addresses of the pages. -/
def addresses (u : PagesRegion) : Set ℕ := Set.Ico u.base (u.base + u.num * pageSize)

/-- The pages have the address. -/
def has (u : PagesRegion) (x : ℕ) : Bool := u.base ≤ x && x < u.stop

@[simp] theorem has_iff {u : PagesRegion} {x : ℕ} : u.has x = true ↔ u.base ≤ x ∧ x < u.stop := by
  simp [has]

end PagesRegion

/-- `kvector<PhysicalMemoryRegion>`: what is in the buffer, and `m_allocSize`. -/
structure RegionVector where
  regions : List PhysicalMemoryRegion
  allocSize : ℕ
  fits : regions.length ≤ allocSize

namespace RegionVector

/-- The next `push_back` has to move the buffer. -/
def full (v : RegionVector) : Prop := v.regions.length = v.allocSize

instance (v : RegionVector) : Decidable v.full :=
  inferInstanceAs (Decidable (_ = _))

/-- `push_back`, with `reserve`; `m_defaultSize` is 16. -/
def pushBack (v : RegionVector) (r : PhysicalMemoryRegion) : RegionVector where
  regions := v.regions ++ [r]
  allocSize := if v.full then max (v.allocSize * 2) 16 else v.allocSize
  fits := by
    have hfits := v.fits
    rw [List.length_append, List.length_singleton]
    split
    next => omega
    next hfull => exact Nat.lt_of_le_of_ne hfits hfull

/-- A write to the element at an index. -/
def set (v : RegionVector) (i : ℕ) (r : PhysicalMemoryRegion) : RegionVector where
  regions := v.regions.set i r
  allocSize := v.allocSize
  fits := by simpa using v.fits

end RegionVector

/-- `pFreeReg`: the first region that the addresses are in. -/
def containing (regions : List PhysicalMemoryRegion) (start stop : ℕ) : Option ℕ :=
  (List.range regions.length).find? fun i =>
    (slot regions i).start ≤ start ∧ stop ≤ (slot regions i).stop

/-- `storeBusyRegion`; `none` is the panic. -/
def storeBusyRegion (v : RegionVector) (useReg : PagesRegion) (regCnt : ℕ) :
    Option (RegionVector × ℕ) :=
  match containing v.regions useReg.base useReg.stop with
  | none => none
  | some i =>
    let freeReg := slot v.regions i
    if freeReg.start < useReg.base then
      if useReg.stop < freeReg.stop then
        let pushed := v.pushBack ⟨useReg.stop, freeReg.stop⟩
        -- `pFreeReg` is into the buffer of before the push
        if v.full then some (pushed, regCnt + 1)
        else some (pushed.set i { freeReg with stop := useReg.base }, regCnt + 1)
      else some (v.set i { freeReg with stop := useReg.base }, regCnt)
    else if useReg.stop < freeReg.stop then
      some (v.set i { freeReg with start := useReg.stop }, regCnt)
    else some (v.set i noRegion, regCnt - 1)

/-- The loop over the regions in use. -/
def storeBusyRegions (v : RegionVector) (used : List PagesRegion) (regCnt : ℕ) :
    Option (RegionVector × ℕ) :=
  used.foldlM (fun (p : RegionVector × ℕ) u => storeBusyRegion p.1 u p.2) (v, regCnt)

/-- `regCntLimit`: how many entries the array is allocated with. -/
def regCntLimit (v : RegionVector) (used : List PagesRegion) : ℕ :=
  match storeBusyRegions v used v.regions.length with
  | none => 0
  | some (_, regCnt) => regCnt + 1

/-- `allocPageAlign(params.m_physicalMemoryRegions, regCntLimit)`: the pages of the
array, at the address that `AllocatePages` returns. -/
def arrayRegion (base limit : ℕ) : PagesRegion := ⟨base, (limit * 16 + pageMask) / pageSize⟩

/-- `KernelParams::PhysicalMemory`. -/
structure PhysicalMemory where
  physicalMemoryRegions : List PhysicalMemoryRegion
  regions : ℕ
  deriving DecidableEq

/-- `storeParams`, with the address of the array. -/
def storeParams (v : RegionVector) (used : List PagesRegion) (base : ℕ) :
    Option PhysicalMemory :=
  match storeBusyRegions v used v.regions.length with
  | none => none
  | some (v, regCnt) =>
    match storeBusyRegion v (arrayRegion base (regCnt + 1)) regCnt with
    | none => none
    | some (v, regCnt') =>
      if regCnt + 1 < regCnt' then none
      else some ⟨v.regions.filter fun r => r.start ≠ 0, regCnt'⟩

/-- The free regions as `initMemoryMap` leaves them, and pages that the firmware has
allocated from them. -/
structure BootMemory (free : List PhysicalMemoryRegion) (used : List PagesRegion) : Prop where
  disjoint : free.Pairwise fun r q => Disjoint r.addresses q.addresses
  extended : ∀ r ∈ free, cpuExtendedMemoryBase ≤ r.start
  addressable : ∀ r ∈ free, r.stop < 2 ^ 64
  used_disjoint : used.Pairwise fun u w => Disjoint u.addresses w.addresses
  used_pos : ∀ u ∈ used, 0 < u.num
  contained : ∀ u ∈ used, ∃ r ∈ free, r.start ≤ u.base ∧ u.base + u.num * pageSize ≤ r.stop

/-- The pages cut a region in two: neither end of them is an end of the free region
that they are in, or of pages that are out of it before. -/
def Splits (free : List PhysicalMemoryRegion) (before : List PagesRegion) (u : PagesRegion) :
    Prop :=
  (∃ r ∈ free, r.start < u.base ∧ u.stop < r.stop) ∧
    ∀ w ∈ before, w.stop ≠ u.base ∧ w.base ≠ u.stop

instance (free : List PhysicalMemoryRegion) (before : List PagesRegion) (u : PagesRegion) :
    Decidable (Splits free before u) :=
  inferInstanceAs (Decidable ((∃ _ ∈ _, _) ∧ ∀ _ ∈ _, _))

/-- How many of the pages cut a region in two, in the order in which they are taken
out. -/
def splits (free : List PhysicalMemoryRegion) : List PagesRegion → List PagesRegion → ℕ
  | _, [] => 0
  | before, u :: used =>
    (if Splits free before u then 1 else 0) + splits free (before ++ [u]) used

/-- What the kernel is handed: the memory that is free and not in use, each part of it
once, in as many entries as are counted, all of them in the array. -/
structure HandsOver (free : List PhysicalMemoryRegion) (used : List PagesRegion) (limit : ℕ)
    (params : PhysicalMemory) : Prop where
  disjoint : params.physicalMemoryRegions.Pairwise fun r q => Disjoint r.addresses q.addresses
  unused : ∀ r ∈ params.physicalMemoryRegions, ∀ u ∈ used, Disjoint r.addresses u.addresses
  union : (⋃ r ∈ params.physicalMemoryRegions, r.addresses) ∪ ⋃ u ∈ used, u.addresses =
    ⋃ r ∈ free, r.addresses
  counted : params.regions = params.physicalMemoryRegions.length
  within : params.regions ≤ limit

variable {v v' : RegionVector} {u w : PagesRegion} {r q : PhysicalMemoryRegion}
  {ex regions free : List PhysicalMemoryRegion} {before used rest : List PagesRegion}
  {c c' i x : ℕ}

/-! ## One region in use -/

/-- What becomes of the region `r` that the pages are in: the region that it is
replaced by, what is pushed, and the count. -/
inductive Cut (u : PagesRegion) (r : PhysicalMemoryRegion) (full : Prop) (c : ℕ) :
    PhysicalMemoryRegion → List PhysicalMemoryRegion → ℕ → Prop
  | lost (hfull : full) (hl : r.start < u.base) (hr : u.stop < r.stop) :
    Cut u r full c r [⟨u.stop, r.stop⟩] (c + 1)
  | split (hfull : ¬ full) (hl : r.start < u.base) (hr : u.stop < r.stop) :
    Cut u r full c { r with stop := u.base } [⟨u.stop, r.stop⟩] (c + 1)
  | upper (hl : r.start < u.base) (hr : r.stop ≤ u.stop) :
    Cut u r full c { r with stop := u.base } [] c
  | lower (hl : u.base ≤ r.start) (hr : u.stop < r.stop) :
    Cut u r full c { r with start := u.stop } [] c
  | whole (hl : u.base ≤ r.start) (hr : r.stop ≤ u.stop) :
    Cut u r full c noRegion [] (c - 1)

theorem containing_some (h : containing regions u.base u.stop = some i) :
    regions[i]? = some (slot regions i) ∧
      (slot regions i).start ≤ u.base ∧ u.stop ≤ (slot regions i).stop := by
  obtain ⟨hi, hp⟩ := of_find_range h
  exact ⟨getElem?_slot hi, of_decide_eq_true hp⟩

theorem set_getElem?_self (h : regions[i]? = some r) : regions.set i r = regions := by
  obtain ⟨hi, rfl⟩ := List.getElem?_eq_some_iff.mp h
  exact List.set_getElem_self hi

/-- Everything that `storeBusyRegion` can do. -/
theorem storeBusyRegion_cut (h : storeBusyRegion v u c = some (v', c')) :
    ∃ i r q ex, v.regions[i]? = some r ∧ r.start ≤ u.base ∧ u.stop ≤ r.stop ∧
      v'.regions = v.regions.set i q ++ ex ∧ Cut u r v.full c q ex c' ∧
      (ex = [] ∨ ¬ v.full → v'.allocSize = v.allocSize) := by
  rw [storeBusyRegion] at h
  split at h
  next => cases h
  next i hi =>
    obtain ⟨hget, hl, hr⟩ := containing_some hi
    have hlt := (List.getElem?_eq_some_iff.mp hget).1
    dsimp only at h
    split at h
    next hstart =>
      split at h
      next hstop =>
        split at h
        next hfull =>
          obtain ⟨⟩ := h
          refine ⟨i, _, _, _, hget, hl, hr, ?_, .lost hfull hstart hstop, ?_⟩
          · rw [set_getElem?_self hget]
            rfl
          · rintro (hnil | hnot)
            · cases hnil
            · exact absurd hfull hnot
        next hfull =>
          obtain ⟨⟩ := h
          refine ⟨i, _, _, _, hget, hl, hr, ?_, .split hfull hstart hstop, fun _ => if_neg hfull⟩
          exact List.set_append_left i _ hlt
      next hstop =>
        obtain ⟨⟩ := h
        exact ⟨i, _, _, _, hget, hl, hr, (List.append_nil _).symm,
          .upper hstart (Nat.le_of_not_lt hstop), fun _ => rfl⟩
    next hstart =>
      split at h
      next hstop =>
        obtain ⟨⟩ := h
        exact ⟨i, _, _, _, hget, hl, hr, (List.append_nil _).symm,
          .lower (Nat.le_of_not_lt hstart) hstop, fun _ => rfl⟩
      next hstop =>
        obtain ⟨⟩ := h
        exact ⟨i, _, _, _, hget, hl, hr, (List.append_nil _).symm,
          .whole (Nat.le_of_not_lt hstart) (Nat.le_of_not_lt hstop), fun _ => rfl⟩

/-- It returns if there is a region that the pages are in. -/
theorem exists_storeBusyRegion (hr : r ∈ v.regions) (hl : r.start ≤ u.base)
    (hstop : u.stop ≤ r.stop) (c : ℕ) : ∃ p, storeBusyRegion v u c = some p := by
  obtain ⟨i, hi, rfl⟩ := List.getElem_of_mem hr
  have hfound : containing v.regions u.base u.stop ≠ none := by
    intro hnone
    have hp := List.find?_eq_none.mp hnone i (List.mem_range.mpr hi)
    rw [slot_eq (List.getElem?_eq_getElem hi)] at hp
    exact hp (decide_eq_true ⟨hl, hstop⟩)
  rw [storeBusyRegion]
  split
  next hnone => exact absurd hnone hfound
  next i _ =>
    dsimp only
    split_ifs <;> exact ⟨_, rfl⟩

namespace Cut

variable {full : Prop}

section

variable (h : Cut u r full c q ex c')

include h

/-- Every address of the region is in a part that is left or in the pages, and if the
shortening is lost those from the pages on are in two. -/
theorem occupancy_add [Decidable full] (hl : r.start ≤ u.base)
    (hpos : u.base < u.stop) (hr : u.stop ≤ r.stop) (x : ℕ) :
    occupancy PhysicalMemoryRegion.has (q :: ex) x + (if u.has x then 1 else 0) =
      (if r.has x then 1 else 0) +
        if full ∧ ex ≠ [] ∧ u.base ≤ x ∧ x < r.stop then 1 else 0 := by
  cases h with
  | lost hfull hl hr =>
    simp only [occupancy_cons, occupancy_nil, PhysicalMemoryRegion.has_iff,
      PagesRegion.has_iff, hfull, true_and, ne_eq, List.cons_ne_nil, not_false_eq_true]
    split_ifs <;> omega
  | split hfull hl hr =>
    simp only [occupancy_cons, occupancy_nil, PhysicalMemoryRegion.has_iff,
      PagesRegion.has_iff, hfull, false_and, if_false]
    split_ifs <;> omega
  | upper hl hr | lower hl hr | whole hl hr =>
    simp only [occupancy_cons, occupancy_nil, PhysicalMemoryRegion.has_iff,
      PagesRegion.has_iff, ne_eq, not_true_eq_false, false_and, and_false, if_false]
    split_ifs <;> omega

/-- The parts that are left are inside the region, and end where it does or at the
pages. -/
theorem ends (hl : r.start ≤ u.base) (hpos : u.base < u.stop)
    (hr : u.stop ≤ r.stop) {p : PhysicalMemoryRegion} (hp : p ∈ q :: ex) (hlive : p.start ≠ 0) :
    r.start ≤ p.start ∧ p.stop ≤ r.stop ∧ (p.start = r.start ∨ u.stop = p.start) ∧
      (p.stop = r.stop ∨ u.base = p.stop) := by
  cases h with
  | lost hfull hl hr =>
    simp only [List.mem_cons, List.not_mem_nil, or_false] at hp
    rcases hp with rfl | rfl
    · exact ⟨le_rfl, le_rfl, .inl rfl, .inl rfl⟩
    · exact ⟨by simp only; omega, le_rfl, .inr rfl, .inl rfl⟩
  | split hfull hl hr =>
    simp only [List.mem_cons, List.not_mem_nil, or_false] at hp
    rcases hp with rfl | rfl
    · exact ⟨le_rfl, by simp only; omega, .inl rfl, .inr rfl⟩
    · exact ⟨by simp only; omega, le_rfl, .inr rfl, .inl rfl⟩
  | upper hl hr =>
    obtain rfl := List.mem_singleton.mp hp
    exact ⟨le_rfl, by simp only; omega, .inl rfl, .inr rfl⟩
  | lower hl hr =>
    obtain rfl := List.mem_singleton.mp hp
    exact ⟨by simp only; omega, le_rfl, .inr rfl, .inl rfl⟩
  | whole hl hr =>
    obtain rfl := List.mem_singleton.mp hp
    exact absurd rfl hlive

/-- A part with the start 0 is the mark. -/
theorem marked (hlive : r.start ≠ 0) (hpos : u.base < u.stop)
    {p : PhysicalMemoryRegion} (hp : p ∈ q :: ex) (hzero : p.start = 0) : p = noRegion := by
  have hstop : u.stop ≠ 0 := by omega
  cases h with
  | lost | split =>
    simp only [List.mem_cons, List.not_mem_nil, or_false] at hp
    rcases hp with rfl | rfl
    · exact absurd hzero hlive
    · exact absurd hzero hstop
  | upper =>
    obtain rfl := List.mem_singleton.mp hp
    exact absurd hzero hlive
  | lower =>
    obtain rfl := List.mem_singleton.mp hp
    exact absurd hzero hstop
  | whole => exact List.mem_singleton.mp hp

/-- The count follows the parts. -/
theorem counted (hlive : r.start ≠ 0) (hpos : u.base < u.stop)
    (hc : 0 < c) : (q :: ex).countP (fun p => p.start ≠ 0) + c = 1 + c' := by
  have hstop : u.stop ≠ 0 := by omega
  cases h <;> simp [hlive, hstop] <;> omega

theorem length_eq :
    ex.length = if r.start < u.base ∧ u.stop < r.stop then 1 else 0 := by
  cases h with
  | lost _ hl hr | split _ hl hr => rw [if_pos ⟨hl, hr⟩]; rfl
  | upper _ hr | lower hl _ | whole hl _ => rw [if_neg (by omega)]; rfl

end

end Cut

/-! ## The pages -/

/-- **The regions of the memory map** are disjoint, above the first megabyte and below
the end of the addresses; so whatever pages the firmware allocates from them are such
as `storeParams` is called with. -/
theorem FirmwareMap.bootMemory {table : List EfiMemoryDescriptor} (h : FirmwareMap table) :
    (initMemoryMap table).Pairwise (fun r q => Disjoint r.addresses q.addresses) ∧
    (∀ r ∈ initMemoryMap table, cpuExtendedMemoryBase ≤ r.start ∧ r.stop < 2 ^ 64) ∧
    ∀ used : List PagesRegion, used.Pairwise (fun u w => Disjoint u.addresses w.addresses) →
      (∀ u ∈ used, 0 < u.num) →
      (∀ u ∈ used, ∃ r ∈ initMemoryMap table,
        r.start ≤ u.base ∧ u.base + u.num * pageSize ≤ r.stop) →
      BootMemory (initMemoryMap table) used := by
  have hbounded := bounded_initMemoryMap table
  exact ⟨h.disjoint_initMemoryMap, hbounded, fun used hused hpos hcontained =>
    ⟨h.disjoint_initMemoryMap, fun r hr => (hbounded r hr).1, fun r hr => (hbounded r hr).2,
      hused, hpos, hcontained⟩⟩

theorem bootMemory_bridge : BootMemory (initMemoryMap bridge) [⟨0x180000, 4⟩] :=
  firmwareMap_bridge.bootMemory.2.2 _ (by simp) (by simp) (by decide +kernel)

namespace BootMemory

section

variable (h : BootMemory free used)

include h

theorem stop_eq (hu : u ∈ used) : u.stop = u.base + u.num * pageSize := by
  obtain ⟨r, hr, -, hstop⟩ := h.contained u hu
  exact Nat.mod_eq_of_lt (hstop.trans_lt (h.addressable r hr))

theorem lt_stop (hu : u ∈ used) : u.base < u.stop := by
  have hpos := h.used_pos u hu
  rw [h.stop_eq hu]
  simp only [pageSize]
  omega

theorem mem_addresses_iff (hu : u ∈ used) : x ∈ u.addresses ↔ u.has x = true := by
  rw [PagesRegion.has_iff, h.stop_eq hu]
  rfl

theorem free_le_one (x : ℕ) : occupancy PhysicalMemoryRegion.has free x ≤ 1 :=
  pairwise_iff_occupancy_le_one.mp
    (h.disjoint.imp fun hrq => disjoint_addresses_iff.mp hrq) x

theorem used_le_one (x : ℕ) : occupancy PagesRegion.has used x ≤ 1 := by
  refine pairwise_iff_occupancy_le_one.mp
    (h.used_disjoint.imp_of_mem fun {u w} hu hw huw x hx => ?_) x
  exact Set.disjoint_left.mp huw ((h.mem_addresses_iff hu).mpr hx.1)
    ((h.mem_addresses_iff hw).mpr hx.2)

/-- Two free regions with one address are the same. -/
theorem free_unique (hr : r ∈ free) (hq : q ∈ free) (hrx : r.has x = true) (hqx : q.has x = true) :
    r = q := by
  by_contra hne
  have hsymm : Std.Symm fun r q : PhysicalMemoryRegion => Disjoint r.addresses q.addresses :=
    ⟨fun _ _ hd => hd.symm⟩
  have hdisjoint := h.disjoint.forall hr hq hne
  exact disjoint_addresses_iff.mp hdisjoint x ⟨hrx, hqx⟩

end

/-- Pages have no address of those before. -/
theorem not_before (h : BootMemory free (before ++ u :: rest)) (hw : w ∈ before)
    (hu : u.has x = true) : ¬ w.has x = true := by
  intro hwx
  have hle := h.used_le_one x
  have hpos : 0 < occupancy PagesRegion.has before x := occupancy_pos_iff.mpr ⟨w, hw, hwx⟩
  rw [occupancy_append, occupancy_cons, if_pos hu] at hle
  omega

end BootMemory

/-! ## What is left -/

/-- A region is in use only with a start. -/
def Marked (regions : List PhysicalMemoryRegion) : Prop :=
  ∀ r ∈ regions, r.start = 0 → r = noRegion

/-- What is left of the free regions without the pages before. -/
structure Left (free : List PhysicalMemoryRegion) (before : List PagesRegion)
    (regions : List PhysicalMemoryRegion) (regCnt : ℕ) : Prop where
  marked : Marked regions
  counted : regCnt = regions.countP fun r => r.start ≠ 0
  occupancy : ∀ x, occupancy PhysicalMemoryRegion.has regions x +
    ShmDos64.occupancy PagesRegion.has before x = ShmDos64.occupancy PhysicalMemoryRegion.has free x
  ends : ∀ r ∈ regions, r.start ≠ 0 → ∃ f ∈ free, f.start ≤ r.start ∧ r.stop ≤ f.stop ∧
    (r.start = f.start ∨ ∃ w ∈ before, w.stop = r.start) ∧
    (r.stop = f.stop ∨ ∃ w ∈ before, w.base = r.stop)

/-- The region that pages are in is in use. -/
theorem Marked.start_ne_zero (h : Marked regions) (hr : r ∈ regions) (hpos : u.base < u.stop)
    (hstop : u.stop ≤ r.stop) : r.start ≠ 0 := by
  intro hzero
  have hstop' : r.stop = 0 := by rw [h r hr hzero]
  omega

/-- The addresses of the vector after a cut. -/
theorem occupancy_cut (hget : v.regions[i]? = some r)
    (hregions : v'.regions = v.regions.set i q ++ ex) (x : ℕ) :
    occupancy PhysicalMemoryRegion.has v'.regions x + (if r.has x then 1 else 0) =
      occupancy PhysicalMemoryRegion.has v.regions x +
        occupancy PhysicalMemoryRegion.has (q :: ex) x := by
  have hset := occupancy_set PhysicalMemoryRegion.has hget q x
  rw [hregions, occupancy_append, occupancy_cons]
  omega

theorem mem_cut (hregions : v'.regions = v.regions.set i q ++ ex) {p : PhysicalMemoryRegion}
    (hp : p ∈ v'.regions) : p ∈ v.regions ∨ p ∈ q :: ex := by
  rw [hregions, List.mem_append] at hp
  rcases hp with hp | hp
  · rcases List.mem_or_eq_of_mem_set hp with hp | rfl
    · exact .inl hp
    · exact .inr List.mem_cons_self
  · exact .inr (List.mem_cons_of_mem q hp)

theorem Marked.storeBusyRegion (h : Marked v.regions) (hpos : u.base < u.stop)
    (hstep : storeBusyRegion v u c = some (v', c')) : Marked v'.regions := by
  obtain ⟨i, r, q, ex, hget, -, hr, hregions, hcut, -⟩ := storeBusyRegion_cut hstep
  have hlive := h.start_ne_zero (List.mem_of_getElem? hget) hpos hr
  intro p hp hzero
  rcases mem_cut hregions hp with hp | hp
  · exact h p hp hzero
  · exact hcut.marked hlive hpos hp hzero

/-- No address is given up but those of the pages. -/
theorem occupancy_le_storeBusyRegion (hpos : u.base < u.stop)
    (hstep : storeBusyRegion v u c = some (v', c')) (x : ℕ) :
    occupancy PhysicalMemoryRegion.has v.regions x ≤
      occupancy PhysicalMemoryRegion.has v'.regions x + if u.has x then 1 else 0 := by
  obtain ⟨i, r, q, ex, hget, hl, hr, hregions, hcut, -⟩ := storeBusyRegion_cut hstep
  have hsum := hcut.occupancy_add hl hpos hr x
  have hvec := occupancy_cut hget hregions x
  omega

namespace Left

/-- Some region has the pages that come next. -/
theorem exists_containing (h : Left free before regions c)
    (hboot : BootMemory free (before ++ u :: rest)) :
    ∃ r ∈ regions, r.start ≤ u.base ∧ u.stop ≤ r.stop := by
  have hmem : u ∈ before ++ u :: rest := by simp
  have hpos := hboot.lt_stop hmem
  obtain ⟨f, hf, hfl, hfr⟩ := hboot.contained u hmem
  rw [← hboot.stop_eq hmem] at hfr
  have hfhas : f.has u.base = true := by
    rw [PhysicalMemoryRegion.has_iff]
    omega
  have huhas : u.has u.base = true := PagesRegion.has_iff.mpr ⟨le_rfl, hpos⟩
  have hbefore : ShmDos64.occupancy PagesRegion.has before u.base = 0 :=
    occupancy_eq_zero_iff.mpr fun w hw => hboot.not_before hw huhas
  have hfree : 0 < ShmDos64.occupancy PhysicalMemoryRegion.has free u.base :=
    occupancy_pos_iff.mpr ⟨f, hf, hfhas⟩
  have hcount := h.occupancy u.base
  obtain ⟨r, hr, hrhas⟩ : ∃ r ∈ regions, r.has u.base = true :=
    occupancy_pos_iff.mp (by omega)
  have hrange := PhysicalMemoryRegion.has_iff.mp hrhas
  refine ⟨r, hr, hrange.1, ?_⟩
  have hlive : r.start ≠ 0 := by
    intro hzero
    have hstop : r.stop = 0 := by rw [h.marked r hr hzero]
    omega
  obtain ⟨g, hg, hgl, hgr, -, hend⟩ := h.ends r hr hlive
  have hghas : g.has u.base = true := PhysicalMemoryRegion.has_iff.mpr ⟨by omega, by omega⟩
  obtain rfl := hboot.free_unique hg hf hghas hfhas
  -- a region that ended inside the pages would end at other pages there
  rcases hend with hend | ⟨w, hw, hend⟩
  · omega
  · by_contra hlt
    have hwpos := hboot.lt_stop (List.mem_append_left _ hw)
    exact hboot.not_before (x := r.stop) hw (PagesRegion.has_iff.mpr ⟨by omega, by omega⟩)
      (PagesRegion.has_iff.mpr ⟨by omega, by omega⟩)

/-- The pages cut the region that they are found in just when they cut one of the free
regions. -/
theorem split_iff (h : Left free before regions c) (hboot : BootMemory free (before ++ u :: rest))
    (hr : r ∈ regions) (hl : r.start ≤ u.base) (hstop : u.stop ≤ r.stop) :
    r.start < u.base ∧ u.stop < r.stop ↔ Splits free before u := by
  have hpos := hboot.lt_stop (u := u) (by simp)
  have hlive := h.marked.start_ne_zero hr hpos hstop
  obtain ⟨f, hf, hfl, hfr, hfirst, hlast⟩ := h.ends r hr hlive
  constructor
  · rintro ⟨hlt, hgt⟩
    refine ⟨⟨f, hf, by omega, by omega⟩, fun w hw => ?_⟩
    have hwpos := hboot.lt_stop (List.mem_append_left _ hw)
    -- an address that the region has and the pages before have too
    have hnot : ∀ x, r.has x = true → ¬ w.has x = true := by
      intro x hrx hwx
      have hcount := h.occupancy x
      have hle := hboot.free_le_one x
      have hregion : 0 < ShmDos64.occupancy PhysicalMemoryRegion.has regions x :=
        occupancy_pos_iff.mpr ⟨r, hr, hrx⟩
      have hused : 0 < ShmDos64.occupancy PagesRegion.has before x :=
        occupancy_pos_iff.mpr ⟨w, hw, hwx⟩
      omega
    constructor
    · intro heq
      exact hnot (u.base - 1) (PhysicalMemoryRegion.has_iff.mpr ⟨by omega, by omega⟩)
        (PagesRegion.has_iff.mpr ⟨by omega, by omega⟩)
    · intro heq
      exact hnot u.stop (PhysicalMemoryRegion.has_iff.mpr ⟨by omega, by omega⟩)
        (PagesRegion.has_iff.mpr ⟨by omega, by omega⟩)
  · rintro ⟨⟨g, hg, hgl, hgr⟩, hbefore⟩
    have hghas : g.has u.base = true := PhysicalMemoryRegion.has_iff.mpr ⟨by omega, by omega⟩
    have hfhas : f.has u.base = true := PhysicalMemoryRegion.has_iff.mpr ⟨by omega, by omega⟩
    obtain rfl := hboot.free_unique hf hg hfhas hghas
    constructor
    · rcases hfirst with hfirst | ⟨w, hw, hfirst⟩
      · omega
      · have := (hbefore w hw).1
        omega
    · rcases hlast with hlast | ⟨w, hw, hlast⟩
      · omega
      · have := (hbefore w hw).2
        omega

/-- **One region in use is taken out**, if it does not cut a region while the vector
is full. -/
theorem storeBusyRegion (h : Left free before v.regions c)
    (hboot : BootMemory free (before ++ u :: rest))
    (hroom : v.regions.length + (if Splits free before u then 1 else 0) ≤ v.allocSize) :
    ∃ v' c', storeBusyRegion v u c = some (v', c') ∧ Left free (before ++ [u]) v'.regions c' ∧
      v'.allocSize = v.allocSize ∧
      v'.regions.length = v.regions.length + if Splits free before u then 1 else 0 := by
  have hpos := hboot.lt_stop (u := u) (by simp)
  obtain ⟨r₀, hr₀, hl₀, hstop₀⟩ := h.exists_containing hboot
  obtain ⟨⟨v', c'⟩, hstep⟩ := exists_storeBusyRegion hr₀ hl₀ hstop₀ c
  obtain ⟨i, r, q, ex, hget, hl, hr, hregions, hcut, halloc⟩ := storeBusyRegion_cut hstep
  have hmem := List.mem_of_getElem? hget
  have hlive := h.marked.start_ne_zero hmem hpos hr
  have hlen := hcut.length_eq
  simp only [h.split_iff hboot hmem hl hr] at hlen
  have hkept : ex = [] ∨ ¬ v.full := by
    rcases eq_or_ne ex [] with hnil | hnil
    · exact .inl hnil
    · right
      intro hfull
      rw [RegionVector.full] at hfull
      have := List.length_pos_of_ne_nil hnil
      omega
  refine ⟨v', c', hstep, ⟨h.marked.storeBusyRegion hpos hstep, ?_, fun x => ?_, fun p hp hp0 => ?_⟩,
    halloc hkept, ?_⟩
  · have hcpos : 0 < c := by
      rw [h.counted]
      exact List.countP_pos_iff.mpr ⟨r, hmem, decide_eq_true hlive⟩
    have hcount := hcut.counted hlive hpos hcpos
    obtain ⟨hi, hri⟩ := List.getElem?_eq_some_iff.mp hget
    have hset := List.countP_set (p := fun r : PhysicalMemoryRegion => decide (r.start ≠ 0))
      (a := q) hi
    rw [hri, if_pos (decide_eq_true hlive), ← h.counted] at hset
    rw [hregions, List.countP_append, hset]
    rw [List.countP_cons] at hcount
    omega
  · have hsum := hcut.occupancy_add hl hpos hr x
    have hvec := occupancy_cut hget hregions x
    have hold := h.occupancy x
    rw [if_neg (c := v.full ∧ _) (by tauto)] at hsum
    rw [occupancy_append, occupancy_singleton]
    omega
  · rcases mem_cut hregions hp with hp | hp
    · obtain ⟨f, hf, hfl, hfr, hfirst, hlast⟩ := h.ends p hp hp0
      refine ⟨f, hf, hfl, hfr, hfirst.imp_right ?_, hlast.imp_right ?_⟩
      all_goals
        rintro ⟨w, hw, heq⟩
        exact ⟨w, List.mem_append_left _ hw, heq⟩
    · obtain ⟨f, hf, hfl, hfr, hfirst, hlast⟩ := h.ends r hmem hlive
      obtain ⟨hpl, hpr, hpfirst, hplast⟩ := hcut.ends hl hpos hr hp hp0
      refine ⟨f, hf, by omega, by omega, ?_, ?_⟩
      · rcases hpfirst with hpfirst | hpfirst
        · rcases hfirst with hfirst | ⟨w, hw, hfirst⟩
          · exact .inl (hpfirst.trans hfirst)
          · exact .inr ⟨w, List.mem_append_left _ hw, hfirst.trans hpfirst.symm⟩
        · exact .inr ⟨u, by simp, hpfirst⟩
      · rcases hplast with hplast | hplast
        · rcases hlast with hlast | ⟨w, hw, hlast⟩
          · exact .inl (hplast.trans hlast)
          · exact .inr ⟨w, List.mem_append_left _ hw, hlast.trans hplast.symm⟩
        · exact .inr ⟨u, by simp, hplast⟩
  · rw [hregions, List.length_append, List.length_set, hlen]

/-- A region cut while the vector is full still has the pages. -/
theorem storeBusyRegion_full (h : Left free before v.regions c)
    (hboot : BootMemory free (before ++ u :: rest)) (hsplits : Splits free before u)
    (hfull : v.full) (hstep : ShmDos64.storeBusyRegion v u c = some (v', c')) :
    2 ≤ ShmDos64.occupancy PhysicalMemoryRegion.has v'.regions u.base +
      ShmDos64.occupancy PagesRegion.has (before ++ [u]) u.base := by
  have hpos := hboot.lt_stop (u := u) (by simp)
  obtain ⟨i, r, q, ex, hget, hl, hr, hregions, hcut, -⟩ := storeBusyRegion_cut hstep
  have hmem := List.mem_of_getElem? hget
  have hsplit := (h.split_iff hboot hmem hl hr).mpr hsplits
  have hne : ex ≠ [] := by
    rintro rfl
    have hlen := hcut.length_eq
    rw [if_pos hsplit] at hlen
    cases hlen
  have hsum := hcut.occupancy_add hl hpos hr u.base
  have hvec := occupancy_cut hget hregions u.base
  have hregion : 0 < ShmDos64.occupancy PhysicalMemoryRegion.has v.regions u.base :=
    occupancy_pos_iff.mpr ⟨r, hmem, PhysicalMemoryRegion.has_iff.mpr ⟨hl, by omega⟩⟩
  rw [if_pos (c := v.full ∧ _) ⟨hfull, hne, le_rfl, by omega⟩] at hsum
  rw [occupancy_append, occupancy_singleton]
  omega

end Left

/-! ## All of them -/

theorem storeBusyRegions_cons : storeBusyRegions v (u :: rest) c =
    (storeBusyRegion v u c).bind fun p => storeBusyRegions p.1 rest p.2 :=
  rfl

theorem Marked.storeBusyRegions (h : Marked v.regions) (hpos : ∀ u ∈ used, u.base < u.stop)
    (hrun : storeBusyRegions v used c = some (v', c')) : Marked v'.regions := by
  induction used generalizing v c with
  | nil =>
    obtain ⟨⟩ := hrun
    exact h
  | cons u used ih =>
    rw [storeBusyRegions_cons] at hrun
    obtain ⟨⟨w, d⟩, hstep, hrun⟩ := Option.bind_eq_some_iff.mp hrun
    exact ih (h.storeBusyRegion (hpos u List.mem_cons_self) hstep)
      (fun u hu => hpos u (List.mem_cons_of_mem _ hu)) hrun

/-- Two of an address stay two. -/
theorem occupancy_le_storeBusyRegions (hpos : ∀ u ∈ used, u.base < u.stop)
    (hrun : storeBusyRegions v used c = some (v', c')) (x : ℕ) :
    occupancy PhysicalMemoryRegion.has v.regions x ≤
      occupancy PhysicalMemoryRegion.has v'.regions x + occupancy PagesRegion.has used x := by
  induction used generalizing v c with
  | nil =>
    obtain ⟨⟩ := hrun
    omega
  | cons u used ih =>
    rw [storeBusyRegions_cons] at hrun
    obtain ⟨⟨w, d⟩, hstep, hrun⟩ := Option.bind_eq_some_iff.mp hrun
    have hfirst := occupancy_le_storeBusyRegion (hpos u List.mem_cons_self) hstep x
    have hrest := ih (fun u hu => hpos u (List.mem_cons_of_mem _ hu)) hrun
    dsimp only at hrest
    rw [occupancy_cons]
    omega

/-- **All the pages are taken out** if there is room for every cut. -/
theorem Left.storeBusyRegions (h : Left free before v.regions c)
    (hboot : BootMemory free (before ++ used))
    (hroom : v.regions.length + splits free before used ≤ v.allocSize) :
    ∃ v' c', storeBusyRegions v used c = some (v', c') ∧
      Left free (before ++ used) v'.regions c' := by
  induction used generalizing v c before with
  | nil => exact ⟨v, c, rfl, by simpa using h⟩
  | cons u used ih =>
    rw [splits] at hroom
    obtain ⟨w, d, hstep, hleft, halloc, hlen⟩ := h.storeBusyRegion hboot (by omega)
    rw [List.append_cons] at hboot
    obtain ⟨v', c', hrun, hlast⟩ := ih hleft hboot (by omega)
    refine ⟨v', c', ?_, by simpa using hlast⟩
    rw [storeBusyRegions_cons, hstep]
    exact hrun

/-- **Some address is left twice**, or left and in use, if there is not. -/
theorem Left.exists_twice (h : Left free before v.regions c)
    (hboot : BootMemory free (before ++ used))
    (hroom : v.allocSize < v.regions.length + splits free before used)
    (hrun : ShmDos64.storeBusyRegions v used c = some (v', c')) :
    ∃ x, 2 ≤ ShmDos64.occupancy PhysicalMemoryRegion.has v'.regions x +
      ShmDos64.occupancy PagesRegion.has (before ++ used) x := by
  induction used generalizing v c before with
  | nil =>
    have := v.fits
    rw [splits] at hroom
    omega
  | cons u used ih =>
    rw [splits] at hroom
    have hrun' := hrun
    rw [storeBusyRegions_cons] at hrun'
    obtain ⟨⟨w, d⟩, hstep, hrun'⟩ := Option.bind_eq_some_iff.mp hrun'
    have hfits := v.fits
    -- the first cut that there is no room for, or a later one
    by_cases hnow : Splits free before u ∧ v.full
    · have htwice := h.storeBusyRegion_full hboot hnow.1 hnow.2 hstep
      have hmono := occupancy_le_storeBusyRegions
        (fun u hu => hboot.lt_stop (by simp [hu])) hrun' u.base
      refine ⟨u.base, ?_⟩
      rw [List.append_cons, occupancy_append]
      dsimp only at hmono
      omega
    · have hnext : v.regions.length + (if Splits free before u then 1 else 0) ≤ v.allocSize := by
        split
        next hs =>
          have hfull : ¬ v.regions.length = v.allocSize := fun hf => hnow ⟨hs, hf⟩
          omega
        next => omega
      obtain ⟨w', d', hstep', hleft, halloc, hlen⟩ := h.storeBusyRegion hboot hnext
      obtain ⟨rfl, rfl⟩ := Prod.mk.inj (Option.some.inj (hstep.symm.trans hstep'))
      rw [List.append_cons] at hboot ⊢
      exact ih hleft hboot (by omega) hrun'

/-! ## What is stored -/

theorem storeBusyRegions_concat : storeBusyRegions v (used ++ [u]) c =
    (storeBusyRegions v used c).bind fun p => storeBusyRegion p.1 u p.2 := by
  simp only [storeBusyRegions, List.foldlM_append, List.foldlM_cons, List.foldlM_nil,
    bind_pure]
  rfl

/-- `storeParams` goes over the pages in use and then those of the array. -/
theorem storeParams_eq_some {base : ℕ} {params : PhysicalMemory}
    (h : storeParams v used base = some params) :
    ∃ v' c', storeBusyRegions v (used ++ [arrayRegion base (regCntLimit v used)])
        v.regions.length = some (v', c') ∧
      params = ⟨v'.regions.filter fun r => r.start ≠ 0, c'⟩ ∧ c' ≤ regCntLimit v used := by
  rw [storeParams] at h
  split at h
  next => cases h
  next w d hrun =>
    have hlimit : regCntLimit v used = d + 1 := by
      rw [regCntLimit, hrun]
    split at h
    next => cases h
    next v' c' hstep =>
      split at h
      next => cases h
      next hle =>
        refine ⟨v', c', ?_, (Option.some.inj h).symm, by omega⟩
        rw [storeBusyRegions_concat, hrun, hlimit]
        exact hstep

theorem storeParams_of_storeBusyRegions {base : ℕ}
    (h : storeBusyRegions v (used ++ [arrayRegion base (regCntLimit v used)])
      v.regions.length = some (v', c')) :
    storeParams v used base = some ⟨v'.regions.filter fun r => r.start ≠ 0, c'⟩ := by
  rw [storeBusyRegions_concat] at h
  obtain ⟨⟨w, d⟩, hrun, hstep⟩ := Option.bind_eq_some_iff.mp h
  have hlimit : regCntLimit v used = d + 1 := by
    rw [regCntLimit, hrun]
  rw [hlimit] at hstep
  -- one region in use adds one region at most
  have hle : ¬ d + 1 < c' := by
    obtain ⟨i, r, q, ex, -, -, -, -, hcut, -⟩ := storeBusyRegion_cut hstep
    cases hcut <;> omega
  rw [storeParams, hrun]
  dsimp only at hstep ⊢
  rw [hstep]
  exact if_neg hle

theorem Marked.occupancy_filter (h : Marked regions) (x : ℕ) :
    occupancy PhysicalMemoryRegion.has (regions.filter fun r => r.start ≠ 0) x =
      occupancy PhysicalMemoryRegion.has regions x := by
  rw [occupancy, List.countP_filter]
  refine List.countP_congr fun r hr => ?_
  by_cases hzero : r.start = 0
  · rw [h r hr hzero]
    simp
  · simp [hzero]

theorem BootMemory.left (h : BootMemory free used) : Left free [] free free.length where
  marked r hr hzero := by
    have hstart := h.extended r hr
    simp only [cpuExtendedMemoryBase] at hstart
    omega
  counted := by
    refine (List.countP_eq_length.mpr fun r hr => ?_).symm
    have hstart := h.extended r hr
    simp only [cpuExtendedMemoryBase] at hstart
    exact decide_eq_true (by omega)
  occupancy _ := rfl
  ends r hr _ := ⟨r, hr, le_rfl, le_rfl, .inl rfl, .inl rfl⟩

theorem BootMemory.mem_iUnion_addresses (h : BootMemory free used) :
    x ∈ ⋃ u ∈ used, u.addresses ↔ 0 < occupancy PagesRegion.has used x := by
  simp only [occupancy_pos_iff, Set.mem_iUnion, exists_prop]
  constructor
  · rintro ⟨u, hu, hx⟩
    exact ⟨u, hu, (h.mem_addresses_iff hu).mp hx⟩
  · rintro ⟨u, hu, hx⟩
    exact ⟨u, hu, (h.mem_addresses_iff hu).mpr hx⟩

/-- What is left is what has to be handed over. -/
theorem Left.handsOver (h : Left free used regions c) (hboot : BootMemory free used) {limit : ℕ}
    (hc : c ≤ limit) : HandsOver free used limit ⟨regions.filter fun r => r.start ≠ 0, c⟩ := by
  have hsum : ∀ x, ShmDos64.occupancy PhysicalMemoryRegion.has
      (regions.filter fun r => r.start ≠ 0) x + ShmDos64.occupancy PagesRegion.has used x =
      ShmDos64.occupancy PhysicalMemoryRegion.has free x := by
    intro x
    rw [h.marked.occupancy_filter]
    exact h.occupancy x
  refine ⟨?_, fun r hr u hu => ?_, ?_, ?_, hc⟩
  · simp only [disjoint_addresses_iff]
    refine pairwise_iff_occupancy_le_one.mpr fun x => ?_
    have := hsum x
    have := hboot.free_le_one x
    omega
  · refine Set.disjoint_left.mpr fun x hrx hux => ?_
    have hregion := occupancy_pos_iff.mpr ⟨r, hr, PhysicalMemoryRegion.has_iff.mpr hrx⟩
    have hused := occupancy_pos_iff.mpr ⟨u, hu, (hboot.mem_addresses_iff hu).mp hux⟩
    dsimp only at hregion
    have := hsum x
    have := hboot.free_le_one x
    omega
  · ext x
    rw [Set.mem_union, mem_iUnion_addresses, hboot.mem_iUnion_addresses, mem_iUnion_addresses]
    have := hsum x
    dsimp only
    omega
  · rw [h.counted, List.countP_eq_length_filter]

/-- What is handed over has no address twice, or one in use. -/
theorem HandsOver.occupancy_le_one {limit : ℕ} {params : PhysicalMemory}
    (h : HandsOver free used limit params) (hboot : BootMemory free used) (x : ℕ) :
    occupancy PhysicalMemoryRegion.has params.physicalMemoryRegions x +
      occupancy PagesRegion.has used x ≤ 1 := by
  have hregion : occupancy PhysicalMemoryRegion.has params.physicalMemoryRegions x ≤ 1 :=
    pairwise_iff_occupancy_le_one.mp
      (h.disjoint.imp fun hrq => disjoint_addresses_iff.mp hrq) x
  have hused := hboot.used_le_one x
  by_contra hlt
  obtain ⟨r, hr, hrx⟩ := occupancy_pos_iff.mp (show 0 < occupancy PhysicalMemoryRegion.has
    params.physicalMemoryRegions x by omega)
  obtain ⟨u, hu, hux⟩ := occupancy_pos_iff.mp (show 0 < occupancy PagesRegion.has used x by omega)
  exact Set.disjoint_left.mp (h.unused r hr u hu) (PhysicalMemoryRegion.has_iff.mp hrx)
    ((hboot.mem_addresses_iff hu).mpr hux)

/-- **The kernel is handed what is free and not in use** just when the buffer of the
vector, as `storeParams` finds it, has room for every cut. -/
theorem storeParams_handsOver {base : ℕ}
    (h : BootMemory v.regions (used ++ [arrayRegion base (regCntLimit v used)])) :
    (∃ params, storeParams v used base = some params ∧
      HandsOver v.regions (used ++ [arrayRegion base (regCntLimit v used)])
        (regCntLimit v used) params) ↔
    v.regions.length + splits v.regions [] (used ++ [arrayRegion base (regCntLimit v used)]) ≤
      v.allocSize := by
  have hleft := h.left
  constructor
  · rintro ⟨params, hparams, hover⟩
    obtain ⟨v', c', hrun, rfl, -⟩ := storeParams_eq_some hparams
    by_contra hroom
    rw [← List.nil_append (used ++ _)] at h
    obtain ⟨x, htwice⟩ := hleft.exists_twice h (Nat.lt_of_not_le hroom) hrun
    rw [List.nil_append] at h htwice
    have hone := hover.occupancy_le_one h x
    have hmarked := hleft.marked.storeBusyRegions (fun u hu => h.lt_stop hu) hrun
    rw [hmarked.occupancy_filter] at hone
    omega
  · intro hroom
    obtain ⟨v', c', hrun, hlast⟩ := hleft.storeBusyRegions h hroom
    have hparams := storeParams_of_storeBusyRegions hrun
    obtain ⟨w, d, -, heq, hle⟩ := storeParams_eq_some hparams
    obtain ⟨-, rfl⟩ := PhysicalMemory.mk.inj heq
    exact ⟨_, hparams, hlast.handsOver h hle⟩

/-- Two free regions in a buffer for 16. -/
def roomy : RegionVector := ⟨[⟨0x100000, 0x200000⟩, ⟨0x300000, 0x400000⟩], 16, by decide⟩

theorem bootMemory_roomy : BootMemory roomy.regions
    ([⟨0x180000, 4⟩] ++ [arrayRegion 0x300000 (regCntLimit roomy [⟨0x180000, 4⟩])]) where
  disjoint := by
    simp only [roomy, List.pairwise_cons, List.mem_cons, List.not_mem_nil, or_false, forall_eq,
      false_imp_iff, implies_true, List.Pairwise.nil, and_true, PhysicalMemoryRegion.addresses,
      Set.Ico_disjoint_Ico]
    decide
  extended := by decide
  addressable := by decide
  used_disjoint := by
    simp only [List.cons_append, List.nil_append, List.pairwise_cons, List.mem_cons,
      List.not_mem_nil, or_false, forall_eq, false_imp_iff, implies_true, List.Pairwise.nil,
      and_true, PagesRegion.addresses, Set.Ico_disjoint_Ico]
    decide
  used_pos := by decide
  contained := by decide

/-- Pages inside the first region cut it, and the array is at the start of the second. -/
theorem storeParams_handsOver_roomy :
    storeParams roomy [⟨0x180000, 4⟩] 0x300000 =
        some ⟨[⟨0x100000, 0x180000⟩, ⟨0x301000, 0x400000⟩, ⟨0x184000, 0x200000⟩], 3⟩ ∧
      ∃ params, storeParams roomy [⟨0x180000, 4⟩] 0x300000 = some params ∧
        HandsOver roomy.regions
          ([⟨0x180000, 4⟩] ++ [arrayRegion 0x300000 (regCntLimit roomy [⟨0x180000, 4⟩])])
          (regCntLimit roomy [⟨0x180000, 4⟩]) params :=
  ⟨by decide +kernel, (storeParams_handsOver bootMemory_roomy).mpr (by decide +kernel)⟩

/-- 16 free regions of 1 MB, as many as the buffer of a `kvector` is allocated for
first. -/
def sixteen : RegionVector :=
  ⟨(List.range 16).map fun i => ⟨0x200000 * (i + 1), 0x200000 * (i + 1) + 0x100000⟩, 16,
    by decide⟩

/-- **The array is handed over as free memory.** Its page is inside the first of 16
regions, and the vector moves. -/
theorem array_handed_over :
    ∃ params, storeParams sixteen [] 0x240000 = some params ∧
      arrayRegion 0x240000 (regCntLimit sixteen []) = ⟨0x240000, 1⟩ ∧
      ⟨0x200000, 0x300000⟩ ∈ params.physicalMemoryRegions ∧
      ⟨0x241000, 0x300000⟩ ∈ params.physicalMemoryRegions :=
  ⟨_, rfl, by decide, by decide, by decide⟩

end ShmDos64
