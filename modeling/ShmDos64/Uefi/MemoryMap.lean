import Mathlib
import ShmDos64.Common.Occupancy
import ShmDos64.RamAllocator.Model
/-!
# The memory map

`initMemoryMap` makes regions out of the firmware's descriptors, in the order in
which they come. A descriptor of usable memory is added to a region that ends
where it starts, or starts where it ends; if there is now another region that the
grown one touches, the two become one and a slot is left over, marked by the end
0. A descriptor that touches nothing takes such a slot, or a new one.
-/

namespace ShmDos64

/-- `CPU_EXTENDED_MEMORY_BASE`. -/
abbrev cpuExtendedMemoryBase : ℕ := 0x100000

/-- `EFI_MEMORY_TYPE`; the field of a descriptor may have other values. -/
inductive EfiMemoryType where
  | reserved
  | loaderCode
  | loaderData
  | bootServicesCode
  | bootServicesData
  | runtimeServicesCode
  | runtimeServicesData
  | conventional
  | unusable
  | acpiReclaim
  | acpiMemoryNvs
  | memoryMappedIo
  | memoryMappedIoPortSpace
  | palCode
  | persistent
  | other (type : ℕ)
  deriving DecidableEq

/-- `EFI_MEMORY_DESCRIPTOR`. -/
structure EfiMemoryDescriptor where
  type : EfiMemoryType
  physicalStart : ℕ
  numberOfPages : ℕ
  attributes : BitVec 64

namespace EfiMemoryDescriptor

section

variable (d : EfiMemoryDescriptor)

/-- The `switch` over the types. -/
def hasUsableType : Bool :=
  match d.type with
  | .loaderCode | .loaderData | .bootServicesCode | .bootServicesData | .conventional => true
  | _ => false

/-- A descriptor of one of the five types, with the attributes. -/
def usable : Bool :=
  d.type ≠ .reserved && d.attributes &&& 0x0F = 0xF && d.hasUsableType

/-- `end`, a `uintptr_t`. -/
def stop : ℕ := (d.physicalStart + d.numberOfPages * pageSize) % 2 ^ 64

/-- The addresses of the descriptor. -/
def addresses : Set ℕ :=
  Set.Ico d.physicalStart (d.physicalStart + d.numberOfPages * pageSize)

end

end EfiMemoryDescriptor

namespace PhysicalMemoryRegion

/-- The region has the address. -/
def has (r : PhysicalMemoryRegion) (x : ℕ) : Bool := r.start ≤ x && x < r.stop

@[simp] theorem has_iff {r : PhysicalMemoryRegion} {x : ℕ} :
    r.has x = true ↔ r.start ≤ x ∧ x < r.stop := by
  simp [has]

/-- The addresses of the region. -/
def addresses (r : PhysicalMemoryRegion) : Set ℕ := Set.Ico r.start r.stop

end PhysicalMemoryRegion

theorem disjoint_addresses_iff {r q : PhysicalMemoryRegion} :
    Disjoint r.addresses q.addresses ↔ ∀ x, ¬ (r.has x = true ∧ q.has x = true) := by
  simp [Set.disjoint_left, PhysicalMemoryRegion.addresses]

/-- A slot that is not in use. -/
abbrev noRegion : PhysicalMemoryRegion := ⟨0, 0⟩

section

variable (regions : List PhysicalMemoryRegion)

/-- The slot at an index. -/
def slot (i : ℕ) : PhysicalMemoryRegion :=
  regions.getD i noRegion

/-- `pFree`: the last slot that is not in use. -/
def freeSlot : Option ℕ :=
  (List.range regions.length).reverse.find? fun i => (slot regions i).stop = 0

/-- The first loop: the first region that touches the addresses. -/
def touching (start stop : ℕ) : Option ℕ :=
  (List.range regions.length).find? fun i =>
    (slot regions i).stop ≠ 0 ∧ ((slot regions i).stop = start ∨ (slot regions i).start = stop)

/-- The second loop: the first region but `pUnite` that touches it. -/
def touchingOther (unite : ℕ) : Option ℕ :=
  (List.range regions.length).find? fun j =>
    (slot regions j).stop ≠ 0 ∧ j ≠ unite ∧
      ((slot regions j).stop = (slot regions unite).start ∨
        (slot regions j).start = (slot regions unite).stop)

/-- `pUnite` takes the addresses in. -/
def unite (i start stop : ℕ) : List PhysicalMemoryRegion :=
  let r := slot regions i
  regions.set i (if r.stop = start then { r with stop := stop } else { r with start := start })

/-- The region at `j` takes `pUnite` in, whose slot is left over. -/
def absorb (j i : ℕ) : List PhysicalMemoryRegion :=
  let q := slot regions j
  let r := slot regions i
  (regions.set j (if q.stop = r.start then { q with stop := r.stop }
    else { q with start := r.start })).set i { r with stop := 0 }

/-- What is done with the addresses of a usable descriptor. -/
def addRegion (start stop : ℕ) :
    List PhysicalMemoryRegion :=
  match touching regions start stop with
  | some i =>
    let regions := unite regions i start stop
    match touchingOther regions i with
    | some j => absorb regions j i
    | none => regions
  | none =>
    match freeSlot regions with
    | some k => regions.set k ⟨start, stop⟩
    | none => regions ++ [⟨start, stop⟩]

/-- A round of the loop over the descriptors. -/
def addDescriptor (d : EfiMemoryDescriptor) :
    List PhysicalMemoryRegion :=
  if d.usable = false then regions
  else if d.stop < cpuExtendedMemoryBase then regions
  else addRegion regions (max d.physicalStart cpuExtendedMemoryBase) d.stop

end

/-- `initMemoryMap`: `m_freeRegions` from the descriptors of the table. -/
def initMemoryMap (table : List EfiMemoryDescriptor) : List PhysicalMemoryRegion :=
  (table.foldl addDescriptor []).filter fun r => r.stop ≠ 0

/-- What the firmware's table is: descriptors of different memory, each of which
ends at an address. -/
structure FirmwareMap (table : List EfiMemoryDescriptor) : Prop where
  disjoint : table.Pairwise fun d e => Disjoint d.addresses e.addresses
  addressable : ∀ d ∈ table, d.physicalStart + d.numberOfPages * pageSize < 2 ^ 64

/-! ## The slots -/

variable {regions : List PhysicalMemoryRegion} {r q : PhysicalMemoryRegion} {i j k x : ℕ}

/-- A region that is in use. -/
def Live (regions : List PhysicalMemoryRegion) (i : ℕ) (r : PhysicalMemoryRegion) : Prop :=
  regions[i]? = some r ∧ r.stop ≠ 0

theorem slot_eq (h : regions[i]? = some r) : slot regions i = r := by
  rw [slot, List.getD_eq_getElem?_getD, h]
  rfl

theorem getElem?_slot (hi : i < regions.length) : regions[i]? = some (slot regions i) := by
  rw [slot, List.getD_eq_getElem?_getD, List.getElem?_eq_getElem hi]
  rfl

theorem Live.lt (h : Live regions i r) : i < regions.length :=
  (List.getElem?_eq_some_iff.mp h.1).1

theorem live_set (hi : i < regions.length) : Live (regions.set i q) j r ↔
      (j = i ∧ r = q ∧ q.stop ≠ 0) ∨ (j ≠ i ∧ Live regions j r) := by
  rw [Live, Live, List.getElem?_set]
  by_cases hj : i = j
  · subst hj
    rw [if_pos rfl, if_pos hi, Option.some.injEq]
    constructor
    · rintro ⟨rfl, hstop⟩
      exact .inl ⟨rfl, rfl, hstop⟩
    · rintro (⟨-, rfl, hstop⟩ | ⟨hne, -⟩)
      · exact ⟨rfl, hstop⟩
      · exact absurd rfl hne
  · rw [if_neg hj]
    simp [Ne.symm hj]

theorem live_concat (h : Live (regions ++ [q]) j r) :
    (j = regions.length ∧ r = q) ∨ (j ≠ regions.length ∧ Live regions j r) := by
  obtain ⟨hget, hstop⟩ := h
  rcases lt_trichotomy j regions.length with hj | rfl | hj
  · rw [List.getElem?_append_left hj] at hget
    exact .inr ⟨hj.ne, hget, hstop⟩
  · rw [List.getElem?_concat_length, Option.some.injEq] at hget
    exact .inl ⟨rfl, hget.symm⟩
  · rw [List.getElem?_eq_none (by simpa using hj)] at hget
    cases hget

/-! ### What the loops find -/

theorem of_find_range {n : ℕ} {p : ℕ → Bool} (h : (List.range n).find? p = some i) :
    i < n ∧ p i = true :=
  ⟨List.mem_range.mp (List.mem_of_find?_eq_some h), List.find?_some h⟩

theorem touching_some {start stop : ℕ} (h : touching regions start stop = some i) :
    Live regions i (slot regions i) ∧
      ((slot regions i).stop = start ∨ (slot regions i).start = stop) := by
  obtain ⟨hi, hp⟩ := of_find_range h
  obtain ⟨hstop, htouch⟩ := of_decide_eq_true hp
  exact ⟨⟨getElem?_slot hi, hstop⟩, htouch⟩

theorem touching_none {start stop : ℕ} (h : touching regions start stop = none)
    (hr : Live regions i r) : r.stop ≠ start ∧ r.start ≠ stop := by
  have hp := List.find?_eq_none.mp h i (List.mem_range.mpr hr.lt)
  simp only [slot_eq hr.1, decide_eq_true_iff] at hp
  exact ⟨fun hs => hp ⟨hr.2, .inl hs⟩, fun hs => hp ⟨hr.2, .inr hs⟩⟩

theorem touchingOther_some (h : touchingOther regions i = some j) :
    Live regions j (slot regions j) ∧ j ≠ i ∧
      ((slot regions j).stop = (slot regions i).start ∨
        (slot regions j).start = (slot regions i).stop) := by
  obtain ⟨hj, hp⟩ := of_find_range h
  obtain ⟨hstop, hne, htouch⟩ := of_decide_eq_true hp
  exact ⟨⟨getElem?_slot hj, hstop⟩, hne, htouch⟩

theorem touchingOther_none (h : touchingOther regions i = none) (hr : Live regions i r)
    (hq : Live regions j q) (hne : j ≠ i) : q.stop ≠ r.start ∧ q.start ≠ r.stop := by
  have hp := List.find?_eq_none.mp h j (List.mem_range.mpr hq.lt)
  simp only [slot_eq hq.1, slot_eq hr.1, decide_eq_true_iff] at hp
  exact ⟨fun hs => hp ⟨hq.2, hne, .inl hs⟩, fun hs => hp ⟨hq.2, hne, .inr hs⟩⟩

/-! ## The invariant -/

/-- The slots are regions that touch no other, and take each address as often as
it has come. -/
structure Normal (regions : List PhysicalMemoryRegion) (n : ℕ → ℕ) : Prop where
  ordered : ∀ i r, Live regions i r → r.start ≤ r.stop
  apart : ∀ i j r q, i ≠ j → Live regions i r → Live regions j q → r.stop ≠ q.start
  count : ∀ x, occupancy PhysicalMemoryRegion.has regions x = n x

/-- The same, but that the region `r` at `i` has grown at one of its ends and may
touch another there. -/
structure Grown (regions : List PhysicalMemoryRegion) (n : ℕ → ℕ) (i : ℕ)
    (r : PhysicalMemoryRegion) : Prop where
  live : Live regions i r
  ordered : ∀ i r, Live regions i r → r.start ≤ r.stop
  apart : ∀ j k q p, j ≠ i → k ≠ i → j ≠ k → Live regions j q → Live regions k p →
    q.stop ≠ p.start
  half : (∀ j q, j ≠ i → Live regions j q → q.stop ≠ r.start) ∨
    ∀ j q, j ≠ i → Live regions j q → r.stop ≠ q.start
  count : ∀ x, occupancy PhysicalMemoryRegion.has regions x = n x

variable {n : ℕ → ℕ} {start stop : ℕ}

/-- An address taken once more. -/
def taken (n : ℕ → ℕ) (start stop x : ℕ) : ℕ := n x + if start ≤ x ∧ x < stop then 1 else 0

/-- A slot that is not in use takes nothing. -/
theorem has_of_stop_zero (h : r.stop = 0) : r.has x = false := by
  simp [PhysicalMemoryRegion.has, h]

/-- A region that touches nothing has a slot of its own. -/
theorem Normal.place {regions' : List PhysicalMemoryRegion} (h : Normal regions n)
    (hle : start ≤ stop) (hnone : touching regions start stop = none)
    (hlive : ∀ j r, Live regions' j r →
      (j = k ∧ r = ⟨start, stop⟩) ∨ (j ≠ k ∧ Live regions j r))
    (hcount : ∀ x, occupancy PhysicalMemoryRegion.has regions' x =
      taken (occupancy PhysicalMemoryRegion.has regions) start stop x) :
    Normal regions' (taken n start stop) where
  ordered i r hr := by
    rcases hlive i r hr with ⟨-, rfl⟩ | ⟨-, hr⟩
    · exact hle
    · exact h.ordered i r hr
  apart i j r q hne hr hq := by
    rcases hlive i r hr with ⟨rfl, rfl⟩ | ⟨-, hr⟩
    · rcases hlive j q hq with ⟨rfl, -⟩ | ⟨-, hq⟩
      · exact absurd rfl hne
      · exact (touching_none hnone hq).2.symm
    · rcases hlive j q hq with ⟨-, rfl⟩ | ⟨-, hq⟩
      · exact (touching_none hnone hr).1
      · exact h.apart i j r q hne hr hq
  count x := by rw [hcount, taken, taken, h.count]

theorem occupancy_set_has (hi : regions[i]? = some r) (x : ℕ) :
    occupancy PhysicalMemoryRegion.has (regions.set i q) x +
        (if r.start ≤ x ∧ x < r.stop then 1 else 0) =
      occupancy PhysicalMemoryRegion.has regions x + if q.start ≤ x ∧ x < q.stop then 1 else 0 := by
  simpa only [PhysicalMemoryRegion.has_iff] using occupancy_set PhysicalMemoryRegion.has hi q x

/-- `pUnite` grows by what it touches. -/
theorem Normal.unite (h : Normal regions n) (hle : start ≤ stop) (hstop : stop ≠ 0)
    (hsome : touching regions start stop = some i) :
    ∃ r, Grown (unite regions i start stop) (taken n start stop) i r := by
  obtain ⟨hlive, htouch⟩ := touching_some hsome
  have hordered := h.ordered i _ hlive
  have hi := hlive.lt
  set r := slot regions i with hr
  obtain ⟨r', hr', hstop', hwithin, hhalf, hhas⟩ : ∃ r' : PhysicalMemoryRegion,
      ShmDos64.unite regions i start stop = regions.set i r' ∧ r'.stop ≠ 0 ∧ r'.start ≤ r'.stop ∧
      (r'.start = r.start ∨ r'.stop = r.stop) ∧
      ∀ x, (if r'.start ≤ x ∧ x < r'.stop then 1 else 0) =
        (if r.start ≤ x ∧ x < r.stop then 1 else 0) +
          if start ≤ x ∧ x < stop then 1 else 0 := by
    by_cases hleft : r.stop = start
    · refine ⟨{ r with stop := stop }, by rw [ShmDos64.unite, ← hr, if_pos hleft], hstop, ?_,
        .inl rfl, fun x => ?_⟩
      · simp only
        omega
      · simp only
        split_ifs <;> omega
    · have hright := htouch.resolve_left hleft
      refine ⟨{ r with start := start }, by rw [ShmDos64.unite, ← hr, if_neg hleft], hlive.2, ?_,
        .inr rfl, fun x => ?_⟩
      · simp only
        omega
      · simp only
        split_ifs <;> omega
  rw [hr']
  refine ⟨r', (live_set hi).mpr (.inl ⟨rfl, rfl, hstop'⟩), fun j q hq => ?_,
    fun j k q p hj hk hjk hq hp => ?_, ?_, fun x => ?_⟩
  · rcases (live_set hi).mp hq with ⟨-, rfl, -⟩ | ⟨-, hq⟩
    · exact hwithin
    · exact h.ordered j q hq
  · rcases (live_set hi).mp hq with ⟨rfl, -⟩ | ⟨-, hq⟩
    · exact absurd rfl hj
    rcases (live_set hi).mp hp with ⟨rfl, -⟩ | ⟨-, hp⟩
    · exact absurd rfl hk
    exact h.apart j k q p hjk hq hp
  · have hold : ∀ j q, j ≠ i → Live (regions.set i r') j q → Live regions j q := by
      intro j q hj hq
      rcases (live_set hi).mp hq with ⟨rfl, -⟩ | ⟨-, hq⟩
      · exact absurd rfl hj
      · exact hq
    rcases hhalf with hsame | hsame
    · exact .inl fun j q hj hq => hsame ▸ h.apart j i q r hj (hold j q hj hq) hlive
    · exact .inr fun j q hj hq => hsame ▸ h.apart i j r q hj.symm hlive (hold j q hj hq)
  · have hset := occupancy_set_has (q := r') hlive.1 x
    rw [hhas, h.count] at hset
    rw [taken]
    omega

/-- The grown region touches no other. -/
theorem Grown.normal (h : Grown regions n i r) (hnone : touchingOther regions i = none) :
    Normal regions n where
  ordered := h.ordered
  apart j k q p hjk hq hp := by
    by_cases hj : j = i
    · subst hj
      obtain rfl := Option.some.inj (hq.1.symm.trans h.live.1)
      exact (touchingOther_none hnone h.live hp hjk.symm).2.symm
    · by_cases hk : k = i
      · subst hk
        obtain rfl := Option.some.inj (hp.1.symm.trans h.live.1)
        exact (touchingOther_none hnone h.live hq hj).1
      · exact h.apart j k q p hj hk hjk hq hp
  count := h.count

/-- Another region takes the grown one in. -/
theorem Grown.absorb (h : Grown regions n i r) (hsome : touchingOther regions i = some j) :
    Normal (absorb regions j i) n := by
  obtain ⟨hlive, hji, htouch⟩ := touchingOther_some hsome
  rw [slot_eq h.live.1] at htouch
  have hordered := h.ordered j _ hlive
  have hordered' := h.ordered i _ h.live
  have hi := h.live.lt
  have hj := hlive.lt
  set q := slot regions j with hq
  obtain ⟨q', hq', hstop, hwithin, hends, hhas⟩ : ∃ q' : PhysicalMemoryRegion,
      ShmDos64.absorb regions j i = (regions.set j q').set i { r with stop := 0 } ∧
      q'.stop ≠ 0 ∧ q'.start ≤ q'.stop ∧
      (∀ k p, k ≠ i → k ≠ j → Live regions k p → q'.stop ≠ p.start ∧ p.stop ≠ q'.start) ∧
      ∀ x, (if q'.start ≤ x ∧ x < q'.stop then 1 else 0) =
        (if q.start ≤ x ∧ x < q.stop then 1 else 0) +
          if r.start ≤ x ∧ x < r.stop then 1 else 0 := by
    by_cases hleft : q.stop = r.start
    · refine ⟨{ q with stop := r.stop }, ?_, h.live.2, ?_, fun k p hki hkj hp => ?_, fun x => ?_⟩
      · rw [ShmDos64.absorb, slot_eq h.live.1, ← hq, if_pos hleft]
      · simp only
        omega
      · refine ⟨?_, h.apart k j p q hki hji hkj hp hlive⟩
        rcases h.half with hhalf | hhalf
        · exact absurd hleft (hhalf j q hji hlive)
        · exact hhalf k p hki hp
      · simp only
        split_ifs <;> omega
    · have hright := htouch.resolve_left hleft
      refine ⟨{ q with start := r.start }, ?_, hlive.2, ?_, fun k p hki hkj hp => ?_, fun x => ?_⟩
      · rw [ShmDos64.absorb, slot_eq h.live.1, ← hq, if_neg hleft]
      · simp only
        omega
      · refine ⟨h.apart j k q p hji hki hkj.symm hlive hp, ?_⟩
        rcases h.half with hhalf | hhalf
        · exact hhalf k p hki hp
        · exact absurd hright.symm (hhalf j q hji hlive)
      · simp only
        split_ifs <;> omega
  have hold : ∀ k p, Live ((regions.set j q').set i { r with stop := 0 }) k p →
      k ≠ i ∧ ((k = j ∧ p = q') ∨ (k ≠ j ∧ Live regions k p)) := by
    intro k p hp
    rcases (live_set (by simpa using hi)).mp hp with ⟨-, -, hzero⟩ | ⟨hk, hp⟩
    · exact absurd rfl hzero
    · refine ⟨hk, ?_⟩
      rcases (live_set hj).mp hp with ⟨hkj, hpq, -⟩ | hp
      · exact .inl ⟨hkj, hpq⟩
      · exact .inr hp
  rw [hq']
  refine ⟨fun k p hp => ?_, fun k m p o hkm hp ho => ?_, fun x => ?_⟩
  · rcases (hold k p hp).2 with ⟨-, rfl⟩ | ⟨-, hp⟩
    · exact hwithin
    · exact h.ordered k p hp
  · obtain ⟨hki, hpold⟩ := hold k p hp
    obtain ⟨hmi, hoold⟩ := hold m o ho
    rcases hpold with ⟨rfl, rfl⟩ | ⟨hkj, hpold⟩
    · rcases hoold with ⟨rfl, -⟩ | ⟨hmj, hoold⟩
      · exact absurd rfl hkm
      · exact (hends m o hmi hmj hoold).1
    · rcases hoold with ⟨-, rfl⟩ | ⟨-, hoold⟩
      · exact (hends k p hki hkj hpold).2
      · exact h.apart k m p o hki hmi hkm hpold hoold
  · have hset := occupancy_set_has (q := q') hlive.1 x
    have hget : (regions.set j q')[i]? = some r := by
      rw [List.getElem?_set_ne hji]
      exact h.live.1
    have hfree := occupancy_set_has (q := { r with stop := 0 }) hget x
    rw [hhas] at hset
    simp only [Nat.not_lt_zero, and_false, if_false] at hfree
    rw [← h.count]
    omega

theorem freeSlot_some (h : freeSlot regions = some k) :
    k < regions.length ∧ (slot regions k).stop = 0 := by
  have hmem := List.mem_of_find?_eq_some h
  rw [List.mem_reverse, List.mem_range] at hmem
  have hp := List.find?_some h
  exact ⟨hmem, of_decide_eq_true hp⟩

/-- **A usable descriptor is taken in**, whatever it touches. -/
theorem Normal.addRegion (h : Normal regions n) (hle : start ≤ stop) (hstop : stop ≠ 0) :
    Normal (addRegion regions start stop) (taken n start stop) := by
  rw [ShmDos64.addRegion]
  split
  next i hsome =>
    obtain ⟨r, hgrown⟩ := h.unite hle hstop hsome
    dsimp only
    split
    next j hother => exact hgrown.absorb hother
    next hother => exact hgrown.normal hother
  next hnone =>
    split
    next k hfree =>
      obtain ⟨hk, hzero⟩ := freeSlot_some hfree
      refine h.place (k := k) hle hnone (fun j r hr => ?_) fun x => ?_
      · rcases (live_set hk).mp hr with ⟨hj, hr, -⟩ | hr
        · exact .inl ⟨hj, hr⟩
        · exact .inr hr
      · have hset := occupancy_set_has (q := ⟨start, stop⟩) (getElem?_slot hk) x
        simpa only [hzero, Nat.not_lt_zero, and_false, if_false, Nat.add_zero, taken] using hset
    next hfree =>
      refine h.place (k := regions.length) hle hnone (fun j r hr => live_concat hr) fun x => ?_
      rw [occupancy_append, occupancy_singleton, taken]
      simp only [PhysicalMemoryRegion.has_iff]

/-! ## Where the regions are -/

/-- The regions start in extended memory and end at an address. -/
def Bounded (regions : List PhysicalMemoryRegion) : Prop :=
  ∀ r ∈ regions, cpuExtendedMemoryBase ≤ r.start ∧ r.stop < 2 ^ 64

namespace Bounded

section

variable (h : Bounded regions)

include h

theorem slot (hi : i < regions.length) :
    cpuExtendedMemoryBase ≤ (ShmDos64.slot regions i).start ∧
      (ShmDos64.slot regions i).stop < 2 ^ 64 :=
  h _ (List.mem_of_getElem? (getElem?_slot hi))

theorem set (hq : cpuExtendedMemoryBase ≤ q.start ∧ q.stop < 2 ^ 64) :
    Bounded (regions.set i q) := by
  intro r hr
  rcases List.mem_or_eq_of_mem_set hr with hr | rfl
  · exact h r hr
  · exact hq

theorem unite (hi : i < regions.length)
    (hstart : cpuExtendedMemoryBase ≤ start) (hstop : stop < 2 ^ 64) :
    Bounded (unite regions i start stop) := by
  refine h.set ?_
  split_ifs
  · exact ⟨(h.slot hi).1, hstop⟩
  · exact ⟨hstart, (h.slot hi).2⟩

theorem absorb (hi : i < regions.length) (hj : j < regions.length) :
    Bounded (absorb regions j i) := by
  refine (h.set ?_).set ⟨(h.slot hi).1, by simp⟩
  split_ifs
  · exact ⟨(h.slot hj).1, (h.slot hi).2⟩
  · exact ⟨(h.slot hi).1, (h.slot hj).2⟩

theorem addRegion (hstart : cpuExtendedMemoryBase ≤ start)
    (hstop : stop < 2 ^ 64) : Bounded (addRegion regions start stop) := by
  rw [ShmDos64.addRegion]
  split
  next i hsome =>
    have hi := (touching_some hsome).1.lt
    have hunite := h.unite hi hstart hstop
    dsimp only
    split
    next j hother =>
      refine hunite.absorb ?_ (touchingOther_some hother).1.lt
      simpa [ShmDos64.unite] using hi
    next => exact hunite
  next =>
    split
    next => exact h.set ⟨hstart, hstop⟩
    next =>
      intro r hr
      rcases List.mem_append.mp hr with hr | hr
      · exact h r hr
      · obtain rfl := List.mem_singleton.mp hr
        exact ⟨hstart, hstop⟩

end

end Bounded

/-- **The regions are in extended memory.** -/
theorem bounded_initMemoryMap (table : List EfiMemoryDescriptor) :
    Bounded (initMemoryMap table) := by
  have hfold : ∀ regions, Bounded regions → Bounded (table.foldl addDescriptor regions) := by
    induction table with
    | nil => exact fun _ h => h
    | cons d table ih =>
      intro regions h
      refine ih _ ?_
      rw [addDescriptor]
      split_ifs
      · exact h
      · exact h
      · exact h.addRegion (le_max_right _ _) (Nat.mod_lt _ (by simp))
  intro r hr
  exact hfold [] (by simp [Bounded]) r (List.mem_of_mem_filter hr)

/-! ## The whole table -/

namespace EfiMemoryDescriptor

/-- The usable addresses of a descriptor, from `CPU_EXTENDED_MEMORY_BASE` on. -/
def usableHas (d : EfiMemoryDescriptor) (x : ℕ) : Bool :=
  d.usable && decide (d.physicalStart ≤ x ∧ cpuExtendedMemoryBase ≤ x ∧
    x < d.physicalStart + d.numberOfPages * pageSize)

end EfiMemoryDescriptor

variable {d : EfiMemoryDescriptor} {table : List EfiMemoryDescriptor}

theorem Normal.addDescriptor (h : Normal regions n)
    (hend : d.physicalStart + d.numberOfPages * pageSize < 2 ^ 64) :
    Normal (addDescriptor regions d) fun x => n x + if d.usableHas x then 1 else 0 := by
  have hstop : d.stop = d.physicalStart + d.numberOfPages * pageSize := Nat.mod_eq_of_lt hend
  rw [ShmDos64.addDescriptor]
  split
  next hnot =>
    simpa [EfiMemoryDescriptor.usableHas, hnot] using h
  next husable =>
    rw [Bool.not_eq_false] at husable
    split
    next hlow =>
      refine ⟨h.ordered, h.apart, fun x => ?_⟩
      have hnone : d.usableHas x = false := by
        simp only [EfiMemoryDescriptor.usableHas, husable, Bool.true_and, decide_eq_false_iff_not]
        omega
      rw [hnone, h.count]
      simp
    next hhigh =>
      have hadd : Normal (ShmDos64.addRegion regions (max d.physicalStart cpuExtendedMemoryBase)
          d.stop) (taken n (max d.physicalStart cpuExtendedMemoryBase) d.stop) :=
        h.addRegion ?_ ?_
      · refine ⟨hadd.ordered, hadd.apart, fun x => ?_⟩
        rw [hadd.count, taken]
        congr 1
        simp only [EfiMemoryDescriptor.usableHas, husable, Bool.true_and, decide_eq_true_iff,
          hstop, max_le_iff, and_assoc]
      · omega
      · simp only [cpuExtendedMemoryBase] at hhigh
        omega

theorem normal_foldl (hend : ∀ d ∈ table, d.physicalStart + d.numberOfPages * pageSize < 2 ^ 64)
    (h : Normal regions n) : Normal (table.foldl addDescriptor regions) fun x =>
      n x + occupancy EfiMemoryDescriptor.usableHas table x := by
  induction table generalizing regions n with
  | nil => simpa [occupancy] using h
  | cons d table ih =>
    have hd := h.addDescriptor (hend d List.mem_cons_self)
    have := ih (fun e he => hend e (List.mem_cons_of_mem d he)) hd
    rw [List.foldl_cons]
    refine ⟨this.ordered, this.apart, fun x => ?_⟩
    rw [this.count, occupancy_cons]
    omega

theorem normal_nil : Normal [] fun _ => 0 where
  ordered _ _ h := by cases h.1
  apart _ _ _ _ _ h := by cases h.1
  count _ := rfl

theorem FirmwareMap.normal (h : FirmwareMap table) : Normal (table.foldl addDescriptor [])
    (occupancy EfiMemoryDescriptor.usableHas table) := by
  have hnormal := normal_foldl h.addressable normal_nil
  simpa only [Nat.zero_add] using hnormal

/-- How often `m_freeRegions` has an address. -/
theorem FirmwareMap.occupancy_eq (h : FirmwareMap table) (x : ℕ) :
    occupancy PhysicalMemoryRegion.has (initMemoryMap table) x =
      occupancy EfiMemoryDescriptor.usableHas table x := by
  rw [initMemoryMap, occupancy_filter fun r hr => has_of_stop_zero (by simpa using hr)]
  exact h.normal.count x

theorem EfiMemoryDescriptor.usableHas_iff {x : ℕ} : d.usableHas x = true ↔
    d.usable = true ∧ x ∈ d.addresses ∩ Set.Ici cpuExtendedMemoryBase := by
  simp only [usableHas, addresses, Bool.and_eq_true, decide_eq_true_iff, Set.mem_inter_iff,
    Set.mem_Ico, Set.mem_Ici]
  tauto

theorem mem_iUnion_addresses : x ∈ ⋃ r ∈ regions, r.addresses ↔
    0 < occupancy PhysicalMemoryRegion.has regions x := by
  simp only [occupancy_pos_iff, Set.mem_iUnion, PhysicalMemoryRegion.addresses, Set.mem_Ico,
    PhysicalMemoryRegion.has_iff, exists_prop]

/-- The descriptors are disjoint, so that no address is taken twice. -/
theorem FirmwareMap.disjoint_initMemoryMap (h : FirmwareMap table) :
    (initMemoryMap table).Pairwise fun r q => Disjoint r.addresses q.addresses := by
  simp only [disjoint_addresses_iff]
  refine pairwise_iff_occupancy_le_one.mpr fun x => ?_
  rw [h.occupancy_eq]
  refine pairwise_iff_occupancy_le_one.mp (h.disjoint.imp fun hde x hx => ?_) x
  simp only [EfiMemoryDescriptor.usableHas_iff] at hx
  exact Set.disjoint_left.mp hde hx.1.2.1 hx.2.2.1

/-- **The memory map is normalised.** The regions are disjoint, no two of them
touch, and together they are the usable descriptors from
`CPU_EXTENDED_MEMORY_BASE` on, in whatever order these come. -/
theorem initMemoryMap_normalised (h : FirmwareMap table) :
    (initMemoryMap table).Pairwise (fun r q =>
      Disjoint r.addresses q.addresses ∧ r.stop ≠ q.start ∧ q.stop ≠ r.start) ∧
    ⋃ r ∈ initMemoryMap table, r.addresses =
      ⋃ d ∈ table.filter EfiMemoryDescriptor.usable,
        d.addresses ∩ Set.Ici cpuExtendedMemoryBase := by
  refine ⟨List.Pairwise.and h.disjoint_initMemoryMap ?_, ?_⟩
  · -- regions that touched would have become one
    rw [initMemoryMap, List.pairwise_filter, List.pairwise_iff_getElem]
    intro i j hi hj hij hr hq
    have hlive := fun {k} (hk : k < (table.foldl addDescriptor []).length) hstop =>
      (⟨List.getElem?_eq_getElem hk, of_decide_eq_true hstop⟩ : Live _ k _)
    exact ⟨h.normal.apart i j _ _ hij.ne (hlive hi hr) (hlive hj hq),
      h.normal.apart j i _ _ hij.ne' (hlive hj hq) (hlive hi hr)⟩
  · ext x
    rw [mem_iUnion_addresses, h.occupancy_eq, occupancy_pos_iff]
    simp only [EfiMemoryDescriptor.usableHas_iff, Set.mem_iUnion, List.mem_filter, exists_prop,
      and_assoc]

/-- Two descriptors and the one between them, which comes last. -/
def bridge : List EfiMemoryDescriptor :=
  [⟨.conventional, 0x80000, 0x180, 0xF⟩, ⟨.loaderData, 0x300000, 0x100, 0xF⟩,
    ⟨.bootServicesCode, 0x200000, 0x100, 0xF⟩]

theorem firmwareMap_bridge : FirmwareMap bridge where
  disjoint := by
    simp only [bridge, List.pairwise_cons, List.mem_cons, List.not_mem_nil, or_false,
      forall_eq_or_imp, forall_eq, false_imp_iff, implies_true, List.Pairwise.nil, and_true,
      EfiMemoryDescriptor.addresses, Set.Ico_disjoint_Ico]
    decide
  addressable := by decide

/-- Three descriptors are one region. -/
theorem initMemoryMap_normalised_bridge :
    initMemoryMap bridge = [⟨0x100000, 0x400000⟩] ∧
      ⋃ r ∈ initMemoryMap bridge, r.addresses =
        ⋃ d ∈ bridge.filter EfiMemoryDescriptor.usable,
          d.addresses ∩ Set.Ici cpuExtendedMemoryBase :=
  ⟨by decide, (initMemoryMap_normalised firmwareMap_bridge).2⟩

end ShmDos64
