import ShmDos64.Paging.Model
/-!
# Page-table entries

The bits of an entry, and what the operations of `PagingManager64` do to
one entry: `setPagesFlags`, the release of a page to `RamAllocator`, and
the page fault. A page of RAM that has not been touched yet has
`PAGE_FLAG_ALLOCATED` and not `PAGE_FLAG_PRESENT`.
-/

namespace ShmDos64

/-- `PAGE_FLAG_WT`. -/
abbrev pageFlagWt : UInt64 := 8

/-- `PAGE_FLAG_CACHE_DISABLE`. -/
abbrev pageFlagCacheDisable : UInt64 := 0x10

/-- `PAGE_FLAG_WC`. -/
abbrev pageFlagWc : UInt64 := 0x18

/-- `PAGE_FLAG_SIZE`. -/
abbrev pageFlagSize : UInt64 := 0x80

/-- `PAGE_FLAG_GLOBAL`. -/
abbrev pageFlagGlobal : UInt64 := 0x100

/-- `PAGE_FLAG_ALLOCATED`. -/
abbrev pageFlagAllocated : UInt64 := 0x200

/-- `KERNEL_VIRTUAL_BASE`. -/
abbrev kernelVirtualBase : ℕ := 0xFFFFFF8000000000

/-- The address in an entry: `& (CPU_PHYSICAL_ADDRESS_MASK & ~PAGE_MASK)`. -/
def tableOf (e : UInt64) : UInt64 := e &&& 0xFFFFFFFFF000

/-- The free list of `RamAllocator`: the addresses of its pages, the head
first. -/
abbrev RamPages : Type := List UInt64

/-- `RamAllocator::allocPage`; `none` is the panic. What the page is filled
with is not modelled. -/
def RamPages.allocPage : Paging.Alloc RamPages
  | [] => none
  | addr :: ram => some (addr, ram)

/-- `RamAllocator::freePage`. -/
def RamPages.freePage (addr : UInt64) (ram : RamPages) : RamPages := addr :: ram

namespace Paging

/-- The callback of `setPagesFlags`. -/
def setFlags (mask flags entry : UInt64) : UInt64 := (entry &&& ~~~mask) ||| flags

/-- The callback of `freeRamPages` and `freeRamPage`. -/
def releaseEntry (virtualAllocated : Bool) : Callback RamPages := fun ram entry =>
  if entry &&& pageFlagPresent ≠ 0 then
    let addr := tableOf entry
    if addr ≠ 0 then
      let entry := entry &&& (0xFFF ^^^ pageFlagPresent)
      (if virtualAllocated then entry ||| pageFlagAllocated else entry, RamPages.freePage addr ram)
    else (entry, ram)
  else (entry, ram)

/-- The end of `onPageFault`, at the entry of the page: what it returns,
and the entry. -/
def faultEntry (ram : RamPages) (entry : UInt64) : Option (Bool × UInt64 × RamPages) :=
  if entry &&& pageFlagPresent ≠ 0 then some (true, entry, ram)
  else if entry &&& pageFlagAllocated = 0 then some (false, entry, ram)
  else (RamPages.allocPage ram).map fun r =>
    (true, (entry &&& (0xFFF ^^^ pageFlagAllocated)) ||| (r.1 ||| pageFlagPresent), r.2)

end Paging

/-! ## Bits of words -/

theorem uint64_or_and (a b c : UInt64) : (a ||| b) &&& c = (a &&& c) ||| (b &&& c) := by
  apply UInt64.eq_of_toBitVec_eq
  simp only [UInt64.toBitVec_and, UInt64.toBitVec_or]
  exact BitVec.and_or_distrib_right

/-- Bits that are not there can be masked out. -/
theorem uint64_and_not {a b : UInt64} (h : a &&& b = 0) : a &&& ~~~b = a := by
  calc a &&& ~~~b = (b ||| ~~~b) &&& a := by
        rw [uint64_or_and, UInt64.and_comm b, h, UInt64.zero_or, UInt64.and_comm]
    _ = a := by rw [UInt64.or_not_self, UInt64.neg_one_and]

theorem uint64_toNat_and_mask (a : UInt64) {k : ℕ} (hk : k < 64) :
    (a &&& UInt64.ofNat (2 ^ k - 1)).toNat = a.toNat % 2 ^ k := by
  have hpow := Nat.pow_lt_pow_right (a := 2) (by decide) hk
  have hlt : 2 ^ k - 1 < 2 ^ 64 := by omega
  rw [UInt64.toNat_and, UInt64.toNat_ofNat', Nat.mod_eq_of_lt hlt,
    Nat.and_two_pow_sub_one_eq_mod]

/-- Without its offset in the page, an address is that of its page. -/
theorem uint64_toNat_and_not_mask (a : UInt64) :
    (a &&& ~~~0xFFF).toNat = a.toNat / pageSize * pageSize := by
  have hmask : (~~~0xFFF : UInt64).toNat = (2 ^ 52 - 1) <<< 12 := by decide
  have hand : ∀ m, a.toNat &&& m <<< 12 = (a.toNat >>> 12 &&& m) <<< 12 := by
    intro m
    apply Nat.eq_of_testBit_eq
    intro i
    by_cases hi : 12 ≤ i
    · simp [Nat.testBit_shiftLeft, Nat.testBit_shiftRight, hi]
    · simp [Nat.testBit_shiftLeft, hi]
  have hlt := a.toNat_lt
  rw [UInt64.toNat_and, hmask, hand, Nat.and_two_pow_sub_one_eq_mod, Nat.shiftLeft_eq,
    Nat.shiftRight_eq_div_pow, Nat.mod_eq_of_lt (by omega)]

variable {a b e : UInt64}

/-- The address of a page that a table can be in. -/
def IsTableAddress (p : UInt64) : Prop := p &&& 0xFFFFFFFFF000 = p

namespace IsTableAddress

theorem and_eq_zero (h : IsTableAddress a) (hb : 0xFFFFFFFFF000 &&& b = 0) : a &&& b = 0 := by
  rw [← h, UInt64.and_assoc, hb, UInt64.and_zero]

/-- An aligned address in the range of an entry's address. -/
theorem ofNat {a : ℕ} (ha : pageSize ∣ a) (hlt : a < 2 ^ 48) : IsTableAddress (UInt64.ofNat a) := by
  obtain ⟨k, rfl⟩ := ha
  have hmask : (0xFFFFFFFFF000 : ℕ) = (2 ^ 36 - 1) <<< 12 := by decide
  have hk : pageSize * k = k <<< 12 := by rw [Nat.shiftLeft_eq, Nat.mul_comm]
  apply UInt64.toNat_inj.mp
  rw [UInt64.toNat_and, UInt64.toNat_ofNat', Nat.mod_eq_of_lt (by omega)]
  change pageSize * k &&& 0xFFFFFFFFF000 = _
  rw [hmask, hk, ← Nat.shiftLeft_and_distrib, Nat.and_two_pow_sub_one_eq_mod,
    Nat.mod_eq_of_lt (by simp only [pageSize] at hlt; omega)]

end IsTableAddress

end ShmDos64
