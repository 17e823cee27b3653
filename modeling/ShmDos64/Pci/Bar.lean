import Mathlib.Tactic
/-!
# The base address registers of `PciDevice`

`io` looks at the low bits of a register for what it is the base of. Its
constant of the 64-bit type is that of both type bits, where the type of
the specification has bit 2 set and bit 1 clear.
-/

namespace ShmDos64

/-- The base and the space `AbstractDevice::io` is called with. -/
inductive BarBase
  | ioSpace (base : BitVec 16)
  | mmioSpace (base : BitVec 64)
  deriving DecidableEq

namespace PciDevice

variable {bar : ℕ → BitVec 32} {barIndex : ℕ}

def mmioMask : BitVec 32 := 0xFFFFFFF0#32

/-- The registers `lo` and `hi` as the base of 64 bits. -/
def wideBase (lo hi : BitVec 32) : BitVec 64 :=
  hi.setWidth 64 <<< 32 ||| (lo &&& mmioMask).setWidth 64

/-- `PciDevice::io` with the registers `m_bar`; none is `nullptr`. -/
def io (bar : ℕ → BitVec 32) (barIndex : ℕ) : Option BarBase :=
  let lo := bar barIndex
  if barIndex ≥ 6 then none
  else if lo &&& 1#32 ≠ 0 then
    let ioBase := (lo &&& 0xFFFC#32).setWidth 16
    if ioBase = 0 then none else some (.ioSpace ioBase)
  else if lo &&& 6#32 = 0#32 then some (.mmioSpace ((lo &&& mmioMask).setWidth 64))
  else if lo &&& 6#32 = 6#32 ∧ barIndex < 5 then
    some (.mmioSpace (wideBase lo (bar (barIndex + 1))))
  else none

/-- The decoding of the PCI specification, by bit 0 and the bits 2 and 1. -/
def specifiedIo (bar : ℕ → BitVec 32) (barIndex : ℕ) : Option BarBase :=
  let lo := bar barIndex
  if 6 ≤ barIndex then none
  else match lo.getLsbD 0, lo.getLsbD 2, lo.getLsbD 1 with
    | true, _, _ => if lo &&& 0xFFFC#32 = 0 then none else
        some (.ioSpace ((lo &&& 0xFFFC#32).setWidth 16))
    | false, false, false => some (.mmioSpace ((lo &&& mmioMask).setWidth 64))
    | false, true, false =>
      if barIndex < 5 then some (.mmioSpace (wideBase lo (bar (barIndex + 1)))) else none
    | false, _, true => none

theorem and_six (x : BitVec 32) : x &&& 6#32 =
    (if x.getLsbD 1 then 2#32 else 0#32) ||| if x.getLsbD 2 then 4#32 else 0#32 := by
  rw [show 6#32 = BitVec.twoPow 32 1 ||| BitVec.twoPow 32 2 from rfl, BitVec.and_or_distrib_left,
    BitVec.and_twoPow, BitVec.and_twoPow]
  rfl

/-- The I/O mask fits a port. -/
theorem ioBase_eq_zero {x : BitVec 32} :
    (x &&& 0xFFFC#32).setWidth 16 = 0 ↔ x &&& 0xFFFC#32 = 0 := by
  have hlt : (x &&& 0xFFFC#32).toNat < 2 ^ 16 := by
    rw [BitVec.toNat_and]
    exact (Nat.and_le_right).trans_lt (by decide)
  rw [← BitVec.toNat_inj, ← BitVec.toNat_inj, BitVec.toNat_setWidth, Nat.mod_eq_of_lt hlt]
  rfl

/-- **`io` decodes as specified** but a 64-bit base and the reserved type
next to it. -/
theorem pci_bar_decoded_iff (bar : ℕ → BitVec 32) (barIndex : ℕ) :
    io bar barIndex = specifiedIo bar barIndex ↔
      ¬ (barIndex < 5 ∧ (bar barIndex).getLsbD 0 = false ∧ (bar barIndex).getLsbD 2 = true) := by
  have hflag := BitVec.and_one_eq_setWidth_ofBool_getLsbD (x := bar barIndex)
  have htype := and_six (bar barIndex)
  simp only [io, specifiedIo, ioBase_eq_zero]
  by_cases hi : 6 ≤ barIndex
  · simp [hi]
    omega
  · cases h0 : (bar barIndex).getLsbD 0 <;> cases h1 : (bar barIndex).getLsbD 1 <;>
      cases h2 : (bar barIndex).getLsbD 2 <;> simp_all

/-- A 64-bit register pair is not mapped. -/
theorem pci_bar_wide_unmapped : io (fun _ => 4#32) 0 = none ∧
    specifiedIo (fun _ => 4#32) 0 = some (.mmioSpace 0x400000000#64) := by decide

end PciDevice

end ShmDos64
