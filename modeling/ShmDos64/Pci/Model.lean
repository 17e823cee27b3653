import ShmDos64.Common.Bytes
/-!
# Access to PCI configuration space

A device's configuration space is reached in two ways. `PciLegacy` selects a
register through the address port and reads or writes 32 bits of it through
the data port; smaller accesses shift and mask. Under an enhanced segment the
registers are memory, which `MmioSpace` reads and writes directly.

A call of `PciLegacy` is a program of port operations (`PortProg`), so that it
can be run alone or between the operations of other calls. The data port
reaches the register that was last selected; on hardware that asks for it
(`enable`) only if bit 31 of the selection is set, and otherwise all bits
read 1 and a write has no effect.
-/

namespace ShmDos64

/-- `PciAddress`. -/
structure PciAddress where
  bus : ℕ
  device : ℕ
  function : ℕ

/-- The number of a function in the hardware, as `makeIoResource` computes
it. -/
def PciAddress.number (a : PciAddress) : ℕ :=
  ((a.bus &&& 0xFF) <<< 8) ||| ((a.device &&& 0x1F) <<< 3) ||| (a.function &&& 0x07)

/-- `PciLegacy::m_address`. -/
def PciAddress.address (a : PciAddress) : ℕ :=
  ((a.bus &&& 0xFF) <<< 16) ||| ((a.device &&& 0x1F) <<< 11) ||| ((a.function &&& 0x07) <<< 8)

/-! ## The ports -/

/-- The registers of all functions, and what was last written to
`PCI_ADDR_PORT`. -/
structure PciPorts where
  address : ℕ
  config : ℕ → ℕ → BitVec 8

namespace PciPorts

/-- The function that is selected: bits 8 to 23. -/
def function (hw : PciPorts) : ℕ :=
  (hw.address >>> 8) &&& 0xFFFF

/-- The register that is selected: bits 2 to 7. -/
def register (hw : PciPorts) : ℕ :=
  hw.address &&& 0xFC

/-- The data port reaches the register. -/
def reaches (enable : Bool) (hw : PciPorts) : Bool :=
  !enable || hw.address.testBit 31

/-- `in32(PCI_DATA_PORT)`. -/
def inData (enable : Bool) (hw : PciPorts) : BitVec 32 :=
  if hw.reaches enable then load 32 (hw.config hw.function) hw.register else BitVec.allOnes 32

/-- `out32(PCI_DATA_PORT, value)`. -/
def outData (enable : Bool) (hw : PciPorts) (value : BitVec 32) : PciPorts :=
  let regs := store (hw.config hw.function) hw.register value
  if hw.reaches enable then { hw with config := Function.update hw.config hw.function regs }
  else hw

end PciPorts

/-- A program of port operations. -/
inductive PortProg (α : Type*) where
  | ret (a : α)
  /-- `out32(PCI_ADDR_PORT, addr)`. -/
  | outAddress (addr : ℕ) (rest : PortProg α)
  | inData (rest : BitVec 32 → PortProg α)
  | outData (value : BitVec 32) (rest : PortProg α)

namespace PortProg

variable {α β : Type*}

/-- The program alone on the hardware. -/
def run (enable : Bool) : PortProg α → PciPorts → α × PciPorts
  | .ret a, hw => (a, hw)
  | .outAddress addr rest, hw => rest.run enable { hw with address := addr }
  | .inData rest, hw => (rest (hw.inData enable)).run enable hw
  | .outData value rest, hw => rest.run enable (hw.outData enable value)

def map (f : α → β) : PortProg α → PortProg β
  | .ret a => .ret (f a)
  | .outAddress addr rest => .outAddress addr (rest.map f)
  | .inData rest => .inData fun value => (rest value).map f
  | .outData value rest => .outData value (rest.map f)

theorem run_map (enable : Bool) (f : α → β) (p : PortProg α) (hw : PciPorts) :
    (p.map f).run enable hw = (f (p.run enable hw).1, (p.run enable hw).2) := by
  induction p generalizing hw with
  | ret a => rfl
  | outAddress addr rest ih | outData value rest ih => exact ih _
  | inData rest ih => exact ih _ _

end PortProg

/-! ## `PciLegacy` -/

namespace PciLegacy

/-- `setAddress`. -/
def setAddress {α : Type*} (address reg : ℕ) (rest : ℕ → PortProg α) : PortProg α :=
  let addr := address ||| (reg &&& 0xFC)
  .outAddress addr (rest addr)

/-- `out8`. -/
def out8 (address reg : ℕ) (value : BitVec 8) : PortProg Unit :=
  setAddress address reg fun _ => .inData fun oldValue =>
    let shift := (reg &&& 0x03) * 8
    .outData ((value.setWidth 32 <<< shift) ||| (oldValue &&& ~~~(0xFF#32 <<< shift))) (.ret ())

/-- `out16`. -/
def out16 (address reg : ℕ) (value : BitVec 16) : PortProg Unit :=
  setAddress address reg fun _ => .inData fun oldValue =>
    let shift := (reg &&& 0x01) * 16
    .outData ((value.setWidth 32 <<< shift) ||| (oldValue &&& ~~~(0xFFFF#32 <<< shift))) (.ret ())

/-- `out32`. -/
def out32 (address reg : ℕ) (value : BitVec 32) : PortProg Unit :=
  setAddress address reg fun _ => .outData value (.ret ())

/-- `out64`. -/
def out64 (address reg : ℕ) (value : BitVec 64) : PortProg Unit :=
  setAddress address reg fun addr =>
    .outData (value.setWidth 32)
      (.outAddress ((addr + 4) % 2 ^ 32) (.outData ((value >>> 32).setWidth 32) (.ret ())))

/-- `in8`. -/
def in8 (address reg : ℕ) : PortProg (BitVec 8) :=
  setAddress address reg fun _ => .inData fun value =>
    .ret (((value >>> ((reg &&& 0x03) * 8)) &&& 0xFF#32).setWidth 8)

/-- `in16`. -/
def in16 (address reg : ℕ) : PortProg (BitVec 16) :=
  setAddress address reg fun _ => .inData fun value =>
    .ret (((value >>> ((reg &&& 0x01) * 16)) &&& 0xFFFF#32).setWidth 16)

/-- `in32`. -/
def in32 (address reg : ℕ) : PortProg (BitVec 32) :=
  setAddress address reg fun _ => .inData fun value => .ret value

/-- `in64`. -/
def in64 (address reg : ℕ) : PortProg (BitVec 64) :=
  setAddress address reg fun addr => .inData fun low =>
    .outAddress ((addr + 4) % 2 ^ 32) (.inData fun high =>
      .ret (low.setWidth 64 ||| (high.setWidth 64 <<< 32)))

end PciLegacy

/-! ## `MmioSpace` -/

namespace MmioSpace

/-- `in8`, `in16`, `in32` and `in64`: a read through a pointer of the width. -/
def read (w ptr reg : ℕ) (mem : ℕ → BitVec 8) : BitVec w :=
  load w mem (ptr + reg)

/-- `out8`, `out16`, `out32` and `out64`. -/
def write {w : ℕ} (ptr reg : ℕ) (value : BitVec w) (mem : ℕ → BitVec 8) : ℕ → BitVec 8 :=
  store mem (ptr + reg) value

@[inherit_doc read] def in8 := read 8
@[inherit_doc read] def in16 := read 16
@[inherit_doc read] def in32 := read 32
@[inherit_doc read] def in64 := read 64
@[inherit_doc write] def out8 := @write 8
@[inherit_doc write] def out16 := @write 16
@[inherit_doc write] def out32 := @write 32
@[inherit_doc write] def out64 := @write 64

end MmioSpace

/-- `SystemEnhancedPciSegment`. -/
structure EnhancedPciSegment where
  mmioBase : ℕ
  startBus : ℕ
  endBus : ℕ

/-- What `makeIoResource` returns. -/
inductive PciResource where
  | mmio (physAddr size : ℕ)
  | legacy (address : ℕ)
  deriving DecidableEq

/-- `makeIoResource`. -/
def makeIoResource (exSegments : List EnhancedPciSegment) (a : PciAddress) : PciResource :=
  match exSegments.find? fun exSeg => exSeg.startBus ≤ a.bus ∧ a.bus ≤ exSeg.endBus with
  | some exSeg => .mmio ((exSeg.mmioBase + a.number * 0x1000) % 2 ^ 64) 0x1000
  | none => .legacy a.address

/-! ## The calls -/

/-- The widths of an access. -/
inductive Width where
  | w8
  | w16
  | w32
  | w64
  deriving DecidableEq

def Width.bits : Width → ℕ
  | .w8 => 8
  | .w16 => 16
  | .w32 => 32
  | .w64 => 64

/-- A call of an `IoResource`: `in8` to `in64`, and `out8` to `out64`. -/
inductive PciCall where
  | read (w : Width) (reg : ℕ)
  | write (w : Width) (reg : ℕ) (value : BitVec w.bits)

namespace PciCall

/-- What a call returns: nothing, or a value. -/
abbrev Result := Option (BitVec 64)

def result {w : ℕ} (value : BitVec w) : Result :=
  some (value.setWidth 64)

/-- The call on a `PciLegacy`. -/
def legacy (address : ℕ) : PciCall → PortProg Result
  | .read .w8 reg => (PciLegacy.in8 address reg).map result
  | .read .w16 reg => (PciLegacy.in16 address reg).map result
  | .read .w32 reg => (PciLegacy.in32 address reg).map result
  | .read .w64 reg => (PciLegacy.in64 address reg).map result
  | .write .w8 reg value => (PciLegacy.out8 address reg value).map fun _ => none
  | .write .w16 reg value => (PciLegacy.out16 address reg value).map fun _ => none
  | .write .w32 reg value => (PciLegacy.out32 address reg value).map fun _ => none
  | .write .w64 reg value => (PciLegacy.out64 address reg value).map fun _ => none

/-- The call on an `MmioSpace`. -/
def mmio (ptr : ℕ) : PciCall → (ℕ → BitVec 8) → Result × (ℕ → BitVec 8)
  | .read .w8 reg, mem => (result (MmioSpace.in8 ptr reg mem), mem)
  | .read .w16 reg, mem => (result (MmioSpace.in16 ptr reg mem), mem)
  | .read .w32 reg, mem => (result (MmioSpace.in32 ptr reg mem), mem)
  | .read .w64 reg, mem => (result (MmioSpace.in64 ptr reg mem), mem)
  | .write .w8 reg value, mem => (none, MmioSpace.out8 ptr reg value mem)
  | .write .w16 reg value, mem => (none, MmioSpace.out16 ptr reg value mem)
  | .write .w32 reg value, mem => (none, MmioSpace.out32 ptr reg value mem)
  | .write .w64 reg value, mem => (none, MmioSpace.out64 ptr reg value mem)

theorem mmio_read (ptr : ℕ) (w : Width) (reg : ℕ) (mem : ℕ → BitVec 8) :
    mmio ptr (.read w reg) mem = (result (load w.bits mem (ptr + reg)), mem) := by
  cases w <;> rfl

theorem mmio_write (ptr : ℕ) (w : Width) (reg : ℕ) (value : BitVec w.bits) (mem : ℕ → BitVec 8) :
    mmio ptr (.write w reg value) mem = (none, store mem (ptr + reg) value) := by
  cases w <;> rfl

end PciCall

theorem Width.eight_dvd (w : Width) : 8 ∣ w.bits := by
  cases w <;> decide

theorem Width.bits_le (w : Width) : w.bits ≤ 64 := by
  cases w <;> decide

/-! ## Numbers and addresses -/

theorem and_0x03 (n : ℕ) : n &&& 0x03 = n % 4 := Nat.and_two_pow_sub_one_eq_mod n 2

theorem and_0x01 (n : ℕ) : n &&& 0x01 = n % 2 := Nat.and_two_pow_sub_one_eq_mod n 1

theorem and_0x1F (n : ℕ) : n &&& 0x1F = n % 32 := Nat.and_two_pow_sub_one_eq_mod n 5

theorem and_0x07 (n : ℕ) : n &&& 0x07 = n % 8 := Nat.and_two_pow_sub_one_eq_mod n 3

theorem and_0xFF (n : ℕ) : n &&& 0xFF = n % 256 := Nat.and_two_pow_sub_one_eq_mod n 8

/-- Bits 2 to 7. -/
theorem and_0xFC (n : ℕ) : n &&& 0xFC = n % 256 / 4 * 4 := by
  have hlow : n &&& 0xFC = (n % 256) &&& 0xFC := by
    rw [← and_0xFF, Nat.and_assoc]
    rfl
  have hall : ∀ r < 256, r &&& 0xFC = r / 4 * 4 := by decide +kernel
  rw [hlow, hall _ (Nat.mod_lt n (by decide))]

namespace PciAddress

theorem number_eq (a : PciAddress) :
    a.number = a.bus % 256 * 256 + a.device % 32 * 8 + a.function % 8 := by
  rw [number, and_0xFF, and_0x1F, and_0x07, Nat.or_assoc,
    ← Nat.shiftLeft_add_eq_or_of_lt (Nat.mod_lt _ (by decide)),
    ← Nat.shiftLeft_add_eq_or_of_lt, Nat.shiftLeft_eq, Nat.shiftLeft_eq]
  · omega
  · rw [Nat.shiftLeft_eq]
    omega

theorem number_lt (a : PciAddress) : a.number < 65536 := by
  rw [number_eq]
  omega

/-- `m_address` is the number of the function, and no register. -/
theorem address_eq (a : PciAddress) : a.address = 256 * a.number := by
  have hlow : (a.device % 32) <<< 11 ||| (a.function % 8) <<< 8 =
      a.device % 32 * 2048 + a.function % 8 * 256 := by
    rw [← Nat.shiftLeft_add_eq_or_of_lt (by rw [Nat.shiftLeft_eq]; omega), Nat.shiftLeft_eq,
      Nat.shiftLeft_eq]
  rw [number_eq, address, and_0xFF, and_0x1F, and_0x07, Nat.or_assoc, hlow,
    ← Nat.shiftLeft_add_eq_or_of_lt (by omega), Nat.shiftLeft_eq]
  omega

/-- What `setAddress` writes. -/
theorem address_or (a : PciAddress) (reg : ℕ) :
    a.address ||| (reg &&& 0xFC) = 256 * a.number + reg % 256 / 4 * 4 := by
  rw [address_eq, and_0xFC]
  exact (Nat.two_pow_add_eq_or_of_lt (i := 8) (by omega) a.number).symm

end PciAddress

end ShmDos64
