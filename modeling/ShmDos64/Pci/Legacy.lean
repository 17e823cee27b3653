import ShmDos64.Pci.Model
/-!
# A legacy access alone

A call of `PciLegacy` that is not disturbed, on hardware whose data port
reaches the register last selected: it reads or writes its own register, and
nothing else, if its register lies as the masks and shifts expect (`Fits`).
`in16` and `out16` find the low half of 32 bits only, and an access of 64 bits
must not end after the last register, where `addr + 4` selects another
function.
-/

namespace ShmDos64

open PortProg PciLegacy

namespace PciCall

/-- The register of the call lies as `PciLegacy` expects. -/
def Fits : PciCall → Prop
  | .read w reg | .write w reg _ => reg + w.bits / 8 ≤ 256 ∧ (w ≠ .w8 → reg % 4 = 0)

/-- What a call is to return: the value of its own register. -/
def value (b : ℕ → BitVec 8) : PciCall → Result
  | .read w reg => result (load w.bits b reg)
  | .write _ _ _ => none

/-- What a call is to leave in its device. -/
def effect (b : ℕ → BitVec 8) : PciCall → ℕ → BitVec 8
  | .read _ _ => b
  | .write _ reg value => store b reg value

end PciCall

/-- Alone on the hardware, the program reads and writes registers of the
function `n` only. -/
def PortProg.Own {α : Type*} (n : ℕ) : PortProg α → PciPorts → Prop
  | .ret _, _ => True
  | .outAddress addr rest, hw => rest.Own n { hw with address := addr }
  | .inData rest, hw => hw.function = n ∧ (rest (hw.inData false)).Own n hw
  | .outData value rest, hw => hw.function = n ∧ rest.Own n (hw.outData false value)

theorem PortProg.own_map {α β : Type*} {n : ℕ} (f : α → β) {p : PortProg α} {hw : PciPorts}
    (h : p.Own n hw) : (p.map f).Own n hw := by
  induction p generalizing hw with
  | ret a => trivial
  | outAddress addr rest ih => exact ih h
  | inData rest ih => exact ⟨h.1, ih _ h.2⟩
  | outData value rest ih => exact ⟨h.1, ih h.2⟩

/-! ## Selections -/

variable {hw : PciPorts} {config : ℕ → ℕ → BitVec 8} {n r reg : ℕ}

theorem function_select (config : ℕ → ℕ → BitVec 8) (hn : n < 65536) (hr : r < 256) :
    PciPorts.function ⟨256 * n + r, config⟩ = n := by
  rw [PciPorts.function, show 0xFFFF = 2 ^ 16 - 1 from rfl, Nat.and_two_pow_sub_one_eq_mod,
    Nat.shiftRight_eq_div_pow]
  dsimp only
  omega

theorem register_select (hr : r < 256) (hr4 : r % 4 = 0) :
    PciPorts.register ⟨256 * n + r, config⟩ = r := by
  rw [PciPorts.register, and_0xFC]
  dsimp only
  omega

theorem inData_select (config : ℕ → ℕ → BitVec 8) (hn : n < 65536) (hr : r < 256)
    (hr4 : r % 4 = 0) : PciPorts.inData false ⟨256 * n + r, config⟩ = load 32 (config n) r := by
  rw [PciPorts.inData, function_select config hn hr, register_select hr hr4]
  rfl

theorem outData_select (config : ℕ → ℕ → BitVec 8) (hn : n < 65536) (hr : r < 256) (hr4 : r % 4 = 0)
    (value : BitVec 32) : PciPorts.outData false ⟨256 * n + r, config⟩ value =
      ⟨256 * n + r, Function.update config n (store (config n) r value)⟩ := by
  rw [PciPorts.outData, function_select config hn hr, register_select hr hr4]
  rfl

/-! ## The calls -/

variable {a : PciAddress}

/-- What a call does alone: to its own function, and to no other. -/
structure Alone {α : Type*} (n : ℕ) (p : PortProg α) (hw : PciPorts) (value : α)
    (regs : ℕ → BitVec 8) : Prop where
  own : p.Own n hw
  result : (p.run false hw).1 = value
  config : (p.run false hw).2.config = Function.update hw.config n regs

namespace Alone

variable {α : Type*} {value : α} {regs : ℕ → BitVec 8} {addr : ℕ}

theorem ret : Alone n (.ret value) ⟨addr, config⟩ value (config n) :=
  ⟨trivial, rfl, (Function.update_eq_self _ _).symm⟩

theorem done : Alone n (.ret value) ⟨addr, Function.update config n regs⟩ value regs :=
  ⟨trivial, rfl, (Function.update_idem _ _ _).symm⟩

variable {p : PortProg α}

theorem outAddress (h : Alone n p ⟨addr, hw.config⟩ value regs) :
    Alone n (.outAddress addr p) hw value regs :=
  ⟨h.own, h.result, h.config⟩

theorem inData {rest : BitVec 32 → PortProg α} (hn : n < 65536) (hr : r < 256) (hr4 : r % 4 = 0)
    (h : Alone n (rest (load 32 (config n) r)) ⟨256 * n + r, config⟩ value regs) :
    Alone n (.inData rest) ⟨256 * n + r, config⟩ value regs := by
  have hin := inData_select config hn hr hr4
  refine ⟨⟨function_select config hn hr, ?_⟩, ?_, ?_⟩
  · rw [hin]
    exact h.own
  · rw [run, hin]
    exact h.result
  · rw [run, hin]
    exact h.config

theorem outData {v : BitVec 32} (hn : n < 65536) (hr : r < 256) (hr4 : r % 4 = 0)
    (h : Alone n p ⟨256 * n + r, Function.update config n (store (config n) r v)⟩ value regs) :
    Alone n (.outData v p) ⟨256 * n + r, config⟩ value regs := by
  have hout := outData_select config hn hr hr4 v
  refine ⟨⟨function_select config hn hr, ?_⟩, ?_, ?_⟩
  · rw [hout]
    exact h.own
  · rw [run, hout]
    exact h.result
  · rw [run, hout, h.config]
    exact Function.update_idem _ _ _

theorem setAddress {rest : ℕ → PortProg α}
    (h : Alone a.number (rest (256 * a.number + reg % 256 / 4 * 4))
      ⟨256 * a.number + reg % 256 / 4 * 4, hw.config⟩ value regs) :
    Alone a.number (PciLegacy.setAddress a.address reg rest) hw value regs := by
  rw [PciLegacy.setAddress, a.address_or]
  exact h.outAddress

theorem map {β : Type*} (h : Alone n p hw value regs) (f : α → β) :
    Alone n (p.map f) hw (f value) regs := by
  refine ⟨own_map f h.own, ?_, ?_⟩
  · rw [run_map, h.result]
  · rw [run_map, h.config]

end Alone

/-- The register that is selected for `reg`. -/
theorem base_lt (reg : ℕ) : reg % 256 / 4 * 4 < 256 := by
  omega

theorem base_mod (reg : ℕ) : reg % 256 / 4 * 4 % 4 = 0 := by
  omega

theorem in8_alone (hreg : reg < 256) :
    Alone a.number (in8 a.address reg) hw (load 8 (hw.config a.number) reg)
      (hw.config a.number) := by
  refine .setAddress (.inData a.number_lt (base_lt reg) (base_mod reg) ?_)
  rw [load_part (by decide) (Dvd.intro_left _ rfl) (by rw [and_0x03]; omega), and_0x03,
    show reg % 256 / 4 * 4 + reg % 4 * 8 / 8 = reg by omega]
  exact .ret

theorem in16_alone (hreg : reg < 256) (hreg4 : reg % 4 = 0) :
    Alone a.number (in16 a.address reg) hw (load 16 (hw.config a.number) reg)
      (hw.config a.number) := by
  refine .setAddress (.inData a.number_lt (base_lt reg) (base_mod reg) ?_)
  rw [and_0x01, show reg % 2 * 16 = 0 by omega, load_part (by decide) (by decide) (by decide),
    show reg % 256 / 4 * 4 + 0 / 8 = reg by omega]
  exact .ret

theorem in32_alone (hreg : reg < 256) (hreg4 : reg % 4 = 0) :
    Alone a.number (in32 a.address reg) hw (load 32 (hw.config a.number) reg)
      (hw.config a.number) := by
  refine .setAddress (.inData a.number_lt (base_lt reg) (base_mod reg) ?_)
  rw [show reg % 256 / 4 * 4 = reg by omega]
  exact .ret

/-- `addr + 4` selects the next register of the function, if there is one. -/
theorem next_address (a : PciAddress) (hreg : reg + 8 ≤ 256) (hreg4 : reg % 4 = 0) :
    (256 * a.number + reg % 256 / 4 * 4 + 4) % 2 ^ 32 = 256 * a.number + (reg + 4) := by
  have := a.number_lt
  omega

theorem in64_alone (hreg : reg + 8 ≤ 256) (hreg4 : reg % 4 = 0) :
    Alone a.number (in64 a.address reg) hw (load 64 (hw.config a.number) reg)
      (hw.config a.number) := by
  refine .setAddress (.inData a.number_lt (base_lt reg) (base_mod reg) (.outAddress ?_))
  rw [next_address a hreg hreg4]
  refine .inData a.number_lt (by omega) (by omega) ?_
  rw [show reg % 256 / 4 * 4 = reg by omega, load_halves (w := 32) (by decide)]
  exact .ret

theorem getLsbD_ones {n w : ℕ} (h : w ≤ n) (i : ℕ) :
    (BitVec.ofNat n (2 ^ w - 1)).getLsbD i = decide (i < w) := by
  rw [BitVec.getLsbD_ofNat, Nat.testBit_two_pow_sub_one]
  by_cases hi : i < w
  · simp [hi, Nat.lt_of_lt_of_le hi h]
  · simp [hi]

theorem out8_alone (hreg : reg < 256) (v : BitVec 8) :
    Alone a.number (out8 a.address reg v) hw ()
      (store (hw.config a.number) reg v) := by
  refine .setAddress (.inData a.number_lt (base_lt reg) (base_mod reg)
    (.outData a.number_lt (base_lt reg) (base_mod reg) ?_))
  rw [store_part (m := 0xFF#32) (getLsbD_ones (w := 8) (by decide)) (by decide) (by decide)
    (Dvd.intro_left _ rfl) (by rw [and_0x03]; omega), and_0x03,
    show reg % 256 / 4 * 4 + reg % 4 * 8 / 8 = reg by omega]
  exact .done

theorem out16_alone (hreg : reg < 256) (hreg4 : reg % 4 = 0) (v : BitVec 16) :
    Alone a.number (out16 a.address reg v) hw ()
      (store (hw.config a.number) reg v) := by
  refine .setAddress (.inData a.number_lt (base_lt reg) (base_mod reg)
    (.outData a.number_lt (base_lt reg) (base_mod reg) ?_))
  rw [and_0x01, show reg % 2 * 16 = 0 by omega,
    store_part (m := 0xFFFF#32) (getLsbD_ones (w := 16) (by decide)) (by decide) (by decide)
      (by decide) (by decide),
    show reg % 256 / 4 * 4 + 0 / 8 = reg by omega]
  exact .done

theorem out32_alone (hreg : reg < 256) (hreg4 : reg % 4 = 0) (v : BitVec 32) :
    Alone a.number (out32 a.address reg v) hw ()
      (store (hw.config a.number) reg v) := by
  refine .setAddress (.outData a.number_lt (base_lt reg) (base_mod reg) ?_)
  rw [show reg % 256 / 4 * 4 = reg by omega]
  exact .done

theorem out64_alone (hreg : reg + 8 ≤ 256) (hreg4 : reg % 4 = 0) (v : BitVec 64) :
    Alone a.number (out64 a.address reg v) hw ()
      (store (hw.config a.number) reg v) := by
  refine .setAddress (.outData a.number_lt (base_lt reg) (base_mod reg) (.outAddress ?_))
  rw [next_address a hreg hreg4]
  refine .outData a.number_lt (by omega) (by omega) ?_
  dsimp only
  rw [show reg % 256 / 4 * 4 = reg by omega, Function.update_self,
    store_halves (w := 32) (by decide) v, Function.update_idem]
  exact .done

/-- **A call alone** returns the value of its own register, or writes it, and
leaves all other registers. -/
theorem legacy_alone (c : PciCall) (hc : c.Fits) (hw : PciPorts) :
    Alone a.number (c.legacy a.address) hw (c.value (hw.config a.number))
      (c.effect (hw.config a.number)) := by
  rcases c with ⟨w, reg⟩ | ⟨w, reg, value⟩
  all_goals
    obtain ⟨hend, h4⟩ := hc
    cases w
    all_goals simp only [Width.bits] at hend
  · exact (in8_alone (by omega)).map _
  · exact (in16_alone (by omega) (h4 nofun)).map _
  · exact (in32_alone (by omega) (h4 nofun)).map _
  · exact (in64_alone (by omega) (h4 nofun)).map _
  · exact (out8_alone (by omega) value).map _
  · exact (out16_alone (by omega) (h4 nofun) value).map _
  · exact (out32_alone (by omega) (h4 nofun) value).map _
  · exact (out64_alone (by omega) (h4 nofun) value).map _

end ShmDos64
