import Mathlib.Tactic
/-!
# The processor's constants and bit routines

The page geometry, the flag bits of a page-table entry and the few
routines of `cpu.h` the kernel's memory managers are written with.
-/

namespace ShmDos64

/-- `PAGE_SIZE`. -/
abbrev pageSize : ℕ := 4096

/-- `PAGE_MASK`. -/
abbrev pageMask : ℕ := 0xFFF

/-- `PAGE_SHIFT`. -/
abbrev pageShift : ℕ := 12

/-- `MAX_CPU`. -/
abbrev maxCpu : ℕ := 255

/-- `cpuLastOneBitIndex`, the `bsr` instruction: the index of the highest
set bit of a value that has one. -/
@[irreducible] def cpuLastOneBitIndex (value : ℕ) : ℕ := Nat.log2 value

/-- `cpuAlignAddrHi`: up to the next page boundary. -/
def cpuAlignAddrHi (addr : ℕ) : ℕ := (addr + pageMask) / pageSize * pageSize

/-- `cpuAlignAddrLo`: down to the page boundary. -/
def cpuAlignAddrLo (addr : ℕ) : ℕ := addr / pageSize * pageSize

theorem le_cpuAlignAddrHi (a : ℕ) : a ≤ cpuAlignAddrHi a := by
  unfold cpuAlignAddrHi
  simp only [pageMask, pageSize]
  omega

theorem cpuAlignAddrLo_le (a : ℕ) : cpuAlignAddrLo a ≤ a := by
  unfold cpuAlignAddrLo
  simp only [pageSize]
  omega

theorem lt_cpuAlignAddrLo_add (a : ℕ) : a < cpuAlignAddrLo a + pageSize := by
  unfold cpuAlignAddrLo
  simp only [pageSize]
  omega

theorem cpuAlignAddrHi_eq {a : ℕ} (h : pageSize ∣ a) : cpuAlignAddrHi a = a := by
  obtain ⟨k, rfl⟩ := h
  simp only [cpuAlignAddrHi, pageMask, pageSize]
  omega

theorem dvd_cpuAlignAddrHi (a : ℕ) : pageSize ∣ cpuAlignAddrHi a := Nat.dvd_mul_left _ _

theorem dvd_cpuAlignAddrLo (a : ℕ) : pageSize ∣ cpuAlignAddrLo a := Nat.dvd_mul_left _ _

theorem pow_cpuLastOneBitIndex_le {n : ℕ} (hn : n ≠ 0) : 2 ^ cpuLastOneBitIndex n ≤ n := by
  rw [cpuLastOneBitIndex]
  exact Nat.log2_self_le hn

theorem lt_pow_cpuLastOneBitIndex (n : ℕ) : n < 2 ^ (cpuLastOneBitIndex n + 1) := by
  rw [cpuLastOneBitIndex]
  exact Nat.lt_log2_self

theorem cpuLastOneBitIndex_mono {m n : ℕ} (h : m ≤ n) :
    cpuLastOneBitIndex m ≤ cpuLastOneBitIndex n := by
  rcases Nat.eq_zero_or_pos m with rfl | hm
  · simp [cpuLastOneBitIndex]
  · by_contra hlt
    have h1 := pow_cpuLastOneBitIndex_le (n := m) (by omega)
    have h2 := lt_pow_cpuLastOneBitIndex n
    have h3 : 2 ^ (cpuLastOneBitIndex n + 1) ≤ 2 ^ cpuLastOneBitIndex m :=
      Nat.pow_le_pow_right (by omega) (by omega)
    omega

/-- A larger bucket holds only larger values. -/
theorem lt_of_cpuLastOneBitIndex_lt {m n : ℕ} (h : cpuLastOneBitIndex m < cpuLastOneBitIndex n) :
    m < n := by
  by_contra hge
  have := cpuLastOneBitIndex_mono (Nat.le_of_not_lt hge)
  omega

/-! Bit 1 and bits 0–1 of a word, for the tags kept in the low bits. -/

theorem and_two_eq (n : ℕ) : n &&& 2 = 2 * (n / 2 % 2) := by
  apply Nat.eq_of_testBit_eq
  intro i
  rcases i with _ | _ | i
  · simp [Nat.testBit_zero]
  · simp only [Nat.testBit_and, zero_add]
    rw [show Nat.testBit 2 1 = true from rfl, Bool.and_true]
    simp [Nat.testBit_succ, Nat.testBit_zero]
  · have h2 : Nat.testBit 2 (i + 2) = false := by
      simp [Nat.testBit_succ]
    rw [Nat.testBit_and, h2, Bool.and_false]
    symm
    apply Nat.testBit_lt_two_pow
    calc 2 * (n / 2 % 2) < 2 ^ 2 := by omega
      _ ≤ 2 ^ (i + 2) := Nat.pow_le_pow_right (by omega) (by omega)

theorem and_three_eq (n : ℕ) : n &&& 3 = n % 4 :=
  Nat.and_two_pow_sub_one_eq_mod n 2

theorem shiftLeft_or_eq {k b : ℕ} (n : ℕ) (hb : b < 2 ^ k) : n <<< k ||| b = n * 2 ^ k + b := by
  rw [← Nat.shiftLeft_add_eq_or_of_lt hb, Nat.shiftLeft_eq]

end ShmDos64
