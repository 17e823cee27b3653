import Mathlib.Tactic
/-!
# Words in a memory of bytes

A word of `w` bits at an address is read and written little-endian: bit `i`
of the word is bit `i % 8` of the byte `i / 8` further on.
-/

namespace ShmDos64

variable {w off : ℕ} {b : ℕ → BitVec 8}

/-- The word of `w` bits at `off`. -/
def load : (w : ℕ) → (b : ℕ → BitVec 8) → (off : ℕ) → BitVec w
  | 0, _, _ => 0
  | w + 1, b, off => BitVec.cons ((b (off + w / 8)).getLsbD (w % 8)) (load w b off)

/-- The bytes after a word is written at `off`. -/
def store (b : ℕ → BitVec 8) (off : ℕ) (v : BitVec w) : ℕ → BitVec 8 := fun a =>
  if off ≤ a ∧ a < off + w / 8 then v.extractLsb' (8 * (a - off)) 8 else b a

theorem getLsbD_load (w : ℕ) (b : ℕ → BitVec 8) (off i : ℕ) :
    (load w b off).getLsbD i = (decide (i < w) && (b (off + i / 8)).getLsbD (i % 8)) := by
  induction w with
  | zero => simp [load]
  | succ w ih =>
    rw [load, BitVec.getLsbD_cons]
    split
    · subst i
      simp
    · rename_i hi
      have hlt : i < w + 1 ↔ i < w := by omega
      simp only [ih, hlt]

variable {v : BitVec w}

/-- A byte that is written is that of the word. -/
theorem getLsbD_store {a j : ℕ} (ha : off ≤ a ∧ a < off + w / 8) (hj : j < 8) :
    (store b off v a).getLsbD j = v.getLsbD (8 * (a - off) + j) := by
  rw [store, if_pos ha, BitVec.getLsbD_extractLsb', decide_eq_true hj, Bool.true_and]

theorem store_of_not {a : ℕ} (ha : ¬ (off ≤ a ∧ a < off + w / 8)) :
    store b off v a = b a :=
  if_neg ha

/-- A word is read from its bytes only. -/
theorem load_congr {b' : ℕ → BitVec 8} (hw : 8 ∣ w)
    (h : ∀ a, off ≤ a → a < off + w / 8 → b a = b' a) : load w b off = load w b' off := by
  apply BitVec.eq_of_getLsbD_eq
  intro i hi
  rw [getLsbD_load, getLsbD_load, h (off + i / 8) (by omega) (by omega)]

/-- A word of bytes that is written reads back. -/
theorem load_store (hw : 8 ∣ w) (b : ℕ → BitVec 8) (off : ℕ) (v : BitVec w) :
    load w (store b off v) off = v := by
  apply BitVec.eq_of_getLsbD_eq
  intro i hi
  obtain ⟨n, rfl⟩ := hw
  rw [getLsbD_load, decide_eq_true hi, Bool.true_and,
    getLsbD_store (by omega) (Nat.mod_lt i (by decide))]
  congr 1
  omega

/-- A word that is there already changes nothing. -/
theorem store_load (b : ℕ → BitVec 8) (off : ℕ) : store b off (load w b off) = b := by
  funext a
  by_cases ha : off ≤ a ∧ a < off + w / 8
  · apply BitVec.eq_of_getLsbD_eq
    intro j hj
    rw [getLsbD_store ha hj, getLsbD_load]
    have hlt : 8 * (a - off) + j < w := by omega
    rw [decide_eq_true hlt, Bool.true_and]
    congr 2 <;> omega
  · exact store_of_not ha

/-- A write changes nothing exactly if the word is there already. -/
theorem store_eq_iff (hw : 8 ∣ w) : store b off v = b ↔ load w b off = v := by
  constructor
  · intro h
    rw [← load_store hw b off v, h]
  · rintro rfl
    exact store_load b off

/-! ## Parts of words -/

variable {n shift : ℕ}

/-- A part of a word, shifted down and masked, is the smaller word there. -/
theorem load_part {mask : BitVec n} (hmask : ∀ i < w, mask.getLsbD i = true) (hshift : 8 ∣ shift)
    (hn : shift + w ≤ n) :
    ((load n b off >>> shift) &&& mask).setWidth w = load w b (off + shift / 8) := by
  apply BitVec.eq_of_getLsbD_eq
  intro i hi
  rw [BitVec.getLsbD_setWidth, BitVec.getLsbD_and, BitVec.getLsbD_ushiftRight, hmask i hi,
    getLsbD_load, getLsbD_load, decide_eq_true hi, decide_eq_true (show shift + i < n by omega)]
  simp only [Bool.true_and, Bool.and_true]
  obtain ⟨k, rfl⟩ := hshift
  have hbyte : off + (8 * k + i) / 8 = off + 8 * k / 8 + i / 8 := by omega
  have hbit : (8 * k + i) % 8 = i % 8 := by omega
  rw [hbyte, hbit]

/-- A word with a part replaced, written back, is a write of the part. -/
theorem store_part {m : BitVec n} (hm : ∀ i, m.getLsbD i = decide (i < w))
    (hw : 8 ∣ w) (hn8 : 8 ∣ n) (hshift : 8 ∣ shift) (hn : shift + w ≤ n) :
    store b off ((v.setWidth n <<< shift) ||| (load n b off &&& ~~~(m <<< shift))) =
      store b (off + shift / 8) v := by
  obtain ⟨k, rfl⟩ := hshift
  obtain ⟨d, rfl⟩ := hw
  obtain ⟨l, rfl⟩ := hn8
  funext a
  by_cases ha : off ≤ a ∧ a < off + 8 * l / 8
  · apply BitVec.eq_of_getLsbD_eq
    intro j hj
    have hlt : 8 * (a - off) + j < 8 * l := by omega
    rw [getLsbD_store ha hj, BitVec.getLsbD_or, BitVec.getLsbD_shiftLeft, BitVec.getLsbD_setWidth,
      BitVec.getLsbD_and, BitVec.getLsbD_not, BitVec.getLsbD_shiftLeft, hm, getLsbD_load]
    simp only [hlt, decide_true, Bool.true_and]
    by_cases hpart : off + 8 * k / 8 ≤ a ∧ a < off + 8 * k / 8 + 8 * d / 8
    · -- the bit is of the part
      have h1 : ¬ (8 * (a - off) + j < 8 * k) := by omega
      have h2 : 8 * (a - off) + j - 8 * k < 8 * d := by omega
      have h3 : 8 * (a - off) + j - 8 * k < 8 * l := by omega
      rw [getLsbD_store hpart hj]
      simp only [h1, h2, h3, decide_false, decide_true, Bool.not_false, Bool.true_and,
        Bool.not_true, Bool.and_false, Bool.or_false]
      congr 1
      omega
    · rw [store_of_not hpart]
      have hbyte : b (off + (8 * (a - off) + j) / 8) = b a := by
        congr 1
        omega
      have hbit : (8 * (a - off) + j) % 8 = j := by omega
      rw [hbyte, hbit]
      by_cases hlow : 8 * (a - off) + j < 8 * k
      · simp [hlow]
      · have h2 : ¬ (8 * (a - off) + j - 8 * k < 8 * d) := by omega
        have h3 : v.getLsbD (8 * (a - off) + j - 8 * k) = false :=
          BitVec.getLsbD_of_ge v _ (by omega)
        simp [hlow, h2, h3]
  · rw [store_of_not ha, store_of_not (by omega)]

/-- A word is its two halves. -/
theorem load_halves (hw : 8 ∣ w) :
    (load w b off).setWidth (w + w) ||| ((load w b (off + w / 8)).setWidth (w + w) <<< w) =
      load (w + w) b off := by
  obtain ⟨n, rfl⟩ := hw
  apply BitVec.eq_of_getLsbD_eq
  intro i hi
  rw [BitVec.getLsbD_or, BitVec.getLsbD_shiftLeft, BitVec.getLsbD_setWidth,
    BitVec.getLsbD_setWidth, getLsbD_load, getLsbD_load, getLsbD_load]
  simp only [hi, decide_true, Bool.true_and]
  by_cases hlow : i < 8 * n
  · simp [hlow]
  · have h1 : i - 8 * n < 8 * n := by omega
    have h2 : i - 8 * n < 8 * n + 8 * n := by omega
    have hbyte : off + 8 * n / 8 + (i - 8 * n) / 8 = off + i / 8 := by omega
    have hbit : (i - 8 * n) % 8 = i % 8 := by omega
    simp only [hlow, h1, h2, hbyte, hbit, decide_false, decide_true, Bool.false_and,
      Bool.false_or, Bool.not_false, Bool.true_and]

/-- The halves of a word, written one after the other. -/
theorem store_halves (hw : 8 ∣ w) (v : BitVec (w + w)) :
    store (store b off (v.setWidth w)) (off + w / 8) ((v >>> w).setWidth w) = store b off v := by
  obtain ⟨n, rfl⟩ := hw
  funext a
  by_cases hall : off ≤ a ∧ a < off + (8 * n + 8 * n) / 8
  · apply BitVec.eq_of_getLsbD_eq
    intro j hj
    rw [getLsbD_store hall hj]
    by_cases hhigh : off + 8 * n / 8 ≤ a ∧ a < off + 8 * n / 8 + 8 * n / 8
    · rw [getLsbD_store hhigh hj, BitVec.getLsbD_setWidth, BitVec.getLsbD_ushiftRight,
        decide_eq_true (by omega), Bool.true_and]
      congr 1
      omega
    · have hlow : off ≤ a ∧ a < off + 8 * n / 8 := by omega
      rw [store_of_not hhigh, getLsbD_store hlow hj, BitVec.getLsbD_setWidth,
        decide_eq_true (by omega), Bool.true_and]
  · rw [store_of_not hall, store_of_not (by omega), store_of_not (by omega)]

end ShmDos64
