import Mathlib.Tactic
/-!
# Copies of memory

`kmemcpy` moves bytes, words and bytes in the order of their addresses;
`memmove` goes the other way where that order would overwrite what is still
to be read. A word is read before it is written, so the overlap may be smaller
than a word.
-/

namespace ShmDos64

/-- The bytes of the memory. -/
abbrev ByteMem : Type := ℕ → BitVec 8

namespace ByteMem

variable {m : ByteMem} {dst src size w n k : ℕ}

/-- What a copy is to leave. -/
def copied (m : ByteMem) (dst src size : ℕ) : ByteMem :=
  fun a => if dst ≤ a ∧ a < dst + size then m (src + (a - dst)) else m a

/-- A loop that moves `n` items of `w` bytes, each read and then written. -/
def moves (w : ℕ) : ℕ → ℕ → ℕ → ByteMem → ByteMem
  | 0, _, _, m => m
  | n + 1, dst, src, m => moves w n (dst + w) (src + w) (m.copied dst src w)

def kmemcpy (m : ByteMem) (dst src size : ℕ) : ByteMem :=
  let rest := dst % 8
  if rest ≠ 0 ∧ size ≤ rest then moves 1 size dst src m
  else
    -- so many bytes do not align the destination, but nothing depends on that
    let m := moves 1 rest dst src m
    let words := (size - rest) / 8
    let m := moves 8 words (dst + rest) (src + rest) m
    moves 1 ((size - rest) % 8) (dst + rest + words * 8) (src + rest + words * 8) m

/-- The loop of `memmove` from the last byte to the first. -/
def movesBack (dst src : ℕ) : ℕ → ByteMem → ByteMem
  | 0, m => m
  | n + 1, m => movesBack dst src n (m.copied (dst + n) (src + n) 1)

def memmove (m : ByteMem) (dst src size : ℕ) : ByteMem :=
  if dst ≤ src then m.kmemcpy dst src size
  else if src + size ≤ dst then m.kmemcpy dst src size
  else movesBack dst src size m

/-- A copy and the copy of what follows are one, if the first leaves the source
of the second alone. -/
theorem copied_copied (h : dst ≤ src ∨ src + (n + k) ≤ dst) :
    (m.copied dst src n).copied (dst + n) (src + n) k = m.copied dst src (n + k) := by
  funext a
  unfold copied
  split_ifs <;> first | omega | (congr 1; omega) | rfl

theorem moves_eq (h : dst ≤ src ∨ src + n * w ≤ dst) :
    moves w n dst src m = m.copied dst src (n * w) := by
  induction n generalizing dst src m with
  | zero =>
    funext a
    rw [copied, if_neg (by omega)]
    rfl
  | succ n ih =>
    rw [Nat.succ_mul, Nat.add_comm (n * w)] at h ⊢
    rw [moves, ih (by omega), copied_copied h]

theorem kmemcpy_eq (h : dst ≤ src ∨ src + size ≤ dst) :
    m.kmemcpy dst src size = m.copied dst src size := by
  unfold kmemcpy
  dsimp only
  split_ifs with hrest
  · rw [moves_eq (by omega), Nat.mul_one]
  · have hsize : dst % 8 + ((size - dst % 8) / 8 * 8 + (size - dst % 8) % 8) = size := by omega
    generalize dst % 8 = rest at hsize ⊢
    rw [moves_eq (by omega), moves_eq (by omega), moves_eq (by omega), Nat.mul_one, Nat.mul_one,
      copied_copied (by omega), copied_copied (by omega), hsize]

/-- Downwards each byte is read before a byte is written over it. -/
theorem movesBack_eq (h : src < dst) : movesBack dst src n m = m.copied dst src n := by
  induction n generalizing m with
  | zero =>
    funext a
    rw [copied, if_neg (by omega)]
    rfl
  | succ n ih =>
    rw [movesBack, ih]
    funext a
    unfold copied
    split_ifs <;> first | omega | (congr 1; omega) | rfl

/-- **Copies are exact**, whatever the ranges. -/
theorem memory_copies_exact (m : ByteMem) (dst src size : ℕ) :
    m.memmove dst src size = m.copied dst src size ∧
      (dst ≤ src ∨ src + size ≤ dst → m.kmemcpy dst src size = m.copied dst src size) := by
  refine ⟨?_, kmemcpy_eq⟩
  unfold memmove
  split_ifs with hle hge
  · exact kmemcpy_eq (.inl hle)
  · exact kmemcpy_eq (.inr hge)
  · exact movesBack_eq (by omega)

end ByteMem

end ShmDos64
