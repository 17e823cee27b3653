import Mathlib.Tactic
/-!
# The units of `AbstractTimer`

`setFrequency` rounds one divider down for each unit. The 100 ns clock and
the milliseconds agree just when the two dividers of the frequency do:
`t` ticks are `t / ns100Divider` of the one, or `(t + 9) / usDivider * 10`
where the timer is too slow for a divider, and `t / msDivider` of the other.
-/

namespace ShmDos64

/-- The dividers of `AbstractTimer`. -/
structure AbstractTimer where
  msDivider : ℕ
  usDivider : ℕ
  ns100Divider : ℕ

namespace AbstractTimer

def setFrequency (frequency : ℕ) : AbstractTimer where
  msDivider := frequency / 1000
  usDivider := frequency / 1000000
  ns100Divider := frequency / 10000000

section

variable (timer : AbstractTimer) (t : ℕ)

def fromMilliseconds : ℕ := t * timer.msDivider % 2 ^ 64

def toMilliseconds : ℕ := t / timer.msDivider

def toNs100 : ℕ :=
  if 0 < timer.ns100Divider then t / timer.ns100Divider
  else (t + 9) % 2 ^ 64 / timer.usDivider * 10 % 2 ^ 64

/-- No sum or product of `toNs100` wraps. -/
def Fits : Prop :=
  0 < timer.ns100Divider ∨ t + 9 < 2 ^ 64 ∧ (t + 9) / timer.usDivider * 10 < 2 ^ 64

/-- `a` and `b` differ by at most `c`. -/
def Within (a b c : ℕ) : Prop := a ≤ b + c ∧ b ≤ a + c

/-- The ticks `t` are one time in both units, and so are the ticks of `x`
milliseconds, up to rounding. -/
def Agrees (t x : ℕ) : Prop :=
  Within (timer.toNs100 t / 10000) (timer.toMilliseconds t) (1 + timer.toMilliseconds t / 1000) ∧
    Within (timer.toNs100 (timer.fromMilliseconds x)) (10000 * x) (10 + 10 * x)

end

/-- The dividers are within a thousandth of each other; below 10 MHz the
rounding up of `toNs100` also has to stay below two microseconds. -/
def Divides (f : ℕ) : Prop :=
  if 10 ^ 7 ≤ f then f / 1000 ≤ 10010 * (f / 10 ^ 7)
  else 5 ≤ f / 10 ^ 6 ∧ f / 1000 < 1001 * (f / 10 ^ 6)

variable {f m u n t x : ℕ}

theorem toNs100_fast (hn : 0 < n) : toNs100 ⟨m, u, n⟩ t = t / n := if_pos hn

theorem toNs100_slow (ht : Fits ⟨m, u, 0⟩ t) : toNs100 ⟨m, u, 0⟩ t = (t + 9) / u * 10 := by
  obtain ⟨h, h'⟩ := ht.resolve_left (Nat.lt_irrefl 0)
  rw [toNs100, if_neg (Nat.lt_irrefl 0), Nat.mod_eq_of_lt h, Nat.mod_eq_of_lt h']

/-- A timer with a divider for 100 ns. -/
theorem agrees_fast (hn : 0 < n) (hlo : 10000 * n ≤ m) (hhi : m ≤ 10010 * n)
    (hx : x * m < 2 ^ 64) : Agrees ⟨m, u, n⟩ t x := by
  simp only [Agrees, Within, fromMilliseconds, toMilliseconds, Nat.mod_eq_of_lt hx,
    toNs100_fast hn, Nat.div_div_eq_div_mul t n]
  have hle : t / m ≤ t / (n * 10000) := Nat.div_le_div_left (by omega) (by omega)
  have hlt : t < m * (t / m + 1) := Nat.lt_mul_div_succ t (by omega)
  have hm : m * (t / m + 1) ≤ 10010 * n * (t / m + 1) := Nat.mul_le_mul_right _ hhi
  generalize t / m = B at hle hlt hm ⊢
  refine ⟨⟨Nat.le_of_lt_succ ((Nat.div_lt_iff_lt_mul (by omega)).mpr ?_), by omega⟩, ?_, ?_⟩
  · have hsum : 10010 * (B + 1) ≤ (B + (1 + B / 1000) + 1) * 10000 := by omega
    nlinarith
  · refine Nat.div_le_of_le_mul ?_
    nlinarith
  · refine le_trans ((Nat.le_div_iff_mul_le hn).mpr ?_) (Nat.le_add_right _ _)
    nlinarith

/-- A timer that counts microseconds only. -/
theorem agrees_slow (hu : 5 ≤ u) (hlo : 1000 * u ≤ m) (hhi : m < 1001 * u)
    (ht : Fits ⟨m, u, 0⟩ t) (hx : x * m < 2 ^ 64) (hxt : Fits ⟨m, u, 0⟩ (x * m)) :
    Agrees ⟨m, u, 0⟩ t x := by
  have hdiv : (t + 9) / u * 10 / 10000 = (t + 9) / (u * 1000) := by
    rw [← Nat.div_div_eq_div_mul]
    omega
  simp only [Agrees, Within, fromMilliseconds, toMilliseconds, Nat.mod_eq_of_lt hx,
    toNs100_slow ht, toNs100_slow hxt, hdiv]
  have hle : t / m ≤ (t + 9) / (u * 1000) :=
    (Nat.div_le_div_left (by omega) (by omega)).trans (Nat.div_le_div_right (by omega))
  have hlt : t < m * (t / m + 1) := Nat.lt_mul_div_succ t (by omega)
  have hm : (m + 1) * (t / m + 1) ≤ 1001 * u * (t / m + 1) := Nat.mul_le_mul_right _ hhi
  have hlow : 1000 * x ≤ (x * m + 9) / u := by
    rw [Nat.le_div_iff_mul_le (by omega)]
    nlinarith
  have hhigh : (x * m + 9) / u < 1001 * x + 2 := by
    rw [Nat.div_lt_iff_lt_mul (by omega)]
    nlinarith
  generalize t / m = B at hle hlt hm ⊢
  refine ⟨⟨Nat.le_of_lt_succ ((Nat.div_lt_iff_lt_mul (by omega)).mpr ?_), by omega⟩,
    by omega, by omega⟩
  -- Below eight milliseconds the nine ticks added are less than the slack.
  rcases Nat.lt_or_ge B 8 with hB | hB
  · have hsum : 1001 * (B + 1) + 2 ≤ (B + (1 + B / 1000) + 1) * 1000 := by omega
    nlinarith
  · have hsum : 1001 * (B + 1) ≤ (B + (1 + B / 1000) + 1) * 1000 := by omega
    nlinarith

/-- **The clocks agree where the dividers do.** The frequencies are those of
the timers with dividers. -/
theorem timer_units_agree_iff (hlo : 10 ^ 6 ≤ f) (hhi : f ≤ 10 ^ 9) :
    (∀ t x, (setFrequency f).Fits t → x * (setFrequency f).msDivider < 2 ^ 64 →
      (setFrequency f).Fits (x * (setFrequency f).msDivider) → (setFrequency f).Agrees t x) ↔
    Divides f := by
  simp only [setFrequency, Divides]
  split_ifs with hf
  · have hn : 0 < f / 10000000 := by omega
    refine ⟨fun h => ?_, fun h t x _ hx _ => agrees_fast hn (by omega) h hx⟩
    -- Eleven times the divider in milliseconds shows any difference.
    have hx : 11 * (f / 10000000) * (f / 1000) < 2 ^ 64 := by
      have : f / 10000000 ≤ 100 := by omega
      have : f / 1000 ≤ 1000000 := by omega
      nlinarith
    have hns := (h 0 (11 * (f / 10000000)) (.inl hn) hx (.inl hn)).2.1
    rw [fromMilliseconds, Nat.mod_eq_of_lt hx, toNs100_fast hn,
      show 11 * (f / 10000000) * (f / 1000) = f / 10000000 * (11 * (f / 1000)) by ring,
      Nat.mul_div_cancel_left _ hn] at hns
    omega
  · rw [show f / 10000000 = 0 by omega]
    refine ⟨fun h => ?_, fun h t x ht hx hxt => agrees_slow h.1 (by omega) h.2 ht hx hxt⟩
    have hfit : ∀ t < 2 ^ 40, Fits ⟨f / 1000, f / 1000000, 0⟩ t := by
      intro t ht
      have hle : (t + 9) / (f / 1000000) ≤ t + 9 := Nat.div_le_self ..
      exact .inr ⟨by omega, (Nat.mul_le_mul_right 10 hle).trans_lt (by omega)⟩
    have hfit' : Fits ⟨f / 1000, f / 1000000, 0⟩ (0 * (f / 1000)) := hfit _ (by omega)
    obtain ⟨⟨hms, -⟩, hns, -⟩ :=
      h (1000 * (f / 1000) - 1) 0 (hfit _ (by omega)) (by omega) hfit'
    have htop : (1000 * (f / 1000) - 1) / (f / 1000) = 999 := by
      refine Nat.div_eq_of_lt_le ?_ ?_ <;> omega
    rw [fromMilliseconds, Nat.mod_eq_of_lt (by omega), toNs100_slow hfit'] at hns
    rw [toNs100_slow (hfit _ (by omega)), toMilliseconds, htop] at hms
    have hu : f / 1000000 ≤ 9 := by omega
    have hu' : 1 ≤ f / 1000000 := by omega
    generalize f / 1000000 = u at hu hu' hns hms ⊢
    interval_cases u <;> omega

/-- The clocks of a timer of 14.318 MHz differ by 431 ms in the first second. -/
theorem timer_units_disagree : ¬ (setFrequency 14318180).Agrees 14318000 0 := by
  have : ¬ (14318000 / 10000 ≤ 14318000 / 14318 + (1 + 14318000 / 14318 / 1000)) := by decide
  exact fun h => this h.1.1

/-- A timer of 10 MHz has both dividers. -/
theorem timer_units_agree_tenMegahertz : Divides (10 ^ 7) ∧
    (setFrequency (10 ^ 7)).Agrees 123456789 42 := by
  have hdiv : Divides (10 ^ 7) := by simp [Divides]
  exact ⟨hdiv, (timer_units_agree_iff (by decide) (by decide)).mpr hdiv _ _ (.inl (by decide))
    (by decide) (.inl (by decide))⟩

end AbstractTimer

end ShmDos64
