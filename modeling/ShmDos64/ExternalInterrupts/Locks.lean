import Mathlib.Data.Finset.Card
import Mathlib.Data.Finset.Range
/-!
# Locks counted along redirections

The last loop of `initIoApic` goes over the interrupts in order and locks
the line of each one whose own number has no lock yet. `locks` is that
count, in terms of a table `line` only. A table is read off a relation that
redirects some numbers, each to one other, and no two to the same: a number
that is redirected has the line it is redirected to, the others keep theirs.
-/

namespace ShmDos64

/-- How often each line is locked by the rounds before `n`. -/
def locks (line : ℕ → ℕ) : ℕ → ℕ → ℕ
  | 0, _ => 0
  | n + 1, l => locks line n l + if locks line n n = 0 ∧ line n = l then 1 else 0

/-- The round of an interrupt locks its line. -/
def Fires (line : ℕ → ℕ) (n : ℕ) : Prop :=
  locks line n n = 0

instance (line : ℕ → ℕ) : DecidablePred (Fires line) :=
  fun n => inferInstanceAs (Decidable (locks line n n = 0))

variable {R : ℕ → ℕ → Prop} {line : ℕ → ℕ} {top n p l : ℕ}

/-- The locks of a line are the rounds that fire for it. -/
theorem locks_eq_card (line : ℕ → ℕ) (n l : ℕ) : locks line n l =
    ((Finset.range n).filter fun p => Fires line p ∧ line p = l).card := by
  induction n with
  | zero => rfl
  | succ n ih =>
    rw [locks, ih, Finset.range_add_one, Finset.filter_insert]
    by_cases hn : locks line n n = 0 ∧ line n = l
    · rw [if_pos hn, if_pos (show Fires line n ∧ line n = l from hn),
        Finset.card_insert_of_notMem (by simp)]
    · rw [if_neg hn, if_neg (show ¬ (Fires line n ∧ line n = l) from hn), Nat.add_zero]

theorem locks_le (line : ℕ → ℕ) (n l : ℕ) : locks line n l ≤ n := by
  rw [locks_eq_card]
  exact (Finset.card_filter_le _ _).trans_eq (Finset.card_range n)

theorem locks_eq_zero_iff : locks line n l = 0 ↔ ∀ p < n, Fires line p → line p ≠ l := by
  rw [locks_eq_card, Finset.card_eq_zero, Finset.filter_eq_empty_iff]
  simp only [Finset.mem_range, not_and, ne_eq]

theorem locks_eq_one_iff : locks line n l = 1 ↔
    ∃ p < n, Fires line p ∧ line p = l ∧ ∀ q < n, Fires line q → line q = l → q = p := by
  rw [locks_eq_card, Finset.card_eq_one]
  constructor
  · rintro ⟨p, hp⟩
    have hmem : ∀ q, q < n ∧ Fires line q ∧ line q = l ↔ q = p := fun q => by
      rw [← Finset.mem_singleton (a := p), ← hp, Finset.mem_filter, Finset.mem_range]
    obtain ⟨hlt, hf, hl⟩ := (hmem p).mpr rfl
    exact ⟨p, hlt, hf, hl, fun q hq hfq hlq => (hmem q).mp ⟨hq, hfq, hlq⟩⟩
  · rintro ⟨p, hlt, hf, hl, huniq⟩
    refine ⟨p, Finset.ext fun q => ?_⟩
    rw [Finset.mem_singleton, Finset.mem_filter, Finset.mem_range]
    constructor
    · rintro ⟨hq, hfq, hlq⟩
      exact huniq q hq hfq hlq
    · rintro rfl
      exact ⟨hlt, hf, hl⟩

/-- Some numbers are redirected, each to one other, and no two to the same. -/
structure Redirection (R : ℕ → ℕ → Prop) (line : ℕ → ℕ) : Prop where
  irrefl : ∀ p, ¬ R p p
  inj : ∀ p q l, R p l → R q l → p = q
  line_eq : ∀ p l, R p l → line p = l
  line_self : ∀ p, (¬ ∃ l, R p l) → line p = p

/-- The numbers below `top` come in an order in which each line is locked
once: who is redirected to a line at the end of a chain comes before it, or
does not lock; who is redirected to a line further up locks. -/
structure InOrder (R : ℕ → ℕ → Prop) (top : ℕ) : Prop where
  last : ∀ p l, R p l → (¬ ∃ t, R l t) → p < l ∨ top ≤ p ∨ ∃ r < p, R r p
  inner : ∀ p l t, R p l → R l t → p < top ∧ ∀ r, R r p → p < r

namespace Redirection

section

variable (h : Redirection R line)

include h

theorem line_iff : line p = l ↔ R p l ∨ (p = l ∧ ¬ ∃ t, R l t) := by
  constructor
  · intro hline
    by_cases hp : ∃ t, R p t
    · obtain ⟨t, ht⟩ := hp
      rw [h.line_eq p t ht] at hline
      exact .inl (hline ▸ ht)
    · rw [h.line_self p hp] at hline
      subst hline
      exact .inr ⟨rfl, hp⟩
  · rintro (hp | ⟨rfl, hp⟩)
    · exact h.line_eq p l hp
    · exact h.line_self p hp

/-- A round fires unless the number redirected to it has fired before. -/
theorem fires_iff : Fires line n ↔ ∀ p < n, R p n → ¬ Fires line p := by
  rw [Fires, locks_eq_zero_iff]
  constructor
  · intro hn p hp hR hf
    exact hn p hp hf (h.line_eq p n hR)
  · intro hn p hp hf hline
    rcases h.line_iff.mp hline with hR | ⟨rfl, -⟩
    · exact hn p hp hR hf
    · exact Nat.lt_irrefl p hp

/-- In order, who is redirected to a line further up locks it. -/
theorem fires_inner (ho : InOrder R top) {t : ℕ} (hpl : R p l)
    (hlt : R l t) : Fires line p :=
  h.fires_iff.mpr fun r hr hrp _ => Nat.lt_asymm hr ((ho.inner p l t hpl hlt).2 r hrp)

/-- In order, every line of a number is locked once. -/
theorem locks_eq_one (ho : InOrder R top) (hl : l < top)
    (hline : line p = l) : locks line top l = 1 := by
  rw [locks_eq_one_iff]
  by_cases hsource : ∃ t, R l t
  · -- only the number redirected to the line has it
    obtain ⟨t, ht⟩ := hsource
    have hR : ∀ q, line q = l → R q l := fun q hq =>
      (h.line_iff.mp hq).resolve_right fun hself => hself.2 ⟨t, ht⟩
    exact ⟨p, (ho.inner p l t (hR p hline) ht).1, h.fires_inner ho (hR p hline) ht, hline,
      fun q _ _ hq => h.inj q p l (hR q hq) (hR p hline)⟩
  · by_cases hf : ∃ q < top, R q l ∧ Fires line q
    · obtain ⟨q, hq, hR, hfq⟩ := hf
      -- it comes first, so that the line's own number does not fire
      have hlt : q < l := by
        rcases ho.last q l hR hsource with hlt | hle | ⟨r, hr, hrq⟩
        · exact hlt
        · exact absurd hq (Nat.not_lt.mpr hle)
        · exact absurd (h.fires_inner ho hrq hR) (h.fires_iff.mp hfq r hr hrq)
      refine ⟨q, hq, hfq, h.line_eq q l hR, fun r _ hfr hr => ?_⟩
      rcases h.line_iff.mp hr with hR' | ⟨rfl, -⟩
      · exact h.inj r q l hR' hR
      · exact absurd hfq (h.fires_iff.mp hfr q hlt hR)
    · have hfl : Fires line l := h.fires_iff.mpr fun q hq hR hfq =>
        hf ⟨q, hq.trans hl, hR, hfq⟩
      refine ⟨l, hl, hfl, h.line_self l hsource, fun q hq hfq hline => ?_⟩
      rcases h.line_iff.mp hline with hR | ⟨rfl, -⟩
      · exact absurd ⟨q, hq, hR, hfq⟩ hf
      · rfl

/-- Conversely the numbers are in order when every line is locked once. -/
theorem inOrder (hR : ∀ p l, R p l → l < top)
    (hone : ∀ p l, R p l → locks line top l = 1) : InOrder R top := by
  -- who is redirected to a line further up is the one that locks it
  have hinner : ∀ p l t, R p l → R l t → p < top ∧ Fires line p := fun p l t hpl hlt => by
    obtain ⟨q, hq, hf, hline, -⟩ := locks_eq_one_iff.mp (hone p l hpl)
    rcases h.line_iff.mp hline with hql | ⟨-, hself⟩
    · rw [h.inj p q l hpl hql]
      exact ⟨hq, hf⟩
    · exact absurd ⟨t, hlt⟩ hself
  refine ⟨fun p l hpl hself => ?_, fun p l t hpl hlt => ?_⟩
  · by_contra hnot
    push Not at hnot
    obtain ⟨hle, hp, hfirst⟩ := hnot
    -- both the line's own number and `p` lock it
    have hlp : l < p := lt_of_le_of_ne hle fun heq => h.irrefl p (heq ▸ hpl)
    have hfp : Fires line p := h.fires_iff.mpr fun r hr hrp _ => hfirst r hr hrp
    have hfl : Fires line l := h.fires_iff.mpr fun r hr hrl _ =>
      Nat.lt_asymm hlp (h.inj r p l hrl hpl ▸ hr)
    obtain ⟨q, -, -, -, huniq⟩ := locks_eq_one_iff.mp (hone p l hpl)
    have hpq := huniq p hp hfp (h.line_eq p l hpl)
    have hlq := huniq l (hR p l hpl) hfl (h.line_self l hself)
    exact hlp.ne (hlq.trans hpq.symm)
  · obtain ⟨hp, hf⟩ := hinner p l t hpl hlt
    refine ⟨hp, fun r hrp => ?_⟩
    rcases Nat.lt_trichotomy p r with hlt' | rfl | hgt
    · exact hlt'
    · exact absurd hrp (h.irrefl p)
    · exact absurd (hinner r p l hrp hpl).2 (h.fires_iff.mp hf r hgt hrp)

end

end Redirection

end ShmDos64
