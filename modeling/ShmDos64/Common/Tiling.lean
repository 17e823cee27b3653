import Mathlib.Tactic
import Mathlib.Algebra.Order.BigOperators.Group.Finset
/-!
# Lists of spans that tile a range

A span is a run of consecutive numbers. A list of spans tiles `[0, V)`
when every number below `V` lies in exactly one of them and no other
number in any: counted with multiplicity, so a tiling has no overlap and
no gap. Splitting a span, joining two neighbours and reordering the list
keep a tiling one.
-/

namespace ShmDos64

/-- A run of consecutive numbers. -/
structure Span where
  base : ℕ
  size : ℕ
  deriving DecidableEq, Repr

namespace Span

/-- The span holds the number. -/
def Holds (r : Span) (p : ℕ) : Prop := r.base ≤ p ∧ p < r.base + r.size

instance (r : Span) (p : ℕ) : Decidable (r.Holds p) :=
  inferInstanceAs (Decidable (r.base ≤ p ∧ p < r.base + r.size))

theorem holds_base {r : Span} (h : 0 < r.size) : r.Holds r.base := ⟨le_rfl, by omega⟩

theorem holds_last {r : Span} (h : 0 < r.size) : r.Holds (r.base + r.size - 1) :=
  ⟨by omega, by omega⟩

end Span

/-- How many spans of the list hold the number. -/
def cover (l : List Span) (p : ℕ) : ℕ := l.countP fun r => r.Holds p

variable {l l' : List Span} {r r' : Span} {p V b n m : ℕ}

theorem cover_cons : cover (r :: l) p = cover l p + if r.Holds p then 1 else 0 := by
  simp [cover, List.countP_cons]

theorem cover_append : cover (l ++ l') p = cover l p + cover l' p :=
  List.countP_append

theorem cover_perm (h : l.Perm l') : cover l p = cover l' p :=
  h.countP_eq _

theorem cover_pos_iff : 0 < cover l p ↔ ∃ r ∈ l, r.Holds p := by
  simp [cover, List.countP_pos_iff]

/-- Cutting a span in two changes no count. -/
theorem cover_cut : cover (⟨b, n⟩ :: ⟨b + n, m⟩ :: l) p = cover (⟨b, n + m⟩ :: l) p := by
  rw [cover_cons, cover_cons, cover_cons, add_assoc]
  congr 1
  by_cases h₁ : p < b
  · simp [Span.Holds, Nat.not_le.mpr h₁, show ¬ b + n ≤ p by omega]
  · by_cases h₂ : p < b + n
    · simp [Span.Holds, Nat.not_lt.mp h₁, h₂, Nat.not_le.mpr h₂, show p < b + (n + m) by omega]
    · simp [Span.Holds, Nat.not_lt.mp h₁, h₂, Nat.not_lt.mp h₂, Nat.add_assoc]

/-- The numbers the spans hold, each as often as it is held, are as many
as the sizes say. -/
theorem sum_cover {V : ℕ} (hle : ∀ r ∈ l, r.base + r.size ≤ V) :
    ∑ p ∈ Finset.range V, cover l p = (l.map Span.size).sum := by
  induction l with
  | nil => simp [cover]
  | cons r l ih =>
    have hr := hle r (by simp)
    have hcard : ∑ p ∈ Finset.range V, (if r.Holds p then 1 else 0) = r.size := by
      rw [← Finset.sum_filter, Finset.sum_const, smul_eq_mul, mul_one]
      have : (Finset.range V).filter (fun p => r.Holds p)
          = Finset.Ico r.base (r.base + r.size) := by
        ext p
        rw [Finset.mem_filter, Finset.mem_range, Finset.mem_Ico]
        exact ⟨fun h => h.2, fun h => ⟨by omega, h⟩⟩
      rw [this, Nat.card_Ico]
      omega
    simp only [cover_cons, Finset.sum_add_distrib, hcard, List.map_cons, List.sum_cons]
    rw [ih fun r' hr' => hle r' (by simp [hr'])]
    omega

section

variable (h : l.Pairwise fun r r' => r.base + r.size ≤ r'.base ∨ r'.base + r'.size ≤ r.base)

include h

/-- A number is held by at most one of disjoint spans. -/
theorem cover_le_one : cover l p ≤ 1 := by
  induction l with
  | nil => simp [cover]
  | cons r l ih =>
    obtain ⟨hr, hl⟩ := List.pairwise_cons.mp h
    rw [cover_cons]
    split
    · rename_i hp
      have hnone : ¬ 0 < cover l p := by
        rw [cover_pos_iff]
        rintro ⟨r', hr', hp'⟩
        have hd := hr r' hr'
        simp only [Span.Holds] at hp hp'
        omega
      omega
    · exact ih hl

/-- Disjoint spans above zero take less than the range they lie in. -/
theorem sum_size_lt {V : ℕ} (hle : ∀ r ∈ l, r.base + r.size ≤ V)
    (hpos : ∀ r ∈ l, 0 < r.base) (hV : 0 < V) : (l.map Span.size).sum < V := by
  rw [← sum_cover hle]
  have hzero : cover l 0 = 0 := by
    refine Nat.eq_zero_of_not_pos fun h0 => ?_
    obtain ⟨r, hr, hb, -⟩ := cover_pos_iff.mp h0
    have hr0 := hpos r hr
    omega
  calc ∑ p ∈ Finset.range V, cover l p < ∑ p ∈ Finset.range V, 1 :=
        Finset.sum_lt_sum (fun p _ => cover_le_one h)
          ⟨0, Finset.mem_range.mpr hV, by rw [hzero]; exact one_pos⟩
    _ = V := by simp

end

/-- **The list tiles `[0, V)`.** -/
structure Tiles (V : ℕ) (l : List Span) : Prop where
  pos : ∀ r ∈ l, 0 < r.size
  cover_eq : ∀ p, cover l p = if p < V then 1 else 0

namespace Tiles

theorem perm (h : Tiles V l) (hp : l.Perm l') : Tiles V l' where
  pos r hr := h.pos r (hp.mem_iff.mpr hr)
  cover_eq p := by rw [← cover_perm hp]; exact h.cover_eq p

/-- A cut keeps the tiling. -/
theorem cut (h : Tiles V (⟨b, n + m⟩ :: l)) (hn : 0 < n) (hm : 0 < m) :
    Tiles V (⟨b, n⟩ :: ⟨b + n, m⟩ :: l) where
  pos r hr := by
    simp only [List.mem_cons] at hr
    rcases hr with rfl | rfl | hr
    · exact hn
    · exact hm
    · exact h.pos r (by simp [hr])
  cover_eq p := by rw [cover_cut]; exact h.cover_eq p

/-- And so does joining two neighbours. -/
theorem join (h : Tiles V (⟨b, n⟩ :: ⟨b + n, m⟩ :: l)) : Tiles V (⟨b, n + m⟩ :: l) where
  pos r hr := by
    simp only [List.mem_cons] at hr
    rcases hr with rfl | hr
    · have := h.pos ⟨b, n⟩ (by simp)
      simp only at this ⊢
      omega
    · exact h.pos r (by simp [hr])
  cover_eq p := by rw [← cover_cut]; exact h.cover_eq p

section

variable (h : Tiles V l)

include h

/-- No number is in two spans. -/
theorem eq_of_holds (hr : r ∈ l) (hr' : r' ∈ l) (hp : r.Holds p) (hp' : r'.Holds p) : r = r' := by
  by_contra hne
  have hperm := List.perm_cons_erase hr
  have hc := h.cover_eq p
  rw [cover_perm hperm, cover_cons, if_pos hp] at hc
  have hin : r' ∈ l.erase r := (List.mem_erase_of_ne (Ne.symm hne)).mpr hr'
  have : 0 < cover (l.erase r) p := cover_pos_iff.mpr ⟨r', hin, hp'⟩
  split at hc <;> omega

/-- No number below `V` is in none. -/
theorem exists_holds (hp : p < V) : ∃ r ∈ l, r.Holds p := by
  refine cover_pos_iff.mp ?_
  rw [h.cover_eq p, if_pos hp]
  exact Nat.one_pos

/-- A number some span holds is below `V`. -/
theorem lt_of_holds (hr : r ∈ l) (hp : r.Holds p) : p < V := by
  by_contra hge
  have hc := h.cover_eq p
  rw [if_neg hge] at hc
  have := cover_pos_iff.mpr ⟨r, hr, hp⟩
  omega

theorem end_le (hr : r ∈ l) : r.base + r.size ≤ V := by
  have := h.lt_of_holds hr (Span.holds_last (h.pos r hr))
  have := h.pos r hr
  omega

/-- Two spans with the same first number are one. -/
theorem eq_of_base (hr : r ∈ l) (hr' : r' ∈ l) (hb : r.base = r'.base) : r = r' :=
  h.eq_of_holds hr hr' (Span.holds_base (h.pos r hr))
    (by rw [hb]; exact Span.holds_base (h.pos r' hr'))

/-- The number before a span's first is the last of another. -/
theorem exists_end (hr : r ∈ l) (hb : 0 < r.base) : ∃ r' ∈ l, r'.base + r'.size = r.base := by
  have hrV := h.end_le hr
  have hpos := h.pos r hr
  obtain ⟨r', hr', hh⟩ := h.exists_holds (p := r.base - 1) (by omega)
  refine ⟨r', hr', ?_⟩
  by_contra hne
  -- otherwise `r'` holds the first number of `r` too
  have : r' = r := h.eq_of_holds hr' hr (p := r.base)
    ⟨by have := hh.1; omega, by have := hh.2; omega⟩ (Span.holds_base hpos)
  subst this
  have := hh.1
  omega

/-- The number after a span's last is the first of another, unless the
range ends there. -/
theorem exists_start (hr : r ∈ l) (hb : r.base + r.size < V) :
    ∃ r' ∈ l, r'.base = r.base + r.size := by
  have hpos := h.pos r hr
  obtain ⟨r', hr', hh⟩ := h.exists_holds hb
  refine ⟨r', hr', ?_⟩
  by_contra hne
  have : r' = r := h.eq_of_holds hr' hr (p := r.base + r.size - 1)
    ⟨by have := hh.1; omega, by have := hh.2; omega⟩ (Span.holds_last hpos)
  subst this
  have := hh.2
  omega

theorem nodup : l.Nodup := by
  rw [List.nodup_iff_count_le_one]
  intro r
  by_cases hr : r ∈ l
  · have hp := Span.holds_base (h.pos r hr)
    have hle : l.count r ≤ cover l r.base := by
      refine List.countP_mono_left fun x _ hx => ?_
      rw [beq_iff_eq] at hx
      subst hx
      simpa using hp
    have := h.cover_eq r.base
    split at this <;> omega
  · rw [List.count_eq_zero_of_not_mem hr]
    omega

/-- A tiling in which no span follows another is one span. -/
theorem eq_singleton (hV : 0 < V) (hapart : ∀ r ∈ l, ∀ r' ∈ l, r.base + r.size ≠ r'.base) :
    l = [⟨0, V⟩] := by
  obtain ⟨r, hr, hr0⟩ := h.exists_holds hV
  have hbase : r.base = 0 := by have := hr0.1; omega
  have hend : r.base + r.size = V := by
    have hle := h.end_le hr
    by_contra hne
    obtain ⟨r', hr', he⟩ := h.exists_start hr (by omega)
    exact hapart r hr r' hr' he.symm
  have hall : ∀ r' ∈ l, r' = r := by
    intro r' hr'
    have hle := h.end_le hr'
    have hpos := h.pos r' hr'
    exact h.eq_of_holds hr' hr (Span.holds_base hpos) ⟨by omega, by omega⟩
  obtain rfl : r = ⟨0, V⟩ := by
    cases r
    simp only at hbase hend
    subst hbase
    simpa using hend
  have hnd := h.nodup
  cases l with
  | nil => cases hr
  | cons a t =>
    rw [hall a (by simp)] at hnd ⊢
    cases t with
    | nil => rfl
    | cons b t => exact absurd (hall b (by simp)).symm (by rintro rfl; simp at hnd)

/-- The sizes add up to the range. -/
theorem sum_size : (l.map Span.size).sum = V := by
  rw [← sum_cover fun r hr => h.end_le hr, Finset.sum_congr rfl fun p hp => by
    rw [h.cover_eq p, if_pos (Finset.mem_range.mp hp)]]
  simp

/-- There are no more spans than numbers. -/
theorem length_le : l.length ≤ V := by
  have key : ∀ l : List Span, (∀ r ∈ l, 0 < r.size) → l.length ≤ (l.map Span.size).sum := by
    intro l
    induction l with
    | nil => intro _; simp
    | cons r l ih =>
      intro hpos
      have h1 := hpos r (by simp)
      have h2 := ih fun r' hr' => hpos r' (by simp [hr'])
      simp only [List.length_cons, List.map_cons, List.sum_cons]
      omega
  rw [← h.sum_size]
  exact key l h.pos

end

end Tiles

end ShmDos64
