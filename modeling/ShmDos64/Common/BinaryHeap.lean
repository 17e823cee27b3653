import Mathlib.Tactic
import Mathlib.Logic.Equiv.Basic
import Mathlib.Data.List.Perm.Basic
/-!
# Binary heaps in an array

The first `n` places of an array form a binary tree, the parent of place
`i` being `(i - 1) / 2`. The keys the entries have are in heap order when
no entry is below its parent. A sift moves one misplaced entry up or down
along a path by swaps; `UpOrdered` and `DownOrdered` say what such a sift
has still to repair.
-/

namespace ShmDos64

variable {α κ : Type*}

/-- The parent of a place of the tree. -/
def heapParent (i : ℕ) : ℕ := (i - 1) / 2

theorem heapParent_lt {i : ℕ} (hi : 0 < i) : heapParent i < i := by
  unfold heapParent
  omega

/-- The places below `i`. -/
theorem heapParent_eq_iff {i j : ℕ} (hj : 0 < j) :
    heapParent j = i ↔ j = 2 * i + 1 ∨ j = 2 * i + 2 := by
  unfold heapParent
  omega

/-- The first `n` entries of an array. -/
def entriesUpto (a : ℕ → α) (n : ℕ) : List α := (List.range n).map a

theorem mem_entriesUpto {a : ℕ → α} {n : ℕ} {x : α} :
    x ∈ entriesUpto a n ↔ ∃ i, i < n ∧ a i = x := by
  simp [entriesUpto]

theorem entriesUpto_succ (a : ℕ → α) (n : ℕ) :
    entriesUpto a (n + 1) = entriesUpto a n ++ [a n] := by
  simp [entriesUpto, List.range_succ]

theorem entriesUpto_congr {a b : ℕ → α} {n : ℕ} (h : ∀ i, i < n → a i = b i) :
    entriesUpto a n = entriesUpto b n :=
  List.map_congr_left fun i hi => h i (List.mem_range.mp hi)

/-- A swap of two of the first `n` places keeps the entries. -/
theorem entriesUpto_swap (a : ℕ → α) {n i j : ℕ} (hi : i < n) (hj : j < n) :
    (entriesUpto (a ∘ Equiv.swap i j) n).Perm (entriesUpto a n) := by
  have hlt : ∀ k, k < n → Equiv.swap i j k < n := by
    intro k hk
    rw [Equiv.swap_apply_def]
    split_ifs <;> omega
  have hrange : ((List.range n).map (Equiv.swap i j)).Perm (List.range n) := by
    refine (List.perm_ext_iff_of_nodup (List.nodup_range.map (Equiv.injective _))
      List.nodup_range).mpr fun k => ?_
    rw [List.mem_range, List.mem_map]
    constructor
    · rintro ⟨m, hm, rfl⟩
      exact hlt m (List.mem_range.mp hm)
    · intro hk
      exact ⟨Equiv.swap i j k, List.mem_range.mpr (hlt k hk), Equiv.swap_apply_self i j k⟩
  have := hrange.map a
  rwa [List.map_map] at this

/-- The last of `n + 1` entries takes the place of another one, or goes. -/
theorem entriesUpto_replace (a : ℕ → α) {n i : ℕ} (hi : i ≤ n) :
    (a i :: entriesUpto (Function.update a i (a n)) n).Perm (entriesUpto a (n + 1)) := by
  have hswap := entriesUpto_swap a (show i < n + 1 by omega) (show n < n + 1 by omega)
  have hsame : entriesUpto (Function.update a i (a n)) n = entriesUpto (a ∘ Equiv.swap i n) n := by
    refine entriesUpto_congr fun j hj => ?_
    by_cases hji : j = i
    · rw [hji, Function.update_self, Function.comp, Equiv.swap_apply_left]
    · rw [Function.update_of_ne hji, Function.comp, Equiv.swap_apply_of_ne_of_ne hji hj.ne]
  rw [entriesUpto_succ (a ∘ _), Function.comp_apply, Equiv.swap_apply_right] at hswap
  rw [hsame]
  exact (List.perm_append_singleton _ _).symm.trans hswap

section Order

variable [LinearOrder κ] {f : ℕ → κ} {n i c : ℕ}

/-- Among the first `n` places no key is below its parent's. -/
def HeapOrdered (f : ℕ → κ) (n : ℕ) : Prop :=
  ∀ i, 0 < i → i < n → f (heapParent i) ≤ f i

/-- Heap order but for the key at `i`, which may be below its parent's. -/
structure UpOrdered (f : ℕ → κ) (n i : ℕ) : Prop where
  /-- The other places are in order. -/
  others : ∀ j, 0 < j → j < n → j ≠ i → f (heapParent j) ≤ f j
  /-- The parent of `i` is in order with what is below `i`. -/
  above : 0 < i → ∀ j, 0 < j → j < n → heapParent j = i → f (heapParent i) ≤ f j

/-- Heap order but for the key at `i`, which may be above those below it. -/
structure DownOrdered (f : ℕ → κ) (n i : ℕ) : Prop where
  /-- The places not below `i` are in order. -/
  others : ∀ j, 0 < j → j < n → heapParent j ≠ i → f (heapParent j) ≤ f j
  /-- The parent of `i` is in order with what is below `i`. -/
  above : 0 < i → ∀ j, 0 < j → j < n → heapParent j = i → f (heapParent i) ≤ f j

section

variable (h : HeapOrdered f n)

include h

/-- **The root of a heap is least.** -/
theorem HeapOrdered.root_le : i < n → f 0 ≤ f i := by
  induction i using Nat.strong_induction_on with
  | _ i ih =>
    intro hi
    rcases Nat.eq_zero_or_pos i with rfl | hpos
    · exact le_rfl
    · have hlt := heapParent_lt hpos
      exact (ih _ hlt (by omega)).trans (h i hpos hi)

theorem HeapOrdered.mono {m : ℕ} (hm : m ≤ n) : HeapOrdered f m :=
  fun i hpos hi => h i hpos (hi.trans_le hm)

theorem HeapOrdered.congr {g : ℕ → κ} (hg : ∀ i, i < n → g i = f i) :
    HeapOrdered g n := by
  intro i hpos hi
  have hlt := heapParent_lt hpos
  rw [hg i hi, hg _ (by omega)]
  exact h i hpos hi

/-- A new last place may be out of order with its parent only. -/
theorem HeapOrdered.upOrdered : UpOrdered f (n + 1) n := by
  constructor
  · intro j hpos hj hne
    exact h j hpos (by omega)
  · intro _ j hpos hj hp
    have := heapParent_lt hpos
    omega

/-- A new root may be out of order with what is below it only. -/
theorem HeapOrdered.downOrdered {g : ℕ → κ}
    (hg : ∀ i, 0 < i → i < n → g i = f i) : DownOrdered g n 0 := by
  constructor
  · intro j hpos hj hne
    have hlt := heapParent_lt hpos
    rw [hg j hpos hj, hg _ (by omega) (by omega)]
    exact h j hpos hj
  · intro hpos
    omega

end

/-- A sift up is over when the entry is not below its parent. -/
theorem UpOrdered.heapOrdered (h : UpOrdered f n i) (hi : 0 < i → f (heapParent i) ≤ f i) :
    HeapOrdered f n := by
  intro j hpos hj
  by_cases hji : j = i
  · subst hji
    exact hi hpos
  · exact h.others j hpos hj hji

/-- A sift down is over when the entry is not above those below it. -/
theorem DownOrdered.heapOrdered (h : DownOrdered f n i)
    (hi : ∀ j, 0 < j → j < n → heapParent j = i → f i ≤ f j) : HeapOrdered f n := by
  intro j hpos hj
  by_cases hji : heapParent j = i
  · rw [hji]
    exact hi j hpos hj hji
  · exact h.others j hpos hj hji

/-- One step of a sift up. -/
theorem UpOrdered.swap (h : UpOrdered f n i) (hpos : 0 < i) (hi : i < n)
    (hle : f i ≤ f (heapParent i)) :
    UpOrdered (f ∘ Equiv.swap (heapParent i) i) n (heapParent i) := by
  have hlt := heapParent_lt hpos
  -- what is below the parent is not below the parent's old key
  have hup : ∀ j, 0 < j → j < n → heapParent j = heapParent i → j ≠ i →
      f (heapParent i) ≤ f j := fun j hj0 hj hp hne => hp ▸ h.others j hj0 hj hne
  constructor
  · intro j hj0 hj hne
    have hjp := heapParent_lt hj0
    by_cases hji : j = i
    · subst hji
      simpa only [Function.comp, Equiv.swap_apply_left, Equiv.swap_apply_right] using hle
    · have hj' : Equiv.swap (heapParent i) i j = j := Equiv.swap_apply_of_ne_of_ne hne hji
      by_cases hp : heapParent j = i
      · rw [Function.comp, Function.comp, hj', hp, Equiv.swap_apply_right]
        exact h.above hpos j hj0 hj hp
      · by_cases hp' : heapParent j = heapParent i
        · rw [Function.comp, Function.comp, hj', hp', Equiv.swap_apply_left]
          exact hle.trans (hup j hj0 hj hp' hji)
        · rw [Function.comp, Function.comp, hj', Equiv.swap_apply_of_ne_of_ne hp' hp]
          exact h.others j hj0 hj hji
  · intro hp0 j hj0 hj hp
    have hpp := heapParent_lt hp0
    have hgrand : f (heapParent (heapParent i)) ≤ f (heapParent i) :=
      h.others _ hp0 (by omega) (by omega)
    have hpi : Equiv.swap (heapParent i) i (heapParent (heapParent i)) =
        heapParent (heapParent i) := Equiv.swap_apply_of_ne_of_ne (by omega) (by omega)
    rw [Function.comp, Function.comp, hpi]
    by_cases hji : j = i
    · rw [hji, Equiv.swap_apply_right]
      exact hgrand
    · have hjp := heapParent_lt hj0
      rw [Equiv.swap_apply_of_ne_of_ne (by omega) hji]
      exact hgrand.trans (hup j hj0 hj hp hji)

/-- One step of a sift down, to the least of the places below. -/
theorem DownOrdered.swap (h : DownOrdered f n i) (hc0 : 0 < c) (hc : c < n) (hpc : heapParent c = i)
    (hle : f c ≤ f i) (hmin : ∀ j, 0 < j → j < n → heapParent j = i → f c ≤ f j) :
    DownOrdered (f ∘ Equiv.swap i c) n c := by
  have hlt := heapParent_lt hc0
  constructor
  · intro j hj0 hj hne
    have hjp := heapParent_lt hj0
    by_cases hp : heapParent j = i
    · rw [Function.comp, Function.comp, hp, Equiv.swap_apply_left]
      by_cases hjc : j = c
      · rw [hjc, Equiv.swap_apply_right]
        exact hle
      · rw [Equiv.swap_apply_of_ne_of_ne (by omega) hjc]
        exact hmin j hj0 hj hp
    · have hpj : Equiv.swap i c (heapParent j) = heapParent j :=
        Equiv.swap_apply_of_ne_of_ne hp hne
      have hjc : j ≠ c := fun hjc => hp (hjc ▸ hpc)
      rw [Function.comp, Function.comp, hpj]
      by_cases hji : j = i
      · rw [hji, Equiv.swap_apply_left]
        exact h.above (by omega) c hc0 hc hpc
      · rw [Equiv.swap_apply_of_ne_of_ne hji hjc]
        exact h.others j hj0 hj hp
  · intro _ j hj0 hj hp
    have hjp := heapParent_lt hj0
    rw [Function.comp, Function.comp, hpc, Equiv.swap_apply_left,
      Equiv.swap_apply_of_ne_of_ne (by omega) (by omega), ← hp]
    exact h.others j hj0 hj (by omega)

end Order

end ShmDos64
