import Mathlib.Tactic
/-!
# What the members of a family have in all

The sum of a weight over a finite family of threads, each of which is
somewhere in a routine. A step moves one thread, so it changes the sum by
what that thread had and has.
-/

namespace ShmDos64

open Function (update update_of_ne update_self)

variable {α β : Type*} [Fintype α] {w : β → ℕ} {f : α → β} {a : α}

/-- The sum of `w` over the places of all members. -/
def total (w : β → ℕ) (f : α → β) : ℕ := ∑ a, w (f a)

/-- **One member moves.** -/
theorem total_update [DecidableEq α] (w : β → ℕ) (f : α → β) (a : α) (b : β) :
    total w (update f a b) + w (f a) = total w f + w b := by
  have hrest : ∑ u ∈ Finset.univ.erase a, w (update f a b u) =
      ∑ u ∈ Finset.univ.erase a, w (f u) :=
    Finset.sum_congr rfl fun u hu => by rw [update_of_ne (Finset.ne_of_mem_erase hu)]
  have hnew := Finset.add_sum_erase _ (fun u => w (update f a b u)) (Finset.mem_univ a)
  have hold := Finset.add_sum_erase _ (fun u => w (f u)) (Finset.mem_univ a)
  simp only [update_self] at hnew
  rw [total, total]
  omega

/-- Only one member has anything. -/
theorem total_eq_of_only (h : ∀ u, u ≠ a → w (f u) = 0) : total w f = w (f a) :=
  Finset.sum_eq_single a (fun u _ hu => h u hu) fun ha => absurd (Finset.mem_univ a) ha

theorem total_eq_zero (h : ∀ u, w (f u) = 0) : total w f = 0 :=
  Finset.sum_eq_zero fun u _ => h u

theorem le_total (w : β → ℕ) (f : α → β) (a : α) : w (f a) ≤ total w f :=
  Finset.single_le_sum (f := fun u => w (f u)) (fun _ _ => Nat.zero_le _) (Finset.mem_univ a)

/-- A weight of one for those at certain places counts them. -/
theorem total_ite (p : β → Prop) [DecidablePred p] (f : α → β) :
    total (fun b => if p b then 1 else 0) f = (Finset.univ.filter fun a => p (f a)).card :=
  (Finset.card_filter _ _).symm

end ShmDos64
