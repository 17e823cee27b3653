import Mathlib.Data.List.Basic
import Mathlib.Tactic.Common
/-!
# Loops that may fail

A loop `for (i = 0; i < n; i++)` over a state whose body may fail is
`(List.range n).foldlM`. Two rules for it: what every round that succeeds
keeps holds at the end, and a loop all whose rounds succeed does.
-/

namespace ShmDos64

variable {σ ε : Type*} {f : σ → ℕ → Except ε σ} {P : ℕ → σ → Prop} {s t : σ} {n : ℕ}

theorem range_foldlM_succ (f : σ → ℕ → Except ε σ) (s : σ) (n : ℕ) :
    (List.range (n + 1)).foldlM f s = (List.range n).foldlM f s >>= fun t => f t n := by
  rw [List.range_succ, List.foldlM_append]
  simp

/-- The last round of a loop that succeeds. -/
theorem range_foldlM_succ_ok (h : (List.range (n + 1)).foldlM f s = .ok t) :
    ∃ u, (List.range n).foldlM f s = .ok u ∧ f u n = .ok t := by
  rw [range_foldlM_succ] at h
  cases hu : (List.range n).foldlM f s with
  | error e =>
    rw [hu] at h
    cases h
  | ok u =>
    rw [hu] at h
    exact ⟨u, rfl, h⟩

/-- What every round keeps holds at the end. -/
theorem range_foldlM_inv (h0 : P 0 s) (hf : ∀ i < n, ∀ a b, P i a → f a i = .ok b → P (i + 1) b)
    (h : (List.range n).foldlM f s = .ok t) : P n t := by
  induction n generalizing t with
  | zero =>
    obtain rfl := Except.ok.inj h
    exact h0
  | succ n ih =>
    obtain ⟨u, hu, ht⟩ := range_foldlM_succ_ok h
    exact hf n n.lt_succ_self u t (ih (fun i hi => hf i (Nat.lt_succ_of_lt hi)) hu) ht

/-- A loop whose rounds succeed. -/
theorem range_foldlM_ok (h0 : P 0 s) (hf : ∀ i < n, ∀ a, P i a → ∃ b, f a i = .ok b ∧ P (i + 1) b) :
    ∃ t, (List.range n).foldlM f s = .ok t ∧ P n t := by
  induction n with
  | zero => exact ⟨s, rfl, h0⟩
  | succ n ih =>
    obtain ⟨u, hu, hP⟩ := ih fun i hi => hf i (Nat.lt_succ_of_lt hi)
    obtain ⟨t, ht, hP⟩ := hf n n.lt_succ_self u hP
    refine ⟨t, ?_, hP⟩
    rw [range_foldlM_succ, hu]
    exact ht

end ShmDos64
