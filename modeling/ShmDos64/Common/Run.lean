import Mathlib.Tactic
/-!
# Labelled machines and their runs

A machine is a set of initial states and a labelled step relation; its
reachable states are those some finite run ends in. `guard` keeps the
steps a condition on the state and the label allows, so that a result
about guarded runs is a result about every run whose steps all meet the
condition.
-/

namespace ShmDos64

/-- A labelled transition system. -/
structure Machine (σ : Type*) (α : Type*) where
  /-- The states a run may start in. -/
  init : σ → Prop
  /-- One step, by its label. -/
  step : σ → α → σ → Prop

namespace Machine

variable {σ α : Type*} {M : Machine σ α} {s t u : σ} {a : α}

/-- The states some finite run ends in. -/
inductive Reachable (M : Machine σ α) : σ → Prop
  /-- A run of no steps. -/
  | init {s : σ} : M.init s → Reachable M s
  /-- A run, and one more step. -/
  | step {s t : σ} {a : α} : Reachable M s → M.step s a t → Reachable M t

/-- The machine whose steps are those of `M` that `ok` allows. -/
def guard (M : Machine σ α) (ok : σ → α → Prop) : Machine σ α where
  init := M.init
  step s a t := ok s a ∧ M.step s a t

/-- **The invariant rule.** What holds initially and survives every step
holds of every reachable state. -/
theorem Reachable.invariant {I : σ → Prop} (h : M.Reachable s) (hinit : ∀ s, M.init s → I s)
    (hstep : ∀ s a t, I s → M.step s a t → I t) : I s := by
  induction h with
  | init h => exact hinit _ h
  | step _ hst ih => exact hstep _ _ _ ih hst

/-- Guarded runs are runs. -/
theorem Reachable.of_guard {ok : σ → α → Prop} (h : (M.guard ok).Reachable s) : M.Reachable s := by
  induction h with
  | init h => exact .init h
  | step _ hst ih => exact .step ih hst.2

/-- The states a run of the given labels leads to from `s`. -/
inductive Runs (M : Machine σ α) : σ → List α → σ → Prop
  /-- No label, no step. -/
  | nil {s : σ} : Runs M s [] s
  /-- A step, and the rest of the run. -/
  | cons {s t u : σ} {a : α} {as : List α} :
      M.step s a t → Runs M t as u → Runs M s (a :: as) u

theorem Runs.append {as bs : List α} (h : M.Runs s as t) (h' : M.Runs t bs u) :
    M.Runs s (as ++ bs) u := by
  induction h with
  | nil => exact h'
  | cons hst _ ih => exact .cons hst (ih h')

variable {as : List α}

theorem Runs.of_guard {ok : σ → α → Prop} (h : (M.guard ok).Runs s as t) :
    M.Runs s as t := by
  induction h with
  | nil => exact .nil
  | cons hst _ ih => exact .cons hst.2 ih

/-- A run from a reachable state ends in one. -/
theorem Reachable.runs (h : M.Reachable s) (hr : M.Runs s as t) : M.Reachable t := by
  induction hr with
  | nil => exact h
  | cons hst _ ih => exact ih (.step h hst)

variable {f : σ → α → Option σ}

/-- A run that is computed. -/
theorem Reachable.foldlM (hf : ∀ s a t, f s a = some t → M.step s a t) (h : M.Reachable s)
    (hr : as.foldlM f s = some t) : M.Reachable t := by
  induction as generalizing s with
  | nil =>
    obtain ⟨⟩ := hr
    exact h
  | cons a as ih =>
    rw [List.foldlM_cons] at hr
    obtain ⟨u, hu, hr⟩ := Option.bind_eq_some_iff.mp hr
    exact ih (h.step (hf _ _ _ hu)) hr

/-- A run that is computed, up to what is asked of its end. -/
theorem Reachable.exists_of_foldlM {P : σ → Bool}
    (hf : ∀ s a t, f s a = some t → M.step s a t) (as : List α) (h : M.Reachable s)
    (hr : (as.foldlM f s).any P = true) : ∃ t, M.Reachable t ∧ P t = true := by
  cases ht : as.foldlM f s with
  | none =>
    rw [ht] at hr
    cases hr
  | some t =>
    rw [ht] at hr
    exact ⟨t, h.foldlM hf ht, hr⟩

/-- A guarded run that is computed. -/
theorem Reachable.exists_of_guard (ok : σ → α → Prop) [∀ s a, Decidable (ok s a)] {P : σ → Bool}
    (hf : ∀ s a t, f s a = some t → M.step s a t)
    (as : List α) (h : (M.guard ok).Reachable s)
    (hr : (as.foldlM (fun s a => if ok s a then f s a else none) s).any P = true) :
    ∃ t, (M.guard ok).Reachable t ∧ P t = true := by
  refine h.exists_of_foldlM (fun s a t hst => ?_) as hr
  split_ifs at hst with hok
  exact ⟨hok, hf s a t hst⟩

end Machine

end ShmDos64
