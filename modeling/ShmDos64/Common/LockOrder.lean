import Mathlib.Tactic
/-!
# Locks with queues

Agents take locks one at a time. Those that have asked for a lock and not
given it back are in its queue: the first has the lock, the others wait. If
every agent that waits has only locks below the one it waits for, then no
agents wait for each other in a circle.
-/

namespace ShmDos64

open Function (update update_of_ne update_self)

/-- Who has asked for a lock, in the order of asking. -/
abbrev LockQueues (ℓ κ : Type*) : Type _ := ℓ → List κ

namespace LockQueues

variable {ℓ κ ρ : Type*} {q : LockQueues ℓ κ} {c d : κ} {l m : ℓ}

section

variable (q : LockQueues ℓ κ)

/-- Who has the lock. -/
def holder (l : ℓ) : Option κ := (q l).head?

/-- The agent has asked for the lock and does not have it yet. -/
def Waits (c : κ) (l : ℓ) : Prop := c ∈ (q l).tail

instance [DecidableEq κ] (q : LockQueues ℓ κ) (c : κ) (l : ℓ) : Decidable (q.Waits c l) :=
  inferInstanceAs (Decidable (_ ∈ _))

/-- The agent has no lock. -/
def Bare (c : κ) : Prop := ∀ l, q.holder l ≠ some c

instance [DecidableEq κ] [Fintype ℓ] (q : LockQueues ℓ κ) (c : κ) : Decidable (q.Bare c) :=
  inferInstanceAs (Decidable (∀ _, _))

/-- One agent waits for a lock that the other has. -/
def WaitsFor (c d : κ) : Prop := ∃ l, q.Waits c l ∧ q.holder l = some d

/-- Agents wait for each other in a circle. -/
def Deadlocked : Prop := ∃ c, Relation.TransGen q.WaitsFor c c

end

/-- **No circle.** Along a chain of agents that wait the ranks of the locks
go up. -/
theorem not_deadlocked [Preorder ρ] (rank : ℓ → ρ)
    (h : ∀ c l m, q.Waits c l → q.holder m = some c → rank m < rank l) : ¬ q.Deadlocked := by
  rintro ⟨c, hcycle⟩
  have hchain : ∀ d, Relation.TransGen q.WaitsFor c d →
      ∃ l m, q.Waits c l ∧ q.holder m = some d ∧ rank l ≤ rank m := by
    intro d hd
    induction hd with
    | single hstep =>
      obtain ⟨l, hw, hh⟩ := hstep
      exact ⟨l, l, hw, hh, le_rfl⟩
    | tail _ hstep ih =>
      obtain ⟨l, m, hw, hh, hle⟩ := ih
      obtain ⟨m', hw', hh'⟩ := hstep
      exact ⟨l, m', hw, hh', hle.trans (h _ m' m hw' hh).le⟩
  obtain ⟨l, m, hw, hh, hle⟩ := hchain c hcycle
  exact absurd (h c l m hw hh) (not_lt_of_ge hle)

theorem holder_eq_some_iff : q.holder l = some c ↔ ∃ cs, q l = c :: cs := by
  unfold holder
  exact List.head?_eq_some_iff

/-- Who is in the queue and does not wait has the lock. -/
theorem holder_of_mem (h : c ∈ q l) (hw : ¬ q.Waits c l) : q.holder l = some c := by
  unfold Waits at hw
  cases hq : q l with
  | nil =>
    rw [hq] at h
    cases h
  | cons a as =>
    rw [hq, List.tail_cons] at hw
    rw [hq] at h
    obtain rfl := (List.mem_cons.mp h).resolve_right hw
    exact holder_eq_some_iff.mpr ⟨as, hq⟩

/-- Who has the lock does not wait for it. -/
theorem not_waits_of_holder (hn : (q l).Nodup) (h : q.holder l = some c) : ¬ q.Waits c l := by
  obtain ⟨cs, hcs⟩ := holder_eq_some_iff.mp h
  rw [hcs] at hn
  rw [Waits, hcs]
  exact (List.nodup_cons.mp hn).1

variable [DecidableEq ℓ]

/-- An agent asks for a lock. -/
def request (q : LockQueues ℓ κ) (c : κ) (l : ℓ) : LockQueues ℓ κ := update q l (q l ++ [c])

/-- A lock is given back. -/
def release (q : LockQueues ℓ κ) (l : ℓ) : LockQueues ℓ κ := update q l (q l).tail

theorem request_self : q.request c l l = q l ++ [c] := update_self ..

theorem request_of_ne (h : m ≠ l) : q.request c l m = q m := update_of_ne h ..

theorem release_self : q.release l l = (q l).tail := update_self ..

theorem release_of_ne (h : m ≠ l) : q.release l m = q m := update_of_ne h ..

theorem mem_request (h : d ∈ q m) : d ∈ q.request c l m := by
  by_cases hm : m = l
  · subst hm
    rw [request_self]
    exact List.mem_append_left _ h
  · rwa [request_of_ne hm]

theorem waits_request (h : (q.request c l).Waits d m) :
    q.Waits d m ∨ (d = c ∧ m = l ∧ q l ≠ []) := by
  by_cases hm : m = l
  · subst hm
    rw [Waits, request_self] at h
    cases hq : q m with
    | nil =>
      rw [hq] at h
      cases h
    | cons a as =>
      rw [hq, List.cons_append, List.tail_cons, List.mem_append, List.mem_singleton] at h
      rcases h with h | rfl
      · exact .inl (by rw [Waits, hq]; exact h)
      · exact .inr ⟨rfl, rfl, List.cons_ne_nil a as⟩
  · rw [Waits, request_of_ne hm] at h
    exact .inl h

theorem holder_request (h : (q.request c l).holder m = some d) :
    q.holder m = some d ∨ (d = c ∧ m = l ∧ q l = []) := by
  by_cases hm : m = l
  · subst hm
    rw [holder, request_self] at h
    cases hq : q m with
    | nil =>
      rw [hq] at h
      exact .inr ⟨(Option.some.inj h).symm, rfl, rfl⟩
    | cons a as =>
      rw [hq] at h
      exact .inl (by rw [holder, hq]; exact h)
  · rw [holder, request_of_ne hm] at h
    exact .inl h

theorem holder_request_of_holder (h : q.holder m = some d) : (q.request c l).holder m = some d := by
  by_cases hm : m = l
  · subst hm
    obtain ⟨cs, hcs⟩ := holder_eq_some_iff.mp h
    rw [holder, request_self, hcs]
    rfl
  · rwa [holder, request_of_ne hm]

theorem holder_request_self (h : q l = []) : (q.request c l).holder l = some c := by
  rw [holder, request_self, h]
  rfl

theorem nodup_request (h : (q m).Nodup) (hc : c ∉ q l) : (q.request c l m).Nodup := by
  by_cases hm : m = l
  · subst hm
    rw [request_self]
    exact List.nodup_append.mpr ⟨h, List.nodup_singleton c, fun x hx y hy hxy =>
      hc (by rw [← List.mem_singleton.mp hy, ← hxy]; exact hx)⟩
  · rwa [request_of_ne hm]

theorem waits_release (h : (q.release l).Waits d m) : q.Waits d m := by
  by_cases hm : m = l
  · subst hm
    rw [Waits, release_self] at h
    exact List.mem_of_mem_tail h
  · rwa [Waits, release_of_ne hm] at h

/-- The next in the queue gets the lock. -/
theorem holder_release (h : (q.release l).holder m = some d) :
    m ≠ l ∧ q.holder m = some d ∨ m = l ∧ q.Waits d l := by
  by_cases hm : m = l
  · subst hm
    rw [holder, release_self] at h
    exact .inr ⟨rfl, List.mem_of_head? h⟩
  · rw [holder, release_of_ne hm] at h
    exact .inl ⟨hm, h⟩

theorem nodup_release (h : (q m).Nodup) : (q.release l m).Nodup := by
  by_cases hm : m = l
  · subst hm
    rw [release_self]
    exact h.sublist (List.tail_sublist _)
  · rwa [release_of_ne hm]

/-- Who does not have the lock stays in its queue. -/
theorem mem_release (h : d ∈ q m) (hd : q.holder l ≠ some d) : d ∈ q.release l m := by
  by_cases hm : m = l
  · subst hm
    rw [release_self]
    by_contra hw
    exact hd (holder_of_mem h hw)
  · rwa [release_of_ne hm]

end LockQueues

end ShmDos64
