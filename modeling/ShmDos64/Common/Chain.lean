import Mathlib.Tactic
import Mathlib.Data.List.Nodup
/-!
# Singly linked chains

A chain threaded through the `next` links of its nodes and ended by a null
link. It may be pushed at its head, popped there, or grown at its tail.
-/

namespace ShmDos64

open Function (update update_of_ne update_self)

variable {P : Type*}

/-- The links spell the list, from the head on. -/
def Chain (next : P → Option P) : Option P → List P → Prop
  | head, [] => head = none
  | head, x :: l => head = some x ∧ Chain next (next x) l

namespace Chain

variable {next next' : P → Option P} {head : Option P} {l : List P} {x : P}

theorem nil : Chain next none [] :=
  rfl

section

variable (h : Chain next head l)

include h

theorem head_eq : head = l.head? := by
  cases l with
  | nil => exact h
  | cons y l => exact h.1

/-- A chain reads only the links of its nodes. -/
theorem congr (hn : ∀ y ∈ l, next' y = next y) : Chain next' head l := by
  induction l generalizing head with
  | nil => exact h
  | cons y l ih =>
    refine ⟨h.1, ?_⟩
    rw [hn y List.mem_cons_self]
    exact ih h.2 fun z hz => hn z (List.mem_cons_of_mem y hz)

/-- A node before the head, linked to it. -/
theorem push (hx : next' x = head) (hn : ∀ y ∈ l, next' y = next y) :
    Chain next' (some x) (x :: l) := by
  refine ⟨rfl, ?_⟩
  rw [hx]
  exact h.congr hn

/-- A node after the tail, to which the old tail links. -/
theorem append [DecidableEq P] (hnd : l.Nodup) (hx : next' x = none)
    (hn : ∀ y ∈ l, next' y = if l.getLast? = some y then some x else next y) :
    Chain next' (if l.getLast? = none then some x else head) (l ++ [x]) := by
  induction l generalizing head with
  | nil => exact ⟨rfl, hx⟩
  | cons y l ih =>
    obtain ⟨hy, hl⟩ := List.nodup_cons.mp hnd
    rw [if_neg (by simp)]
    refine ⟨h.1, ?_⟩
    cases l with
    | nil =>
      rw [hn y List.mem_cons_self, if_pos List.getLast?_singleton]
      exact ⟨rfl, hx⟩
    | cons z l =>
      have hlast : (y :: z :: l).getLast? = (z :: l).getLast? := List.getLast?_cons_cons
      have hny : next' y = next y := by
        rw [hn y List.mem_cons_self, hlast, if_neg]
        exact fun hc => hy (List.mem_of_mem_getLast? hc)
      have hrest := ih h.2 hl fun w hw => by
        rw [hn w (List.mem_cons_of_mem y hw), hlast]
      rwa [if_neg (by simp), ← hny] at hrest

end

/-- The links after `x` was linked behind the tail. -/
def linkTail [DecidableEq P] (next : P → Option P) (tail : Option P) (x : P) : P → Option P :=
  match tail with
  | some y => update (update next x none) y (some x)
  | none => update next x none

variable [DecidableEq P] {tail : Option P} {y : P}

theorem linkTail_self (hx : tail ≠ some x) : linkTail next tail x x = none := by
  cases tail with
  | none => exact update_self ..
  | some y =>
    have hxy : x ≠ y := fun heq => hx (congrArg some heq.symm)
    exact (update_of_ne hxy ..).trans (update_self ..)

theorem linkTail_of_ne (hy : y ≠ x) :
    linkTail next tail x y = if tail = some y then some x else next y := by
  cases tail with
  | none =>
    rw [if_neg nofun]
    exact update_of_ne hy ..
  | some z =>
    by_cases hyz : y = z
    · rw [hyz, if_pos rfl]
      exact update_self ..
    · rw [if_neg fun hc => hyz (Option.some.inj hc).symm]
      exact (update_of_ne hyz ..).trans (update_of_ne hy ..)

end Chain

end ShmDos64
