import Mathlib.Tactic
/-!
# Trees of tables

A memory of tables, each a row of entries, in which some entries lead to other
tables. A table is named by its path, the indices of the entries that lead to it
from the root. The tables are a tree if no table has two paths; they stay one when
an entry that leads nowhere is made to lead to a table that is not in the tree.
-/

namespace ShmDos64

open Function (update update_of_ne update_self)

/-- What an entry leads to, and which entries of the table at a path are links. -/
structure TableLinks (τ ε : Type*) where
  child : ε → Option τ
  slots : List ℕ → ℕ → Prop

variable {τ ε : Type*} {L : TableLinks τ ε} {mem : τ → ℕ → ε} {root t t' u : τ} {p q : List ℕ}
  {i j : ℕ} {e : ε}

/-- The table is at the path, which has the last index first. -/
inductive TableAt (L : TableLinks τ ε) (mem : τ → ℕ → ε) (root : τ) : List ℕ → τ → Prop
  | root : TableAt L mem root [] root
  | link {p : List ℕ} {t t' : τ} {i : ℕ} (ht : TableAt L mem root p t) (hslot : L.slots p i)
    (hchild : L.child (mem t i) = some t') : TableAt L mem root (i :: p) t'

/-- There is one table at a path. -/
theorem TableAt.unique (h : TableAt L mem root p t) (h' : TableAt L mem root p t') : t = t' := by
  induction h generalizing t' with
  | root =>
    cases h'
    rfl
  | link _ _ hchild ih =>
    obtain _ | ⟨ht', -, hchild'⟩ := h'
    obtain rfl := ih ht'
    exact Option.some.inj (hchild.symm.trans hchild')

/-- Tables stay where they are if the entries that lead to them do. -/
theorem TableAt.mono {mem' : τ → ℕ → ε} (h : TableAt L mem root q u)
    (hkept : ∀ p t i t', TableAt L mem root p t → L.slots p i → L.child (mem t i) = some t' →
      L.child (mem' t i) = some t') : TableAt L mem' root q u := by
  induction h with
  | root => exact .root
  | link ht hslot hchild ih => exact .link ih hslot (hkept _ _ _ _ ht hslot hchild)

/-- No table is at two paths. -/
def IsTree (L : TableLinks τ ε) (mem : τ → ℕ → ε) (root : τ) : Prop :=
  ∀ p q t, TableAt L mem root p t → TableAt L mem root q t → p = q

section Write

variable [DecidableEq τ]

/-- An entry is written. -/
def writeEntry (mem : τ → ℕ → ε) (t : τ) (i : ℕ) (e : ε) : τ → ℕ → ε :=
  update mem t (update (mem t) i e)

@[simp] theorem writeEntry_self : writeEntry mem t i e t i = e := by
  simp [writeEntry]

theorem writeEntry_of_ne (h : u = t → j ≠ i) : writeEntry mem t i e u j = mem u j := by
  by_cases hu : u = t
  · subst hu
    rw [writeEntry, update_self, update_of_ne (h rfl)]
  · rw [writeEntry, update_of_ne hu]

/-- **A write to an entry that is no link**, and becomes none. -/
theorem tableAt_writeEntry_iff
    (h : ∀ p, TableAt L mem root p t → L.slots p i → L.child (mem t i) = none ∧ L.child e = none) :
    TableAt L (writeEntry mem t i e) root q u ↔ TableAt L mem root q u := by
  constructor
  · intro hat
    induction hat with
    | root => exact .root
    | @link p u u' j _ hslot hchild ih =>
      by_cases heq : u = t ∧ j = i
      · obtain ⟨rfl, rfl⟩ := heq
        rw [writeEntry_self, (h p ih hslot).2] at hchild
        cases hchild
      · rw [writeEntry_of_ne fun hu hj => heq ⟨hu, hj⟩] at hchild
        exact .link ih hslot hchild
  · intro hat
    refine hat.mono fun p u j u' hu hslot hchild => ?_
    rw [writeEntry_of_ne]
    · exact hchild
    · rintro rfl rfl
      rw [(h p hu hslot).1] at hchild
      cases hchild

section

variable (htree : IsTree L mem root) (ht : TableAt L mem root p t) (hslot : L.slots p i)

include htree ht hslot

/-- **A table is added** at an entry that led nowhere. -/
theorem tableAt_grow_iff {row : ℕ → ε} (hnone : L.child (mem t i) = none)
    (hfresh : ∀ q, ¬ TableAt L mem root q t') (hrow : ∀ j, L.child (row j) = none)
    (he : L.child e = some t') : TableAt L (writeEntry (update mem t' row) t i e) root q u ↔
      TableAt L mem root q u ∨ (q = i :: p ∧ u = t') := by
  have hne : ∀ {q u}, TableAt L mem root q u → u ≠ t' := by
    rintro q u hu rfl
    exact hfresh q hu
  -- the rows of the tree are as they were, but for the entry
  have hkept : ∀ {q u j}, TableAt L mem root q u → (u = t → j ≠ i) →
      writeEntry (update mem t' row) t i e u j = mem u j := by
    intro q u j hu hj
    rw [writeEntry_of_ne hj, update_of_ne (hne hu)]
  have hold : ∀ {q u}, TableAt L mem root q u →
      TableAt L (writeEntry (update mem t' row) t i e) root q u := by
    intro q u hu
    refine hu.mono fun p u j u' hu hslot hchild => ?_
    rw [hkept hu]
    · exact hchild
    · rintro rfl rfl
      rw [hnone] at hchild
      cases hchild
  constructor
  · intro hat
    induction hat with
    | root => exact .inl .root
    | @link q u u' j _ hslot' hchild ih =>
      rcases ih with hu | ⟨rfl, rfl⟩
      · by_cases heq : u = t ∧ j = i
        · obtain ⟨rfl, rfl⟩ := heq
          rw [writeEntry_self, he] at hchild
          obtain ⟨⟩ := hchild
          exact .inr ⟨by rw [htree q p u hu ht], rfl⟩
        · rw [hkept hu fun hu' hj => heq ⟨hu', hj⟩] at hchild
          exact .inl (.link hu hslot' hchild)
      · rw [writeEntry_of_ne fun hu => absurd hu.symm (hne ht), update_self, hrow] at hchild
        cases hchild
  · rintro (hu | ⟨rfl, rfl⟩)
    · exact hold hu
    · exact .link (hold ht) hslot (by rw [writeEntry_self, he])

theorem IsTree.grow {row : ℕ → ε} (hnone : L.child (mem t i) = none)
    (hfresh : ∀ q, ¬ TableAt L mem root q t') (hrow : ∀ j, L.child (row j) = none)
    (he : L.child e = some t') : IsTree L (ShmDos64.writeEntry (update mem t' row) t i e) root := by
  have hiff := fun {q u} => tableAt_grow_iff (q := q) (u := u) htree ht hslot hnone hfresh hrow he
  intro q q' u hq hq'
  rcases hiff.mp hq with hold | ⟨rfl, rfl⟩
  · rcases hiff.mp hq' with hold' | ⟨-, rfl⟩
    · exact htree q q' u hold hold'
    · exact absurd hold (hfresh q)
  · rcases hiff.mp hq' with hold' | ⟨rfl, -⟩
    · exact absurd hold' (hfresh q')
    · rfl

end

end Write

end ShmDos64
