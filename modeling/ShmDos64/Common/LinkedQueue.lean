import Mathlib.Tactic
import Mathlib.Data.List.Nodup
/-!
# Doubly linked queues

A queue threaded through the `next` and `prev` links of its nodes, with a
head and a tail, null being `none`. The operations are an append at the
tail and the removal of any node; each is stated by what it does to the
links of the nodes, so that a program that keeps the links of a node in
several places can be read against it.
-/

namespace ShmDos64

variable {P : Type*}

theorem getLast?_cons_concat (y z : P) (d : List P) : (y :: (d ++ [z])).getLast? = some z := by
  rw [← List.cons_append, List.getLast?_append]
  rfl

/-- The links, the head and the tail spell the list. -/
structure LinkedQueue (next prev : P → Option P) (head tail : Option P) (l : List P) : Prop where
  head_eq : head = l.head?
  tail_eq : tail = l.getLast?
  nodup : l.Nodup
  /-- A node links to the one after it and to the one before it. -/
  links : ∀ l₁ x l₂, l = l₁ ++ x :: l₂ → next x = l₂.head? ∧ prev x = l₁.getLast?

namespace LinkedQueue

variable {next next' prev prev' : P → Option P} {head tail : Option P} {l : List P} {x y : P}

theorem nil : LinkedQueue next prev none none [] where
  head_eq := rfl
  tail_eq := rfl
  nodup := List.nodup_nil
  links l₁ x l₂ h := by
    have := congrArg List.length h
    simp at this

section

variable (h : LinkedQueue next prev head tail l)

include h

/-- A queue reads only the links of its nodes. -/
theorem congr (hn : ∀ y ∈ l, next' y = next y) (hp : ∀ y ∈ l, prev' y = prev y) :
    LinkedQueue next' prev' head tail l where
  head_eq := h.head_eq
  tail_eq := h.tail_eq
  nodup := h.nodup
  links l₁ y l₂ hl := by
    have hy : y ∈ l := by simp [hl]
    rw [hn y hy, hp y hy]
    exact h.links l₁ y l₂ hl

theorem tail_mem (hx : tail = some x) : x ∈ l :=
  List.mem_of_mem_getLast? (h.tail_eq ▸ hx)

theorem head_eq_none : head = none ↔ l = [] := by
  rw [h.head_eq, List.head?_eq_none_iff]

theorem tail_eq_none : tail = none ↔ l = [] := by
  rw [h.tail_eq, List.getLast?_eq_none_iff]

/-- The node a link leads to is another node of the queue. -/
theorem next_mem (hx : x ∈ l) (hy : next x = some y) : y ∈ l ∧ y ≠ x := by
  obtain ⟨l₁, l₂, rfl⟩ := List.append_of_mem hx
  rw [(h.links l₁ x l₂ rfl).1] at hy
  have hm : y ∈ l₂ := List.mem_of_mem_head? hy
  refine ⟨by simp [hm], ?_⟩
  rintro rfl
  exact (List.nodup_cons.mp (List.nodup_append.mp h.nodup).2.1).1 hm

theorem prev_mem (hx : x ∈ l) (hy : prev x = some y) : y ∈ l ∧ y ≠ x := by
  obtain ⟨l₁, l₂, rfl⟩ := List.append_of_mem hx
  rw [(h.links l₁ x l₂ rfl).2] at hy
  have hm : y ∈ l₁ := List.mem_of_mem_getLast? hy
  refine ⟨by simp [hm], ?_⟩
  rintro rfl
  exact (List.nodup_append.mp h.nodup).2.2 y hm y (by simp) rfl

end

/-- The head is the node that has none before it. -/
theorem prev_head (h : LinkedQueue next prev head tail (x :: l)) : prev x = none :=
  (h.links [] x l rfl).2

theorem next_head (h : LinkedQueue next prev head tail (x :: l)) : next x = l.head? :=
  (h.links [] x l rfl).1

/-- **An append**: the new node links back to the old tail, which links to
it. -/
theorem append [DecidableEq P] (h : LinkedQueue next prev head tail l) (hx : x ∉ l)
    (hnx : next' x = none) (hpx : prev' x = tail)
    (hn : ∀ y ∈ l, next' y = if tail = some y then some x else next y)
    (hp : ∀ y ∈ l, prev' y = prev y) :
    LinkedQueue next' prev' (if tail = none then some x else head) (some x) (l ++ [x]) where
  head_eq := by
    rw [List.head?_append, ← h.head_eq]
    by_cases hl : l = []
    · rw [if_pos (h.tail_eq_none.mpr hl), h.head_eq_none.mpr hl]
      rfl
    · rw [if_neg (mt h.tail_eq_none.mp hl)]
      obtain ⟨y, hy⟩ := Option.ne_none_iff_exists'.mp (mt h.head_eq_none.mp hl)
      rw [hy]
      rfl
  tail_eq := by simp
  nodup := by
    rw [List.nodup_append]
    refine ⟨h.nodup, List.nodup_singleton x, fun a ha b hb => ?_⟩
    rw [List.mem_singleton.mp hb]
    exact fun hax => hx (hax ▸ ha)
  links l₁ y l₂ hl := by
    rcases List.eq_nil_or_concat l₂ with rfl | ⟨l₂, z, rfl⟩
    · -- the new node
      obtain ⟨rfl, hxy⟩ := List.append_inj' hl rfl
      obtain rfl := List.head_eq_of_cons_eq hxy
      exact ⟨hnx, hpx.trans h.tail_eq⟩
    · have hl' : l = l₁ ++ y :: l₂ := by
        have hl : l ++ [x] = (l₁ ++ y :: l₂) ++ [z] := by simpa using hl
        exact (List.append_inj' hl rfl).1
      have hzx : z = x := by
        have := congrArg List.getLast? hl
        simpa [getLast?_cons_concat] using this.symm
      have hy : y ∈ l := by simp [hl']
      obtain ⟨h1, h2⟩ := h.links l₁ y l₂ hl'
      rw [hn y hy, hp y hy, h1, h2, hzx]
      refine ⟨?_, rfl⟩
      rw [h.tail_eq, hl']
      cases l₂ with
      | nil => simp
      | cons w l₂ =>
        have hlast : (l₁ ++ y :: w :: l₂).getLast? ≠ some y := by
          intro hlast
          have hm : y ∈ w :: l₂ := by
            have : (w :: l₂).getLast? = some y := by simpa using hlast
            exact List.mem_of_mem_getLast? this
          have hnd := h.nodup
          rw [hl'] at hnd
          exact (List.nodup_cons.mp (List.nodup_append.mp hnd).2.1).1 hm
        rw [if_neg hlast]
        simp

/-- **A removal**: the node before and the node after are linked to each
other, and the head or the tail moves where there is none. -/
theorem remove [DecidableEq P] (h : LinkedQueue next prev head tail l) (hx : x ∈ l)
    (hn : ∀ y ∈ l, y ≠ x → next' y = if prev x = some y then next x else next y)
    (hp : ∀ y ∈ l, y ≠ x → prev' y = if next x = some y then prev x else prev y) :
    LinkedQueue next' prev' (if prev x = none then next x else head)
      (if next x = none then prev x else tail) (l.erase x) := by
  obtain ⟨a, b, rfl⟩ := List.append_of_mem hx
  obtain ⟨hnx, hpx⟩ := h.links a x b rfl
  have hnd := h.nodup
  obtain ⟨hna, hnb, hdis⟩ := List.nodup_append.mp hnd
  obtain ⟨hxb, hnb⟩ := List.nodup_cons.mp hnb
  have hxa : x ∉ a := fun hm => hdis x hm x (by simp) rfl
  have herase : (a ++ x :: b).erase x = a ++ b := by
    rw [List.erase_append_right _ hxa, List.erase_cons_head]
  rw [herase]
  -- the links of a node on either side
  have hright : ∀ c y d, b = c ++ y :: d →
      next' y = d.head? ∧ prev' y = (a ++ c).getLast? := by
    rintro c y d rfl
    obtain ⟨h1, h2⟩ := h.links (a ++ x :: c) y d (by simp)
    have hne : y ≠ x := by
      rintro rfl
      exact hxb (by simp)
    have hpy : prev x ≠ some y := by
      rw [hpx]
      intro hy
      exact hdis y (List.mem_of_mem_getLast? hy) y (by simp) rfl
    rw [hn y (by simp) hne, if_neg hpy, hp y (by simp) hne, h1, h2, hnx]
    refine ⟨rfl, ?_⟩
    cases c with
    | nil => simp [hpx]
    | cons z c =>
      have hzy : z ≠ y := by
        rintro rfl
        rw [List.cons_append, List.nodup_cons] at hnb
        exact hnb.1 (by simp)
      rw [if_neg (by simpa using hzy)]
      simp
  have hleft : ∀ c y d, a = c ++ y :: d →
      next' y = (d ++ b).head? ∧ prev' y = c.getLast? := by
    rintro c y d rfl
    obtain ⟨h1, h2⟩ := h.links c y (d ++ x :: b) (by simp)
    have hne : y ≠ x := by
      rintro rfl
      exact hxa (by simp)
    have hny : next x ≠ some y := by
      rw [hnx]
      intro hy
      exact hdis y (by simp) y (by simp [List.mem_of_mem_head? hy]) rfl
    rw [hn y (by simp) hne, hp y (by simp) hne, if_neg hny, h1, h2, hpx]
    refine ⟨?_, rfl⟩
    rcases List.eq_nil_or_concat d with rfl | ⟨d, z, rfl⟩
    · simp [hnx]
    · have hzy : z ≠ y := by
        rintro rfl
        exact (List.nodup_cons.mp (List.nodup_append.mp hna).2.1).1 (by simp)
      rw [if_neg (by simpa [getLast?_cons_concat] using hzy)]
      cases d <;> simp
  refine ⟨?_, ?_, ?_, ?_⟩
  · rw [hpx, hnx, h.head_eq]
    cases a <;> simp
  · rw [hpx, hnx, h.tail_eq]
    rcases List.eq_nil_or_concat b with rfl | ⟨b, z, rfl⟩
    · simp
    · rw [if_neg (by simp)]
      simp [getLast?_cons_concat]
  · rw [← herase]
    exact hnd.erase x
  · intro l₁ y l₂ hl
    rcases List.append_eq_append_iff.mp hl with ⟨c, rfl, hb⟩ | ⟨c, ha, hd⟩
    · exact hright c y l₂ hb
    · cases c with
      | nil =>
        obtain rfl : a = l₁ := by simpa using ha
        have := hright [] y l₂ hd.symm
        simpa using this
      | cons z c =>
        obtain ⟨rfl, rfl⟩ : y = z ∧ l₂ = c ++ b := by simpa using hd
        exact hleft l₁ y c ha

end LinkedQueue

end ShmDos64
