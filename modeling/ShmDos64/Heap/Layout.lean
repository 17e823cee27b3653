import ShmDos64.Common.Buckets
import ShmDos64.Heap.Model
/-!
# A unit and its regions

A unit of the heap as a list of regions laid end to end and closed by the
null header, apart from the memory that spells it. `Layout` is the
geometry, `Seg` says that the address links of the memory spell it, and
the lemmas split both along the list, so that an operation is followed by
rewriting the part of the list it touches.
-/

namespace ShmDos64

/-- A region of a unit. -/
structure HeapRegion where
  addr : ℕ
  size : ℕ
  busy : Bool
  deriving DecidableEq, Repr

/-- The first header of the regions, the closing one when there is none. -/
def headAddr : List HeapRegion → ℕ → ℕ
  | [], e => e
  | r :: _, _ => r.addr

/-- The last header of the regions, the one before them when there is
none. -/
def lastAddr : ℕ → List HeapRegion → ℕ
  | p, [] => p
  | _, r :: rs => lastAddr r.addr rs

/-- The regions are laid end to end up to `e`, in whole headers. -/
def Layout : List HeapRegion → ℕ → Prop
  | [], _ => True
  | r :: rs, e =>
    r.addr + r.size = headAddr rs e ∧ memRegionAlign ≤ r.size ∧ memRegionAlign ∣ r.size ∧
      Layout rs e

/-- The address links of the memory spell the regions, after `p` and up
to `e`. -/
def Seg (next prev : ℕ → ℕ) : ℕ → List HeapRegion → ℕ → Prop
  | _, [], _ => True
  | p, r :: rs, e => next r.addr = headAddr rs e ∧ prev r.addr = p ∧ Seg next prev r.addr rs e

variable {next next' prev prev' : ℕ → ℕ} {l l₁ l₂ : List HeapRegion} {r r' : HeapRegion}
variable {p e : ℕ}

@[simp] theorem headAddr_append : headAddr (l₁ ++ l₂) e = headAddr l₁ (headAddr l₂ e) := by
  cases l₁ <;> rfl

theorem lastAddr_append_singleton : lastAddr p (l ++ [r]) = r.addr := by
  induction l generalizing p with
  | nil => rfl
  | cons x l ih => exact ih

namespace Layout

theorem append_iff : Layout (l₁ ++ l₂) e ↔ Layout l₁ (headAddr l₂ e) ∧ Layout l₂ e := by
  induction l₁ with
  | nil => simp [Layout]
  | cons x l ih => simp only [List.cons_append, Layout, headAddr_append, ih, and_assoc]

theorem headAddr_le (h : Layout l e) : headAddr l e ≤ e := by
  induction l with
  | nil => exact le_rfl
  | cons x l ih =>
    have hx : x.addr + x.size = headAddr l e := h.1
    have hl := ih h.2.2.2
    change x.addr ≤ e
    omega

/-- A region lies between the first header and the closing one. -/
theorem bounds (h : Layout l e) (hr : r ∈ l) : headAddr l e ≤ r.addr ∧ r.addr + r.size ≤ e := by
  obtain ⟨l₁, l₂, rfl⟩ := List.append_of_mem hr
  obtain ⟨h₁, h₂⟩ := append_iff.mp h
  have hle := h₁.headAddr_le
  have hr₂ : r.addr + r.size = headAddr l₂ e := h₂.1
  have hle₂ := h₂.2.2.2.headAddr_le
  rw [headAddr_append]
  exact ⟨hle, by omega⟩

theorem size_le (h : Layout l e) (hr : r ∈ l) : memRegionAlign ≤ r.size := by
  obtain ⟨l₁, l₂, rfl⟩ := List.append_of_mem hr
  exact (append_iff.mp h).2.2.1

/-- Of two regions in order, the first ends before the second starts. -/
theorem le_of_append (h : Layout (l₁ ++ r :: l₂) e) (hr' : r' ∈ l₂) :
    r.addr + r.size ≤ r'.addr := by
  obtain ⟨-, h₂⟩ := append_iff.mp h
  have hr₂ : r.addr + r.size = headAddr l₂ e := h₂.1
  exact hr₂ ▸ (h₂.2.2.2.bounds hr').1

theorem le_of_mem_left (h : Layout (l₁ ++ r :: l₂) e) (hr' : r' ∈ l₁) :
    r'.addr + r'.size ≤ r.addr := by
  obtain ⟨l₃, l₄, rfl⟩ := List.append_of_mem hr'
  rw [List.append_assoc, List.cons_append] at h
  exact h.le_of_append (by simp)

/-- A region past the first starts past the first header. -/
theorem headAddr_lt_of_mem_tail (h : Layout l e) (hr : r ∈ l.tail) : headAddr l e < r.addr := by
  cases l with
  | nil => cases hr
  | cons x l =>
    have hle : x.addr + x.size ≤ r.addr := le_of_append (show Layout ([] ++ x :: l) e from h) hr
    have hs : 32 ≤ x.size := h.2.1
    change x.addr < r.addr
    omega

/-- Two regions are one, or one lies before the other. -/
theorem eq_or_le (h : Layout l e) (hr : r ∈ l) (hr' : r' ∈ l) :
    r = r' ∨ r.addr + r.size ≤ r'.addr ∨ r'.addr + r'.size ≤ r.addr := by
  obtain ⟨l₁, l₂, rfl⟩ := List.append_of_mem hr
  rcases List.mem_append.mp hr' with hm | hm
  · obtain ⟨l₃, l₄, rfl⟩ := List.append_of_mem hm
    rw [List.append_assoc, List.cons_append] at h
    exact Or.inr (Or.inr (h.le_of_append (by simp)))
  · rcases List.mem_cons.mp hm with rfl | hm
    · exact Or.inl rfl
    · exact Or.inr (Or.inl (h.le_of_append hm))

theorem eq_of_addr (h : Layout l e) (hr : r ∈ l) (hr' : r' ∈ l) (ha : r.addr = r'.addr) :
    r = r' := by
  have hs : 32 ≤ r.size := h.size_le hr
  have hs' : 32 ≤ r'.size := h.size_le hr'
  rcases h.eq_or_le hr hr' with heq | hle | hle
  · exact heq
  · omega
  · omega

theorem dvd_addr (h : Layout l e) (hd : memRegionAlign ∣ headAddr l e) (hr : r ∈ l) :
    memRegionAlign ∣ r.addr := by
  induction l with
  | nil => cases hr
  | cons x l ih =>
    rcases List.mem_cons.mp hr with rfl | hr
    · exact hd
    · refine ih h.2.2.2 ?_ hr
      rw [← h.1]
      exact Nat.dvd_add hd h.2.2.1

theorem dvd_end (h : Layout l e) (hd : memRegionAlign ∣ headAddr l e) : memRegionAlign ∣ e := by
  induction l with
  | nil => exact hd
  | cons x l ih =>
    refine ih h.2.2.2 ?_
    rw [← h.1]
    exact Nat.dvd_add hd h.2.2.1

/-- Regions replaced by others with the same first header. -/
theorem replace {m n : List HeapRegion} (h : Layout (l₁ ++ (m ++ l₂)) e)
    (ha : headAddr n (headAddr l₂ e) = headAddr m (headAddr l₂ e))
    (hnew : Layout n (headAddr l₂ e)) : Layout (l₁ ++ (n ++ l₂)) e := by
  rw [append_iff, append_iff, headAddr_append] at h ⊢
  rw [ha]
  exact ⟨h.1, hnew, h.2.2⟩

end Layout

namespace Seg

theorem append_iff : Seg next prev p (l₁ ++ l₂) e ↔
    Seg next prev p l₁ (headAddr l₂ e) ∧ Seg next prev (lastAddr p l₁) l₂ e := by
  induction l₁ generalizing p with
  | nil => simp [Seg, lastAddr]
  | cons x l ih => simp only [List.cons_append, Seg, headAddr_append, ih, lastAddr, and_assoc]

/-- The links of the regions read only their own headers. -/
theorem congr (h : Seg next prev p l e) (hn : ∀ r ∈ l, next' r.addr = next r.addr)
    (hp : ∀ r ∈ l, prev' r.addr = prev r.addr) : Seg next' prev' p l e := by
  induction l generalizing p with
  | nil => trivial
  | cons x l ih =>
    refine ⟨?_, ?_, ih h.2.2 (fun r hr => hn r (by simp [hr])) fun r hr => hp r (by simp [hr])⟩
    · rw [hn x (by simp)]
      exact h.1
    · rw [hp x (by simp)]
      exact h.2.1

/-- What the memory says at a region in the list. -/
theorem at_append (h : Seg next prev p (l₁ ++ r :: l₂) e) :
    next r.addr = headAddr l₂ e ∧ prev r.addr = lastAddr p l₁ := by
  have h₂ := (append_iff.mp h).2
  exact ⟨h₂.1, h₂.2.1⟩

/-- **Regions replaced by others** with the same first header: the new ones
link to what follows, and the region after them, if there is one, links back to
the last. -/
theorem replace {m n : List HeapRegion} (h : Seg next prev p (l₁ ++ (m ++ l₂)) e)
    (ha : headAddr n (headAddr l₂ e) = headAddr m (headAddr l₂ e))
    (hnew : Seg next' prev' (lastAddr p l₁) n (headAddr l₂ e))
    (hn₁ : ∀ z ∈ l₁, next' z.addr = next z.addr ∧ prev' z.addr = prev z.addr)
    (hn₂ : ∀ z ∈ l₂, next' z.addr = next z.addr)
    (hhead : l₂ ≠ [] → prev' (headAddr l₂ e) = lastAddr (lastAddr p l₁) n)
    (hp₂ : ∀ z ∈ l₂.tail, prev' z.addr = prev z.addr) :
    Seg next' prev' p (l₁ ++ (n ++ l₂)) e := by
  rw [append_iff, append_iff, headAddr_append] at h ⊢
  obtain ⟨h₁, -, h₂⟩ := h
  refine ⟨?_, hnew, ?_⟩
  · rw [ha]
    exact h₁.congr (fun z hz => (hn₁ z hz).1) fun z hz => (hn₁ z hz).2
  · cases l₂ with
    | nil => trivial
    | cons z l₂ =>
      refine ⟨?_, hhead (by simp), ?_⟩
      · rw [hn₂ z (by simp)]
        exact h₂.1
      · exact h₂.2.2.congr (fun w hw => hn₂ w (by simp [hw])) fun w hw => hp₂ w hw

end Seg

end ShmDos64
