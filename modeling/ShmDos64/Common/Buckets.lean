import Mathlib.Tactic
import Mathlib.Data.List.Nodup
/-!
# Tables of doubly linked lists

A table maps an index to the head of a list threaded through the nodes'
`next` links and ended by the null link; a node's `prev` link is right for
every node but the head of its list, whose `prev` is left as it was. The
two operations are a push at the head and the removal of a node, and each
is stated by what it does to the links, so that a program that keeps the
links in fields of a record can be read against it.
-/

namespace ShmDos64

open Function (update update_of_ne update_self)

variable {P : Type*}

/-- Each node but the first is linked back to the one before it. -/
def BackLinks (prev : P → P) (l : List P) : Prop :=
  l.IsChain fun x y => prev y = x

namespace BackLinks

variable {prev prev' : P → P} {x y : P} {l l₁ l₂ : List P}

/-- Back links read only the links of the nodes past the first. -/
theorem congr (hl : BackLinks prev l) (heq : ∀ y ∈ l.tail, prev' y = prev y) :
    BackLinks prev' l := by
  induction l with
  | nil => exact .nil
  | cons x xs ih =>
    cases xs with
    | nil => exact .singleton x
    | cons y ys =>
      obtain ⟨hxy, hys⟩ := List.isChain_cons_cons.mp hl
      refine List.isChain_cons_cons.mpr ⟨?_, ih hys fun z hz => heq z (List.mem_cons_of_mem y hz)⟩
      rw [heq y (by simp)]
      exact hxy

theorem tail (hl : BackLinks prev (x :: l)) : BackLinks prev l :=
  List.IsChain.tail hl

/-- The node before `y` in the list is the one its back link names. -/
theorem prev_eq_of_append (hl : BackLinks prev (l₁ ++ x :: y :: l₂)) : prev y = x :=
  (List.isChain_cons_cons.mp (List.isChain_append.mp hl).2.1).1

end BackLinks

/-- The nodes the `next` links visit from `h` to the end mark `e`. -/
def Links (next : P → P) (e : P) : P → List P → Prop
  | h, [] => h = e
  | h, x :: xs => h = x ∧ x ≠ e ∧ Links next e (next x) xs

namespace Links

variable {next next' : P → P} {e h x : P} {l l₁ l₂ : List P}

@[simp] theorem nil_iff : Links next e h [] ↔ h = e := Iff.rfl

theorem ne_end (hl : Links next e h l) : ∀ y ∈ l, y ≠ e := by
  induction l generalizing h with
  | nil => intro y hy; cases hy
  | cons x xs ih =>
    intro y hy
    rcases List.mem_cons.mp hy with rfl | hy
    · exact hl.2.1
    · exact ih hl.2.2 y hy

/-- The links of a list read only the links of its nodes. -/
theorem congr (hl : Links next e h l) (heq : ∀ y ∈ l, next' y = next y) : Links next' e h l := by
  induction l generalizing h with
  | nil => exact hl
  | cons x xs ih =>
    refine ⟨hl.1, hl.2.1, ?_⟩
    rw [heq x (by simp)]
    exact ih hl.2.2 fun y hy => heq y (by simp [hy])

/-- The end mark as head is the empty list, and only it. -/
theorem head_eq_end_iff (hl : Links next e h l) : h = e ↔ l = [] := by
  cases l with
  | nil => simpa using hl
  | cons x xs => simp [hl.1, hl.2.1]

/-- Where the links of a list start is known from the list. -/
theorem head_unique {h' : P} (hl : Links next e h l) (hl' : Links next' e h' l) : h = h' := by
  cases l with
  | nil => exact hl.trans hl'.symm
  | cons x xs => exact hl.1.trans hl'.1.symm

/-- A node is as many links from the head as there are nodes before it. -/
theorem iterate_eq (hl : Links next e h (l₁ ++ x :: l₂)) : next^[l₁.length] h = x := by
  induction l₁ generalizing h with
  | nil => exact hl.1
  | cons y ys ih =>
    rw [List.length_cons, Function.iterate_succ_apply, hl.1]
    exact ih hl.2.2

/-- Past a prefix of the list, the links spell the rest of it. -/
theorem tail_of_append (hl : Links next e h (l₁ ++ x :: l₂)) : Links next e (next x) l₂ := by
  induction l₁ generalizing h with
  | nil => exact hl.2.2
  | cons y ys ih => exact ih hl.2.2

/-- The links lead along a prefix of the list to the node after it. -/
theorem upto (hl : Links next e h (l₁ ++ x :: l₂)) (hx : x ∉ l₁) : Links next x h l₁ := by
  induction l₁ generalizing h with
  | nil => exact hl.1
  | cons y ys ih =>
    rw [List.mem_cons, not_or] at hx
    exact ⟨hl.1, Ne.symm hx.1, ih hl.2.2 hx.2⟩

/-- A node links to a node of the list, or to the end mark. -/
theorem next_mem (hl : Links next e h l) (hx : x ∈ l) : next x = e ∨ next x ∈ l := by
  obtain ⟨l₁, l₂, rfl⟩ := List.append_of_mem hx
  have htail := tail_of_append hl
  cases l₂ with
  | nil => exact Or.inl htail
  | cons y l₂ =>
    rw [htail.1]
    exact Or.inr (by simp)

/-- Replacing the end of the list past `x` by what the new link of `x`
spells. -/
theorem splice (hl : Links next e h (l₁ ++ x :: l₂)) {l : List P} (hx : Links next' e (next' x) l)
    (heq : ∀ y ∈ l₁, next' y = next y) : Links next' e h (l₁ ++ x :: l) := by
  induction l₁ generalizing h with
  | nil => exact ⟨hl.1, hl.2.1, hx⟩
  | cons y ys ih =>
    refine ⟨hl.1, hl.2.1, ?_⟩
    rw [heq y (by simp)]
    exact ih hl.2.2 fun z hz => heq z (by simp [hz])

end Links

/-- The nodes `a`, …, `a + n` of an array, each linked to the one after it
and the last to null. -/
def linkRange (next : ℕ → ℕ) (a : ℕ) : ℕ → ℕ → ℕ
  | 0 => update next a 0
  | n + 1 => linkRange (update next a (a + 1)) (a + 1) n

theorem linkRange_of_lt_or_lt {next : ℕ → ℕ} {a b n : ℕ} (hb : b < a ∨ a + n < b) :
    linkRange next a n b = next b := by
  induction n generalizing next a with
  | zero => exact update_of_ne (by omega) ..
  | succ n ih => rw [linkRange, ih (by omega), update_of_ne (by omega)]

theorem links_linkRange {next : ℕ → ℕ} {a n : ℕ} (ha : a ≠ 0) :
    Links (linkRange next a n) 0 a (List.range' a (n + 1)) := by
  induction n generalizing next a with
  | zero => exact ⟨rfl, ha, update_self ..⟩
  | succ n ih =>
    rw [List.range'_succ]
    have hnext : linkRange next a (n + 1) a = a + 1 := by
      rw [linkRange, linkRange_of_lt_or_lt (by omega), update_self]
    refine ⟨rfl, ha, ?_⟩
    rw [hnext]
    exact ih (by omega)

variable [Zero P]

/-- **A table of lists**: each index heads its own list, the lists share
no node. -/
structure Buckets {ι : Type*} (next prev : P → P) (table : ι → P) (B : ι → List P) : Prop where
  links : ∀ i, Links next 0 (table i) (B i)
  back : ∀ i, BackLinks prev (B i)
  nodup : ∀ i, (B i).Nodup
  disjoint : ∀ i j x, x ∈ B i → x ∈ B j → i = j

namespace Buckets

variable {ι : Type*} {next next' prev prev' : P → P} {table : ι → P}
variable {B : ι → List P} {i : ι} {x : P}

/-- A table reads only the links of its nodes. -/
theorem congr (h : Buckets next prev table B) (hn : ∀ j, ∀ y ∈ B j, next' y = next y)
    (hp : ∀ j, ∀ y ∈ B j, prev' y = prev y) : Buckets next' prev' table B where
  links j := (h.links j).congr (hn j)
  back j := (h.back j).congr fun y hy => hp j y (List.mem_of_mem_tail hy)
  nodup := h.nodup
  disjoint := h.disjoint

/-- A node that is not the head of its list has one before it. -/
theorem exists_append (h : Buckets next prev table B) (hx : x ∈ B i) (hhd : table i ≠ x) :
    ∃ l₁ p l₂, B i = l₁ ++ p :: x :: l₂ := by
  obtain ⟨l₁, l₂, hB⟩ := List.append_of_mem hx
  rcases List.eq_nil_or_concat l₁ with rfl | ⟨l₀, p, rfl⟩
  · have hl := h.links i
    rw [hB] at hl
    exact absurd hl.1 hhd
  · exact ⟨l₀, p, l₂, by simp [hB]⟩

/-- That one is in the list, and is another node. -/
theorem prev_mem (h : Buckets next prev table B) (hx : x ∈ B i) (hhd : table i ≠ x) :
    prev x ∈ B i ∧ prev x ≠ x := by
  obtain ⟨l₁, p, l₂, hB⟩ := h.exists_append hx hhd
  have hb := h.back i
  have hnd := h.nodup i
  rw [hB] at hb hnd
  rw [hb.prev_eq_of_append, hB]
  refine ⟨by simp, ?_⟩
  rintro rfl
  exact (List.nodup_cons.mp (List.nodup_append.mp hnd).2.1).1 (by simp)

variable [DecidableEq ι]

/-- **A push at the head of list `i`**: the new node links to the old
head, the old head links back to it, every other link stays. -/
theorem push (h : Buckets next prev table B) (hx0 : x ≠ 0) (hx : ∀ j, x ∉ B j)
    (hn : next' x = table i) (hn' : ∀ y, y ≠ x → next' y = next y)
    (hp : table i ≠ 0 → prev' (table i) = x) (hp' : ∀ y, y ≠ x → y ≠ table i → prev' y = prev y) :
    Buckets next' prev' (update table i x) (update B i (x :: B i)) where
  links j := by
    have hold : Links next' 0 (table j) (B j) :=
      (h.links j).congr fun y hy => hn' y fun hyx => hx j (hyx ▸ hy)
    rcases eq_or_ne j i with rfl | hj
    · simp only [update_self]
      exact ⟨rfl, hx0, by rw [hn]; exact hold⟩
    · simpa only [update_of_ne hj] using hold
  back j := by
    have hne : ∀ j, ∀ y ∈ B j, y ≠ x := fun j y hy hyx => hx j (hyx ▸ hy)
    rcases eq_or_ne j i with rfl | hj
    · simp only [update_self]
      have hl := h.links j
      have hb := h.back j
      have hnd := h.nodup j
      cases hB : B j with
      | nil => exact .singleton x
      | cons y ys =>
        rw [hB] at hl hb hnd
        refine List.isChain_cons_cons.mpr ⟨?_, hb.congr fun z hz => ?_⟩
        · have := hp (by rw [hl.1]; exact hl.2.1)
          rwa [hl.1] at this
        · refine hp' z (hne j z (by rw [hB]; exact List.mem_of_mem_tail hz)) fun hzy => ?_
          rw [hl.1] at hzy
          exact (List.nodup_cons.mp hnd).1 (hzy ▸ hz)
    · simp only [update_of_ne hj]
      refine (h.back j).congr fun z hz => ?_
      have hzj := List.mem_of_mem_tail hz
      refine hp' z (hne j z hzj) fun hzt => ?_
      -- a head of list `i` is no node of list `j`
      have hl := h.links i
      cases hB : B i with
      | nil =>
        rw [hB] at hl
        exact (h.links j).ne_end z hzj (hzt.trans hl)
      | cons y ys =>
        rw [hB] at hl
        have hzi : z ∈ B i := by rw [hB, hzt, hl.1]; simp
        exact hj (h.disjoint j i z hzj hzi)
  nodup j := by
    rcases eq_or_ne j i with rfl | hj
    · simp only [update_self]
      exact List.nodup_cons.mpr ⟨hx j, h.nodup j⟩
    · simpa only [update_of_ne hj] using h.nodup j
  disjoint j k y hy hy' := by
    by_cases hyx : y = x
    · subst hyx
      have hnot : ∀ j, y ∈ update B i (y :: B i) j → j = i := by
        intro j hj
        by_contra hji
        rw [update_of_ne hji] at hj
        exact hx j hj
      rw [hnot j hy, hnot k hy']
    · have hin : ∀ j, y ∈ update B i (x :: B i) j → y ∈ B j := by
        intro j hj
        rcases eq_or_ne j i with rfl | hji
        · simpa [hyx] using hj
        · rwa [update_of_ne hji] at hj
      exact h.disjoint j k y (hin j hy) (hin k hy')

section Unlink

variable [DecidableEq P]

/-- Lists that lose a node stay duplicate free and disjoint. -/
theorem nodup_erase (h : Buckets next prev table B) (j : ι) :
    (update B i ((B i).erase x) j).Nodup := by
  rcases eq_or_ne j i with rfl | hj
  · simpa only [update_self] using (h.nodup j).erase x
  · simpa only [update_of_ne hj] using h.nodup j

omit [Zero P] in
theorem mem_of_mem_erase {j : ι} {y : P} (hy : y ∈ update B i ((B i).erase x) j) : y ∈ B j := by
  rcases eq_or_ne j i with rfl | hj
  · rw [update_self] at hy
    exact List.mem_of_mem_erase hy
  · rwa [update_of_ne hj] at hy

/-- **Removing the head of list `i`**: its link becomes the head. -/
theorem unlink_head (h : Buckets next prev table B) (hx : x ∈ B i) (hhd : table i = x)
    (hn : ∀ y, y ≠ x → next' y = next y) (hp : ∀ y, y ≠ x → prev' y = prev y) :
    Buckets next' prev' (update table i (next x))
      (update B i ((B i).erase x)) where
  links j := by
    rcases eq_or_ne j i with rfl | hj
    · simp only [update_self]
      have hl := h.links j
      have hnd := h.nodup j
      cases hB : B j with
      | nil => rw [hB] at hx; cases hx
      | cons y ys =>
        rw [hB] at hl hnd
        obtain rfl : y = x := hl.1.symm.trans hhd
        rw [List.erase_cons_head]
        exact hl.2.2.congr fun z hz => hn z fun hzy => (List.nodup_cons.mp hnd).1 (hzy ▸ hz)
    · simp only [update_of_ne hj]
      exact (h.links j).congr fun z hz => hn z fun hzx => hj (h.disjoint j i z hz (hzx ▸ hx))
  back j := by
    rcases eq_or_ne j i with rfl | hj
    · simp only [update_self]
      have hl := h.links j
      have hb := h.back j
      have hnd := h.nodup j
      cases hB : B j with
      | nil => rw [hB] at hx; cases hx
      | cons y ys =>
        rw [hB] at hl hb hnd
        obtain rfl : y = x := hl.1.symm.trans hhd
        rw [List.erase_cons_head]
        exact hb.tail.congr fun z hz => hp z fun hzy =>
          (List.nodup_cons.mp hnd).1 (hzy ▸ List.mem_of_mem_tail hz)
    · simp only [update_of_ne hj]
      exact (h.back j).congr fun z hz => hp z fun hzx =>
        hj (h.disjoint j i z (List.mem_of_mem_tail hz) (hzx ▸ hx))
  nodup := h.nodup_erase
  disjoint j k y hy hy' := h.disjoint j k y (mem_of_mem_erase hy) (mem_of_mem_erase hy')

/-- **Removing a node that is not the head**: the node before it links
past it, and the node after it, if there is one, links back past it. -/
theorem unlink_inner (h : Buckets next prev table B) (hx : x ∈ B i) (hhd : table i ≠ x)
    (hn : next' (prev x) = next x) (hn' : ∀ y, y ≠ x → y ≠ prev x → next' y = next y)
    (hp : next x ≠ 0 → prev' (next x) = prev x) (hp' : ∀ y, y ≠ x → y ≠ next x → prev' y = prev y) :
    Buckets next' prev' table (update B i ((B i).erase x)) := by
  obtain ⟨l₁, p, l₂, hB⟩ := h.exists_append hx hhd
  have hl := h.links i
  have hb := h.back i
  have hnd := h.nodup i
  rw [hB] at hl hb hnd
  have hpx : prev x = p := hb.prev_eq_of_append
  have hnx : Links next 0 (next x) l₂ := by
    have : Links next 0 (table i) ((l₁ ++ [p]) ++ x :: l₂) := by simpa using hl
    exact this.tail_of_append
  have hperm : (l₁ ++ p :: x :: l₂).Perm (x :: (l₁ ++ p :: l₂)) := by
    have hmid : ((l₁ ++ [p]) ++ x :: l₂).Perm (x :: ((l₁ ++ [p]) ++ l₂)) := List.perm_middle
    simpa using hmid
  obtain ⟨hxnot, hnd'⟩ := List.nodup_cons.mp (hperm.nodup_iff.mp hnd)
  have herase : (B i).erase x = l₁ ++ p :: l₂ := by
    have hxl : x ∉ l₁ ++ [p] := fun hm => hxnot (by
      rcases List.mem_append.mp hm with hm | hm
      · simp [hm]
      · simp only [List.mem_singleton] at hm; simp [hm])
    have := List.erase_append_right (x :: l₂) hxl
    rw [hB]
    simpa using this
  -- `next x` is the head of `l₂`, or null
  have hnext : ∀ z ∈ l₁ ++ [p], z ≠ next x := by
    intro z hz hzx
    cases hl₂ : l₂ with
    | nil =>
      rw [hl₂] at hnx
      refine hl.ne_end z ?_ (hzx.trans hnx)
      rcases List.mem_append.mp hz with hz | hz
      · simp [hz]
      · simp [List.mem_singleton.mp hz]
    | cons y ys =>
      rw [hl₂] at hnx hnd'
      have hnd₃ : ((l₁ ++ [p]) ++ y :: ys).Nodup := by simpa using hnd'
      exact (List.nodup_append.mp hnd₃).2.2 z hz y (by simp) (hzx.trans hnx.1)
  have hne : ∀ z ∈ l₁ ++ p :: l₂, z ≠ x := fun z hz hzx => hxnot (hzx ▸ hz)
  have hp₂ : p ∉ l₂ := fun hm =>
    (List.nodup_cons.mp (List.nodup_append.mp hnd').2.1).1 hm
  have hp₁ : p ∉ l₁ := fun hm => (List.nodup_append.mp hnd').2.2 p hm p (by simp) rfl
  refine ⟨fun j => ?_, fun j => ?_, h.nodup_erase, fun j k y hy hy' =>
    h.disjoint j k y (mem_of_mem_erase hy) (mem_of_mem_erase hy')⟩
  · rcases eq_or_ne j i with rfl | hj
    · rw [update_self, herase]
      refine hl.splice ?_ fun y hy => ?_
      · rw [← hpx, hn]
        refine hnx.congr fun y hy => hn' y (hne y (by simp [hy])) ?_
        rintro rfl
        exact hp₂ (hpx ▸ hy)
      · refine hn' y (hne y (by simp [hy])) ?_
        rintro rfl
        exact hp₁ (hpx ▸ hy)
    · rw [update_of_ne hj]
      refine (h.links j).congr fun z hz => hn' z ?_ ?_
      · exact fun hzx => hj (h.disjoint j i z hz (hzx ▸ hx))
      · exact fun hzp => hj (h.disjoint j i z hz (by rw [hB, hzp, hpx]; simp))
  · rcases eq_or_ne j i with rfl | hj
    · rw [update_self, herase]
      refine List.isChain_split.mpr ⟨?_, ?_⟩
      · refine BackLinks.congr (List.isChain_split.mp hb).1 fun z hz => ?_
        have hz' := List.mem_of_mem_tail hz
        refine hp' z (hne z ?_) (hnext z hz')
        rcases List.mem_append.mp hz' with hz' | hz'
        · simp [hz']
        · simp [List.mem_singleton.mp hz']
      · have hb₂ : BackLinks prev (x :: l₂) :=
          BackLinks.tail (List.isChain_split.mp hb).2
        cases hl₂ : l₂ with
        | nil => exact .singleton p
        | cons y ys =>
          rw [hl₂] at hnx hb₂ hnd' hne
          refine List.isChain_cons_cons.mpr ⟨?_, hb₂.tail.congr fun z hz => ?_⟩
          · rw [← hpx, ← hnx.1]
            exact hp (by rw [hnx.1]; exact hnx.2.1)
          · refine hp' z (hne z (by simp [List.mem_of_mem_tail hz])) ?_
            rw [hnx.1]
            rintro rfl
            exact (List.nodup_cons.mp (List.nodup_cons.mp
              (List.nodup_append.mp hnd').2.1).2).1 hz
    · rw [update_of_ne hj]
      refine (h.back j).congr fun z hz => ?_
      have hzj := List.mem_of_mem_tail hz
      refine hp' z (fun hzx => hj (h.disjoint j i z hzj (hzx ▸ hx))) fun hzn => ?_
      cases hl₂ : l₂ with
      | nil =>
        rw [hl₂] at hnx
        exact (h.links j).ne_end z hzj (hzn.trans hnx)
      | cons y ys =>
        rw [hl₂] at hnx hB
        exact hj (h.disjoint j i z hzj (by rw [hB, hzn, hnx.1]; simp))

end Unlink

end Buckets

end ShmDos64
