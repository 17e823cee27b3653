import ShmDos64.VirtualMemory.Model
/-!
# The address space an allocator keeps

What the page allocator is for, with no links and no tags: the regions
handed out, the free regions, most recently freed first, and the list
items not in use. A bucket is the free regions of one size class, in that
order. The choice of a region is the one `allocPages` makes, so that the
allocator's state and the space can be followed side by side; the space's
own invariant is that its regions tile the pages and no two free regions
touch.
-/

namespace ShmDos64

/-- A free region, and the list item that stands for it. -/
structure FreeRegion where
  item : ℕ
  base : ℕ
  size : ℕ
  deriving DecidableEq, Repr

/-- The pages of a free region. -/
def FreeRegion.span (f : FreeRegion) : Span := ⟨f.base, f.size⟩

/-- The address space. -/
structure Space where
  live : List Span
  /-- The free regions, most recently freed first. -/
  free : List FreeRegion
  /-- The items given back, last one first. -/
  pool : List ℕ
  /-- The next item never used. -/
  fresh : ℕ
  deriving DecidableEq, Repr

namespace Space

section

variable (A : Space) (r : Span)

/-- The free regions of one size class. -/
def bucket (i : ℕ) : List FreeRegion :=
  A.free.filter fun f => cpuLastOneBitIndex f.size = i

/-- A region becomes free. -/
def add (base size : ℕ) : Space :=
  match A.pool with
  | [] => { A with free := ⟨A.fresh, base, size⟩ :: A.free, fresh := A.fresh + vmmItemSize }
  | item :: pool => { A with free := ⟨item, base, size⟩ :: A.free, pool := pool }

/-- A region stops being free. -/
def remove (f : FreeRegion) : Space :=
  { A with free := A.free.erase f, pool := f.item :: A.pool }

/-- A region is handed out. -/
def give : Space := { A with live := r :: A.live }

/-- What a bounded scan ends with. -/
inductive Fit where
  | exact (f : FreeRegion)
  | best (f : FreeRegion)
  | none

/-- The scan for the exact size or the least remainder, with the best
region so far and its remainder. -/
def scan (n : ℕ) : List FreeRegion → Option FreeRegion → ℕ → Fit
  | [], some f, _ => .best f
  | [], none, _ => .none
  | f :: l, m, d =>
    if n ≤ f.size then
      if f.size - n = 0 then .exact f
      else if f.size - n < d then scan n l (some f) (f.size - n)
      else scan n l m d
    else scan n l m d

/-- The first region of the first bucket, from `idx` on, that has one. -/
def larger (A : Space) : ℕ → ℕ → Option FreeRegion
  | 0, _ => none
  | k + 1, idx =>
    match A.bucket idx with
    | [] => larger A k (idx + 1)
    | f :: _ => some f

/-- The region an allocation takes, and how. -/
inductive Choice where
  | whole (f : FreeRegion)
  | split (f : FreeRegion)
  | rest (f : FreeRegion)
  | fail
  deriving DecidableEq, Repr

/-- The choice of `allocPages`: an exact fit or the best fit among the
first regions of the size class, the first region of a larger class, the
first region past the scanned ones that is large enough. -/
def choose (tableSize n : ℕ) : Choice :=
  let i := cpuLastOneBitIndex n
  match scan n ((A.bucket i).take maxAllocIterations) none sizeMax with
  | .exact f => .whole f
  | .best f => .split f
  | .none =>
    match A.larger (tableSize - (i + 1)) (i + 1) with
    | some f => .split f
    | none =>
      match ((A.bucket i).drop maxAllocIterations).find? fun f => n ≤ f.size with
      | some f => .rest f
      | none => .fail

/-- An allocation. A region taken whole is of the size asked for, unless
the last exit took it. -/
def alloc (tableSize n : ℕ) : Option ℕ × Space :=
  match A.choose tableSize n with
  | .whole f => (some f.base, (A.remove f).give ⟨f.base, n⟩)
  | .split f => (some f.base, ((A.remove f).add (f.base + n) (f.size - n)).give ⟨f.base, n⟩)
  | .rest f => (some f.base, (A.remove f).give ⟨f.base, n⟩)
  | .fail => (none, A)

/-- The free region that ends where `base` starts. -/
def before (base : ℕ) : Option FreeRegion :=
  A.free.find? fun f => f.base + f.size = base

/-- The free region that starts at `base`. -/
def after (base : ℕ) : Option FreeRegion :=
  A.free.find? fun f => f.base = base

/-- Pages in no region are joined with the free region before them. -/
def joinBefore : Space × Span :=
  match A.before r.base with
  | some f => (A.remove f, ⟨f.base, r.size + f.size⟩)
  | none => (A, r)

/-- And with the one after them. -/
def joinAfter : Space × Span :=
  match A.after (r.base + r.size) with
  | some f => (A.remove f, ⟨r.base, r.size + f.size⟩)
  | none => (A, r)

/-- A region is taken back, its pages in no region yet. -/
def drop : Space := { A with live := A.live.erase r }

/-- A region given back is joined with the free regions it touches. -/
def release : Space :=
  let x := (A.drop r).joinBefore r
  let y := x.1.joinAfter x.2
  y.1.add y.2.base y.2.size

/-- Freeing a page: the pages given back, none when no region starts
there. -/
def freeAt (base : ℕ) : ℕ × Space :=
  match A.live.find? fun r => r.base = base with
  | none => (0, A)
  | some r => (r.size, A.release r)

/-- The regions of the space. -/
def spans : List Span := A.live ++ A.free.map FreeRegion.span

/-- No region starts or ends at the page. -/
def NoEnd (p : ℕ) : Prop :=
  ∀ r ∈ A.spans, p ≠ r.base ∧ p ≠ r.base + r.size - 1

/-- The items of the space. -/
def items : List ℕ := A.free.map FreeRegion.item ++ A.pool

end

/-- The items are distinct, aligned and not null, and so is the next one. -/
structure ItemsOk (A : Space) : Prop where
  nodup : A.items.Nodup
  lt : ∀ a ∈ A.items, a < A.fresh
  ok : ∀ a ∈ A.items, a ≠ 0 ∧ a % 4 = 0
  fresh_ok : A.fresh ≠ 0 ∧ A.fresh % 4 = 0

/-- **The invariant of the space**: its regions tile the pages, and no
two free regions touch. -/
structure Inv (A : Space) (V : ℕ) : Prop where
  tiles : Tiles V A.spans
  apart : ∀ f ∈ A.free, ∀ g ∈ A.free, f.base + f.size ≠ g.base
  items : A.ItemsOk

variable {A : Space} {V b : ℕ} {f g : FreeRegion}

theorem mem_bucket {i : ℕ} : f ∈ A.bucket i ↔ f ∈ A.free ∧ cpuLastOneBitIndex f.size = i := by
  simp [bucket]

theorem span_mem (h : f ∈ A.free) : f.span ∈ A.spans := by
  simp only [spans, List.mem_append, List.mem_map]
  exact Or.inr ⟨f, h, rfl⟩

theorem live_mem {r : Span} (h : r ∈ A.live) : r ∈ A.spans := by
  simp [spans, h]

theorem item_mem (h : f ∈ A.free) : f.item ∈ A.items := by
  simp only [items, List.mem_append, List.mem_map]
  exact Or.inl ⟨f, h, rfl⟩

/-! ## Removing and adding a free region -/

@[simp] theorem remove_live : (A.remove f).live = A.live := rfl

@[simp] theorem remove_free : (A.remove f).free = A.free.erase f := rfl

@[simp] theorem add_live {b n : ℕ} : (A.add b n).live = A.live := by
  unfold add; split <;> rfl

/-- The item the new region gets. -/
def nextItem (A : Space) : ℕ := A.pool.headD A.fresh

theorem add_free {b n : ℕ} : (A.add b n).free = ⟨A.nextItem, b, n⟩ :: A.free := by
  unfold add nextItem
  split <;> rename_i h <;> simp [h]

theorem spans_perm_remove (hf : f ∈ A.free) : A.spans.Perm (f.span :: (A.remove f).spans) := by
  refine List.Perm.trans ?_ List.perm_middle
  exact List.Perm.append_left _ ((List.perm_cons_erase hf).map _)

theorem spans_perm_add {b n : ℕ} : (A.add b n).spans.Perm (⟨b, n⟩ :: A.spans) := by
  simp only [spans, add_live, add_free, List.map_cons]
  exact List.perm_middle

theorem items_perm_remove (hf : f ∈ A.free) : A.items.Perm (A.remove f).items := by
  refine List.Perm.trans ?_ List.perm_middle.symm
  exact List.Perm.append_right _ ((List.perm_cons_erase hf).map FreeRegion.item)

namespace ItemsOk

theorem remove (h : A.ItemsOk) (hf : f ∈ A.free) : (A.remove f).ItemsOk where
  nodup := (items_perm_remove hf).nodup_iff.mp h.nodup
  lt a ha := h.lt a ((items_perm_remove hf).mem_iff.mpr ha)
  ok a ha := h.ok a ((items_perm_remove hf).mem_iff.mpr ha)
  fresh_ok := h.fresh_ok

theorem add {b n : ℕ} (h : A.ItemsOk) : (A.add b n).ItemsOk := by
  unfold Space.add
  split
  · rename_i hp
    have hnot : A.fresh ∉ A.items := fun hm => absurd (h.lt _ hm) (lt_irrefl _)
    have hmem : ∀ a, a ∈ (⟨A.fresh, b, n⟩ :: A.free).map FreeRegion.item ++ A.pool →
        a = A.fresh ∨ a ∈ A.items := by
      intro a ha
      simpa [items] using ha
    refine ⟨List.nodup_cons.mpr ⟨hnot, h.nodup⟩, fun a ha => ?_, fun a ha => ?_, ?_⟩
    · rcases hmem a ha with rfl | ha
      · exact Nat.lt_add_of_pos_right (by norm_num)
      · exact Nat.lt_add_right _ (h.lt a ha)
    · rcases hmem a ha with rfl | ha
      · exact h.fresh_ok
      · exact h.ok a ha
    · have := h.fresh_ok
      simp only [vmmItemSize]
      omega
  · rename_i item pool hp
    have hperm : A.items.Perm ((⟨item, b, n⟩ :: A.free).map FreeRegion.item ++ pool) := by
      simp only [items, hp, List.map_cons]
      exact List.perm_middle
    exact ⟨hperm.nodup_iff.mp h.nodup, fun a ha => h.lt a (hperm.mem_iff.mpr ha),
      fun a ha => h.ok a (hperm.mem_iff.mpr ha), h.fresh_ok⟩

/-- The regions handed out have no items. -/
theorem setLive (h : A.ItemsOk) (l : List Span) : ({ A with live := l } : Space).ItemsOk :=
  ⟨h.nodup, h.lt, h.ok, h.fresh_ok⟩

theorem nextItem_ok (h : A.ItemsOk) : A.nextItem ≠ 0 ∧ A.nextItem % 4 = 0 := by
  unfold nextItem
  cases hp : A.pool with
  | nil => exact h.fresh_ok
  | cons a l => exact h.ok a (by simp [items, hp])

end ItemsOk

namespace Inv

section

variable (h : A.Inv V)

include h

theorem free_pos (hf : f ∈ A.free) : 0 < f.size :=
  h.tiles.pos f.span (span_mem hf)

theorem free_le (hf : f ∈ A.free) : f.base + f.size ≤ V :=
  h.tiles.end_le (span_mem hf)

theorem items_nodup : (A.free.map FreeRegion.item).Nodup :=
  (List.nodup_append.mp h.items.nodup).1

theorem free_nodup : A.free.Nodup :=
  List.Nodup.of_map _ h.items_nodup

/-- A free region is known by its first page. -/
theorem eq_of_base (hf : f ∈ A.free) (hg : g ∈ A.free) (he : f.base = g.base) :
    f = g := by
  have hs := h.tiles.eq_of_base (span_mem hf) (span_mem hg) he
  have hcount : ((A.free.map FreeRegion.span)).Nodup :=
    (List.nodup_append.mp h.tiles.nodup).2.1
  exact List.inj_on_of_nodup_map hcount hf hg hs

/-- No region is both free and handed out. -/
theorem live_ne_free {r : Span} (hr : r ∈ A.live) (hf : f ∈ A.free) : r ≠ f.span := by
  have := (List.nodup_append.mp h.tiles.nodup).2.2
  exact this r hr f.span (List.mem_map.mpr ⟨f, hf, rfl⟩)

/-- A free region that leaves shares no page with the others. -/
theorem ne_of_mem_erase (hg : g ∈ A.free.erase f) : g ≠ f :=
  (h.free_nodup.mem_erase_iff.mp hg).1

/-- **Taking a whole free region** keeps the invariant. -/
theorem whole (hf : f ∈ A.free) : ((A.remove f).give ⟨f.base, f.size⟩).Inv V where
  tiles := h.tiles.perm (spans_perm_remove hf)
  apart g hg g' hg' := h.apart g (List.mem_of_mem_erase hg) g' (List.mem_of_mem_erase hg')
  items := (h.items.remove hf).setLive _

/-- **Splitting a free region** keeps it. -/
theorem split (hf : f ∈ A.free) {n : ℕ} (hn : 0 < n) (hlt : n < f.size) :
    (((A.remove f).add (f.base + n) (f.size - n)).give ⟨f.base, n⟩).Inv V where
  tiles := by
    have ht := h.tiles.perm (spans_perm_remove hf)
    rw [show f.span = ⟨f.base, n + (f.size - n)⟩ by simp [FreeRegion.span]; omega] at ht
    refine (ht.cut hn (by omega)).perm (List.Perm.cons _ ?_)
    exact spans_perm_add.symm
  apart g hg g' hg' := by
    simp only [give, add_free, remove_free, List.mem_cons] at hg hg'
    rcases hg with rfl | hg
    · -- the rest of the region ends where the region did
      rcases hg' with rfl | hg'
      · simp only; omega
      · have := h.apart f hf g' (List.mem_of_mem_erase hg')
        simp only; omega
    · rcases hg' with rfl | hg'
      · intro he
        -- no other free region holds the page before the cut
        have hgf := List.mem_of_mem_erase hg
        have hpos := h.free_pos hgf
        refine h.ne_of_mem_erase hg ?_
        refine h.eq_of_base hgf hf (congrArg Span.base (h.tiles.eq_of_holds (span_mem hgf)
          (span_mem hf) (p := f.base + n - 1) ?_ ?_))
        · exact ⟨by simp only [FreeRegion.span] at *; omega,
            by simp only [FreeRegion.span] at *; omega⟩
        · exact ⟨by simp only [FreeRegion.span]; omega, by simp only [FreeRegion.span]; omega⟩
      · exact h.apart g (List.mem_of_mem_erase hg) g' (List.mem_of_mem_erase hg')
  items := (h.items.remove hf).add.setLive _

end

end Inv

/-! ## Giving a region back

Between the moment a region stops being live and the moment the joined
region is added, its pages are in no list: they are a loose span beside
the regions of the space. -/

/-- A space whose regions tile the pages together with one loose span. -/
structure Loose (A : Space) (V : ℕ) (r : Span) : Prop where
  tiles : Tiles V (r :: A.spans)
  apart : ∀ f ∈ A.free, ∀ g ∈ A.free, f.base + f.size ≠ g.base
  items : A.ItemsOk

/-- A live region taken out is loose. -/
theorem Inv.loose (h : A.Inv V) {r : Span} (hr : r ∈ A.live) : (A.drop r).Loose V r where
  tiles := h.tiles.perm ((List.perm_cons_erase hr).append_right _)
  apart := h.apart
  items := h.items.setLive _

/-- So is a free one. -/
theorem Inv.loose_remove (h : A.Inv V) (hf : f ∈ A.free) : (A.remove f).Loose V f.span where
  tiles := h.tiles.perm (spans_perm_remove hf)
  apart g hg g' hg' := h.apart g (List.mem_of_mem_erase hg) g' (List.mem_of_mem_erase hg')
  items := h.items.remove hf

namespace Loose

variable {n : ℕ}

/-- No region of the space holds a page of the loose span. -/
theorem not_holds {r r' : Span} {p : ℕ} (h : A.Loose V r) (hp : r.Holds p) (hr' : r' ∈ A.spans) :
    ¬ r'.Holds p := by
  intro hp'
  have hc := h.tiles.cover_eq p
  rw [cover_cons, if_pos hp] at hc
  have := cover_pos_iff.mpr ⟨r', hr', hp'⟩
  split at hc <;> omega

theorem noEnd {r : Span} {p : ℕ} (h : A.Loose V r) (hp : r.Holds p) : A.NoEnd p := by
  intro r' hr'
  have hpos := h.tiles.pos r' (List.mem_cons_of_mem r hr')
  refine ⟨fun he => ?_, fun he => ?_⟩
  · exact h.not_holds hp hr' (he ▸ Span.holds_base hpos)
  · exact h.not_holds hp hr' (he ▸ Span.holds_last hpos)

/-- The free region before the loose span joins it. -/
theorem absorb_before (h : A.Loose V ⟨b, n⟩) (hf : f ∈ A.free) (he : f.base + f.size = b) :
    (A.remove f).Loose V ⟨f.base, n + f.size⟩ where
  tiles := by
    have ht := h.tiles.perm (List.Perm.cons _ (spans_perm_remove hf))
    have ht' := ht.perm (List.Perm.swap _ _ _)
    rw [FreeRegion.span, ← he] at ht'
    simpa [Nat.add_comm] using ht'.join
  apart g hg g' hg' := h.apart g (List.mem_of_mem_erase hg) g' (List.mem_of_mem_erase hg')
  items := h.items.remove hf

/-- The free region after the loose span joins it. -/
theorem absorb_after (h : A.Loose V ⟨b, n⟩) (hf : f ∈ A.free) (he : f.base = b + n) :
    (A.remove f).Loose V ⟨b, n + f.size⟩ where
  tiles := by
    have ht := h.tiles.perm (List.Perm.cons _ (spans_perm_remove hf))
    rw [FreeRegion.span, he] at ht
    exact ht.join
  apart g hg g' hg' := h.apart g (List.mem_of_mem_erase hg) g' (List.mem_of_mem_erase hg')
  items := h.items.remove hf

/-- A loose span no free region touches is added as one. -/
theorem settle (h : A.Loose V ⟨b, n⟩) (hb : ∀ f ∈ A.free, f.base + f.size ≠ b)
    (ha : ∀ f ∈ A.free, f.base ≠ b + n) : (A.add b n).Inv V where
  tiles := h.tiles.perm spans_perm_add.symm
  apart g hg g' hg' := by
    have hn : 0 < n := h.tiles.pos ⟨b, n⟩ (by simp)
    rw [add_free, List.mem_cons] at hg hg'
    rcases hg with rfl | hg
    · rcases hg' with rfl | hg'
      · simp only; omega
      · exact (ha g' hg').symm
    · rcases hg' with rfl | hg'
      · exact hb g hg
      · exact h.apart g hg g' hg'
  items := h.items.add

end Loose

theorem before_some (h : A.before b = some f) : f ∈ A.free ∧ f.base + f.size = b :=
  ⟨List.mem_of_find?_eq_some h, by simpa using List.find?_some h⟩

theorem before_none (h : A.before b = none) : ∀ f ∈ A.free, f.base + f.size ≠ b := by
  simpa [before, List.find?_eq_none] using h

theorem after_some (h : A.after b = some f) : f ∈ A.free ∧ f.base = b :=
  ⟨List.mem_of_find?_eq_some h, by simpa using List.find?_some h⟩

theorem after_none (h : A.after b = none) : ∀ f ∈ A.free, f.base ≠ b := by
  simpa [after, List.find?_eq_none] using h

namespace Loose

variable {r : Span}

/-- Joining with the region before leaves none that ends at the span. -/
theorem joinBefore (h : A.Loose V r) : (A.joinBefore r).1.Loose V (A.joinBefore r).2 ∧
      ∀ f ∈ (A.joinBefore r).1.free, f.base + f.size ≠ (A.joinBefore r).2.base := by
  unfold Space.joinBefore
  cases hb : A.before r.base with
  | none => exact ⟨h, before_none hb⟩
  | some f =>
    obtain ⟨hf, he⟩ := before_some hb
    exact ⟨h.absorb_before hf he, fun g hg => h.apart g (List.mem_of_mem_erase hg) f hf⟩

theorem joinBefore_end : (A.joinBefore r).2.base + (A.joinBefore r).2.size = r.base + r.size := by
  unfold Space.joinBefore
  cases hb : A.before r.base with
  | none => rfl
  | some f =>
    have := (before_some hb).2
    simp only
    omega

theorem joinAfter (h : A.Loose V r) : (A.joinAfter r).1.Loose V (A.joinAfter r).2 := by
  unfold Space.joinAfter
  cases ha : A.after (r.base + r.size) with
  | none => exact h
  | some f =>
    obtain ⟨hf, he⟩ := after_some ha
    exact h.absorb_after hf he

/-- Joining with the region after then leaves none that touches it. -/
theorem joinAfter_settle (h : A.Loose V r) (hb : ∀ f ∈ A.free, f.base + f.size ≠ r.base) :
    ((A.joinAfter r).1.add (A.joinAfter r).2.base (A.joinAfter r).2.size).Inv V := by
  have hl := h.joinAfter
  unfold Space.joinAfter at hl ⊢
  cases ha : A.after (r.base + r.size) with
  | none => exact h.settle hb (after_none ha)
  | some f =>
    rw [ha] at hl
    refine hl.settle (fun g hg => hb g (List.mem_of_mem_erase hg)) fun g hg => ?_
    obtain ⟨hf, he⟩ := after_some ha
    have := h.apart f hf g (List.mem_of_mem_erase hg)
    omega

end Loose

/-- **Giving a region back** keeps the invariant. -/
theorem Inv.release (h : A.Inv V) {r : Span} (hr : r ∈ A.live) : (A.release r).Inv V :=
  have hl := (h.loose hr).joinBefore
  hl.1.joinAfter_settle hl.2

theorem Inv.freeAt (h : A.Inv V) : (A.freeAt b).2.Inv V := by
  unfold Space.freeAt
  cases hr : A.live.find? fun r => r.base = b with
  | none => exact h
  | some r => exact h.release (List.mem_of_find?_eq_some hr)

/-! ## The choice of a region -/

variable {n d i k t : ℕ} {l : List FreeRegion} {m : Option FreeRegion}

theorem scan_exact (h : scan n l m d = .exact f) : f ∈ l ∧ f.size = n := by
  induction l generalizing m d with
  | nil => cases m <;> simp [scan] at h
  | cons g l ih =>
    rw [scan] at h
    split_ifs at h with h1 h2 h3
    · cases h
      exact ⟨by simp, by omega⟩
    all_goals exact ⟨List.mem_cons_of_mem g (ih h).1, (ih h).2⟩

theorem scan_best (h : scan n l m d = .best f) : m = some f ∨ f ∈ l ∧ n < f.size := by
  induction l generalizing m d with
  | nil => cases m <;> simp_all [scan]
  | cons g l ih =>
    rw [scan] at h
    split_ifs at h with h1 h2 h3
    · rcases ih h with hg | hf
      · cases hg
        exact Or.inr ⟨by simp, by omega⟩
      · exact Or.inr ⟨List.mem_cons_of_mem g hf.1, hf.2⟩
    all_goals exact (ih h).imp_right fun hf => ⟨List.mem_cons_of_mem g hf.1, hf.2⟩

theorem scan_some_ne_none : scan n l (some f) d ≠ .none := by
  induction l generalizing f d with
  | nil => simp [scan]
  | cons g l ih =>
    rw [scan]
    split_ifs
    · simp
    all_goals exact ih

/-- A scan that ends with nothing met only smaller regions. -/
theorem scan_none_iff (hd : ∀ f ∈ l, f.size - n < d) :
    scan n l none d = .none ↔ ∀ f ∈ l, f.size < n := by
  induction l with
  | nil => simp [scan]
  | cons g l ih =>
    have hl := ih fun f hf => hd f (List.mem_cons_of_mem g hf)
    rw [scan]
    by_cases hg : n ≤ g.size
    · have hne : ¬ ∀ f ∈ g :: l, f.size < n := fun hall => by
        have := hall g (by simp)
        omega
      rw [if_pos hg, if_pos (hd g (by simp))]
      refine iff_of_false ?_ hne
      split_ifs
      · simp
      · exact scan_some_ne_none
    · rw [if_neg hg, hl]
      simp only [List.mem_cons, forall_eq_or_imp]
      exact ⟨fun hall => ⟨by omega, hall⟩, fun hall => hall.2⟩

theorem larger_eq_none_iff : A.larger k i = none ↔ ∀ j, i ≤ j → j < i + k → A.bucket j = [] := by
  induction k generalizing i with
  | zero =>
    refine iff_of_true rfl fun j hj hj' => ?_
    omega
  | succ k ih =>
    rw [larger]
    cases hb : A.bucket i with
    | nil =>
      simp only [ih]
      refine ⟨fun hall j hj hj' => ?_, fun hall j hj hj' => hall j (by omega) (by omega)⟩
      rcases eq_or_lt_of_le hj with rfl | hlt
      · exact hb
      · exact hall j hlt (by omega)
    | cons f t =>
      simp only [reduceCtorEq, false_iff, not_forall]
      exact ⟨i, le_rfl, by omega, by simp [hb]⟩

theorem larger_mem (h : A.larger k i = some f) : ∃ j, i ≤ j ∧ f ∈ A.bucket j := by
  induction k generalizing i with
  | zero => cases h
  | succ k ih =>
    rw [larger] at h
    split at h
    · obtain ⟨j, hj, hf⟩ := ih h
      exact ⟨j, by omega, hf⟩
    · rename_i g l hb
      cases h
      exact ⟨i, le_rfl, by simp [hb]⟩

/-- What the choice guarantees of the region it takes. -/
theorem choose_spec :
    match A.choose t n with
    | .whole f => f ∈ A.free ∧ f.size = n
    | .split f => f ∈ A.free ∧ n < f.size
    | .rest f => f ∈ A.free ∧ n ≤ f.size
    | .fail => True := by
  unfold choose
  simp only
  cases hs : scan n ((A.bucket (cpuLastOneBitIndex n)).take maxAllocIterations) none sizeMax with
  | exact f =>
    obtain ⟨hf, hsize⟩ := scan_exact hs
    exact ⟨(mem_bucket.mp (List.mem_of_mem_take hf)).1, hsize⟩
  | best f =>
    obtain ⟨hf, hsize⟩ := (scan_best hs).resolve_left (by simp)
    exact ⟨(mem_bucket.mp (List.mem_of_mem_take hf)).1, hsize⟩
  | none =>
    simp only
    cases hl : A.larger (t - (cpuLastOneBitIndex n + 1)) (cpuLastOneBitIndex n + 1) with
    | some f =>
      obtain ⟨j, hj, hf⟩ := larger_mem hl
      obtain ⟨hmem, hidx⟩ := mem_bucket.mp hf
      exact ⟨hmem, lt_of_cpuLastOneBitIndex_lt (by omega)⟩
    | none =>
      simp only
      cases hr : ((A.bucket (cpuLastOneBitIndex n)).drop maxAllocIterations).find?
          fun f => n ≤ f.size with
      | some f =>
        refine ⟨?_, by simpa using List.find?_some hr⟩
        exact (mem_bucket.mp (List.mem_of_mem_drop (List.mem_of_find?_eq_some hr))).1
      | none => trivial

/-- The last exit is taken when no region scanned first and no larger
class has the pages. -/
theorem choose_rest_iff (hsize : ∀ f ∈ A.free, f.size < sizeMax) : A.choose t n = .rest f ↔
      (∀ g ∈ (A.bucket (cpuLastOneBitIndex n)).take maxAllocIterations, g.size < n) ∧
      (∀ j, cpuLastOneBitIndex n < j → j < t → A.bucket j = []) ∧
      ((A.bucket (cpuLastOneBitIndex n)).drop maxAllocIterations).find? (fun f => n ≤ f.size) =
        some f := by
  have hd : ∀ f ∈ (A.bucket (cpuLastOneBitIndex n)).take maxAllocIterations,
      f.size - n < sizeMax := fun f hf =>
    lt_of_le_of_lt (Nat.sub_le _ _) (hsize f (mem_bucket.mp (List.mem_of_mem_take hf)).1)
  have hlarger : A.larger (t - (cpuLastOneBitIndex n + 1)) (cpuLastOneBitIndex n + 1) = none ↔
      ∀ j, cpuLastOneBitIndex n < j → j < t → A.bucket j = [] := by
    rw [larger_eq_none_iff]
    exact ⟨fun h j hj hj' => h j hj (by omega), fun h j hj hj' => h j hj (by omega)⟩
  rw [← scan_none_iff hd, ← hlarger]
  unfold choose
  simp only
  cases scan n ((A.bucket (cpuLastOneBitIndex n)).take maxAllocIterations) none sizeMax with
  | exact g | best g => simp
  | none =>
    simp only [true_and]
    cases A.larger (t - (cpuLastOneBitIndex n + 1)) (cpuLastOneBitIndex n + 1) with
    | some g => simp
    | none =>
      simp only [true_and]
      cases ((A.bucket (cpuLastOneBitIndex n)).drop maxAllocIterations).find?
        fun f => n ≤ f.size <;> simp

/-- **An allocation keeps the invariant**, unless its last exit takes a
region larger than what was asked for. -/
theorem Inv.alloc (h : A.Inv V) (hn : 1 ≤ n) (hrest : ∀ f, A.choose t n = .rest f → f.size = n) :
    (A.alloc t n).2.Inv V := by
  have hspec := choose_spec (A := A) (t := t) (n := n)
  unfold Space.alloc
  cases hc : A.choose t n with
  | whole f =>
    rw [hc] at hspec
    obtain ⟨hf, rfl⟩ := hspec
    exact h.whole hf
  | split f =>
    rw [hc] at hspec
    exact h.split hspec.1 hn hspec.2
  | rest f =>
    rw [hc] at hspec
    obtain rfl := hrest f hc
    exact h.whole hspec.1
  | fail => exact h

end Space

end ShmDos64
