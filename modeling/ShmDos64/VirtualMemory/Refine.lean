import ShmDos64.Common.Buckets
import ShmDos64.VirtualMemory.Space
/-!
# The allocator keeps an address space

The allocator's state stands for a space: each bucket of the space is
spelled by the links of one list of the table, and the page words tag the
first and the last page of every region. Between the statements of an
operation a few page words are not yet right, and the relation carries
their list; the operations start and end with it empty.
-/

namespace ShmDos64

open Function (update update_of_ne update_self)
open Space

/-- The word of the first page of a busy region. The allocation flag is
left open. -/
def BusyTag (word size : ℕ) : Prop := word >>> vmmRegSizeShift = size ∧ word &&& vmmRegBusyFlag ≠ 0

theorem busyTag_busyWord (n : ℕ) : BusyTag (Vmm.busyWord n) n := by
  unfold BusyTag Vmm.busyWord
  rw [shiftLeft_or_eq n (by norm_num), Nat.shiftRight_eq_div_pow, and_two_eq]
  simp only [vmmRegSizeShift, vmmRegBusyFlag]
  omega

/-- A busy word names no free region. -/
theorem freeItemOf_busyTag {w n : ℕ} (h : BusyTag w n) : Vmm.freeItemOf w = 0 :=
  if_neg h.2

theorem freeItemOf_busyFlag : Vmm.freeItemOf vmmRegBusyFlag = 0 := by decide

theorem freeItemOf_zero : Vmm.freeItemOf 0 = 0 := by decide

/-- An aligned address names its own item. -/
theorem freeItemOf_item {a : ℕ} (h : a % 4 = 0) : Vmm.freeItemOf a = a := by
  have h2 : a &&& vmmRegBusyFlag = 0 := by rw [and_two_eq]; omega
  unfold Vmm.freeItemOf vmmRegPtr
  rw [if_pos h2, and_three_eq]
  omega

namespace Vmm

variable (v : Vmm) (i x a : ℕ)

/-! ## What the list operations leave -/

@[simp] theorem deleteFreeRegion_memoryRegions :
    (v.deleteFreeRegion i x).memoryRegions = v.memoryRegions := by
  simp only [deleteFreeRegion, unlinkFreeRegion]; split <;> rfl

@[simp] theorem deleteFreeRegion_freeListItems : (v.deleteFreeRegion i x).freeListItems = x := rfl

@[simp] theorem deleteFreeRegion_freeListItemsStart :
    (v.deleteFreeRegion i x).freeListItemsStart = v.freeListItemsStart := by
  simp only [deleteFreeRegion, unlinkFreeRegion]; split <;> rfl

@[simp] theorem deleteFreeRegion_virtualPages :
    (v.deleteFreeRegion i x).virtualPages = v.virtualPages := by
  simp only [deleteFreeRegion, unlinkFreeRegion]; split <;> rfl

@[simp] theorem deleteFreeRegion_freeListTableSize :
    (v.deleteFreeRegion i x).freeListTableSize = v.freeListTableSize := by
  simp only [deleteFreeRegion, unlinkFreeRegion]; split <;> rfl

theorem deleteFreeRegion_counters : (v.deleteFreeRegion i x).freeListTableCounters =
    update v.freeListTableCounters i (v.freeListTableCounters i - 1) := by
  simp only [deleteFreeRegion, unlinkFreeRegion]; split <;> rfl

theorem deleteFreeRegion_table : (v.deleteFreeRegion i x).freeListTable =
    if x = v.freeListTable i then update v.freeListTable i (v.item x).next
    else v.freeListTable := by
  simp only [deleteFreeRegion, unlinkFreeRegion]; split <;> rfl

/-- An update that keeps a field of the record keeps it everywhere. -/
theorem update_congr {β : Type*} (g : VmmItem → β) {m : ℕ → VmmItem} {y : VmmItem}
    (h : g y = g (m x)) : g (update m x y a) = g (m a) := by
  rcases eq_or_ne a x with rfl | hne
  · rw [update_self, h]
  · rw [update_of_ne hne]

/-- No item loses its size or its base. -/
theorem deleteFreeRegion_keeps {β : Type*} (g : VmmItem → β)
    (hg : ∀ (y : VmmItem) (p n : ℕ), g { y with prev := p, next := n } = g y) :
    g ((v.deleteFreeRegion i x).item a) = g (v.item a) := by
  have hnext : ∀ (y : VmmItem) (n : ℕ), g { y with next := n } = g y := fun y n => hg y y.prev n
  have hprev : ∀ (y : VmmItem) (p : ℕ), g { y with prev := p } = g y := fun y p => hg y p y.next
  simp only [deleteFreeRegion]
  rw [update_congr _ _ g (hnext _ _)]
  unfold unlinkFreeRegion
  simp only
  split_ifs
  · rfl
  · rw [update_congr _ _ g (hprev _ _), update_congr _ _ g (hnext _ _)]
  · rw [update_congr _ _ g (hnext _ _)]

@[simp] theorem deleteFreeRegion_numPages :
    ((v.deleteFreeRegion i x).item a).numPages = (v.item a).numPages :=
  deleteFreeRegion_keeps v i x a VmmItem.numPages fun _ _ _ => rfl

@[simp] theorem deleteFreeRegion_pageBase :
    ((v.deleteFreeRegion i x).item a).pageBase = (v.item a).pageBase :=
  deleteFreeRegion_keeps v i x a VmmItem.pageBase fun _ _ _ => rfl

theorem unlinkFreeRegion_next : ((v.unlinkFreeRegion i x).item a).next =
    if x ≠ v.freeListTable i ∧ a = (v.item x).prev then (v.item x).next
    else (v.item a).next := by
  unfold unlinkFreeRegion
  by_cases hhd : x = v.freeListTable i
  · rw [if_pos hhd, if_neg fun h => h.1 hhd]
  · rw [if_neg hhd]
    simp only
    have hinner : ∀ b, (update v.item (v.item x).prev
        { v.item (v.item x).prev with next := (v.item x).next } b).next =
        if x ≠ v.freeListTable i ∧ b = (v.item x).prev then (v.item x).next
        else (v.item b).next := by
      intro b
      rw [Function.update_apply]
      by_cases hb : b = (v.item x).prev
      · rw [if_pos hb, if_pos ⟨hhd, hb⟩]
      · rw [if_neg hb, if_neg fun h => hb h.2]
    split
    · exact (update_congr _ _ VmmItem.next (by rfl)).trans (hinner a)
    · exact hinner a

theorem unlinkFreeRegion_prev : ((v.unlinkFreeRegion i x).item a).prev =
    if x ≠ v.freeListTable i ∧ (v.item x).next ≠ 0 ∧ a = (v.item x).next then (v.item x).prev
    else (v.item a).prev := by
  unfold unlinkFreeRegion
  by_cases hhd : x = v.freeListTable i
  · rw [if_pos hhd, if_neg fun h => h.1 hhd]
  · rw [if_neg hhd]
    simp only
    have hinner : ∀ b, (update v.item (v.item x).prev
        { v.item (v.item x).prev with next := (v.item x).next } b).prev = (v.item b).prev :=
      fun b => update_congr _ _ VmmItem.prev rfl
    split
    · rename_i h0
      rw [Function.update_apply]
      by_cases ha : a = (v.item x).next
      · rw [if_pos ha, if_pos ⟨hhd, h0, ha⟩]
        exact hinner x
      · rw [if_neg ha, if_neg fun h => ha h.2.2]
        exact hinner a
    · rename_i h0
      rw [if_neg fun h => h0 h.2.1]
      exact hinner a

theorem deleteFreeRegion_next : ((v.deleteFreeRegion i x).item a).next =
    if a = x then v.freeListItems
    else if x ≠ v.freeListTable i ∧ a = (v.item x).prev then (v.item x).next
    else (v.item a).next := by
  have hitems : (v.unlinkFreeRegion i x).freeListItems = v.freeListItems := by
    unfold unlinkFreeRegion; split <;> rfl
  simp only [deleteFreeRegion]
  rcases eq_or_ne a x with rfl | hax
  · rw [update_self, if_pos rfl, hitems]
  · rw [update_of_ne hax, if_neg hax, unlinkFreeRegion_next]

theorem deleteFreeRegion_prev : ((v.deleteFreeRegion i x).item a).prev =
    if x ≠ v.freeListTable i ∧ (v.item x).next ≠ 0 ∧ a = (v.item x).next then (v.item x).prev
    else (v.item a).prev :=
  (update_congr _ _ VmmItem.prev (by rfl)).trans (unlinkFreeRegion_prev v i x a)

variable (b n : ℕ)

@[simp] theorem addFreeRegion_virtualPages :
    (v.addFreeRegion b n).virtualPages = v.virtualPages := by
  unfold addFreeRegion takeItem; split <;> rfl

@[simp] theorem addFreeRegion_freeListTableSize :
    (v.addFreeRegion b n).freeListTableSize = v.freeListTableSize := by
  unfold addFreeRegion takeItem; split <;> rfl

theorem linkFreeRegion_prev (ha : a ≠ x) : ((v.linkFreeRegion x b n).item a).prev =
      if v.freeListTable (cpuLastOneBitIndex n) ≠ 0 ∧ a = v.freeListTable (cpuLastOneBitIndex n)
      then x else (v.item a).prev := by
  unfold linkFreeRegion
  simp only
  split
  · rename_i h0
    rw [Function.update_apply]
    by_cases hf : a = v.freeListTable (cpuLastOneBitIndex n)
    · rw [if_pos hf, if_pos ⟨h0, hf⟩]
    · rw [if_neg hf, if_neg fun h => hf h.2, update_of_ne ha]
  · rename_i h0
    rw [if_neg fun h => h0 h.1, update_of_ne ha]

/-- The new item holds its region, the others keep theirs. -/
theorem linkFreeRegion_keeps {β : Type*} (g : VmmItem → β)
    (hg : ∀ (y : VmmItem) (p : ℕ), g { y with prev := p } = g y) :
    g ((v.linkFreeRegion x b n).item a) =
      if a = x then g ⟨n, b, 0, v.freeListTable (cpuLastOneBitIndex n)⟩ else g (v.item a) := by
  have hinner : ∀ c, g (update v.item x ⟨n, b, 0, v.freeListTable (cpuLastOneBitIndex n)⟩ c) =
      if c = x then g ⟨n, b, 0, v.freeListTable (cpuLastOneBitIndex n)⟩ else g (v.item c) := by
    intro c
    rw [Function.update_apply]
    split <;> rfl
  unfold linkFreeRegion
  simp only
  split
  · exact (update_congr _ _ g (hg _ _)).trans (hinner a)
  · exact hinner a

theorem linkFreeRegion_next : ((v.linkFreeRegion x b n).item a).next =
    if a = x then v.freeListTable (cpuLastOneBitIndex n) else (v.item a).next :=
  linkFreeRegion_keeps v x a b n VmmItem.next fun _ _ => rfl

variable {n} {p : ℕ}

theorem linkFreeRegion_region_of_ne (n : ℕ) (hp : p ≠ b) (hp' : p ≠ b + n - 1) :
    (v.linkFreeRegion x b n).memoryRegions p = v.memoryRegions p := by
  simp only [linkFreeRegion]
  split <;> simp [update_of_ne, hp, hp']

theorem linkFreeRegion_region_first (n : ℕ) : (v.linkFreeRegion x b n).memoryRegions b = x := by
  simp only [linkFreeRegion]
  split
  · rw [update_of_ne (by omega), update_self]
  · rw [update_self]

theorem linkFreeRegion_region_last (hn : 0 < n) :
    (v.linkFreeRegion x b n).memoryRegions (b + n - 1) = x := by
  rcases Nat.lt_or_ge 1 n with h1 | h1
  · simp only [linkFreeRegion, if_pos h1, update_self]
  · rw [show b + n - 1 = b by omega]
    exact linkFreeRegion_region_first v x b n

end Vmm

/-- **The allocator's state stands for the space**, but for the words of
the pages in `E`. -/
structure Rep (v : Vmm) (A : Space) (E : List ℕ) : Prop where
  buckets : Buckets (fun a => (v.item a).next) (fun a => (v.item a).prev) v.freeListTable
    fun i => (A.bucket i).map FreeRegion.item
  counters : ∀ i, v.freeListTableCounters i = (A.bucket i).length
  node : ∀ f ∈ A.free, (v.item f.item).numPages = f.size ∧ (v.item f.item).pageBase = f.base
  pool : Links (fun a => (v.item a).next) 0 v.freeListItems A.pool
  fresh : v.freeListItemsStart = A.fresh
  freeFirst : ∀ f ∈ A.free, v.memoryRegions f.base = f.item
  freeLast : ∀ f ∈ A.free, v.memoryRegions (f.base + f.size - 1) = f.item
  liveFirst : ∀ r ∈ A.live, BusyTag (v.memoryRegions r.base) r.size
  liveLast : ∀ r ∈ A.live, 1 < r.size → v.memoryRegions (r.base + r.size - 1) = vmmRegBusyFlag
  inner : ∀ p ∉ E, A.NoEnd p → v.memoryRegions p = 0

namespace Rep

variable {v : Vmm} {A : Space} {E E' : List ℕ} {f : FreeRegion} {V b n : ℕ}

/-! ## The lists -/

/-- Distinct names are erased with what they name. -/
theorem map_erase_of_nodup {α β : Type*} [DecidableEq α] [DecidableEq β] {g : α → β} {l : List α}
    {x : α} (h : (l.map g).Nodup) (hx : x ∈ l) : (l.erase x).map g = (l.map g).erase (g x) := by
  induction l with
  | nil => cases hx
  | cons y l ih =>
    rw [List.map_cons, List.nodup_cons] at h
    rcases eq_or_ne y x with rfl | hne
    · simp
    · have hx' : x ∈ l := (List.mem_cons.mp hx).resolve_left hne.symm
      have hg : g y ≠ g x := fun he => h.1 (he ▸ List.mem_map_of_mem hx')
      rw [List.erase_cons_tail (by simpa using hne), List.map_cons, List.map_cons,
        List.erase_cons_tail (by simpa using hg), ih h.2 hx']

theorem bucket_remove (i : ℕ) : (A.remove f).bucket i = (A.bucket i).erase f :=
  List.erase_filter.symm

theorem map_bucket_remove (h : A.ItemsOk) (hf : f ∈ A.free) :
    (fun i => ((A.remove f).bucket i).map FreeRegion.item) =
      update (fun i => (A.bucket i).map FreeRegion.item) (cpuLastOneBitIndex f.size)
        (((A.bucket (cpuLastOneBitIndex f.size)).map FreeRegion.item).erase f.item) := by
  have hnd : (A.free.map FreeRegion.item).Nodup := (List.nodup_append.mp h.nodup).1
  funext i
  rw [bucket_remove]
  rcases eq_or_ne i (cpuLastOneBitIndex f.size) with rfl | hi
  · rw [update_self]
    exact map_erase_of_nodup (hnd.sublist (List.filter_sublist.map _))
      (mem_bucket.mpr ⟨hf, rfl⟩)
  · rw [update_of_ne hi,
      List.erase_of_not_mem fun hm => hi (mem_bucket.mp hm).2.symm]

/-- An item of a bucket is not in the pool. -/
theorem notMem_pool (h : A.ItemsOk) {i a : ℕ} (ha : a ∈ (A.bucket i).map FreeRegion.item) :
    a ∉ A.pool := by
  obtain ⟨g, hg, rfl⟩ := List.mem_map.mp ha
  have hdisj := (List.nodup_append.mp h.nodup).2.2
  exact fun hm => hdisj g.item (List.mem_map_of_mem (mem_bucket.mp hg).1) g.item hm rfl

/-- **`deleteFreeRegion`** takes the region out of the space; its pages
are then in no region. -/
theorem remove (h : Rep v A E) (hA : A.ItemsOk) (hf : f ∈ A.free) :
    Rep (v.deleteFreeRegion (cpuLastOneBitIndex f.size) f.item) (A.remove f)
      (f.base :: (f.base + f.size - 1) :: E) := by
  set i := cpuLastOneBitIndex f.size with hi
  have hfi : f ∈ A.bucket i := mem_bucket.mpr ⟨hf, rfl⟩
  have hmem : f.item ∈ (fun i => (A.bucket i).map FreeRegion.item) i := List.mem_map_of_mem hfi
  have hfree : ∀ g ∈ (A.remove f).free, g ∈ A.free := fun g hg => List.mem_of_mem_erase hg
  refine ⟨?_, fun j => ?_, fun g hg => ?_, ?_, ?_, fun g hg => ?_, fun g hg => ?_, ?_, ?_, ?_⟩
  · rw [map_bucket_remove hA hf, Vmm.deleteFreeRegion_table]
    by_cases hhd : f.item = v.freeListTable i
    · rw [if_pos hhd]
      refine h.buckets.unlink_head hmem hhd.symm (fun y hy => ?_) fun y _ => ?_
      · rw [Vmm.deleteFreeRegion_next, if_neg hy, if_neg fun hc => hc.1 hhd]
      · rw [Vmm.deleteFreeRegion_prev, if_neg fun hc => hc.1 hhd]
    · rw [if_neg hhd]
      have hprev := h.buckets.prev_mem hmem (Ne.symm hhd)
      refine h.buckets.unlink_inner hmem (Ne.symm hhd) ?_ (fun y hy hy' => ?_) (fun h0 => ?_)
        fun y _ hy' => ?_
      · rw [Vmm.deleteFreeRegion_next, if_neg hprev.2, if_pos ⟨hhd, rfl⟩]
      · rw [Vmm.deleteFreeRegion_next, if_neg hy, if_neg fun hc => hy' hc.2]
      · rw [Vmm.deleteFreeRegion_prev, if_pos ⟨hhd, h0, rfl⟩]
      · rw [Vmm.deleteFreeRegion_prev, if_neg fun hc => hy' hc.2.2]
  · rw [Vmm.deleteFreeRegion_counters, bucket_remove]
    rcases eq_or_ne j i with rfl | hj
    · rw [update_self, h.counters, List.length_erase_of_mem hfi]
    · rw [update_of_ne hj, h.counters,
        List.erase_of_not_mem fun hm => hj (mem_bucket.mp hm).2.symm]
  · simpa using h.node g (hfree g hg)
  · refine ⟨rfl, (hA.ok _ (item_mem hf)).1, ?_⟩
    simp only [Vmm.deleteFreeRegion_next v i f.item f.item, if_true]
    refine h.pool.congr fun y hy => ?_
    have hyf : y ≠ f.item := fun he => notMem_pool hA hmem (he ▸ hy)
    rw [Vmm.deleteFreeRegion_next, if_neg hyf, if_neg]
    rintro ⟨hhd, rfl⟩
    exact notMem_pool hA (h.buckets.prev_mem hmem (Ne.symm hhd)).1 hy
  · exact (Vmm.deleteFreeRegion_freeListItemsStart v i f.item).trans h.fresh
  · simpa using h.freeFirst g (hfree g hg)
  · simpa using h.freeLast g (hfree g hg)
  · simpa using h.liveFirst
  · simpa using h.liveLast
  · intro p hp hout
    simp only [List.mem_cons, not_or] at hp
    rw [Vmm.deleteFreeRegion_memoryRegions]
    refine h.inner p hp.2.2 fun r hr => ?_
    rcases List.mem_cons.mp ((spans_perm_remove hf).mem_iff.mp hr) with rfl | hr
    · exact ⟨hp.1, hp.2.1⟩
    · exact hout r hr

/-- The words of pages in no region may change, and those that are zero
are right again. -/
theorem retag {regions : ℕ → ℕ} (h : Rep v A E) (hE : ∀ p ∈ E, A.NoEnd p)
    (hout : ∀ p ∉ E, regions p = v.memoryRegions p) (hin : ∀ p ∈ E, p ∈ E' ∨ regions p = 0) :
    Rep { v with memoryRegions := regions } A E' := by
  have hfirst : ∀ r ∈ A.spans, r.base ∉ E := fun r hr hm => (hE _ hm r hr).1 rfl
  have hlast : ∀ r ∈ A.spans, r.base + r.size - 1 ∉ E := fun r hr hm => (hE _ hm r hr).2 rfl
  refine ⟨h.buckets, h.counters, h.node, h.pool, h.fresh, fun f hf => ?_, fun f hf => ?_,
    fun r hr => ?_, fun r hr => ?_, fun p hp hr => ?_⟩
  · exact (hout _ (hfirst _ (span_mem hf))).trans (h.freeFirst f hf)
  · exact (hout _ (hlast _ (span_mem hf))).trans (h.freeLast f hf)
  · simpa only [hout _ (hfirst r (live_mem hr))] using h.liveFirst r hr
  · simpa only [hout _ (hlast r (live_mem hr))] using h.liveLast r hr
  · by_cases hpE : p ∈ E
    · exact (hin p hpE).resolve_left hp
    · exact (hout p hpE).trans (h.inner p hpE hr)

/-- A tagged run of pages becomes a region handed out. -/
theorem give (h : Rep v A E) (hfirst : BusyTag (v.memoryRegions b) n)
    (hlast : 1 < n → v.memoryRegions (b + n - 1) = vmmRegBusyFlag)
    (hE : ∀ p ∈ E, p = b ∨ p = b + n - 1 ∨ p ∈ E') : Rep v (A.give ⟨b, n⟩) E' := by
  refine ⟨h.buckets, h.counters, h.node, h.pool, h.fresh, h.freeFirst, h.freeLast,
    fun r hr => ?_, fun r hr => ?_, fun p hp hr => ?_⟩
  · rcases List.mem_cons.mp hr with rfl | hr
    · exact hfirst
    · exact h.liveFirst r hr
  · rcases List.mem_cons.mp hr with rfl | hr
    · exact hlast
    · exact h.liveLast r hr
  · have hb := hr ⟨b, n⟩ (by simp [Space.give, spans])
    refine h.inner p (fun hm => ?_) fun r hr' => hr r (List.mem_cons_of_mem _ hr')
    rcases hE p hm with hpb | hpl | hpE
    · exact hb.1 hpb
    · exact hb.2 hpl
    · exact hp hpE

/-- The pages of a region taken back are in no region. -/
theorem drop {r : Span} (h : Rep v A []) (hr : r ∈ A.live) :
    Rep v (A.drop r) [r.base, r.base + r.size - 1] := by
  have hlive : ∀ r' ∈ (A.drop r).live, r' ∈ A.live := fun r' hr' => List.mem_of_mem_erase hr'
  refine ⟨h.buckets, h.counters, h.node, h.pool, h.fresh, h.freeFirst, h.freeLast,
    fun r' hr' => h.liveFirst r' (hlive r' hr'), fun r' hr' => h.liveLast r' (hlive r' hr'),
    fun p hp hout => ?_⟩
  simp only [List.mem_cons, List.not_mem_nil, or_false, not_or] at hp
  refine h.inner p (by simp) fun r' hr' => ?_
  have hperm : A.spans.Perm (r :: (A.drop r).spans) :=
    (List.perm_cons_erase hr).append_right _
  rcases List.mem_cons.mp (hperm.mem_iff.mp hr') with rfl | hr'
  · exact hp
  · exact hout r' hr'

theorem takeItem_fst (h : Rep v A E) : v.takeItem.1 = A.nextItem := by
  unfold Vmm.takeItem nextItem
  cases hp : A.pool with
  | nil =>
    have h0 := h.pool
    rw [hp] at h0
    rw [if_pos (Links.nil_iff.mp h0)]
    exact h.fresh
  | cons a l =>
    have h0 := h.pool
    rw [hp] at h0
    rw [if_neg (h0.1 ▸ h0.2.1)]
    exact h0.1

/-- The item `takeItem` hands out leaves the pool, and nothing else
changes. -/
theorem takeItem_snd (h : Rep v A E) :
    ∃ pool fresh, (A.add b n) = ⟨A.live, ⟨A.nextItem, b, n⟩ :: A.free, pool, fresh⟩ ∧
      Rep v.takeItem.2 ⟨A.live, A.free, pool, fresh⟩ E := by
  unfold Vmm.takeItem nextItem Space.add
  cases hp : A.pool with
  | nil =>
    have h0 := h.pool
    rw [hp] at h0
    rw [if_pos (Links.nil_iff.mp h0)]
    refine ⟨[], A.fresh + vmmItemSize, by simp, ?_⟩
    exact ⟨h.buckets, h.counters, h.node, h0, by simp [h.fresh], h.freeFirst, h.freeLast,
      h.liveFirst, h.liveLast, h.inner⟩
  | cons a l =>
    have h0 := h.pool
    rw [hp] at h0
    rw [if_neg (h0.1 ▸ h0.2.1)]
    refine ⟨l, A.fresh, by simp, ?_⟩
    exact ⟨h.buckets, h.counters, h.node, h0.1 ▸ h0.2.2, h.fresh, h.freeFirst, h.freeLast,
      h.liveFirst, h.liveLast, h.inner⟩

/-- A new item and its two page words make a free region. -/
theorem link {x : ℕ} (h : Rep v A E) (hx0 : x ≠ 0) (hx : x ∉ A.items) (hb : A.NoEnd b)
    (hl : A.NoEnd (b + n - 1)) (hn : 0 < n) (hE : ∀ p ∈ E, p = b ∨ p = b + n - 1) :
    Rep (v.linkFreeRegion x b n) { A with free := ⟨x, b, n⟩ :: A.free } [] := by
  set i := cpuLastOneBitIndex n with hi
  have hne : ∀ g ∈ A.free, g.item ≠ x := fun g hg he => hx (he ▸ item_mem hg)
  have hbucket : ∀ j, (A.bucket j).map FreeRegion.item ⊆ A.items := by
    intro j a ha
    obtain ⟨g, hg, rfl⟩ := List.mem_map.mp ha
    exact item_mem (mem_bucket.mp hg).1
  have hbuckets : ∀ j, ({ A with free := ⟨x, b, n⟩ :: A.free } : Space).bucket j =
      if j = i then ⟨x, b, n⟩ :: A.bucket j else A.bucket j := by
    intro j
    unfold bucket
    rcases eq_or_ne j i with rfl | hj
    · rw [if_pos rfl, List.filter_cons_of_pos (by simp [hi])]
    · rw [if_neg hj, List.filter_cons_of_neg (by simpa [hi] using hj.symm)]
  have hregions : ∀ p, p ≠ b → p ≠ b + n - 1 →
      (v.linkFreeRegion x b n).memoryRegions p = v.memoryRegions p :=
    fun p hp hp' => Vmm.linkFreeRegion_region_of_ne v x b n hp hp'
  refine ⟨?_, fun j => ?_, fun g hg => ?_, ?_, h.fresh, fun g hg => ?_, fun g hg => ?_,
    fun r hr => ?_, fun r hr hr1 => ?_, fun p _ hp => ?_⟩
  · have hB : (fun j => (({ A with free := ⟨x, b, n⟩ :: A.free } : Space).bucket j).map
        FreeRegion.item) = update (fun j => (A.bucket j).map FreeRegion.item) i
          (x :: (A.bucket i).map FreeRegion.item) := by
      funext j
      rw [hbuckets, Function.update_apply]
      split_ifs with hj
      · simp [hj]
      · rfl
    rw [hB]
    refine h.buckets.push hx0 (fun j hm => hx (hbucket j hm)) ?_ (fun y hy => ?_) (fun h0 => ?_)
      fun y hy hy' => ?_
    · rw [Vmm.linkFreeRegion_next, if_pos rfl]
    · rw [Vmm.linkFreeRegion_next, if_neg hy]
    · have hhd : v.freeListTable i ≠ x := by
        intro he
        have hl := h.buckets.links i
        cases hBi : (A.bucket i).map FreeRegion.item with
        | nil => rw [hBi] at hl; exact h0 hl
        | cons y ys =>
          rw [hBi] at hl
          exact hx (hbucket i (by rw [hBi, ← he, hl.1]; simp))
      rw [Vmm.linkFreeRegion_prev _ _ _ _ _ hhd, if_pos ⟨h0, rfl⟩]
    · rw [Vmm.linkFreeRegion_prev _ _ _ _ _ hy, if_neg fun hc => hy' hc.2]
  · rw [hbuckets]
    simp only [Vmm.linkFreeRegion, Function.update_apply]
    split_ifs with hj
    · simp [h.counters, hj]
    · exact h.counters j
  · rw [Vmm.linkFreeRegion_keeps _ _ _ _ _ VmmItem.numPages fun _ _ => rfl,
      Vmm.linkFreeRegion_keeps _ _ _ _ _ VmmItem.pageBase fun _ _ => rfl]
    rcases List.mem_cons.mp hg with rfl | hg
    · simp
    · rw [if_neg (hne g hg), if_neg (hne g hg)]
      exact h.node g hg
  · refine h.pool.congr fun y hy => ?_
    rw [Vmm.linkFreeRegion_next, if_neg]
    rintro rfl
    exact hx (List.mem_append_right _ hy)
  · rcases List.mem_cons.mp hg with rfl | hg
    · exact Vmm.linkFreeRegion_region_first v x b n
    · exact (hregions _ (hb _ (span_mem hg)).1.symm
        (hl _ (span_mem hg)).1.symm).trans (h.freeFirst g hg)
  · rcases List.mem_cons.mp hg with rfl | hg
    · exact Vmm.linkFreeRegion_region_last v x b hn
    · exact (hregions _ (hb _ (span_mem hg)).2.symm
        (hl _ (span_mem hg)).2.symm).trans (h.freeLast g hg)
  · rw [hregions _ (hb r (live_mem hr)).1.symm (hl r (live_mem hr)).1.symm]
    exact h.liveFirst r hr
  · rw [hregions _ (hb r (live_mem hr)).2.symm (hl r (live_mem hr)).2.symm]
    exact h.liveLast r hr hr1
  · have hperm : ({ A with free := ⟨x, b, n⟩ :: A.free } : Space).spans.Perm
        (⟨b, n⟩ :: A.spans) := List.perm_middle
    have hbn := hp ⟨b, n⟩ (hperm.mem_iff.mpr (by simp))
    rw [hregions p hbn.1 hbn.2]
    refine h.inner p (fun hm => ?_) fun r hr => hp r (hperm.mem_iff.mpr (by simp [hr]))
    rcases hE p hm with he | he
    · exact hbn.1 he
    · exact hbn.2 he

/-- **`addFreeRegion`** adds the region to the space. -/
theorem add (h : Rep v A E) (hA : A.ItemsOk) (hb : A.NoEnd b) (hl : A.NoEnd (b + n - 1))
    (hn : 0 < n) (hE : ∀ p ∈ E, p = b ∨ p = b + n - 1) :
    Rep (v.addFreeRegion b n) (A.add b n) [] := by
  obtain ⟨pool, fresh, hadd, hrep⟩ := h.takeItem_snd (b := b) (n := n)
  have hitems := (hA.add (b := b) (n := n)).nodup
  unfold Vmm.addFreeRegion
  rw [h.takeItem_fst]
  rw [hadd] at hitems ⊢
  exact hrep.link hA.nextItem_ok.1 (List.nodup_cons.mp hitems).1 hb hl hn hE

end Rep

end ShmDos64
