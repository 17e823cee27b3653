import ShmDos64.VirtualMemory.Refine
/-!
# The allocator's operations on the space

`allocPages` and `freePages` do to the space what `Space.alloc` and
`Space.freeAt` do: the bounded scan, the search of the larger lists and
the closing scan find the region the space chooses, and the two merges
join the regions the space joins.
-/

namespace ShmDos64

open Function (update update_of_ne update_self)
open Vmm Space FreeRegion

namespace Rep

variable {v : Vmm} {A : Space} {E E' : List ℕ} {f : FreeRegion} {V b n i k cur : ℕ}

theorem mono (h : Rep v A E) (hE : E ⊆ E') : Rep v A E' :=
  { h with inner := fun p hp => h.inner p fun hm => hp (hE hm) }

/-! ## `setBusyRegion` and the split -/

/-- **`setBusyRegion`** hands out the front of a free region; the word of
its last page is left over when that is not the whole of it. -/
theorem setBusy (h : Rep v A []) (hA : A.Inv V) (hf : f ∈ A.free) (hn : 1 ≤ n) (hle : n ≤ f.size)
    (hE : n = f.size ∨ f.base + f.size - 1 ∈ E) :
    Rep (v.setBusyRegion (cpuLastOneBitIndex f.size) f.item n) ((A.remove f).give ⟨f.base, n⟩) E
    := by
  have hloose := hA.loose_remove hf
  have hnoEnd : ∀ p, f.base ≤ p → p < f.base + f.size → (A.remove f).NoEnd p :=
    fun p hp hp' => hloose.noEnd ⟨hp, hp'⟩
  have hsub : [f.base, f.base + f.size - 1] ⊆ [f.base, f.base + n - 1, f.base + f.size - 1] := by
    simp
  have hdel := (h.remove hA.items hf).mono hsub
  unfold setBusyRegion
  rw [(h.node f hf).2]
  refine Rep.give (E := [f.base, f.base + n - 1, f.base + f.size - 1]) (hdel.retag ?_ ?_ ?_)
    ?_ ?_ ?_
  · intro p hp
    simp only [List.mem_cons, List.not_mem_nil, or_false] at hp
    rcases hp with rfl | rfl | rfl <;> exact hnoEnd _ (by omega) (by omega)
  · intro p hp
    simp only [List.mem_cons, List.not_mem_nil, or_false, not_or] at hp
    split <;> simp [update_of_ne, hp]
  · exact fun p hp => Or.inl hp
  · simp only
    split
    · rw [update_of_ne (by omega), update_self]
      exact busyTag_busyWord n
    · rw [update_self]
      exact busyTag_busyWord n
  · intro h1
    simp only [if_pos h1, update_self]
  · intro p hp
    simp only [List.mem_cons, List.not_mem_nil, or_false] at hp
    rcases hp with rfl | rfl | rfl
    · exact Or.inl rfl
    · exact Or.inr (Or.inl rfl)
    · rcases hE with rfl | hE
      · exact Or.inr (Or.inl rfl)
      · exact Or.inr (Or.inr hE)

@[simp] theorem setBusy_node (a : ℕ) :
    ((v.setBusyRegion i k n).item a).numPages = (v.item a).numPages ∧
      ((v.setBusyRegion i k n).item a).pageBase = (v.item a).pageBase :=
  ⟨deleteFreeRegion_numPages v i k a, deleteFreeRegion_pageBase v i k a⟩

/-- The whole of a region of the asked size. -/
theorem takeWhole (h : Rep v A []) (hA : A.Inv V) (hf : f ∈ A.free) (hn : 1 ≤ f.size) :
    Rep (v.setBusyRegion (cpuLastOneBitIndex f.size) f.item f.size)
      ((A.remove f).give ⟨f.base, f.size⟩) [] :=
  h.setBusy hA hf hn le_rfl (Or.inl rfl)

theorem add_give {r : Span} : (A.give r).add b n = (A.add b n).give r := by
  unfold Space.give Space.add
  cases A.pool <;> rfl

/-- **A split** hands out the front and adds the rest. -/
theorem split (h : Rep v A []) (hA : A.Inv V) (hf : f ∈ A.free) (hn : 1 ≤ n) (hlt : n < f.size) :
    (v.splitRegion (cpuLastOneBitIndex f.size) f.item n (f.size - n)).1 = f.base ∧
      Rep (v.splitRegion (cpuLastOneBitIndex f.size) f.item n (f.size - n)).2
        (((A.remove f).add (f.base + n) (f.size - n)).give ⟨f.base, n⟩) [] := by
  have hbusy := h.setBusy (E := [f.base + f.size - 1]) hA hf hn hlt.le (Or.inr (by simp))
  have hbase := (h.node f hf).2
  refine ⟨hbase, ?_⟩
  rw [← add_give]
  simp only [splitRegion, setBusy_node, hbase]
  -- the rest of the region is in no region of the space it is added to
  have hloose : ((A.remove f).give ⟨f.base, n⟩).Loose V ⟨f.base + n, f.size - n⟩ := by
    have ht := (hA.loose_remove hf).tiles
    rw [show f.span = ⟨f.base, n + (f.size - n)⟩ by simp [span]; omega] at ht
    exact ⟨(ht.cut hn (by omega)).perm (List.Perm.swap _ _ _),
      (hA.loose_remove hf).apart, (hA.items.remove hf).setLive _⟩
  refine hbusy.add hloose.items (hloose.noEnd ⟨by simp, by simp; omega⟩)
    (hloose.noEnd ⟨by simp; omega, by simp; omega⟩) (by omega) fun p hp => Or.inr ?_
  rw [List.mem_singleton] at hp
  omega

/-! ## The searches -/

variable {l : List FreeRegion}

/-- The item the scan keeps for its best region, null before it has one. -/
def itemOf (m : Option FreeRegion) : ℕ := m.elim 0 FreeRegion.item

/-- The bounded scan finds what the space's scan finds, and stops at the
first item it has not looked at. -/
theorem scanBucket_spec {m : Option FreeRegion} {d : ℕ}
    (hl : Links (fun a => (v.item a).next) 0 cur (l.map FreeRegion.item))
    (hnode : ∀ f ∈ l, (v.item f.item).numPages = f.size) (hk : k ≤ l.length)
    (hm : ∀ f, m = some f → d = f.size - n) : match scan n (l.take k) m d with
    | .exact f => v.scanBucket n k cur (itemOf m) d = .exact f.item
    | .best f => ∃ c, v.scanBucket n k cur (itemOf m) d = .done f.item (f.size - n) c
    | .none => ∃ c d', v.scanBucket n k cur (itemOf m) d = .done 0 d' c ∧
        Links (fun a => (v.item a).next) 0 c ((l.drop k).map FreeRegion.item) := by
  induction k generalizing cur l m d with
  | zero =>
    cases m with
    | none => exact ⟨cur, d, rfl, hl⟩
    | some f => exact ⟨cur, by rw [hm f rfl]; rfl⟩
  | succ k ih =>
    cases l with
    | nil => simp at hk
    | cons g l =>
      obtain ⟨rfl, -, hl⟩ := hl
      have hsize := hnode g (by simp)
      have hnode' : ∀ f ∈ l, (v.item f.item).numPages = f.size :=
        fun f hf => hnode f (List.mem_cons_of_mem g hf)
      have hk' : k ≤ l.length := by simpa using hk
      rw [List.take_succ_cons, List.drop_succ_cons, scan, scanBucket]
      simp only [hsize]
      split_ifs with h1 h2 h3
      · rfl
      · exact ih (m := some g) hl hnode' hk' fun f hf => by cases hf; rfl
      all_goals exact ih hl hnode' hk' hm

/-- The search of the larger lists finds the one the space finds. -/
theorem findLarger_spec (h : Rep v A E) : match A.larger k i with
    | some f => ∃ idx, v.findLarger k i = some idx ∧ v.freeListTable idx = f.item ∧
        cpuLastOneBitIndex f.size = idx
    | none => v.findLarger k i = none := by
  induction k generalizing i with
  | zero => rfl
  | succ k ih =>
    rw [larger, findLarger, h.counters]
    cases hb : A.bucket i with
    | nil => simpa using ih (i := i + 1)
    | cons f l =>
      have hlinks := h.buckets.links i
      simp only [hb, List.map_cons] at hlinks
      refine ⟨i, by simp, hlinks.1, ?_⟩
      exact (mem_bucket.mp (by rw [hb]; simp : f ∈ A.bucket i)).2

/-- The closing scan is a search of the rest of the list. -/
theorem scanRest_spec (hl : Links (fun a => (v.item a).next) 0 cur (l.map FreeRegion.item))
    (hnode : ∀ f ∈ l, (v.item f.item).numPages = f.size) (hk : l.length < k) :
    v.scanRest n k cur = itemOf (l.find? fun f => n ≤ f.size) := by
  induction l generalizing cur k with
  | nil =>
    cases k with
    | zero => rfl
    | succ k => simp [scanRest, Links.nil_iff.mp hl, itemOf]
  | cons g l ih =>
    cases k with
    | zero => simp at hk
    | succ k =>
      obtain ⟨rfl, h0, hl⟩ := hl
      rw [scanRest, if_neg h0, hnode g (by simp)]
      by_cases hg : n ≤ g.size
      · simp [hg, itemOf]
      · rw [if_neg hg, List.find?_cons_of_neg (by simpa using hg)]
        exact ih hl (fun f hf => hnode f (List.mem_cons_of_mem g hf)) (by simpa using hk)

/-- The larger lists, then the rest of the first one. -/
theorem searchPast_spec (h : Rep v A E) (hA : A.ItemsOk) (hsub : l ⊆ A.free)
    (hl : Links (fun a => (v.item a).next) 0 cur (l.map FreeRegion.item))
    (hlen : l.length ≤ v.virtualPages) :
    match A.larger (v.freeListTableSize - (cpuLastOneBitIndex n + 1)) (cpuLastOneBitIndex n + 1)
    with
    | some f => v.searchPast n cur = .larger (cpuLastOneBitIndex f.size) ∧
        v.freeListTable (cpuLastOneBitIndex f.size) = f.item
    | none =>
      match l.find? fun f => n ≤ f.size with
      | some f => v.searchPast n cur = .fallback f.item
      | none => v.searchPast n cur = .fail := by
  have hlarger := h.findLarger_spec (k := v.freeListTableSize - (cpuLastOneBitIndex n + 1))
    (i := cpuLastOneBitIndex n + 1)
  have hrest := scanRest_spec (n := n) (k := v.virtualPages + 1) hl
    (fun f hf => (h.node f (hsub hf)).1) (by omega)
  simp only [searchPast]
  cases hs : A.larger (v.freeListTableSize - (cpuLastOneBitIndex n + 1))
      (cpuLastOneBitIndex n + 1) with
  | some f =>
    rw [hs] at hlarger
    obtain ⟨idx, hfind, htable, rfl⟩ := hlarger
    simp [hfind, htable]
  | none =>
    rw [hs] at hlarger
    simp only [hlarger, hrest]
    cases hf : l.find? fun f => n ≤ f.size with
    | some f =>
      have h0 := (hA.ok f.item (item_mem (hsub (List.mem_of_find?_eq_some hf)))).1
      simp [itemOf, h0]
    | none => simp [itemOf]

theorem bucket_subset : A.bucket i ⊆ A.free := fun _ hf => (mem_bucket.mp hf).1

/-- The scan of the first bucket, and where it leaves the search. -/
theorem allocExit_scan (h : Rep v A E) (hA : A.ItemsOk) (hi : i = cpuLastOneBitIndex n) :
    match scan n ((A.bucket i).take maxAllocIterations) none sizeMax with
    | .exact f => v.allocExit n = .exactFit f.item
    | .best f => v.allocExit n = .bestFit f.item (f.size - n)
    | .none => ∃ c, v.allocExit n = v.searchPast n c ∧
        Links (fun a => (v.item a).next) 0 c
          (((A.bucket i).drop maxAllocIterations).map FreeRegion.item) := by
  have hlinks := h.buckets.links i
  simp only [allocExit, ← hi, h.counters]
  by_cases hpos : 0 < min (A.bucket i).length maxAllocIterations
  · have hscan := scanBucket_spec (v := v) (n := n)
      (k := min (A.bucket i).length maxAllocIterations) (m := none) (d := sizeMax) hlinks
      (fun f hf => (h.node f (bucket_subset hf)).1) (Nat.min_le_left _ _) (by simp)
    have htake : (A.bucket i).take (min (A.bucket i).length maxAllocIterations) =
        (A.bucket i).take maxAllocIterations := by
      rw [min_comm, ← List.take_eq_take_min]
    have hdrop : (A.bucket i).drop (min (A.bucket i).length maxAllocIterations) =
        (A.bucket i).drop maxAllocIterations := by
      rcases Nat.le_total (A.bucket i).length maxAllocIterations with hle | hle
      · rw [Nat.min_eq_left hle, List.drop_length, List.drop_eq_nil_of_le hle]
      · rw [Nat.min_eq_right hle]
    rw [htake, hdrop] at hscan
    rw [if_pos hpos]
    cases hs : scan n ((A.bucket i).take maxAllocIterations) none sizeMax with
    | exact f =>
      rw [hs] at hscan
      simp only [itemOf, Option.elim_none] at hscan
      simp [hscan]
    | best f =>
      rw [hs] at hscan
      obtain ⟨c, hc⟩ := hscan
      simp only [itemOf, Option.elim_none] at hc
      have hf := ((scan_best hs).resolve_left (by simp)).1
      have h0 := (hA.ok f.item (item_mem (bucket_subset (List.mem_of_mem_take hf)))).1
      simp [hc, h0]
    | none =>
      rw [hs] at hscan
      obtain ⟨c, d, hc, hl⟩ := hscan
      simp only [itemOf, Option.elim_none] at hc
      exact ⟨c, by simp [hc], hl⟩
  · have hnil : A.bucket i = [] := by
      rw [← List.length_eq_zero_iff]
      simp only [maxAllocIterations] at hpos
      omega
    rw [if_neg hpos, hnil]
    exact ⟨0, rfl, rfl⟩

/-- **The exit `allocPages` takes is the space's choice.** -/
theorem allocExit_spec (h : Rep v A E) (hA : A.Inv v.virtualPages) :
    match A.choose v.freeListTableSize n with
    | .whole f => v.allocExit n = .exactFit f.item
    | .split f =>
      (v.allocExit n = .bestFit f.item (f.size - n) ∧
        cpuLastOneBitIndex f.size = cpuLastOneBitIndex n) ∨
      (v.allocExit n = .larger (cpuLastOneBitIndex f.size) ∧
        v.freeListTable (cpuLastOneBitIndex f.size) = f.item)
    | .rest f => v.allocExit n = .fallback f.item ∧
        cpuLastOneBitIndex f.size = cpuLastOneBitIndex n
    | .fail => v.allocExit n = .fail := by
  have hlen : (A.bucket (cpuLastOneBitIndex n)).length ≤ v.virtualPages := by
    have h1 := hA.tiles.length_le
    have h2 : (A.bucket (cpuLastOneBitIndex n)).length ≤ A.free.length :=
      List.length_filter_le _ _
    simp only [spans, List.length_append, List.length_map] at h1
    omega
  have hscan := h.allocExit_scan (n := n) hA.items rfl
  unfold choose
  simp only
  cases hs : scan n ((A.bucket (cpuLastOneBitIndex n)).take maxAllocIterations) none
      sizeMax with
  | exact f => rw [hs] at hscan; exact hscan
  | best f =>
    rw [hs] at hscan
    have hf := ((scan_best hs).resolve_left (by simp)).1
    exact Or.inl ⟨hscan, (mem_bucket.mp (List.mem_of_mem_take hf)).2⟩
  | none =>
    rw [hs] at hscan
    obtain ⟨c, hexit, hl⟩ := hscan
    have hpast := h.searchPast_spec (n := n) hA.items
      (fun f hf => bucket_subset (List.mem_of_mem_drop hf)) hl (by rw [List.length_drop]; omega)
    rw [← hexit] at hpast
    simp only
    cases hla : A.larger (v.freeListTableSize - (cpuLastOneBitIndex n + 1))
        (cpuLastOneBitIndex n + 1) with
    | some f => rw [hla] at hpast; exact Or.inr hpast
    | none =>
      rw [hla] at hpast
      simp only at hpast ⊢
      cases hr : ((A.bucket (cpuLastOneBitIndex n)).drop maxAllocIterations).find?
          fun f => n ≤ f.size with
      | some f =>
        rw [hr] at hpast
        refine ⟨hpast, ?_⟩
        exact (mem_bucket.mp (List.mem_of_mem_drop (List.mem_of_find?_eq_some hr))).2
      | none => rw [hr] at hpast; exact hpast

/-- **`allocPages` allocates in the space**, unless its last exit takes a
region larger than what was asked for. -/
theorem allocPages (h : Rep v A []) (hA : A.Inv v.virtualPages) (hn : 1 ≤ n)
    (hrest : ∀ f, A.choose v.freeListTableSize n = .rest f → f.size = n) :
    (v.allocPages n).1 = (A.alloc v.freeListTableSize n).1 ∧
      Rep (v.allocPages n).2 (A.alloc v.freeListTableSize n).2 [] := by
  have hexit := h.allocExit_spec (n := n) hA
  have hspec := choose_spec (A := A) (t := v.freeListTableSize) (n := n)
  unfold Vmm.allocPages alloc
  simp only
  cases hc : A.choose v.freeListTableSize n with
  | whole f =>
    rw [hc] at hexit hspec
    obtain ⟨hf, rfl⟩ := hspec
    simp only [hexit, (h.node f hf).2]
    exact ⟨trivial, h.takeWhole hA hf hn⟩
  | split f =>
    rw [hc] at hexit hspec
    obtain ⟨hf, hlt⟩ := hspec
    have hsplit := h.split hA hf hn hlt
    rcases hexit with ⟨hexit, hidx⟩ | ⟨hexit, htable⟩
    · rw [hidx] at hsplit
      simp only [hexit]
      exact ⟨congrArg some hsplit.1, hsplit.2⟩
    · simp only [hexit, htable, (setBusy_node _).1, (h.node f hf).1]
      exact ⟨congrArg some hsplit.1, hsplit.2⟩
  | rest f =>
    rw [hc] at hexit hspec
    obtain ⟨hexit, hidx⟩ := hexit
    obtain rfl := hrest f hc
    simp only [hexit, (h.node f hspec.1).2]
    exact ⟨trivial, h.takeWhole hA hspec.1 hn⟩
  | fail =>
    rw [hc] at hexit
    simp only [hexit]
    exact ⟨trivial, h⟩

/-! ## `freePages` -/

/-- The word of the page before a loose span names the free region that
ends there, if there is one. -/
theorem freeItemOf_before (h : Rep v A E) (hl : A.Loose V ⟨b, n⟩) (hb : 0 < b) :
    freeItemOf (v.memoryRegions (b - 1)) = itemOf (A.before b) := by
  cases hs : A.before b with
  | some f =>
    obtain ⟨hf, rfl⟩ := before_some hs
    rw [h.freeLast f hf, freeItemOf_item (hl.items.ok _ (item_mem hf)).2]
    rfl
  | none =>
    obtain ⟨r, hr, he⟩ := hl.tiles.exists_end (r := ⟨b, n⟩) (by simp) hb
    have hpos := hl.tiles.pos r hr
    simp only at he
    rcases List.mem_cons.mp hr with rfl | hr
    · simp only at he hpos; omega
    rcases List.mem_append.mp hr with hr | hr
    · rcases Nat.lt_or_ge 1 r.size with h1 | h1
      · rw [← he, h.liveLast r hr h1]
        exact freeItemOf_busyFlag
      · rw [← he, show r.base + r.size - 1 = r.base by omega]
        exact freeItemOf_busyTag (h.liveFirst r hr)
    · obtain ⟨f, hf, rfl⟩ := List.mem_map.mp hr
      exact absurd he (before_none hs f hf)

/-- And the word of the page after it the one that starts there. -/
theorem freeItemOf_after (h : Rep v A [b, b + n - 1]) (hl : A.Loose V ⟨b, n⟩) :
    freeItemOf (v.memoryRegions (b + n)) = itemOf (A.after (b + n)) := by
  have hn : 0 < n := hl.tiles.pos ⟨b, n⟩ (by simp)
  cases hs : A.after (b + n) with
  | some f =>
    obtain ⟨hf, he⟩ := after_some hs
    rw [← he, h.freeFirst f hf, freeItemOf_item (hl.items.ok _ (item_mem hf)).2]
    rfl
  | none =>
    rcases Nat.lt_or_ge (b + n) V with hV | hV
    · obtain ⟨r, hr, he⟩ := hl.tiles.exists_start (r := ⟨b, n⟩) (by simp) hV
      simp only at he
      rcases List.mem_cons.mp hr with rfl | hr
      · simp only at he; omega
      rcases List.mem_append.mp hr with hr | hr
      · rw [← he]
        exact freeItemOf_busyTag (h.liveFirst r hr)
      · obtain ⟨f, hf, rfl⟩ := List.mem_map.mp hr
        exact absurd he (after_none hs f hf)
    · -- past the last page no word was ever written
      have hzero : v.memoryRegions (b + n) = 0 := by
        refine h.inner (b + n) (by simp; omega) fun r hr => ?_
        have hend := hl.tiles.end_le (List.mem_cons_of_mem _ hr)
        have hpos := hl.tiles.pos r (List.mem_cons_of_mem _ hr)
        omega
      rw [hzero]
      exact freeItemOf_zero

/-- **The merge with the region before** is the space's. -/
theorem mergePrev (h : Rep v A [b, b + n - 1]) (hl : A.Loose V ⟨b, n⟩) :
    (v.mergePrev b).1 = (A.joinBefore ⟨b, n⟩).2.base ∧
      n + (v.mergePrev b).2.1 = (A.joinBefore ⟨b, n⟩).2.size ∧
      Rep (v.mergePrev b).2.2 (A.joinBefore ⟨b, n⟩).1
        [(A.joinBefore ⟨b, n⟩).2.base,
          (A.joinBefore ⟨b, n⟩).2.base + (A.joinBefore ⟨b, n⟩).2.size - 1] := by
  have hn : 0 < n := hl.tiles.pos ⟨b, n⟩ (by simp)
  unfold Vmm.mergePrev joinBefore
  simp only
  cases hs : A.before b with
  | none =>
    by_cases hb : 0 < b
    · have hw : ¬ freeItemOf (v.memoryRegions (b - 1)) ≠ 0 := by
        rw [h.freeItemOf_before hl hb, hs]; simp [itemOf]
      rw [if_pos hb, if_neg hw]
      exact ⟨rfl, rfl, h⟩
    · rw [if_neg hb]
      exact ⟨rfl, rfl, h⟩
  | some f =>
    obtain ⟨hf, hfb⟩ := before_some hs
    have hpos : 0 < f.size := hl.tiles.pos f.span (List.mem_cons_of_mem _ (span_mem hf))
    have hb : 0 < b := by omega
    have hw : freeItemOf (v.memoryRegions (b - 1)) = f.item := by
      rw [h.freeItemOf_before hl hb, hs]; rfl
    have h0 := (hl.items.ok f.item (item_mem hf)).1
    simp only [hw, if_pos hb, if_pos h0, (h.node f hf).1, (h.node f hf).2]
    refine ⟨trivial, trivial, (h.remove hl.items hf).retag (fun p hp => ?_) (fun p hp => ?_)
      fun p hp => ?_⟩
    · simp only [List.mem_cons, List.not_mem_nil, or_false] at hp
      refine (hl.absorb_before hf hfb).noEnd ⟨?_, ?_⟩ <;> simp only <;> omega
    · simp only [List.mem_cons, List.not_mem_nil, or_false, not_or] at hp
      have hpb : p ≠ b - 1 := by omega
      split <;> simp [update_of_ne, hp, hpb]
    · simp only [List.mem_cons, List.not_mem_nil, or_false] at hp ⊢
      rcases hp with rfl | rfl | rfl | rfl
      · exact Or.inl (Or.inl rfl)
      · by_cases h1 : 1 < f.size
        · refine Or.inr ?_
          rw [if_pos h1, show f.base + f.size - 1 = b - 1 by omega, update_self]
        · exact Or.inl (Or.inl (by omega))
      · refine Or.inr ?_
        split
        · rw [update_of_ne (by omega), update_self]
        · rw [update_self]
      · exact Or.inl (Or.inr (by omega))

/-- **The merge with the region after** is the space's. -/
theorem mergeNext (h : Rep v A [b, b + n - 1]) (hl : A.Loose V ⟨b, n⟩) :
    (A.joinAfter ⟨b, n⟩).2.base = b ∧
      n + (v.mergeNext (b + n)).1 = (A.joinAfter ⟨b, n⟩).2.size ∧
      Rep (v.mergeNext (b + n)).2 (A.joinAfter ⟨b, n⟩).1
        [b, b + (A.joinAfter ⟨b, n⟩).2.size - 1] := by
  have hn : 0 < n := hl.tiles.pos ⟨b, n⟩ (by simp)
  have hword := h.freeItemOf_after hl
  unfold Vmm.mergeNext joinAfter
  simp only
  cases hs : A.after (b + n) with
  | none =>
    rw [hs] at hword
    have h0 : ¬ freeItemOf (v.memoryRegions (b + n)) ≠ 0 := by rw [hword]; simp [itemOf]
    rw [if_neg h0]
    exact ⟨rfl, rfl, h⟩
  | some f =>
    obtain ⟨hf, hfb⟩ := after_some hs
    have hpos : 0 < f.size := hl.tiles.pos f.span (List.mem_cons_of_mem _ (span_mem hf))
    have h0 := (hl.items.ok f.item (item_mem hf)).1
    rw [hs] at hword
    simp only [itemOf, Option.elim_some] at hword
    simp only [hword, if_pos h0, (h.node f hf).1, deleteFreeRegion_pageBase, (h.node f hf).2]
    refine ⟨trivial, trivial, (h.remove hl.items hf).retag (fun p hp => ?_) (fun p hp => ?_)
      fun p hp => ?_⟩
    · simp only [List.mem_cons, List.not_mem_nil, or_false] at hp
      refine (hl.absorb_after hf hfb).noEnd ⟨?_, ?_⟩ <;> simp only <;> omega
    · simp only [List.mem_cons, List.not_mem_nil, or_false, not_or] at hp
      have hpb : p ≠ f.base - 1 := by omega
      simp [update_of_ne, hp, hpb]
    · simp only [List.mem_cons, List.not_mem_nil, or_false] at hp ⊢
      rcases hp with rfl | rfl | rfl | rfl
      · exact Or.inr (by rw [update_self])
      · exact Or.inl (Or.inr (by omega))
      · exact Or.inl (Or.inl rfl)
      · refine Or.inr ?_
        rw [update_of_ne (by omega), show b + n - 1 = f.base - 1 by omega,
          update_self]

/-- The word of a page that starts no region handed out frees nothing. -/
theorem freePages_of_notMem (h : Rep v A []) (hA : A.Inv V) (hb : b < V)
    (hnot : ∀ r ∈ A.live, r.base ≠ b) : v.freePages b = (0, v) := by
  have hword : v.memoryRegions b &&& vmmRegBusyFlag = 0 ∨ v.memoryRegions b = vmmRegBusyFlag := by
    by_cases hin : A.NoEnd b
    · rw [h.inner b (by simp) hin]
      exact Or.inl rfl
    · simp only [NoEnd, not_forall] at hin
      obtain ⟨r, hr, hin⟩ := hin
      have hpos := hA.tiles.pos r hr
      rcases List.mem_append.mp hr with hr | hr
      · have hne := hnot r hr
        have hlast : b = r.base + r.size - 1 := by
          by_contra hc
          exact hin ⟨hne.symm, hc⟩
        rw [hlast, h.liveLast r hr (by omega)]
        exact Or.inr rfl
      · obtain ⟨f, hf, rfl⟩ := List.mem_map.mp hr
        have hitem : v.memoryRegions b = f.item := by
          by_contra hc
          refine hin ⟨?_, ?_⟩
          · rintro rfl; exact hc (h.freeFirst f hf)
          · rintro rfl; exact hc (h.freeLast f hf)
        have hal := (hA.items.ok _ (item_mem hf)).2
        rw [hitem, and_two_eq]
        exact Or.inl (by omega)
  unfold Vmm.freePages
  rcases hword with hw | hw
  · simp only [hw, if_true]
  · simp only [hw]
    rfl

/-- **The stages of `freePages`**: the region is joined with the one
before and the one after, and then added. -/
theorem freePages_stages {r : Span} (h : Rep v A []) (hA : A.Inv V) (hr : r ∈ A.live) :
    ∃ (B : Space) (x : Span) (w : Vmm), Rep w B [x.base, x.base + x.size - 1] ∧ B.Loose V x ∧
      w = ((v.mergePrev r.base).2.2.mergeNext (r.base + r.size)).2 ∧
      v.freePages r.base = (r.size, w.addFreeRegion x.base x.size) ∧
      A.release r = B.add x.base x.size := by
  obtain ⟨b, n⟩ := r
  have htag := h.liveFirst _ hr
  have hpos : 0 < n := hA.tiles.pos _ (live_mem hr)
  have hloose := hA.loose hr
  obtain ⟨hbase, hsize, hrep⟩ := (h.drop hr).mergePrev hloose
  have hloose₁ := hloose.joinBefore.1
  have hend := Loose.joinBefore_end (A := A.drop ⟨b, n⟩) (r := ⟨b, n⟩)
  rcases hj : (A.drop ⟨b, n⟩).joinBefore ⟨b, n⟩ with ⟨B, b₁, n₁⟩
  rw [hj] at hbase hsize hrep hloose₁ hend
  obtain ⟨hbase', hsize', hrep'⟩ := hrep.mergeNext hloose₁
  have hloose₂ := hloose₁.joinAfter
  rcases hj' : B.joinAfter ⟨b₁, n₁⟩ with ⟨C, b₂, n₂⟩
  rw [hj'] at hbase' hsize' hrep' hloose₂
  simp only at *
  subst hbase'
  rw [hend] at hrep' hsize'
  refine ⟨C, ⟨b₂, n₂⟩, _, hrep', hloose₂, rfl, ?_, ?_⟩
  · unfold Vmm.freePages
    simp only [htag.1, if_neg htag.2, if_neg (by omega : ¬ n = 0)]
    rw [hbase, hsize, hsize']
  · simp only [release, hj, hj']

/-- **`freePages` frees in the space.** -/
theorem freePages (h : Rep v A []) (hA : A.Inv V) (hb : b < V) :
    (v.freePages b).1 = (A.freeAt b).1 ∧ Rep (v.freePages b).2 (A.freeAt b).2 [] := by
  unfold freeAt
  cases hs : A.live.find? fun r => r.base = b with
  | none =>
    rw [h.freePages_of_notMem hA hb (by simpa [List.find?_eq_none] using hs)]
    exact ⟨rfl, h⟩
  | some r =>
    have hr := List.mem_of_find?_eq_some hs
    obtain rfl : r.base = b := by simpa using List.find?_some hs
    obtain ⟨B, x, w, hrep, hloose, -, hfree, hspace⟩ := h.freePages_stages hA hr
    have hpos := hloose.tiles.pos x (List.mem_cons_self ..)
    rw [hfree]
    refine ⟨rfl, ?_⟩
    simp only [hspace]
    exact hrep.add hloose.items (hloose.noEnd (Span.holds_base hpos))
      (hloose.noEnd (Span.holds_last hpos)) hpos (fun p hp => by simpa using hp)

/-- The word of the first page of a live region has its size. -/
theorem freePages_fst {r : Span} (h : Rep v A []) (hA : A.Inv V) (hr : r ∈ A.live) :
    (v.freePages r.base).1 = r.size ∧ r.size ≠ 0 := by
  have htag := h.liveFirst r hr
  have hpos : r.size ≠ 0 := (hA.tiles.pos r (live_mem hr)).ne'
  refine ⟨?_, hpos⟩
  unfold Vmm.freePages
  simp only [htag.1, if_neg htag.2, if_neg hpos]

end Rep

end ShmDos64
