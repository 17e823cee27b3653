import ShmDos64.VirtualMemory.Simulate
/-!
# The regions partition the pages

Over a whole run, the regions handed out and the regions on the free
lists tile the managed pages, as long as the last exit of `allocPages`
only takes regions of the size asked for. Taking a larger one loses the
pages past the ones asked for, and a run that does is given.
-/

namespace ShmDos64

open FreeRegion Space VmmState

namespace Vmm

/-- The regions on one list, from the item on. -/
def listRegions (v : Vmm) : ℕ → ℕ → List Span
  | 0, _ => []
  | k + 1, item =>
    if item = 0 then []
    else ⟨(v.item item).pageBase, (v.item item).numPages⟩ :: listRegions v k (v.item item).next

/-- The regions `m_freeListTable` holds. -/
def freeRegions (v : Vmm) : List Span :=
  (List.range 64).flatMap fun i => v.listRegions v.virtualPages (v.freeListTable i)

end Vmm

/-- Lists sorted into classes hold what they did together. -/
theorem flatMap_filter_perm {α : Type*} [DecidableEq α] (g : α → ℕ) {l : List α} {N : ℕ}
    (hN : ∀ x ∈ l, g x < N) :
    ((List.range N).flatMap fun i => l.filter fun x => g x = i).Perm l := by
  rw [List.perm_iff_count]
  intro a
  rw [List.count_flatMap]
  by_cases ha : a ∈ l
  · have hcount : ∀ i, (List.count a ∘ fun i => l.filter fun x => g x = i) i =
        if g a = i then List.count a l else 0 := by
      intro i
      by_cases hi : g a = i
      · simp [hi, List.count_filter]
      · simp only [Function.comp_apply, if_neg hi]
        exact List.count_eq_zero_of_not_mem fun hm => hi (by simpa using (List.mem_filter.mp hm).2)
    rw [List.map_congr_left fun i _ => hcount i]
    have hsum : ∑ i ∈ Finset.range N, (if g a = i then List.count a l else 0) = List.count a l := by
      simp [hN a ha]
    exact hsum
  · have hcount : ∀ i, (List.count a ∘ fun i => l.filter fun x => g x = i) i = 0 :=
      fun i => List.count_eq_zero_of_not_mem fun hm => ha (List.mem_filter.mp hm).1
    rw [List.map_congr_left fun i _ => hcount i, List.count_eq_zero_of_not_mem ha]
    simp

namespace Rep

variable {v : Vmm} {A : Space} {E : List ℕ} {l : List FreeRegion} {k cur : ℕ}

theorem listRegions_eq (hl : Links (fun a => (v.item a).next) 0 cur (l.map FreeRegion.item))
    (hnode : ∀ f ∈ l, (v.item f.item).numPages = f.size ∧ (v.item f.item).pageBase = f.base)
    (hk : l.length ≤ k) : v.listRegions k cur = l.map span := by
  induction l generalizing cur k with
  | nil =>
    cases k with
    | zero => rfl
    | succ k => simp [Vmm.listRegions, Links.nil_iff.mp hl]
  | cons f l ih =>
    cases k with
    | zero => simp at hk
    | succ k =>
      obtain ⟨rfl, h0, hl⟩ := hl
      have hf := hnode f (by simp)
      rw [Vmm.listRegions, if_neg h0, hf.1, hf.2, List.map_cons]
      congr 1
      exact ih hl (fun g hg => hnode g (List.mem_cons_of_mem f hg)) (by simpa using hk)

/-- The free lists hold the free regions of the space. -/
theorem freeRegions_perm (h : Rep v A E) (hlen : A.free.length ≤ v.virtualPages)
    (hsize : ∀ f ∈ A.free, f.size < 2 ^ 64) : v.freeRegions.Perm (A.free.map span) := by
  have hlists : ∀ i, v.listRegions v.virtualPages (v.freeListTable i) =
      (A.bucket i).map span := by
    intro i
    have hle : (A.bucket i).length ≤ A.free.length := List.length_filter_le _ _
    exact listRegions_eq (h.buckets.links i) (fun f hf => h.node f (bucket_subset hf)) (by omega)
  have hflat : v.freeRegions =
      ((List.range 64).flatMap fun i => A.bucket i).map span := by
    unfold Vmm.freeRegions
    rw [List.map_flatMap]
    simp only [hlists]
  rw [hflat]
  refine (flatMap_filter_perm
    (fun f : FreeRegion => cpuLastOneBitIndex f.size) fun f hf => ?_).map _
  rcases Nat.eq_zero_or_pos f.size with h0 | h0
  · rw [h0]; decide +kernel
  · have h1 := pow_cpuLastOneBitIndex_le (n := f.size) (by omega)
    exact (Nat.pow_lt_pow_iff_right (by norm_num)).mp (lt_of_le_of_lt h1 (hsize f hf))

end Rep

/-! ## The run and the space -/

/-- **The simulation**: the state stands for a space that keeps its
invariant, and the regions handed out are its live ones. -/
structure VmmState.Sim (s : VmmState) (A : Space) : Prop where
  rep : Rep s.vmm A []
  inv : A.Inv s.vmm.virtualPages
  live : s.live = A.live
  pages : 1 ≤ s.vmm.virtualPages ∧ s.vmm.virtualPages < 2 ^ 52

/-- The state in which an allocation takes the last exit for a region
larger than asked for: more than 32 regions are on the list of the size
class, none of the first 32 is large enough, no larger list has a region,
and the first of the others that is large enough is larger than `n`. -/
def Vmm.ShortFallback (v : Vmm) (n : ℕ) : Prop :=
  let sizes := (v.listRegions v.virtualPages (v.freeListTable (cpuLastOneBitIndex n))).map Span.size
  (∀ m ∈ sizes.take maxAllocIterations, m < n) ∧
  (∀ j, cpuLastOneBitIndex n < j → j < v.freeListTableSize → v.freeListTable j = 0) ∧
  ∃ m, (sizes.drop maxAllocIterations).find? (fun m => n ≤ m) = some m ∧ n < m

/-- The calls that do not meet that state. -/
def VmmState.NoShortFallback (s : VmmState) : VmmCall → Prop
  | .allocPages n => ¬ s.vmm.ShortFallback n
  | .freePages _ => True

/-- What a call does to the space. -/
def Space.call (tableSize : ℕ) (A : Space) : VmmCall → Space
  | .allocPages n => (A.alloc tableSize n).2
  | .freePages base => (A.freeAt base).2

theorem Vmm.setBusyRegion_const (v : Vmm) (i x n : ℕ) :
    (v.setBusyRegion i x n).virtualPages = v.virtualPages ∧
      (v.setBusyRegion i x n).freeListTableSize = v.freeListTableSize := by
  simp [Vmm.setBusyRegion]

theorem Vmm.allocPages_const (v : Vmm) (n : ℕ) : (v.allocPages n).2.virtualPages = v.virtualPages ∧
      (v.allocPages n).2.freeListTableSize = v.freeListTableSize := by
  unfold Vmm.allocPages
  simp only
  split <;> simp [Vmm.splitRegion, Vmm.setBusyRegion]

theorem Vmm.freePages_const (v : Vmm) (b : ℕ) : (v.freePages b).2.virtualPages = v.virtualPages ∧
      (v.freePages b).2.freeListTableSize = v.freeListTableSize := by
  have hprev : ∀ v : Vmm, ∀ b, (v.mergePrev b).2.2.virtualPages = v.virtualPages ∧
      (v.mergePrev b).2.2.freeListTableSize = v.freeListTableSize := by
    intro v b
    unfold Vmm.mergePrev
    simp only
    split
    · split <;> simp
    · simp
  have hnext : ∀ v : Vmm, ∀ b, (v.mergeNext b).2.virtualPages = v.virtualPages ∧
      (v.mergeNext b).2.freeListTableSize = v.freeListTableSize := by
    intro v b
    unfold Vmm.mergeNext
    simp only
    split <;> simp
  unfold Vmm.freePages
  simp only
  split
  · simp
  · split
    · simp
    · simp [hprev, hnext]

theorem eraseP_eq_erase {α : Type*} [DecidableEq α] {q : α → Bool} {l : List α} {x : α}
    (h : l.find? q = some x) : l.eraseP q = l.erase x := by
  induction l with
  | nil => cases h
  | cons y l ih =>
    by_cases hq : q y
    · rw [List.find?_cons_of_pos hq, Option.some.injEq] at h
      subst h
      rw [List.eraseP_cons_of_pos hq, List.erase_cons_head]
    · rw [List.find?_cons_of_neg hq] at h
      have hne : y ≠ x := fun he => hq (he ▸ List.find?_some h)
      rw [List.eraseP_cons_of_neg hq, List.erase_cons_tail (by simpa using hne), ih h]

namespace VmmState.Sim

variable {s t : VmmState} {A B : Space} {c : VmmCall}

theorem joinBefore_live {r : Span} : (A.joinBefore r).1.live = A.live := by
  unfold joinBefore; split <;> rfl

theorem joinAfter_live {r : Span} : (A.joinAfter r).1.live = A.live := by
  unfold joinAfter; split <;> rfl

/-- **One call.** -/
theorem step (h : s.Sim A) (hc : s.Allowed c)
    (hrest : ∀ n, c = .allocPages n →
      ∀ f, A.choose s.vmm.freeListTableSize n = .rest f → f.size = n) :
    (s.call c).Sim (A.call s.vmm.freeListTableSize c) := by
  cases c with
  | allocPages n =>
    have hstep := h.rep.allocPages h.inv hc (hrest n rfl)
    have hconst := s.vmm.allocPages_const n
    refine ⟨hstep.2, ?_, ?_, ?_⟩
    · simp only [VmmState.call, hconst]
      exact h.inv.alloc hc (hrest n rfl)
    · simp only [VmmState.call, hstep.1, h.live, Space.call]
      unfold alloc
      split <;> simp [Space.give]
    · simp only [VmmState.call, hconst]
      exact h.pages
  | freePages base =>
    have hstep := h.rep.freePages h.inv hc
    have hconst := s.vmm.freePages_const base
    refine ⟨hstep.2, ?_, ?_, ?_⟩
    · simp only [VmmState.call, hconst]
      exact h.inv.freeAt
    · simp only [VmmState.call, hstep.1, h.live, Space.call]
      unfold freeAt
      cases hs : A.live.find? fun r => r.base = base with
      | none => rfl
      | some r =>
        have hpos := h.inv.tiles.pos r (live_mem (List.mem_of_find?_eq_some hs))
        simp only [if_neg (by omega : ¬ r.size = 0), release, add_live,
          joinAfter_live, joinBefore_live]
        exact eraseP_eq_erase hs
    · simp only [VmmState.call, hconst]
      exact h.pages

/-- **The constructor's state** stands for the one free region. -/
theorem constructed {needPages start : ℕ} (hmax : needPages * pageSize ≤ kernelMaxVirtualMemory)
    (hV : 1 ≤ (Vmm.zeroed needPages start).virtualPages) (h0 : 0 < start) (hal : pageSize ∣ start) :
    (⟨Vmm.constructed needPages start, []⟩ : VmmState).Sim
      ((⟨[], [], [], start⟩ : Space).add 0 (Vmm.zeroed needPages start).virtualPages) := by
  have hitems : (⟨[], [], [], start⟩ : Space).ItemsOk := by
    refine ⟨List.nodup_nil, by simp [items], by simp [items], ?_⟩
    simp only [pageSize] at hal
    exact ⟨h0.ne', by simp only; omega⟩
  have hloose : (⟨[], [], [], start⟩ : Space).Loose (Vmm.zeroed needPages start).virtualPages
      ⟨0, (Vmm.zeroed needPages start).virtualPages⟩ := by
    refine ⟨⟨fun r hr => ?_, fun p => ?_⟩, by simp, hitems⟩
    · rw [List.mem_singleton.mp hr]
      exact hV
    · simp [spans, cover, Span.Holds]
  have hrep : Rep (Vmm.zeroed needPages start) ⟨[], [], [], start⟩ [] := by
    refine ⟨⟨fun _ => rfl, fun _ => .nil, fun _ => List.nodup_nil, ?_⟩, fun _ => rfl, ?_, rfl, rfl,
      ?_, ?_, ?_, ?_, fun _ _ _ => rfl⟩
    · intro i j x hx
      cases hx
    all_goals intro x hx; cases hx
  have hadd := hrep.add hitems (hloose.noEnd (Span.holds_base hV))
    (hloose.noEnd (Span.holds_last hV)) hV (by simp)
  refine ⟨hadd, ?_, ?_, ?_⟩
  · simp only [Vmm.constructed, Vmm.addFreeRegion_virtualPages]
    exact hloose.settle (by simp) (by simp)
  · rfl
  · simp only [Vmm.constructed, Vmm.addFreeRegion_virtualPages, Vmm.zeroed]
    simp only [pageSize, kernelMaxVirtualMemory] at hmax
    exact ⟨hV, lt_of_le_of_lt (Nat.sub_le _ _) (by omega)⟩

theorem init (h : vmmMachine.init s) : ∃ A, s.Sim A := by
  obtain ⟨needPages, start, hmax, hV, h0, hal, rfl⟩ := h
  exact ⟨_, constructed hmax hV h0 hal⟩

/-- The condition on the last exit, read in the space. -/
theorem shortFallback_iff (h : s.Sim A) {n : ℕ} : s.vmm.ShortFallback n ↔
    ∃ f, A.choose s.vmm.freeListTableSize n = .rest f ∧ n < f.size := by
  have hlen := h.inv.tiles.length_le
  simp only [spans, List.length_append, List.length_map] at hlen
  have hbucket : (A.bucket (cpuLastOneBitIndex n)).length ≤ A.free.length :=
    List.length_filter_le _ _
  have hlist := Rep.listRegions_eq (k := s.vmm.virtualPages)
    (h.rep.buckets.links (cpuLastOneBitIndex n))
    (fun f hf => h.rep.node f (Rep.bucket_subset hf)) (by omega)
  have hsizes : (s.vmm.listRegions s.vmm.virtualPages
      (s.vmm.freeListTable (cpuLastOneBitIndex n))).map Span.size =
      (A.bucket (cpuLastOneBitIndex n)).map size := by
    rw [hlist, List.map_map]
    rfl
  have hempty : ∀ j, s.vmm.freeListTable j = 0 ↔ A.bucket j = [] := fun j => by
    rw [(h.rep.buckets.links j).head_eq_end_iff, List.map_eq_nil_iff]
  have hmax : ∀ f ∈ A.free, f.size < sizeMax := fun f hf => by
    have hle := h.inv.free_le hf
    have hpages := h.pages.2
    simp only [sizeMax]
    omega
  simp only [Vmm.ShortFallback, hsizes, hempty, ← List.map_take, ← List.map_drop,
    List.find?_map, choose_rest_iff hmax, List.forall_mem_map]
  constructor
  · rintro ⟨htake, hlarger, m, hfind, hlt⟩
    obtain ⟨f, hf, rfl⟩ := Option.map_eq_some_iff.mp hfind
    exact ⟨f, ⟨htake, hlarger, hf⟩, hlt⟩
  · rintro ⟨f, ⟨htake, hlarger, hf⟩, hlt⟩
    exact ⟨htake, hlarger, f.size, Option.map_eq_some_iff.mpr ⟨f, hf, rfl⟩, hlt⟩

theorem rest_size (h : s.Sim A) {n : ℕ} {f : FreeRegion} (hok : s.NoShortFallback (.allocPages n))
    (hc : A.choose s.vmm.freeListTableSize n = .rest f) : f.size = n := by
  have hspec := choose_spec (A := A) (t := s.vmm.freeListTableSize) (n := n)
  rw [hc] at hspec
  by_contra hne
  exact hok (h.shortFallback_iff.mpr ⟨f, hc, lt_of_le_of_ne hspec.2 (Ne.symm hne)⟩)

/-- The regions of the state are those of the space. -/
theorem regions_perm (h : s.Sim A) : (s.live ++ s.vmm.freeRegions).Perm A.spans := by
  rw [h.live]
  refine List.Perm.append_left _ (h.rep.freeRegions_perm ?_ fun f hf => ?_)
  · have hlen := h.inv.tiles.length_le
    simp only [spans, List.length_append, List.length_map] at hlen
    omega
  · have hle := h.inv.free_le hf
    have hpages := h.pages
    omega

theorem tiles (h : s.Sim A) : Tiles s.vmm.virtualPages (s.live ++ s.vmm.freeRegions) :=
  h.inv.tiles.perm h.regions_perm.symm

/-- With nothing handed out, one free region holds every page. -/
theorem freeRegions_of_live_nil (h : s.Sim A) (hnil : s.live = []) :
    s.vmm.freeRegions = [⟨0, s.vmm.virtualPages⟩] := by
  have hspans : A.spans = A.free.map span := by
    rw [spans, ← h.live, hnil, List.nil_append]
  have hperm := h.regions_perm
  rw [hspans, hnil, List.nil_append] at hperm
  refine Tiles.eq_singleton (h.inv.tiles.perm (hspans ▸ hperm.symm)) h.pages.1 fun r hr r' hr' => ?_
  obtain ⟨f, hf, rfl⟩ := List.mem_map.mp (hperm.mem_iff.mp hr)
  obtain ⟨g, hg, rfl⟩ := List.mem_map.mp (hperm.mem_iff.mp hr')
  exact h.inv.apart f hf g hg

/-- Every state of a guarded run stands for a space. -/
theorem exists_of_reachable (h : (vmmMachine.guard NoShortFallback).Reachable s) :
    ∃ A, s.Sim A := by
  refine h.invariant (fun _ => init) fun s c t ⟨A, hA⟩ ⟨hok, hallowed, ht⟩ => ?_
  subst ht
  refine ⟨_, hA.step hallowed fun n hn f hf => ?_⟩
  subst hn
  exact hA.rest_size hok hf

end VmmState.Sim

/-- **The pages are partitioned.** In every run in which no allocation
takes the last exit for a region larger than asked for, the regions handed
out and the regions on the free lists hold every page once; an allocation
overlaps no live region; and with nothing handed out the free lists hold
the one region they started with. -/
theorem allocator_partition {s : VmmState}
    (h : (vmmMachine.guard VmmState.NoShortFallback).Reachable s) :
    Tiles s.vmm.virtualPages (s.live ++ s.vmm.freeRegions) ∧
      (∀ n base, 1 ≤ n → s.NoShortFallback (.allocPages n) →
        (s.vmm.allocPages n).1 = some base →
        ∀ r ∈ s.live, ∀ p, r.Holds p → ¬ (⟨base, n⟩ : Span).Holds p) ∧
      (s.live = [] → s.vmm.freeRegions = [⟨0, s.vmm.virtualPages⟩]) := by
  obtain ⟨A, hA⟩ := VmmState.Sim.exists_of_reachable h
  refine ⟨hA.tiles, fun n base hn hok hbase r hr p hp => ?_, hA.freeRegions_of_live_nil⟩
  -- the state after the call is tiled too, with the new region beside `r`
  obtain ⟨B, hB⟩ := VmmState.Sim.exists_of_reachable
    (h.step (a := .allocPages n) ⟨hok, hn, rfl⟩)
  have hcover := hB.tiles.cover_eq p
  have hlive : (s.call (.allocPages n)).live = ⟨base, n⟩ :: s.live := by
    simp [VmmState.call, hbase]
  have hpos : 0 < cover s.live p := cover_pos_iff.mpr ⟨r, hr, hp⟩
  rw [hlive, List.cons_append, cover_cons, cover_append] at hcover
  intro hp'
  rw [if_pos hp'] at hcover
  split at hcover <;> omega

/-! ## A run that loses pages -/

/-- The call keeps the space's invariant. -/
def Space.fine (tableSize V : ℕ) (A : Space) : VmmCall → Bool
  | .allocPages n => 1 ≤ n && match A.choose tableSize n with
    | .rest f => f.size = n
    | _ => true
  | .freePages base => base < V

/-- The calls, as long as each is fine. -/
def Space.run (tableSize V : ℕ) : Space → List VmmCall → Option Space
  | A, [] => some A
  | A, c :: cs => if A.fine tableSize V c then run tableSize V (A.call tableSize c) cs else none

/-- A fine call takes no larger region at the last exit. -/
theorem VmmState.Sim.noShortFallback {s : VmmState} {A : Space} {c : VmmCall} (h : s.Sim A)
    (hfine : A.fine s.vmm.freeListTableSize s.vmm.virtualPages c) : s.NoShortFallback c := by
  cases c with
  | freePages b => trivial
  | allocPages n =>
    intro hshort
    obtain ⟨f, hf, hlt⟩ := h.shortFallback_iff.mp hshort
    simp only [fine, hf, Bool.and_eq_true, decide_eq_true_eq] at hfine
    omega

/-- A run of the space is a run of the allocator. -/
theorem VmmState.Sim.runs {s : VmmState} {A B : Space} {cs : List VmmCall} (h : s.Sim A)
    (hrun : A.run s.vmm.freeListTableSize s.vmm.virtualPages cs = some B) :
    ∃ t, (vmmMachine.guard NoShortFallback).Runs s cs t ∧ t.Sim B ∧
      t.vmm.virtualPages = s.vmm.virtualPages ∧
      t.vmm.freeListTableSize = s.vmm.freeListTableSize := by
  induction cs generalizing s A with
  | nil =>
    cases hrun
    exact ⟨s, .nil, h, rfl, rfl⟩
  | cons c cs ih =>
    rw [Space.run] at hrun
    split_ifs at hrun with hfine
    have hallowed : s.Allowed c := by
      cases c <;> simp_all [fine, Allowed]
    have hok := h.noShortFallback hfine
    have hstep := h.step hallowed (fun n hn f hf => by subst hn; exact h.rest_size hok hf)
    have hconst : (s.call c).vmm.virtualPages = s.vmm.virtualPages ∧
        (s.call c).vmm.freeListTableSize = s.vmm.freeListTableSize := by
      cases c with
      | allocPages n => exact s.vmm.allocPages_const n
      | freePages b => exact s.vmm.freePages_const b
    rw [← hconst.1, ← hconst.2] at hrun
    obtain ⟨t, hruns, hsim, hV, hT⟩ := ih hstep (by simpa only [hconst] using hrun)
    exact ⟨t, .cons ⟨hok, hallowed, rfl⟩ hruns, hsim, hV.trans hconst.1, hT.trans hconst.2⟩

/-- A kernel with 128 MiB of virtual memory. -/
def smallVmm : Vmm := Vmm.constructed 32768 0xFFFFFF8000800000

/-- The calls before the one that loses pages: a region of seven pages
and 32 of four, kept apart by single pages, the rest of the memory taken,
and then the region of seven and the 32 freed. -/
def lossSetup : List VmmCall :=
  [.allocPages 7, .allocPages 1, .allocPages 1] ++
    (List.replicate 32 [VmmCall.allocPages 4, .allocPages 1]).flatten ++
    [.allocPages 100, .allocPages 8, .allocPages 32170, .freePages 0] ++
    (List.range 32).map fun i => .freePages (9 + 5 * i)

/-- The space the constructor's state stands for. -/
def smallSpace : Space := (⟨[], [], [], 0xFFFFFF8000800000⟩ : Space).add 0 32447

/-- The space after the calls. -/
def lossSpace : Space := (smallSpace.run 16 32447 lossSetup).getD smallSpace

theorem lossSpace_run : smallSpace.run 16 32447 lossSetup = some lossSpace := by
  decide +kernel

/-- The region the next call takes. -/
def lossRegion : FreeRegion := ⟨0xFFFFFF8000800000, 0, 7⟩

theorem lossSpace_choose : lossSpace.choose 16 5 = .rest lossRegion := by
  decide +kernel

theorem smallVmm_init : vmmMachine.init ⟨smallVmm, []⟩ :=
  ⟨32768, 0xFFFFFF8000800000, by decide, by decide, by decide, by decide, rfl⟩

theorem smallVmm_const : smallVmm.virtualPages = 32447 ∧ smallVmm.freeListTableSize = 16 := by
  decide +kernel

theorem smallVmm_sim : (⟨smallVmm, []⟩ : VmmState).Sim smallSpace :=
  Sim.constructed (by decide) (by decide) (by decide) (by decide)

/-- The state the calls lead to. -/
theorem exists_lossState : ∃ t : VmmState,
    (vmmMachine.guard NoShortFallback).Runs ⟨smallVmm, []⟩ lossSetup t ∧
    t.Sim lossSpace ∧ t.vmm.virtualPages = 32447 ∧ t.vmm.freeListTableSize = 16 := by
  have hconst := smallVmm_const
  have hrun : smallSpace.run smallVmm.freeListTableSize smallVmm.virtualPages lossSetup =
      some lossSpace := by
    rw [hconst.1, hconst.2]
    exact lossSpace_run
  obtain ⟨t, hruns, hsim, hV, hT⟩ := smallVmm_sim.runs hrun
  exact ⟨t, hruns, hsim, hV.trans hconst.1, hT.trans hconst.2⟩

/-- The state before that call, with 33 regions of one size class free, is
one the partition covers. -/
theorem allocator_partition_lossSetup : ∃ t : VmmState,
    (vmmMachine.guard VmmState.NoShortFallback).Reachable t ∧
    Tiles t.vmm.virtualPages (t.live ++ t.vmm.freeRegions) := by
  obtain ⟨t, hruns, -⟩ := exists_lossState
  have hinit : (vmmMachine.guard VmmState.NoShortFallback).Reachable ⟨smallVmm, []⟩ :=
    .init smallVmm_init
  have hreach := hinit.runs hruns
  exact ⟨t, hreach, (allocator_partition hreach).1⟩

/-- The call takes the last exit, and five of the seven pages become
busy. -/
theorem VmmState.Sim.allocPages_lossSpace {s : VmmState} (hsim : s.Sim lossSpace)
    (hT : s.vmm.freeListTableSize = 16) :
    s.vmm.allocPages 5 = (some 0, s.vmm.setBusyRegion (cpuLastOneBitIndex 5) lossRegion.item 5) ∧
      Rep (s.vmm.setBusyRegion (cpuLastOneBitIndex 5) lossRegion.item 5)
        ((lossSpace.remove lossRegion).give ⟨0, 5⟩) [6] := by
  have hexit := hsim.rep.allocExit_spec (n := 5) hsim.inv
  have hspec := choose_spec (A := lossSpace) (t := 16) (n := 5)
  rw [hT, lossSpace_choose] at hexit
  rw [lossSpace_choose] at hspec
  have hrep := hsim.rep.setBusy (E := [6]) (n := 5) hsim.inv hspec.1 (by decide) (by decide)
    (Or.inr (by decide))
  rw [hexit.2] at hrep
  refine ⟨?_, hrep⟩
  simp only [Vmm.allocPages, hexit.1, (hsim.rep.node _ hspec.1).2]
  rfl

/-- **The last exit loses pages**: it makes five pages of a region of
seven busy, and the sixth is in no region after it. -/
theorem allocator_loses_pages : ∃ t : VmmState,
    vmmMachine.init ⟨smallVmm, []⟩ ∧
    vmmMachine.Runs ⟨smallVmm, []⟩ (lossSetup ++ [.allocPages 5]) t ∧
    5 < t.vmm.virtualPages ∧ cover (t.live ++ t.vmm.freeRegions) 5 = 0 := by
  obtain ⟨s, hruns, hsim, hV, hT⟩ := exists_lossState
  obtain ⟨hcall, hrep⟩ := hsim.allocPages_lossSpace hT
  refine ⟨s.call (.allocPages 5), smallVmm_init,
    hruns.of_guard.append (.cons ⟨(by decide : 1 ≤ 5), rfl⟩ .nil), ?_, ?_⟩
  · simp only [VmmState.call, s.vmm.allocPages_const, hV]
    decide
  · simp only [VmmState.call, hcall, hsim.live]
    have hperm := hrep.freeRegions_perm
      (by rw [(Vmm.setBusyRegion_const _ _ _ _).1, hV]; decide +kernel) (by decide +kernel)
    rw [cover_perm (List.Perm.append_left _ hperm)]
    decide +kernel

end ShmDos64
