import ShmDos64.Paging.Entry
import ShmDos64.Paging.Walk
import ShmDos64.Paging.Shootdown
/-!
# The pages that are flushed

After a walk over a range `localCpuFlushTlb` invalidates the range on the
processor itself, and `tlbShootdownHandler` on the others. The walk rounds
both ends of the range to pages. The flushes step by a page from the base
as it is, so they come to as many pages as the size alone needs. A large
range is flushed at once, and below `KERNEL_VIRTUAL_BASE` that leaves the
global translations.
-/

namespace ShmDos64

/-- What a flush drops. -/
inductive TlbFlush where
  /-- Every translation: `CR4_PAGE_GLOBAL_ENABLE` is switched off and on. -/
  | full
  /-- Those without `PAGE_FLAG_GLOBAL`: `CR3` is loaded again. -/
  | notGlobal
  /-- `cpuFlushTLB` of an address in each of the pages. -/
  | pages (l : List ℕ)

/-- The flush drops the translation of the page. Only the number of the
page in the tables matters, as for a walk. -/
def TlbFlush.Drops (isGlobal : ℕ → Prop) : TlbFlush → ℕ → Prop
  | full, _ => True
  | notGlobal, page => ¬ isGlobal page
  | pages l, page => ∃ q ∈ l, q % 2 ^ 36 = page % 2 ^ 36

namespace Paging

/-- The loop over the addresses from `addr` to `stop`, for at most so many
turns: an address that wraps can be below `stop` for ever. -/
def flushLoop : ℕ → ℕ → ℕ → List ℕ
  | 0, _, _ => []
  | turns + 1, addr, stop =>
    if addr < stop then addr / pageSize :: flushLoop turns ((addr + pageSize) % 2 ^ 64) stop
    else []

/-- `cpuFullFlushTLB`. -/
def cpuFullFlushTLB (addr : ℕ) : TlbFlush :=
  if addr = 0 ∨ kernelVirtualBase ≤ addr then .full else .notGlobal

/-- `localCpuFlushTlb`. -/
def localCpuFlushTlb (turns virtualBase size : ℕ) : TlbFlush :=
  if size ≤ pageSize then .pages [virtualBase / pageSize]
  else if cpuUpdateTlbLimit ≤ size then cpuFullFlushTLB virtualBase
  else .pages (flushLoop turns virtualBase ((virtualBase + size) % 2 ^ 64))

/-- What `tlbShootdownHandler` does for an item. -/
def flushItem (turns : ℕ) (item : TlbShotdownItem) : TlbFlush :=
  .pages (flushLoop turns item.addr ((item.addr + item.size) % 2 ^ 64))

/-- `processPages` visits the entry of the page: there are tables and a
callback with which it changes. -/
def Visits (virtualBase size page : ℕ) : Prop :=
  ∃ (σ : Type) (alloc : Alloc σ) (dirFlags : UInt64) (callback : Callback σ) (root : PageDir 3)
    (st : σ) (w : Walk σ 3),
    processPages alloc virtualBase size dirFlags callback root st = some w ∧
      w.1.entry 3 page ≠ root.entry 3 page

/-- Every page a walk over the range visits is dropped, here and by the
handler of another processor; `isGlobal` says which translations have
`PAGE_FLAG_GLOBAL`. -/
def FlushesVisited (isGlobal : ℕ → Prop) (virtualBase size : ℕ) : Prop :=
  ∀ page, Visits virtualBase size page →
    (∃ turns, (localCpuFlushTlb turns virtualBase size).Drops isGlobal page) ∧
      ∃ turns, (flushItem turns ⟨virtualBase, size⟩).Drops isGlobal page

/-! ## The pages of a walk -/

/-- **The pages a walk visits** are those the range has bytes of. -/
theorem visits_iff {virtualBase size page : ℕ} (hsize : 1 ≤ size)
    (hrange : virtualBase % 2 ^ 48 + size ≤ 2 ^ 48) :
    Visits virtualBase size page ↔ ∃ q ∈ pagesOf virtualBase size, page % 2 ^ 36 = q % 2 ^ 36 := by
  constructor
  · rintro ⟨σ, alloc, dirFlags, callback, root, st, w, hw, hne⟩
    by_contra hnot
    push Not at hnot
    exact hne (((processPages_eq_processPage hsize hrange root st).2 w hw).1 page hnot)
  · rintro ⟨q, hq, hpage⟩
    -- the callback that counts, on tables of zeros
    let callback : Callback Unit := fun st e => (e + 1, st)
    obtain ⟨w, hw⟩ : ∃ w, walkRange (fun _ => some (0, ())) 1 callback 3 (virtualBase / pageSize)
        ((virtualBase + size - 1) / pageSize + 1 - virtualBase / pageSize)
        (.zero 3, (), false) = some w :=
      exists_walkRange (fun _ => ⟨_, rfl⟩) (by decide) _ _ _
    rw [← processPages_eq hsize hrange] at hw
    refine ⟨Unit, _, 1, callback, .zero 3, (), w, hw, ?_⟩
    obtain ⟨st₀, hst₀⟩ := ((processPages_eq_processPage hsize hrange _ _).2 w hw).2 q hq
    rw [entry_congr (n := 3) hpage, hst₀, entry_zero, entry_congr (n := 3) hpage, entry_zero]
    exact (by decide : (0 : UInt64) + 1 ≠ 0)

/-! ## The flush loop -/

/-- An address below the end is come to. -/
theorem mem_flushLoop {addr stop i : ℕ} (hstop : stop < 2 ^ 64) (hi : addr + i * pageSize < stop) :
    addr / pageSize + i ∈ flushLoop (i + 1) addr stop := by
  induction i generalizing addr with
  | zero =>
    rw [flushLoop, if_pos (by omega)]
    exact List.mem_cons_self ..
  | succ i ih =>
    have hnext : (addr + pageSize) % 2 ^ 64 = addr + pageSize := by
      refine Nat.mod_eq_of_lt ?_
      simp only [pageSize] at *
      omega
    have hmem : (addr + pageSize) / pageSize + i ∈ flushLoop (i + 1) (addr + pageSize) stop :=
      ih (by simp only [pageSize] at *; omega)
    rw [Nat.add_div_right _ (by decide), Nat.succ_add_eq_add_succ] at hmem
    rw [flushLoop, if_pos (by simp only [pageSize] at *; omega), hnext]
    exact List.mem_cons_of_mem _ hmem

/-- **The page too few.** From a base whose offset is past that of the
last byte, the loop does not come to the last page. -/
theorem lt_of_mem_flushLoop {turns addr stop q : ℕ} (hstop : stop < 2 ^ 64)
    (hoff : (stop - 1) % pageSize < addr % pageSize) (hq : q ∈ flushLoop turns addr stop) :
    addr / pageSize ≤ q ∧ q < (stop - 1) / pageSize := by
  induction turns generalizing addr with
  | zero => cases hq
  | succ turns ih =>
    rw [flushLoop] at hq
    split_ifs at hq with hlt
    · rcases List.mem_cons.mp hq with rfl | hq
      · simp only [pageSize] at *
        omega
      · have hnext : (addr + pageSize) % 2 ^ 64 = addr + pageSize := by
          refine Nat.mod_eq_of_lt ?_
          simp only [pageSize] at *
          omega
        rw [hnext] at hq
        have hrest := ih (by rw [Nat.add_mod_right]; exact hoff) hq
        simp only [pageSize] at *
        omega
    · cases hq

/-- **Every changed translation is flushed** just when the bytes past the
last whole page do not reach into one more page because of where the base
is in its page, the range does not end at the end of the address space,
where the end of the loops wraps to 0, and `CR3` is not loaded again for
global pages. -/
theorem flushesVisited_iff {isGlobal : ℕ → Prop} {virtualBase size : ℕ}
    (hbase : virtualBase < 2 ^ 64) (hsize : 1 ≤ size)
    (hrange : virtualBase % 2 ^ 48 + size ≤ 2 ^ 48) : FlushesVisited isGlobal virtualBase size ↔
      virtualBase % pageSize + (size - 1) % pageSize < pageSize ∧ virtualBase + size < 2 ^ 64 ∧
      (cpuUpdateTlbLimit ≤ size → virtualBase = 0 ∨ kernelVirtualBase ≤ virtualBase ∨
        ∀ page, Visits virtualBase size page → ¬ isGlobal page) := by
  have hlimit : cpuUpdateTlbLimit ≤ size → ¬ size ≤ pageSize := by
    simp only [cpuUpdateTlbLimit, pageSize]
    omega
  have hmem : ∀ q, q ∈ pagesOf virtualBase size ↔
      virtualBase / pageSize ≤ q ∧ q ≤ (virtualBase + size - 1) / pageSize := by
    intro q
    rw [pagesOf, List.mem_range'_1]
    simp only [pageSize]
    omega
  constructor
  · intro h
    have hvisit : ∀ q, q ∈ pagesOf virtualBase size → Visits virtualBase size q :=
      fun q hq => (visits_iff hsize hrange).mpr ⟨q, hq, rfl⟩
    have hlt : virtualBase + size < 2 ^ 64 := by
      by_contra hge
      have hstop : (virtualBase + size) % 2 ^ 64 = 0 := by omega
      have hfirst := hvisit (virtualBase / pageSize) ((hmem _).mpr (by simp only [pageSize]; omega))
      obtain ⟨turns, q, hq, -⟩ := (h _ hfirst).2
      rw [hstop] at hq
      cases turns with
      | zero => cases hq
      | succ turns =>
        rw [flushLoop, if_neg (Nat.not_lt_zero _)] at hq
        cases hq
    refine ⟨?_, hlt, fun hfull => ?_⟩
    swap
    · rw [← or_assoc, or_iff_not_imp_left]
      intro hlow page hpage
      obtain ⟨turns, hdrops⟩ := (h page hpage).1
      rwa [localCpuFlushTlb, if_neg (hlimit hfull), if_pos hfull, cpuFullFlushTLB,
        if_neg hlow] at hdrops
    by_contra hoff
    have hlast := hvisit ((virtualBase + size - 1) / pageSize)
      ((hmem _).mpr (by simp only [pageSize]; omega))
    obtain ⟨turns, q, hq, heq⟩ := (h _ hlast).2
    simp only [Nat.mod_eq_of_lt hlt] at hq
    have hbetween := lt_of_mem_flushLoop hlt (by simp only [pageSize] at *; omega) hq
    -- both pages are of the range, which has fewer pages than the tables
    simp only [pageSize] at *
    omega
  · rintro ⟨hoff, hlt, hglobal⟩ page hpage
    obtain ⟨q, hq, heq⟩ := (visits_iff hsize hrange).mp hpage
    have hq := (hmem q).mp hq
    obtain ⟨i, rfl⟩ : ∃ i, q = virtualBase / pageSize + i := ⟨q - virtualBase / pageSize, by omega⟩
    have hi : virtualBase + i * pageSize < virtualBase + size := by
      simp only [pageSize] at *
      omega
    have hloop := mem_flushLoop hlt hi
    refine ⟨⟨i + 1, ?_⟩, i + 1, virtualBase / pageSize + i, ?_, heq.symm⟩
    · unfold localCpuFlushTlb
      split_ifs with hone hfull
      · have hi0 : i = 0 := by simp only [pageSize] at *; omega
        subst hi0
        exact ⟨_, List.mem_cons_self .., heq.symm⟩
      · rw [cpuFullFlushTLB]
        split_ifs with hhigh
        · trivial
        · exact ((or_assoc.mpr (hglobal hfull)).resolve_left hhigh) page hpage
      · rw [Nat.mod_eq_of_lt hlt]
        exact ⟨_, hloop, heq.symm⟩
    · rw [Nat.mod_eq_of_lt hlt]
      exact hloop

/-- Two pages and a half from a quarter of a page on, all of them global. -/
theorem flushesVisited_unaligned : FlushesVisited (fun _ => True) 0xFFFFFF8000001400 0x2800 :=
  (flushesVisited_iff (by decide) (by decide) (by decide)).mpr
    ⟨by decide, by decide, fun h => absurd h (by decide)⟩

/-- **One page too few.** Two bytes on either side of a page boundary: the
walk visits both pages, and the second is not flushed on either side. -/
theorem not_flushed_straddle : Visits 0xFFFFFF8000001FFF 2 0xFFFFFF8000002 ∧
    (∀ turns, ¬ (localCpuFlushTlb turns 0xFFFFFF8000001FFF 2).Drops (fun _ => False)
      0xFFFFFF8000002) ∧
    ∀ turns, ¬ (flushItem turns ⟨0xFFFFFF8000001FFF, 2⟩).Drops (fun _ => False)
      0xFFFFFF8000002 := by
  refine ⟨(visits_iff (by decide) (by decide)).mpr ⟨0xFFFFFF8000002, by decide, rfl⟩, ?_, ?_⟩
  · rintro turns ⟨q, hq, heq⟩
    obtain rfl := List.mem_singleton.mp hq
    exact absurd heq (by decide)
  · rintro turns ⟨q, hq, heq⟩
    have hbetween := lt_of_mem_flushLoop (by decide) (by decide) hq
    obtain rfl : q = 0xFFFFFF8000001 := by
      simp only [pageSize] at hbetween
      omega
    exact absurd heq (by decide)

end Paging

/-! ## The handler's loop -/

/-- **The loop of the shootdown model's handler**: while it goes on, the
pages of `flushLoop` are flushed, and no others. -/
theorem TlbState.runs_flushLoop {ω : Type*} [DecidableEq ω] {s : TlbState ω} {addr stop : ℕ}
    {turns : ℕ} (hpc : s.pc = .flush addr stop)
    (hturns : (Paging.flushLoop turns addr stop).length = turns) :
    ∃ t, (tlbMachine ω).Runs s (List.replicate turns .handler) t ∧
      ∀ page, t.stale page ↔ s.stale page ∧ page ∉ Paging.flushLoop turns addr stop := by
  induction turns generalizing s addr with
  | zero => exact ⟨s, .nil, by simp [Paging.flushLoop]⟩
  | succ turns ih =>
    rw [Paging.flushLoop] at hturns ⊢
    split_ifs at hturns ⊢ with hlt
    · have hstep : s.handler = some { s with
          stale := fun page => s.stale page ∧ page ≠ addr / pageSize
          pc := .flush ((addr + pageSize) % 2 ^ 64) stop } := by
        rw [TlbState.handler, hpc]
        exact if_pos hlt
      obtain ⟨t, hruns, hstale⟩ := ih (s := { s with
          stale := fun page => s.stale page ∧ page ≠ addr / pageSize
          pc := .flush ((addr + pageSize) % 2 ^ 64) stop }) rfl (by simpa using hturns)
      refine ⟨t, .cons hstep hruns, fun page => ?_⟩
      rw [hstale, List.mem_cons, not_or, and_assoc]

end ShmDos64
