import ShmDos64.VirtualMemory.Managed
/-!
# The protection of pages

`setPagesFlags` is to set the access bits of the pages of a live region.
It gives the index of the first page to the paging manager in the place of
its address, so that it sets the bits of pages at the bottom of the
address space; and without `VMM_NOACCESS` and `VMM_READONLY` it assigns
the new bits to the variable of the request. The pages come out as asked
just when the tables had the right bits before.
-/

namespace ShmDos64

open VmManager (protectFlags protectMask)

/-- The bits that the request demands of an entry: the first of the access
flags that is there counts, and read and write is the default. -/
def demandedFlags (flags : ℕ) : UInt64 :=
  (if flags &&& vmmNoaccess ≠ 0 then 0
    else if flags &&& vmmReadonly ≠ 0 then pageFlagPresent
    else pageFlagPresent ||| pageFlagWrite) |||
    if flags &&& vmmNocache ≠ 0 then pageFlagCacheDisable else 0

/-- The entries of `count` pages from `start` on have the demanded bits and
their other bits as before, and no other entry has changed. -/
structure PageDir.Protected (root root' : PageDir 3) (start count flags : ℕ) : Prop where
  page : ∀ i < count, root'.entry 3 (start + i) =
    Paging.setFlags protectMask (demandedFlags flags) (root.entry 3 (start + i))
  outside : ∀ page, ¬ Paging.InPages start count page → root'.entry 3 page = root.entry 3 page

/-- The pages that the call changes: those from the address `base` on. -/
def strayPages (base numPages : ℕ) : ℕ :=
  if numPages = 0 then 0 else Paging.pageCount base (numPages * pageSize)

theorem demandedFlags_and (flags : ℕ) : demandedFlags flags &&& ~~~protectMask = 0 := by
  unfold demandedFlags
  split_ifs <;> decide

theorem protectFlags_and (flags : ℕ) : protectFlags flags &&& ~~~protectMask = 0 := by
  unfold protectFlags
  split_ifs <;> decide

/-- Bits that are set to what they are. -/
theorem setFlags_eq_self_iff {mask flags e : UInt64} (h : flags &&& ~~~mask = 0) :
    Paging.setFlags mask flags e = e ↔ e &&& mask = flags := by
  have hflags : flags &&& mask = flags := by
    have hsplit := uint64_or_and mask (~~~mask) flags
    rw [UInt64.or_not_self, UInt64.neg_one_and, UInt64.and_comm (~~~mask), h, UInt64.or_zero,
      UInt64.and_comm] at hsplit
    exact hsplit.symm
  have hcut : e &&& ~~~mask &&& mask = 0 := by
    rw [UInt64.and_assoc, UInt64.not_and_self, UInt64.and_zero]
  unfold Paging.setFlags
  constructor
  · intro heq
    rw [← heq, uint64_or_and, hcut, hflags, UInt64.zero_or]
  · rintro rfl
    have hsplit := uint64_or_and (~~~mask) mask e
    rw [UInt64.not_or_self, UInt64.neg_one_and, UInt64.and_comm (~~~mask),
      UInt64.and_comm mask] at hsplit
    exact hsplit.symm

section Calls

variable {s : VmState} {A : Space} {r : Span} {size flags : ℕ}

/-- What the call does for a live region: it changes the pages from the
address `r.base` on. -/
theorem VmState.Ok.setPagesFlags (h : s.Ok A) (hr : r ∈ s.live) (hsize : size ≤ r.size * pageSize)
    (hram : 3 * strayPages r.base (VmManager.numPages size) ≤ s.mgr.ram.length) :
    ∃ m, s.mgr.setPagesFlags (s.mgr.virtualBase + r.base * pageSize) size flags = some (true, m) ∧
      Paging.Updates (r.base / pageSize) (strayPages r.base (VmManager.numPages size))
        (fun _ => Paging.setFlags protectMask (protectFlags flags)) s.mgr.root m.root := by
  obtain ⟨hpos, hend⟩ := h.sim.end_le hr
  obtain ⟨-, hin, hlo, hhi⟩ := h.range hend
  have htag := h.sim.rep.liveFirst r (h.sim.mem_space hr)
  have hnum : VmManager.numPages size = (size + pageMask) / pageSize := by
    unfold VmManager.numPages
    simp only [pageSize, pageMask] at *
    omega
  have hstop : (s.mgr.virtualBase + r.base * pageSize - s.mgr.virtualBase + size + pageMask) %
      2 ^ 64 / pageSize = r.base + VmManager.numPages size := by
    rw [hnum]
    simp only [kernelVirtualBase, pageSize, pageMask] at *
    omega
  have hbase : (s.mgr.virtualBase + r.base * pageSize - s.mgr.virtualBase) / pageSize = r.base := by
    rw [Nat.add_sub_cancel_left, Nat.mul_div_cancel _ (by decide)]
  have hle : VmManager.numPages size ≤ r.size := by
    rw [hnum]
    simp only [pageSize, pageMask] at *
    omega
  have hpages : (r.base + VmManager.numPages size + 2 ^ 64 - r.base) % 2 ^ 64 =
      VmManager.numPages size := by
    have hlt := h.sim.pages.2
    simp only at hlt
    omega
  have hrange : r.base % 2 ^ 48 + VmManager.numPages size * pageSize ≤ 2 ^ 48 := by
    have hlt := h.pages_lt.1
    simp only [pageSize]
    omega
  unfold VmManager.setPagesFlags
  simp only [hstop, hbase, hpages]
  rw [if_neg (by omega), if_neg (by omega), if_neg htag.2, if_neg (by rw [htag.1]; omega)]
  unfold strayPages at *
  split_ifs at * with h0
  · rw [h0, Nat.zero_mul]
    exact ⟨_, rfl, Paging.updates_zero ..⟩
  · have hone : 1 ≤ VmManager.numPages size * pageSize := by
      simp only [pageSize]
      omega
    obtain ⟨w, hw⟩ : ∃ w, Paging.setPagesFlags r.base (VmManager.numPages size * pageSize)
        protectMask (protectFlags flags) s.mgr.root s.mgr.ram = some w :=
      Paging.exists_setPagesFlags hone hrange hram
    exact ⟨_, by rw [hw]; rfl, Paging.setPagesFlags_updates hone hrange hw⟩

/-- **The protection comes out as asked** just when the entries of the
pages have the demanded bits before the call, and those of the pages that
the call changes the bits that it sets. The region is live, in a run
without the last exit of `allocPages` for a larger region, and there is
RAM for the tables. -/
theorem setPagesFlags_protects_iff (hs : (vmMachine.guard VmState.NoShortFallback).Reachable s)
    (hr : r ∈ s.live) (hsize : size ≤ r.size * pageSize)
    (hram : 3 * strayPages r.base (VmManager.numPages size) ≤ s.mgr.ram.length) :
    (∃ m, s.mgr.setPagesFlags (s.mgr.virtualBase + r.base * pageSize) size flags = some (true, m) ∧
      s.mgr.root.Protected m.root (s.mgr.virtualBase / pageSize + r.base)
        (VmManager.numPages size) flags) ↔
    (∀ i < VmManager.numPages size,
      s.mgr.root.entry 3 (s.mgr.virtualBase / pageSize + r.base + i) &&& protectMask =
        demandedFlags flags) ∧
    ∀ i < strayPages r.base (VmManager.numPages size),
      s.mgr.root.entry 3 (r.base / pageSize + i) &&& protectMask = protectFlags flags := by
  obtain ⟨A, hA⟩ := VmState.Ok.exists_of_reachable hs
  obtain ⟨m, hcall, hupd⟩ := @VmState.Ok.setPagesFlags s A r size flags hA hr hsize hram
  -- the two sets of pages are apart: one is at the top of the tables, the other at the bottom
  have hapart : ∀ i < VmManager.numPages size,
      ∀ j < strayPages r.base (VmManager.numPages size),
      (s.mgr.virtualBase / pageSize + r.base + i) % 2 ^ 36 ≠ (r.base / pageSize + j) % 2 ^ 36 := by
    intro i hi j hj
    obtain ⟨hV, hlow, hhigh⟩ := hA.pages_lt
    have hend := (hA.sim.end_le hr).2
    have hnum : VmManager.numPages size ≤ (size + pageMask) / pageSize :=
      Nat.div_le_div_right (Nat.mod_le _ _)
    unfold strayPages Paging.pageCount at hj
    split_ifs at hj with h0
    · exact absurd hj (Nat.not_lt_zero j)
    have hle : VmManager.numPages size ≤ r.size := by
      simp only [pageSize, pageMask] at hnum hsize
      omega
    have hbottom : r.base / pageSize + j < 2 ^ 28 := by
      simp only [pageSize] at hj ⊢
      omega
    have htop : ∀ page, 2 ^ 52 - 2 ^ 27 ≤ page → page < 2 ^ 52 → 2 ^ 28 ≤ page % 2 ^ 36 := by
      intro page hlo hhi
      omega
    have hpage := htop (s.mgr.virtualBase / pageSize + r.base + i) (by omega) (by omega)
    rw [Nat.mod_eq_of_lt (a := r.base / pageSize + j) (by omega)]
    omega
  constructor
  · rintro ⟨m', hcall', hprot⟩
    obtain rfl : m = m' := by
      rw [hcall] at hcall'
      exact (Prod.mk.inj (Option.some.inj hcall')).2
    refine ⟨fun i hi => ?_, fun j hj => ?_⟩
    · rw [← setFlags_eq_self_iff (demandedFlags_and flags), ← hprot.page i hi]
      exact hupd.outside _ fun ⟨j, hj, heq⟩ => hapart i hi j hj heq
    · rw [← setFlags_eq_self_iff (protectFlags_and flags), ← hupd.page j hj]
      exact hprot.outside _ fun ⟨i, hi, heq⟩ => hapart i hi j hj heq.symm
  · rintro ⟨hdemanded, hstray⟩
    -- nothing is changed at all
    have hsame : ∀ page, m.root.entry 3 page = s.mgr.root.entry 3 page := by
      intro page
      by_cases hin : Paging.InPages (r.base / pageSize)
          (strayPages r.base (VmManager.numPages size)) page
      · obtain ⟨j, hj, heq⟩ := hin
        rw [Paging.entry_eq heq, Paging.entry_eq heq, hupd.page j hj]
        exact (setFlags_eq_self_iff (protectFlags_and flags)).mpr (hstray j hj)
      · exact hupd.outside page hin
    refine ⟨m, hcall, fun i hi => ?_, fun page _ => hsame page⟩
    rw [hsame, (setFlags_eq_self_iff (demandedFlags_and flags)).mpr (hdemanded i hi)]

/-- A reserved region that is to have no access. -/
theorem setPagesFlags_protects_noaccess : ∃ s m,
    (vmMachine.guard VmState.NoShortFallback).Reachable s ∧ ⟨0, 2⟩ ∈ s.live ∧
    s.mgr.setPagesFlags s.mgr.virtualBase 0x1800 vmmNoaccess = some (true, m) ∧
    s.mgr.root.Protected m.root (s.mgr.virtualBase / pageSize) 2 vmmNoaccess := by
  have hcall : (smallVmState.call (.alloc 0x2000 0)).map (fun s => (s.live, s.mgr.ram.length,
      (List.range 2).all fun i => s.mgr.root.entry 3 (s.mgr.virtualBase / pageSize + i) == 0 &&
        s.mgr.root.entry 3 i == 0)) = some ([⟨0, 2⟩], 8, true) := by decide +kernel
  obtain ⟨s, hcall, heq⟩ := Option.map_eq_some_iff.mp hcall
  simp only [Prod.mk.injEq, List.all_eq_true, List.mem_range, Bool.and_eq_true, beq_iff_eq] at heq
  obtain ⟨hlive, hram, hentries⟩ := heq
  have hreach : (vmMachine.guard VmState.NoShortFallback).Reachable s :=
    smallVmState_reachable.step (a := .alloc 0x2000 0)
      ⟨smallVmm_noShortFallback (by decide), (by decide : 0x2000 < 2 ^ 64), hcall⟩
  have hmem : (⟨0, 2⟩ : Span) ∈ s.live := by
    rw [hlive]
    exact List.mem_cons_self ..
  obtain ⟨m, hset, hprot⟩ := (@setPagesFlags_protects_iff s ⟨0, 2⟩ 0x1800 vmmNoaccess
    hreach hmem (by decide) (by rw [hram]; decide)).mpr
    ⟨fun i hi => by rw [Nat.add_zero, (hentries i hi).1]; decide, fun i hi => by
      rw [Nat.zero_div, Nat.zero_add, (hentries i hi).2]; decide⟩
  exact ⟨s, m, hreach, hmem, hset, hprot⟩

/-- **The wrong page.** A committed page that is to be read only keeps its
`PAGE_FLAG_WRITE`, and the page at the address 0 becomes present. -/
theorem setPagesFlags_wrong_page : ∃ s m, vmMachine.init smallVmState ∧
    vmMachine.Runs smallVmState [.alloc 0x1000 (vmmReadwrite ||| vmmCommit)] s ∧
    ⟨0, 1⟩ ∈ s.live ∧
    s.mgr.setPagesFlags s.mgr.virtualBase 0x1000 vmmReadonly = some (true, m) ∧
    m.root.entry 3 (s.mgr.virtualBase / pageSize) &&& pageFlagWrite ≠ 0 ∧
    s.mgr.root.entry 3 0 = 0 ∧ m.root.entry 3 0 = pageFlagPresent := by
  have hcall : (smallVmState.call (.alloc 0x1000 (vmmReadwrite ||| vmmCommit))).bind (fun s =>
      (s.mgr.setPagesFlags s.mgr.virtualBase 0x1000 vmmReadonly).map fun r =>
        (s.live, r.1, r.2.root.entry 3 (s.mgr.virtualBase / pageSize), s.mgr.root.entry 3 0,
          r.2.root.entry 3 0)) =
      some ([⟨0, 1⟩], true, 0x100103, 0, 1) := by decide +kernel
  obtain ⟨s, hcall, hrest⟩ := Option.bind_eq_some_iff.mp hcall
  obtain ⟨⟨b, m⟩, hset, heq⟩ := Option.map_eq_some_iff.mp hrest
  simp only [Prod.mk.injEq] at heq
  obtain ⟨hlive, rfl, hentry, hbefore, hafter⟩ := heq
  refine ⟨s, m, smallVmState_init, .cons ⟨(by decide : 0x1000 < 2 ^ 64), hcall⟩ .nil, ?_, hset, ?_,
    hbefore, hafter⟩
  · rw [hlive]
    exact List.mem_cons_self ..
  · rw [hentry]
    decide

end Calls

end ShmDos64
