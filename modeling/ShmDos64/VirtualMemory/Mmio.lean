import ShmDos64.VirtualMemory.Managed
/-!
# Device memory

`mapMmio` maps the pages of a device's registers, which may start inside a
page, and `unmapMmio` takes them back. The offset of the base in its page
stays in the entries that `mapMmio` writes, next to the flags, and
`unmapMmio` gives the number of pages to `setPagesFlags` as the number of
bytes; the conditions say when neither is seen.
-/

namespace ShmDos64

open VmManager (alignSize mmioFlags numPages)
open Paging

/-- The entry of the page of the address has the physical page of `phys`
in its address bits, and the flags in its low 12 bits. -/
def PageDir.MapsTo (root : PageDir 3) (addr : ℕ) (phys flags : UInt64) : Prop :=
  root.entry 3 (addr / pageSize) &&& ~~~0xFFF = phys &&& ~~~0xFFF ∧
    root.entry 3 (addr / pageSize) &&& 0xFFF = flags

section Entries

variable {mmioBase : UInt64} {memoryType : MemoryType}

theorem mmioFlags_and (memoryType : MemoryType) :
    mmioFlags memoryType &&& ~~~0xFFF = 0 ∧ mmioFlags memoryType &&& 0xFFF = mmioFlags memoryType ∧
      mmioFlags memoryType &&& pageFlagPresent ≠ 0 := by
  cases memoryType <;> decide

/-- The address bits of an entry that `mapMmio` writes. -/
theorem mmioEntry_address {i k : ℕ} (hend : mmioBase.toNat + k < 2 ^ 48)
    (hi : i = (mmioBase.toNat % pageSize + k) / pageSize) :
    ((mmioBase + 0x1000 * UInt64.ofNat i) ||| mmioFlags memoryType) &&& ~~~0xFFF =
      (mmioBase + UInt64.ofNat k) &&& ~~~0xFFF := by
  rw [uint64_or_and, (mmioFlags_and memoryType).1, UInt64.or_zero]
  apply UInt64.toNat_inj.mp
  rw [uint64_toNat_and_not_mask, uint64_toNat_and_not_mask, UInt64.toNat_add, UInt64.toNat_add,
    UInt64.toNat_mul, UInt64.toNat_ofNat', UInt64.toNat_ofNat']
  change (mmioBase.toNat + 0x1000 * (i % 2 ^ 64) % 2 ^ 64) % 2 ^ 64 / pageSize * pageSize = _
  simp only [pageSize] at *
  omega

/-- And its low bits: the offset of the base stays in them. -/
theorem mmioEntry_flags (i : ℕ) :
    ((mmioBase + 0x1000 * UInt64.ofNat i) ||| mmioFlags memoryType) &&& 0xFFF =
      (mmioBase &&& 0xFFF) ||| mmioFlags memoryType := by
  have hlow : (mmioBase + 0x1000 * UInt64.ofNat i) &&& 0xFFF = mmioBase &&& 0xFFF := by
    apply UInt64.toNat_inj.mp
    rw [VmState.Ok.and_mask_toNat, VmState.Ok.and_mask_toNat, UInt64.toNat_add, UInt64.toNat_mul,
      UInt64.toNat_ofNat']
    change (mmioBase.toNat + 0x1000 * (i % 2 ^ 64) % 2 ^ 64) % 2 ^ 64 % pageSize = _
    simp only [pageSize]
    omega
  rw [uint64_or_and, hlow, (mmioFlags_and memoryType).2.1]

theorem mmioEntry_present (i : ℕ) :
    ((mmioBase + 0x1000 * UInt64.ofNat i) ||| mmioFlags memoryType) &&& pageFlagPresent ≠ 0 := by
  rw [uint64_or_and, Ne, UInt64.or_eq_zero_iff]
  exact fun h => (mmioFlags_and memoryType).2.2 h.2

theorem alignSize_eq {size : ℕ} (hend : mmioBase.toNat + size ≤ 2 ^ 48) :
    alignSize mmioBase size = mmioBase.toNat % pageSize + size := by
  have hmod := Nat.mod_lt mmioBase.toNat (show 0 < pageSize by decide)
  rw [alignSize, VmState.Ok.and_mask_toNat]
  simp only [pageSize] at *
  omega

end Entries

section Calls

variable {s : VmState} {mmioBase : UInt64} {size p : ℕ} {memoryType : MemoryType} {m : VmManager}

/-- **`mapMmio` maps what was asked** just when the offset of the base has
no bits that are not among the flags: in a run without the last exit of
`allocPages` for a larger region, the entry of every byte of the returned
range has the byte's physical page, and its low bits are the flags and the
offset. -/
theorem mapMmio_mapsTo_iff (hs : (vmMachine.guard VmState.NoShortFallback).Reachable s)
    (hsize : 1 ≤ size) (hend : mmioBase.toNat + size ≤ 2 ^ 48)
    (hok : s.NoShortFallback (.mapMmio mmioBase size memoryType))
    (hcall : s.mgr.mapMmio mmioBase size memoryType = some (p, m)) (hp : p ≠ 0) :
    (∀ k < size, m.root.MapsTo (p + k) (mmioBase + UInt64.ofNat k) (mmioFlags memoryType)) ↔
      (mmioBase &&& 0xFFF) ||| mmioFlags memoryType = mmioFlags memoryType := by
  obtain ⟨A, hA⟩ := VmState.Ok.exists_of_reachable hs
  rcases hA.mapMmio hok hcall with ⟨rfl, -⟩ | ⟨base, hn, rfl, hvb, hupd, -⟩
  · exact absurd rfl hp
  have halign := alignSize_eq hend
  have hlt : alignSize mmioBase size < 2 ^ 64 := Nat.mod_lt _ (by decide)
  obtain ⟨-, hnum⟩ := VmManager.numPages_eq hlt hn
  -- the entry of the byte `k`
  have hentry : ∀ k < size, m.root.entry 3
      ((s.mgr.virtualBase + base * pageSize + mmioBase.toNat % pageSize + k) / pageSize) =
      (mmioBase + 0x1000 * UInt64.ofNat ((mmioBase.toNat % pageSize + k) / pageSize)) |||
        mmioFlags memoryType := by
    intro k hk
    have hpage : (s.mgr.virtualBase + base * pageSize + mmioBase.toNat % pageSize + k) / pageSize =
        s.mgr.virtualBase / pageSize + base + (mmioBase.toNat % pageSize + k) / pageSize := by
      have hdvd := hA.aligned
      simp only [pageSize] at *
      omega
    rw [hpage]
    refine hupd.page _ ?_
    rw [hnum, halign]
    simp only [pageSize, pageMask]
    omega
  constructor
  · intro h
    have hzero := (h 0 (by omega)).2
    rwa [hentry 0 (by omega), mmioEntry_flags] at hzero
  · intro hflags k hk
    refine ⟨?_, ?_⟩
    · rw [hentry k hk]
      exact mmioEntry_address (by omega) rfl
    · rw [hentry k hk, mmioEntry_flags, hflags]

/-- The registers of a device at the start of a page. -/
theorem mapMmio_mapsTo_aligned : ∃ p m,
    smallVmState.mgr.mapMmio 0xFEC00000 0x1800 .cacheDisabled = some (p, m) ∧ p ≠ 0 ∧
    ∀ k < 0x1800, m.root.MapsTo (p + k) (0xFEC00000 + UInt64.ofNat k) 0x113 := by
  have hcall : (smallVmState.mgr.mapMmio 0xFEC00000 0x1800 .cacheDisabled).map Prod.fst =
      some 0xFFFFFF8000900000 := by decide +kernel
  obtain ⟨⟨p, m⟩, hcall, rfl⟩ := Option.map_eq_some_iff.mp hcall
  refine ⟨_, m, hcall, by decide, ?_⟩
  exact (mapMmio_mapsTo_iff smallVmState_reachable (by decide) (by decide)
    (smallVmm_noShortFallback (by decide)) hcall (by decide)).mpr (by decide)

/-- **A stray bit.** Registers at the offset 0x10 of a page, asked for with
the default memory type, are mapped with `PAGE_FLAG_CACHE_DISABLE`. -/
theorem mapMmio_stray_bit : ∃ p m, vmMachine.init smallVmState ∧
    smallVmState.mgr.mapMmio 0xFEC00010 0x20 .default = some (p, m) ∧ p ≠ 0 ∧
    m.root.entry 3 (p / pageSize) &&& 0xFFF = 0x113 ∧ mmioFlags .default = 0x103 := by
  have hcall : (smallVmState.mgr.mapMmio 0xFEC00010 0x20 .default).map
      (fun r => (r.1, r.2.root.entry 3 (r.1 / pageSize))) =
      some (0xFFFFFF8000900010, 0xFEC00113) := by decide +kernel
  obtain ⟨⟨p, m⟩, hcall, heq⟩ := Option.map_eq_some_iff.mp hcall
  obtain ⟨rfl, hentry⟩ := Prod.mk.inj heq
  refine ⟨_, m, smallVmState_init, hcall, by decide, ?_, by decide⟩
  rw [hentry]
  decide

/-- `unmapMmio` has undone a `mapMmio` of `n` pages from `base` on: no page
of the region is present, every other entry is as it was, and the region is
free again. -/
structure VmState.Undone (s : VmState) (m : VmManager) (base n : ℕ) : Prop where
  cleared : ∀ i < n,
    m.root.entry 3 (s.mgr.virtualBase / pageSize + base + i) &&& pageFlagPresent = 0
  outside : ∀ page, ¬ Paging.InPages (s.mgr.virtualBase / pageSize + base) n page →
    m.root.entry 3 page = s.mgr.root.entry 3 page
  free : ∀ i < n, ∃ f ∈ m.vmm.freeRegions, f.Holds (base + i)

/-- The pages of a region that has been given back are free. -/
theorem VmmState.Sim.exists_free {v v' : Vmm} {live : List Span} {A B : Space} {r : Span}
    (h : (⟨v, r :: live⟩ : VmmState).Sim A) (h' : (⟨v', live⟩ : VmmState).Sim B)
    (hpages : v'.virtualPages = v.virtualPages) {q : ℕ} (hq : r.Holds q) :
    ∃ f ∈ v'.freeRegions, f.Holds q := by
  have hlt : q < v.virtualPages := h.tiles.lt_of_holds (List.mem_cons_self ..) hq
  have hcover := h.tiles.cover_eq q
  simp only [List.cons_append, cover_cons, cover_append, if_pos hq, if_pos hlt] at hcover
  obtain ⟨f, hf, hfq⟩ := h'.tiles.exists_holds (p := q) (by simp only [hpages]; exact hlt)
  rcases List.mem_append.mp hf with hf | hf
  · have hpos := cover_pos_iff.mpr ⟨f, hf, hfq⟩
    simp only at hpos
    omega
  · exact ⟨f, hf, hfq⟩

/-- **What `unmapMmio` clears**: as many pages as the number of pages has
bytes. -/
theorem VmState.Ok.unmapMmio {t : VmState} {A : Space} (h : t.Ok A) {base n off : ℕ}
    (hmem : ⟨base, n⟩ ∈ t.live) (hoff : off < pageSize)
    (htable : ∀ i < n, t.mgr.root.HasTable 3 (t.mgr.virtualBase / pageSize + base + i)) :
    ∃ m', t.mgr.unmapMmio (t.mgr.virtualBase + base * pageSize + off) = some (true, m') ∧
      m'.vmm = (t.mgr.vmm.freePages base).2 ∧
      Updates (t.mgr.virtualBase / pageSize + base) ((off + n - 1) / pageSize + 1)
        (fun _ _ => 0) t.mgr.root m'.root := by
  obtain ⟨hpos, hend⟩ := h.sim.end_le hmem
  simp only at hpos hend
  have hdvd := h.aligned
  have hbase : (t.mgr.virtualBase + base * pageSize + off - t.mgr.virtualBase) / pageSize =
      base := by
    simp only [pageSize] at *
    omega
  have hstart : (t.mgr.virtualBase + base * pageSize + off) / pageSize =
      t.mgr.virtualBase / pageSize + base := by
    simp only [pageSize] at *
    omega
  have hcount : pageCount (t.mgr.virtualBase + base * pageSize + off) n =
      (off + n - 1) / pageSize + 1 := by
    unfold pageCount
    simp only [pageSize] at *
    omega
  have hsize : (t.mgr.vmm.freePages base).1 = n :=
    (h.sim.rep.freePages_fst h.sim.inv (h.sim.mem_space hmem)).1
  obtain ⟨-, hin, hlo, hhi⟩ := h.range hend
  unfold VmManager.unmapMmio
  simp only [hbase, hsize]
  rw [if_neg (by omega), if_neg (by omega), if_neg (by omega)]
  split_ifs with hone
  · obtain ⟨w, hw⟩ : ∃ w, mapPage (t.mgr.virtualBase + base * pageSize + off) 0 0
        t.mgr.root t.mgr.ram = some w :=
      exists_processPage (by rw [hstart]; exact htable 0 hpos)
    have hupd := mapPage_updates hw
    rw [hstart, UInt64.or_self] at hupd
    have hn1 : (off + n - 1) / pageSize + 1 = 1 := by
      simp only [pageSize] at *
      omega
    rw [hn1]
    exact ⟨_, by rw [hw]; rfl, rfl, hupd⟩
  · have hrange : (t.mgr.virtualBase + base * pageSize + off) % 2 ^ 48 + n ≤ 2 ^ 48 := by
      simp only [kernelVirtualBase, pageSize] at *
      omega
    have hzero : ∀ e, setFlags 0xFFFFFFFFFFFFFFFF 0 e = 0 := by
      intro e
      rw [setFlags, show ~~~(0xFFFFFFFFFFFFFFFF : UInt64) = 0 by decide, UInt64.and_zero]
      rfl
    obtain ⟨w, hw⟩ : ∃ w, setPagesFlags (t.mgr.virtualBase + base * pageSize + off) n
        0xFFFFFFFFFFFFFFFF 0 t.mgr.root t.mgr.ram = some w := by
      refine exists_processPages hpos hrange fun i hi => ?_
      rw [hcount] at hi
      rw [hstart]
      refine htable i ?_
      simp only [pageSize] at *
      omega
    have hupd := setPagesFlags_updates hpos hrange hw
    rw [hstart, hcount] at hupd
    exact ⟨_, by rw [hw]; rfl, rfl, fun i hi => (hupd.page i hi).trans (hzero _), hupd.outside,
      hupd.table, hupd.kept⟩

/-- **`unmapMmio` undoes `mapMmio`** just when the region is one page, or
two pages and the base is the last byte of its page: it returns true and
gives the region back in every case, but the pages after the first stay
present in all others. -/
theorem unmapMmio_undoes_iff (hs : (vmMachine.guard VmState.NoShortFallback).Reachable s)
    (hsize : 1 ≤ size) (hend : mmioBase.toNat + size ≤ 2 ^ 48)
    (hok : s.NoShortFallback (.mapMmio mmioBase size memoryType))
    (hcall : s.mgr.mapMmio mmioBase size memoryType = some (p, m)) (hp : p ≠ 0) :
    (∃ m', m.unmapMmio p = some (true, m') ∧
      s.Undone m' (s.pageOf p) (numPages (alignSize mmioBase size))) ↔
      mmioBase.toNat % pageSize + size ≤ pageSize ∨
        mmioBase.toNat % pageSize = pageMask ∧ mmioBase.toNat % pageSize + size ≤ 2 * pageSize := by
  obtain ⟨A, hA⟩ := VmState.Ok.exists_of_reachable hs
  rcases hA.mapMmio hok hcall with ⟨rfl, -⟩ | ⟨base, hn, rfl, hvb, hupd, B, hB⟩
  · exact absurd rfl hp
  have halign := alignSize_eq hend
  have hlt : alignSize mmioBase size < 2 ^ 64 := Nat.mod_lt _ (by decide)
  have hnum := (VmManager.numPages_eq hlt hn).2.trans
    (congrArg (fun a => (a + pageMask) / pageSize) halign)
  have hoff := Nat.mod_lt mmioBase.toNat (show 0 < pageSize by decide)
  generalize numPages (alignSize mmioBase size) = n at *
  generalize mmioBase.toNat % pageSize = off at *
  have hpage : s.pageOf (s.mgr.virtualBase + base * pageSize + off) = base := by
    unfold VmState.pageOf
    simp only [pageSize] at *
    omega
  obtain ⟨m', hunmap, hvmm, hclear⟩ := hB.unmapMmio (List.mem_cons_self ..) hoff
    (by simp only [hvb]; exact hupd.table)
  simp only [hvb] at hunmap hclear
  obtain ⟨hpos, hle⟩ := hB.sim.end_le (List.mem_cons_self ..)
  obtain ⟨hsmall, -⟩ := hB.range hle
  simp only at hpos hsmall
  -- the state after the call, in which the region is not live
  obtain ⟨C, hC⟩ := hB.call_unmapMmio hunmap
  have hlive : (VmState.taken ⟨m, ⟨base, n⟩ :: s.live⟩
      (s.mgr.virtualBase + base * pageSize + off) (true, m')) = ⟨m', s.live⟩ := by
    have hbase : VmState.pageOf ⟨m, ⟨base, n⟩ :: s.live⟩
        (s.mgr.virtualBase + base * pageSize + off) = base := by
      rw [VmState.pageOf, hvb]
      exact hpage
    rw [VmState.taken, hbase, if_pos rfl, List.eraseP_cons_of_pos (by simp)]
  rw [hlive] at hC
  have hcount : (off + n - 1) / pageSize + 1 ≤ n := by
    simp only [pageSize] at *
    omega
  have hiff : n ≤ (off + n - 1) / pageSize + 1 ↔
      off + size ≤ pageSize ∨ off = pageMask ∧ off + size ≤ 2 * pageSize := by
    simp only [pageSize, pageMask] at *
    omega
  rw [hpage, ← hiff]
  constructor
  · rintro ⟨m₂, hm₂, hundone⟩
    obtain rfl : m' = m₂ := by
      rw [hunmap] at hm₂
      exact (Prod.mk.inj (Option.some.inj hm₂)).2
    by_contra hshort
    -- the first page that is not cleared
    have hkept := hclear.outside (s.mgr.virtualBase / pageSize + base +
      ((off + n - 1) / pageSize + 1)) (by rintro ⟨j, hj, heq⟩; omega)
    have hcleared := hundone.cleared ((off + n - 1) / pageSize + 1) (by omega)
    rw [hkept, hupd.page _ (by omega)] at hcleared
    exact mmioEntry_present _ hcleared
  · intro hall
    refine ⟨m', hunmap, fun i hi => ?_, fun page hpage => ?_, fun i hi => ?_⟩
    · rw [hclear.page i (by omega)]
      rfl
    · rw [hclear.outside page, hupd.outside page hpage]
      rintro ⟨j, hj, heq⟩
      exact hpage ⟨j, by omega, heq⟩
    · have hpages : m'.vmm.virtualPages = m.vmm.virtualPages := by
        rw [hvmm]
        exact (m.vmm.freePages_const base).1
      exact hB.sim.exists_free hC.sim hpages ⟨by simp, by simp; omega⟩

/-- One page, from the middle on. -/
theorem unmapMmio_undoes_onePage : ∃ p m m',
    smallVmState.mgr.mapMmio 0xFEC00800 0x800 .writeCombined = some (p, m) ∧
    m.unmapMmio p = some (true, m') ∧ smallVmState.Undone m' 0 1 := by
  have hcall : (smallVmState.mgr.mapMmio 0xFEC00800 0x800 .writeCombined).map Prod.fst =
      some 0xFFFFFF8000900800 := by decide +kernel
  obtain ⟨⟨p, m⟩, hcall, rfl⟩ := Option.map_eq_some_iff.mp hcall
  obtain ⟨m', hunmap, hundone⟩ := (unmapMmio_undoes_iff smallVmState_reachable (by decide)
    (by decide) (smallVmm_noShortFallback (by decide)) hcall (by decide)).mpr (by decide)
  exact ⟨_, m, m', hcall, hunmap, hundone⟩

/-- **A page stays mapped.** Of two whole pages `unmapMmio` clears the
entry of the first; the second is still present, and its virtual page is
free to be handed out. -/
theorem unmapMmio_leaves_page : ∃ p m m', vmMachine.init smallVmState ∧
    smallVmState.mgr.mapMmio 0xFEC00000 0x2000 .default = some (p, m) ∧ p ≠ 0 ∧
    m.unmapMmio p = some (true, m') ∧
    m'.root.entry 3 (p / pageSize + 1) &&& pageFlagPresent ≠ 0 := by
  have hcall : (smallVmState.mgr.mapMmio 0xFEC00000 0x2000 .default).bind (fun r =>
      (r.2.unmapMmio r.1).map fun r' =>
        (r.1, r'.1, r'.2.root.entry 3 (r.1 / pageSize + 1))) =
      some (0xFFFFFF8000900000, true, 0xFEC01103) := by decide +kernel
  obtain ⟨⟨p, m⟩, hcall, hrest⟩ := Option.bind_eq_some_iff.mp hcall
  obtain ⟨⟨b, m'⟩, hunmap, heq⟩ := Option.map_eq_some_iff.mp hrest
  obtain ⟨rfl, heq⟩ := Prod.mk.inj heq
  obtain ⟨rfl, hentry⟩ := Prod.mk.inj heq
  refine ⟨_, m, m', smallVmState_init, hcall, by decide, hunmap, ?_⟩
  rw [hentry]
  decide

end Calls

end ShmDos64
