import ShmDos64.VirtualMemory.Partition
/-!
# What `freePages` takes back

The word of the page decides: it is a busy tag with a size on the first
page of a region handed out, and on no other page. A region that the last
exit of `allocPages` has cut short leaves the tag of its old last page
behind, and the run here goes on from there: the next free region that
ends at that tag swallows pages that are handed out.
-/

namespace ShmDos64

open Vmm

/-- `freePages` frees the region that starts at the page, and nothing
when none does. -/
def VmmState.FreesLive (s : VmmState) : Prop :=
  ∀ p < s.vmm.virtualPages,
    (∀ r ∈ s.live, r.base = p → (s.vmm.freePages p).1 = r.size ∧ r.size ≠ 0) ∧
    ((∀ r ∈ s.live, r.base ≠ p) → s.vmm.freePages p = (0, s.vmm))

/-- **Only the start of a live region is freed.** In every state of a run
in which no allocation takes the last exit for a region larger than asked
for, `freePages` of a managed page returns the size of the region that
starts there, and otherwise returns 0 and changes nothing. -/
theorem freePages_frees_live {s : VmmState}
    (h : (vmmMachine.guard VmmState.NoShortFallback).Reachable s) : s.FreesLive := by
  obtain ⟨A, hA⟩ := VmmState.Sim.exists_of_reachable h
  intro p hp
  rw [hA.live]
  refine ⟨?_, fun hnot => hA.rep.freePages_of_notMem hA.inv hp hnot⟩
  rintro r hr rfl
  exact hA.rep.freePages_fst hA.inv hr

/-- It is so with 33 regions of one size class free. -/
theorem freePages_frees_live_lossSetup : ∃ t : VmmState,
    (vmmMachine.guard VmmState.NoShortFallback).Reachable t ∧ t.FreesLive := by
  obtain ⟨t, hruns, -⟩ := exists_lossState
  have hinit : (vmmMachine.guard VmmState.NoShortFallback).Reachable ⟨smallVmm, []⟩ :=
    .init smallVmm_init
  exact ⟨t, hinit.runs hruns, freePages_frees_live (hinit.runs hruns)⟩

/-! ## A tag left behind -/

/-- `freePages` of a region that has a free region before it, and a busy
one after it: the free region is taken to end where the tag says, and its
item is the one of the region that is added. -/
theorem Vmm.exists_freePages_mergePrev {v : Vmm} {b n item : ℕ} (hb : 0 < b)
    (htag : BusyTag (v.memoryRegions b) n) (hn : n ≠ 0) (hitem : item ≠ 0) (hal : item % 4 = 0)
    (hprev : v.memoryRegions (b - 1) = item)
    (hnext : v.memoryRegions (b + n) &&& vmmRegBusyFlag ≠ 0) :
    ∃ w : Vmm, w.freeListItems = item ∧ v.freePages b =
      (n, w.addFreeRegion (v.item item).pageBase (n + (v.item item).numPages)) := by
  have hfree : freeItemOf (v.memoryRegions (b - 1)) = item := by
    rw [hprev, freeItemOf_item hal]
  have hmerge : (v.mergePrev b).1 = (v.item item).pageBase ∧
      (v.mergePrev b).2.1 = (v.item item).numPages ∧
      (v.mergePrev b).2.2.freeListItems = item ∧
      (v.mergePrev b).2.2.memoryRegions (b + n) = v.memoryRegions (b + n) := by
    unfold mergePrev
    simp only [if_pos hb, hfree, if_pos hitem, deleteFreeRegion_freeListItems,
      deleteFreeRegion_memoryRegions, true_and]
    have h1 : b + n ≠ b := by omega
    have h2 : b + n ≠ b - 1 := by omega
    split
    · rw [Function.update_of_ne h2, Function.update_of_ne h1]
    · rw [Function.update_of_ne h1]
  obtain ⟨hbase, hpages, hitems, hend⟩ := hmerge
  have hmergeNext : (v.mergePrev b).2.2.mergeNext (b + n) = (0, (v.mergePrev b).2.2) := by
    unfold mergeNext freeItemOf
    simp only [hend, if_neg hnext]
    rfl
  refine ⟨(v.mergePrev b).2.2, hitems, ?_⟩
  unfold freePages
  simp only [htag.1, if_neg htag.2, if_neg hn, hmergeNext, hbase, hpages, Nat.add_zero]

/-- What the short region at page 0 leaves: the tag of its old last page,
with regions handed out after it. -/
structure LossTags (v : Vmm) : Prop where
  last : v.memoryRegions 6 = lossRegion.item
  seven : BusyTag (v.memoryRegions 7) 1
  eight : BusyTag (v.memoryRegions 8) 1
  node : (v.item lossRegion.item).numPages = 7 ∧ (v.item lossRegion.item).pageBase = 0

theorem VmmState.Sim.lossTags {s : VmmState} (hsim : s.Sim lossSpace)
    (hT : s.vmm.freeListTableSize = 16) :
    LossTags (s.vmm.setBusyRegion (cpuLastOneBitIndex 5) lossRegion.item 5) := by
  obtain ⟨-, hrep⟩ := hsim.allocPages_lossSpace hT
  have hfree : lossRegion ∈ lossSpace.free := by decide +kernel
  refine ⟨?_, hrep.liveFirst ⟨7, 1⟩ (by decide +kernel), hrep.liveFirst ⟨8, 1⟩ (by decide +kernel),
    ?_, ?_⟩
  · refine Eq.trans ?_ (hsim.rep.freeLast lossRegion hfree)
    simp only [setBusyRegion, (hsim.rep.node _ hfree).2, deleteFreeRegion_memoryRegions]
    rw [if_pos (by decide), Function.update_of_ne (by decide), Function.update_of_ne (by decide)]
    rfl
  · rw [(Rep.setBusy_node _).1, (hsim.rep.node _ hfree).1]
    rfl
  · rw [(Rep.setBusy_node _).2, (hsim.rep.node _ hfree).2]
    rfl

/-- The region freed next is merged with the one that the tag is of. -/
theorem LossTags.exists_freePages {v : Vmm} (h : LossTags v) :
    ∃ w : Vmm, w.freeListItems = lossRegion.item ∧ v.freePages 7 = (1, w.addFreeRegion 0 8) := by
  obtain ⟨w, hw, heq⟩ := exists_freePages_mergePrev (by decide) h.seven (by decide)
    (by decide) (by decide) h.last h.eight.2
  rw [h.node.1, h.node.2] at heq
  exact ⟨w, hw, heq⟩

/-- **A live region is refused**: after the short region at page 0 the tag
of page 6 is left, and freeing page 7 adds a free region from page 0 on;
`freePages` of page 0 then returns 0, though its region is live. -/
theorem freePages_refuses_live : ∃ t : VmmState,
    vmmMachine.init ⟨smallVmm, []⟩ ∧
    vmmMachine.Runs ⟨smallVmm, []⟩ (lossSetup ++ [.allocPages 5, .freePages 7]) t ∧
    ⟨0, 5⟩ ∈ t.live ∧ (t.vmm.freePages 0).1 = 0 ∧ ¬ t.FreesLive := by
  obtain ⟨s, hruns, hsim, hV, hT⟩ := exists_lossState
  obtain ⟨hcall, -⟩ := hsim.allocPages_lossSpace hT
  obtain ⟨w, hitem, hfree⟩ := (hsim.lossTags hT).exists_freePages
  set v := s.vmm.setBusyRegion (cpuLastOneBitIndex 5) lossRegion.item 5 with hv
  have htag : (v.freePages 7).2.memoryRegions 0 = lossRegion.item := by
    rw [hfree, Vmm.addFreeRegion, Vmm.linkFreeRegion_region_first, Vmm.takeItem, hitem]
    rfl
  have hzero : ((v.freePages 7).2.freePages 0).1 = 0 := by
    generalize (v.freePages 7).2 = u at htag
    unfold Vmm.freePages
    simp only [htag]
    rfl
  have hlive : ((s.call (.allocPages 5)).call (.freePages 7)).live =
      (⟨0, 5⟩ :: lossSpace.live).eraseP fun x => x.base = 7 := by
    simp [VmmState.call, hcall, hfree, hsim.live]
  have hmem : (⟨0, 5⟩ : Span) ∈ ((s.call (.allocPages 5)).call (.freePages 7)).live := by
    rw [hlive, List.eraseP_cons_of_neg (by decide)]
    exact List.mem_cons_self ..
  have hvmm : ((s.call (.allocPages 5)).call (.freePages 7)).vmm = (v.freePages 7).2 := by
    simp [VmmState.call, hcall]
  have hpages : 7 < (s.call (.allocPages 5)).vmm.virtualPages := by
    simp only [VmmState.call, s.vmm.allocPages_const, hV]
    decide
  refine ⟨(s.call (.allocPages 5)).call (.freePages 7), smallVmm_init,
    hruns.of_guard.append (.cons ⟨(by decide : 1 ≤ 5), rfl⟩ (.cons ⟨hpages, rfl⟩ .nil)),
    hmem, by rw [hvmm]; exact hzero, fun hall => ?_⟩
  have hpos : 0 < ((s.call (.allocPages 5)).call (.freePages 7)).vmm.virtualPages := by
    rw [hvmm, (v.freePages_const 7).1, hv, (Vmm.setBusyRegion_const _ _ _ _).1, hV]
    decide
  have hbad := ((hall 0 hpos).1 ⟨0, 5⟩ hmem rfl).1
  rw [hvmm, hzero] at hbad
  cases hbad

end ShmDos64
