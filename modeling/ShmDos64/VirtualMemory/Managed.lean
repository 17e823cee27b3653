import ShmDos64.Paging.Places
import ShmDos64.VirtualMemory.Manager
import ShmDos64.VirtualMemory.Partition
/-!
# The states of the manager

In every run in which no allocation takes the last exit of `allocPages`
for a region larger than asked for, the page allocator stands for a
space, the managed pages are where the constructor has put them, and the
way to every page outside the window of RAM is plain. Each call is an
allocation or a release of the space, or none, and walks that keep it so.
-/

namespace ShmDos64

open Function (update update_of_ne update_self)
open Space Vmm

/-- An allocation that fails does nothing. -/
theorem Vmm.allocPages_none (v : Vmm) (n : ℕ) (h : (v.allocPages n).1 = none) :
    (v.allocPages n).2 = v := by
  unfold allocPages at h ⊢
  simp only at h ⊢
  split at h
  all_goals first | rfl | cases h

/-! ## The allocation flag -/

theorem BusyTag.or_allocFlag {w n : ℕ} (h : BusyTag w n) : BusyTag (w ||| vmmRegAllocFlag) n := by
  have hflag : vmmRegAllocFlag >>> vmmRegSizeShift = 0 := by decide
  have hbusy : vmmRegAllocFlag &&& vmmRegBusyFlag = 0 := by decide
  unfold BusyTag
  rw [Nat.shiftRight_or_distrib, hflag, Nat.or_zero, Nat.and_or_distrib_right, hbusy, Nat.or_zero]
  exact h

/-- The flag of a region handed out is no matter for the space. -/
theorem Rep.markAllocated {v : Vmm} {A : Space} {V : ℕ} {r : Span} (h : Rep v A []) (hA : A.Inv V)
    (hr : r ∈ A.live) : Rep (v.markAllocated r.base) A [] := by
  have hpos := hA.tiles.pos r (live_mem hr)
  have hfree : ∀ f ∈ A.free, ∀ p, f.span.Holds p → p ≠ r.base := by
    rintro f hf p hp rfl
    exact hA.live_ne_free hr hf (hA.tiles.eq_of_holds (live_mem hr) (span_mem hf)
      (Span.holds_base hpos) hp)
  refine ⟨h.buckets, h.counters, h.node, h.pool, h.fresh, fun f hf => ?_, fun f hf => ?_,
    fun r' hr' => ?_, fun r' hr' h1 => ?_, fun p hp hin => ?_⟩
  · have hne := hfree f hf _ (Span.holds_base (hA.free_pos hf))
    exact (update_of_ne hne ..).trans (h.freeFirst f hf)
  · have hne := hfree f hf _ (Span.holds_last (hA.free_pos hf))
    exact (update_of_ne hne ..).trans (h.freeLast f hf)
  · by_cases hb : r'.base = r.base
    · obtain rfl := hA.tiles.eq_of_base (live_mem hr') (live_mem hr) hb
      simp only [Vmm.markAllocated, update_self]
      exact (h.liveFirst r' hr').or_allocFlag
    · simp only [Vmm.markAllocated, update_of_ne hb]
      exact h.liveFirst r' hr'
  · have hne : r'.base + r'.size - 1 ≠ r.base := by
      intro he
      have hlast := Span.holds_last (hA.tiles.pos r' (live_mem hr'))
      rw [he] at hlast
      obtain rfl := hA.tiles.eq_of_holds (live_mem hr') (live_mem hr) hlast
        (Span.holds_base hpos)
      omega
    exact (update_of_ne hne ..).trans (h.liveLast r' hr' h1)
  · have hne : p ≠ r.base := (hin r (live_mem hr)).1
    exact (update_of_ne hne ..).trans (h.inner p hp hin)

namespace VmmState.Sim

variable {v : Vmm} {live : List Span} {A : Space} {n base : ℕ}

section

variable (h : (⟨v, live⟩ : VmmState).Sim A)

include h

/-- An allocation that returns a region. -/
theorem allocPages_some (hn : 1 ≤ n) (hok : ¬ v.ShortFallback n)
    (hb : (v.allocPages n).1 = some base) :
    ∃ B, (⟨(v.allocPages n).2, ⟨base, n⟩ :: live⟩ : VmmState).Sim B := by
  have hstep := h.step (c := .allocPages n) hn fun k hk f hf => by
    obtain rfl := VmmCall.allocPages.inj hk
    exact h.rest_size hok hf
  simp only [VmmState.call, hb] at hstep
  exact ⟨_, hstep⟩

theorem freePages (hb : base < v.virtualPages) :
    ∃ B, (⟨(v.freePages base).2, if (v.freePages base).1 = 0 then live
      else live.eraseP fun x => x.base = base⟩ : VmmState).Sim B :=
  ⟨_, h.step (c := .freePages base) hb fun _ hk => nomatch hk⟩

theorem markAllocated {r : Span} (hr : r ∈ live) :
    (⟨v.markAllocated r.base, live⟩ : VmmState).Sim A :=
  ⟨h.rep.markAllocated h.inv (h.live ▸ hr), h.inv, h.live, h.pages⟩

theorem mem_space {r : Span} (hr : r ∈ live) : r ∈ A.live :=
  h.live ▸ hr

/-- A region handed out is one of managed pages. -/
theorem end_le {r : Span} (hr : r ∈ live) : 0 < r.size ∧ r.base + r.size ≤ v.virtualPages :=
  ⟨h.inv.tiles.pos r (live_mem (h.mem_space hr)),
    h.inv.tiles.end_le (live_mem (h.mem_space hr))⟩

/-- What is freed at a page is a region that starts there. -/
theorem mem_live_of_freePages (hb : base < v.virtualPages) (hne : (v.freePages base).1 ≠ 0) :
    ⟨base, (v.freePages base).1⟩ ∈ live := by
  by_cases hmem : ∃ r ∈ A.live, r.base = base
  · obtain ⟨r, hr, rfl⟩ := hmem
    have hmem : r ∈ live := (show live = A.live from h.live) ▸ hr
    rw [(h.rep.freePages_fst h.inv hr).1]
    exact hmem
  · push Not at hmem
    have hnone := h.rep.freePages_of_notMem h.inv hb hmem
    exact absurd (congrArg Prod.fst hnone) hne

end

end VmmState.Sim

/-! ## Walks one after the other -/

namespace Paging

variable {start count : ℕ} {f g : ℕ → UInt64 → UInt64} {root root₁ root₂ : PageDir 3}

theorem updates_zero (start : ℕ) (f : ℕ → UInt64 → UInt64) (root : PageDir 3) :
    Updates start 0 f root root :=
  ⟨fun i hi => absurd hi (Nat.not_lt_zero i), fun _ _ => rfl,
    fun i hi => absurd hi (Nat.not_lt_zero i), fun _ h => h⟩

/-- A page, and the pages after it. -/
theorem Updates.cons (h : Updates start 1 f root root₁)
    (h' : Updates (start + 1) count g root₁ root₂) (hcount : count < 2 ^ 36) :
    Updates start (count + 1) (fun i => if i = 0 then f 0 else g (i - 1)) root root₂ := by
  have hidx : ∀ i, i ≠ 0 → start + 1 + (i - 1) = start + i := fun i hi => by omega
  refine ⟨fun i hi => ?_, fun p hp => ?_, fun i hi => ?_, fun p hp => h'.kept p (h.kept p hp)⟩
  · by_cases h0 : i = 0
    · subst h0
      have hnot : ¬ InPages (start + 1) count start := by
        rintro ⟨j, hj, heq⟩
        omega
      rw [Nat.add_zero, if_pos rfl, h'.outside _ hnot]
      exact h.page 0 Nat.one_pos
    · have hnot : ¬ InPages start 1 (start + i) := by
        rintro ⟨j, hj, heq⟩
        omega
      have hpage := h'.page (i - 1) (by omega)
      rw [hidx i h0, h.outside _ hnot] at hpage
      rw [if_neg h0, hpage]
  · rw [h'.outside p, h.outside p]
    · rintro ⟨j, hj, heq⟩
      exact hp ⟨j, by omega, heq⟩
    · rintro ⟨j, hj, heq⟩
      exact hp ⟨j + 1, by omega, by rw [heq]; congr 1; omega⟩
  · by_cases h0 : i = 0
    · subst h0
      exact h'.kept _ (h.table 0 Nat.one_pos)
    · exact hidx i h0 ▸ h'.table (i - 1) (by omega)

end Paging

/-! ## `alloc` -/

namespace VmManager

variable {m m' : VmManager} {base vBase n cur p size flags : ℕ} {pflags : UInt64}

theorem ramPage_ne_max {addr : UInt64} (h : IsRamPage addr) : addr ≠ 0xFFFFFFFFFFFFFFFF := by
  rintro rfl
  exact absurd h.1 (by unfold IsTableAddress; decide)

/-- **The loop that commits pages**: each gets a page of RAM. -/
theorem commitPages_spec (hs : Paging.Sound m.root m.ram) (hn : n < 2 ^ 36)
    (h : commitPages base vBase pflags n cur m = some (p, m')) :
    p = vBase ∧ m'.vmm = (m.markAllocated base).vmm ∧ m'.virtualBase = m.virtualBase ∧
      Paging.Sound m'.root m'.ram ∧ ∃ frames : ℕ → UInt64, (∀ i < n, IsRamPage (frames i)) ∧
        Paging.Updates (cur / pageSize) n (fun i _ => frames i ||| pflags) m.root m'.root := by
  induction n generalizing cur m with
  | zero =>
    obtain ⟨⟩ := h
    exact ⟨rfl, rfl, rfl, hs, fun _ => 0, fun i hi => absurd hi (Nat.not_lt_zero i),
      Paging.updates_zero ..⟩
  | succ n ih =>
    rw [commitPages] at h
    obtain ⟨r, hr, h⟩ := Option.bind_eq_some_iff.mp h
    obtain ⟨hpage, hvalid⟩ := Paging.allocPage_valid hs.2 hr
    rw [if_neg (ramPage_ne_max hpage)] at h
    obtain ⟨w, hw, h⟩ := Option.bind_eq_some_iff.mp h
    have hone := Paging.mapPage_updates hw
    have hsound := Paging.mapPage_sound ⟨hs.1, hvalid⟩ hw
    obtain ⟨hp, hvmm, hvb, hs', frames, hframes, hrest⟩ := ih hsound (by omega) h
    have hnext : (cur + pageSize) / pageSize = cur / pageSize + 1 :=
      Nat.add_div_right _ (by decide)
    rw [hnext] at hrest
    refine ⟨hp, hvmm, hvb, hs', fun i => if i = 0 then r.1 else frames (i - 1), fun i hi => ?_, ?_⟩
    · by_cases h0 : i = 0
      · simpa only [if_pos h0] using hpage
      · simpa only [if_neg h0] using hframes (i - 1) (by omega)
    · have hall := hone.cons hrest (by omega)
      refine ⟨fun i hi => ?_, hall.outside, hall.table, hall.kept⟩
      rw [hall.page i hi]
      by_cases h0 : i = 0
      · simp only [if_pos h0]
      · simp only [if_neg h0]

/-- Pages that were not present get the pages of RAM that the list loses. -/
theorem commitPages_keeps (hs : Paging.Sound m.root m.ram) (hn : n < 2 ^ 36)
    (hflags : pflags &&& ~~~0xFFF = 0) (hp : pflags &&& pageFlagPresent ≠ 0)
    (habsent : ∀ i < n, m.root.entry 3 (cur / pageSize + i) &&& pageFlagPresent = 0)
    (h : commitPages base vBase pflags n cur m = some (p, m')) :
    KeepsPlaces (cur / pageSize) n m.root m.ram m'.root m'.ram := by
  intro a win V hV hlow hend
  induction n generalizing cur m with
  | zero =>
    obtain ⟨⟩ := h
    rfl
  | succ n ih =>
    rw [commitPages] at h
    obtain ⟨r, hr, h⟩ := Option.bind_eq_some_iff.mp h
    obtain ⟨hpage, hvalid⟩ := Paging.allocPage_valid hs.2 hr
    rw [if_neg (ramPage_ne_max hpage)] at h
    obtain ⟨w, hw, h⟩ := Option.bind_eq_some_iff.mp h
    have hone := Paging.mapPage_updates hw
    have hsound := Paging.mapPage_sound ⟨hs.1, hvalid⟩ hw
    have hnext : (cur + pageSize) / pageSize = cur / pageSize + 1 :=
      Nat.add_div_right _ (by decide)
    have hrest : ∀ i < n,
        w.1.entry 3 ((cur + pageSize) / pageSize + i) &&& pageFlagPresent = 0 := by
      intro i hi
      have hnot : ¬ Paging.InPages (cur / pageSize) 1 (cur / pageSize + (i + 1)) := by
        rintro ⟨j, hj, heq⟩
        omega
      rw [hnext, Nat.add_assoc, Nat.add_comm 1 i, hone.outside _ hnot]
      exact habsent (i + 1) (by omega)
    have hmap := Paging.mapPage_places (a := a) hpage.1 hflags hp hvalid (habsent 0 (by omega)) hw
      hV hlow (by omega)
    have hcommit := ih hsound (by omega) hrest h (by omega) (by omega)
    have hcount := Paging.count_allocPage (a := a) hr
    simp only [withTables] at hcommit
    rw [hcommit, hmap]
    unfold places
    omega

/-- What `alloc` does with the region that it has found: the pages are
reserved, armed or committed. -/
inductive Filled (m m' : VmManager) (base n flags : ℕ) : Prop
  | reserved (hm : m' = m) (hcommit : flags &&& vmmCommit = 0)
      (hrw : flags &&& vmmReadwrite = 0) (hro : flags &&& vmmReadonly = 0)
  | armed (pflags : UInt64) (hvmm : m'.vmm = m.vmm.markAllocated base)
      (hcommit : flags &&& vmmCommit = 0)
      (haccess : flags &&& vmmReadwrite ≠ 0 ∨ flags &&& vmmReadonly ≠ 0)
      (hflags : pflags &&& (pageFlagAllocated ||| pageFlagPresent) = pageFlagAllocated)
      (h : Paging.Updates (m.virtualBase / pageSize + base) n
        (fun _ => Paging.setFlags 0xFFF pflags) m.root m'.root)
      (hplaces : (∀ i < n, m.root.entry 3 (m.virtualBase / pageSize + base + i) &&&
        pageFlagPresent = 0) →
          KeepsPlaces (m.virtualBase / pageSize + base) n m.root m.ram m'.root m'.ram)
  | committed (pflags : UInt64) (frames : ℕ → UInt64) (hvmm : m'.vmm = m.vmm.markAllocated base)
      (hcommit : flags &&& vmmCommit ≠ 0)
      (hflags : pflags &&& (pageFlagAllocated ||| pageFlagPresent) = pageFlagPresent)
      (hframes : ∀ i < n, IsRamPage (frames i))
      (h : Paging.Updates (m.virtualBase / pageSize + base) n (fun i _ => frames i ||| pflags)
        m.root m'.root)
      (hplaces : (∀ i < n, m.root.entry 3 (m.virtualBase / pageSize + base + i) &&&
        pageFlagPresent = 0) →
          KeepsPlaces (m.virtualBase / pageSize + base) n m.root m.ram m'.root m'.ram)

/-- The flags of the entries, `PAGE_FLAG_GLOBAL` and the cache bit aside. -/
theorem cacheFlags_or_and {x y mask : UInt64}
    (h : ∀ c : Bool,
      ((pageFlagGlobal ||| if c then pageFlagCacheDisable else 0) ||| x) &&& mask = y)
    (flags : ℕ) : (cacheFlags flags ||| x) &&& mask = y := by
  unfold cacheFlags
  by_cases hc : flags &&& vmmNocache ≠ 0
  · rw [if_pos hc]
    exact h true
  · rw [if_neg hc]
    exact h false

/-- The two bits of the flags tell whether the pages are present. -/
theorem and_present {y : UInt64} (h : pflags &&& (pageFlagAllocated ||| pageFlagPresent) = y) :
    pflags &&& pageFlagPresent = y &&& pageFlagPresent := by
  rw [← h, UInt64.and_assoc]
  rfl

/-- The number of pages of a size, where the sum does not wrap. -/
theorem numPages_eq (hsize : size < 2 ^ 64) (hn : numPages size ≠ 0) :
    1 ≤ size ∧ numPages size = (size + pageMask) / pageSize := by
  unfold numPages at *
  simp only [pageMask, pageSize] at *
  omega

/-- A page of the region in the tables. -/
theorem pointer_div (m : VmManager) (base : ℕ) :
    (m.virtualBase + base * pageSize) / pageSize = m.virtualBase / pageSize + base := by
  rw [Nat.add_mul_div_right _ _ (by decide)]

/-- An aligned range has as many pages as its size needs. -/
theorem pageCount_eq (hsize : size < 2 ^ 64) (hn : numPages size ≠ 0) (hv : pageSize ∣ vBase) :
    Paging.pageCount vBase size = numPages size := by
  obtain ⟨h1, hnum⟩ := numPages_eq hsize hn
  rw [hnum, Paging.pageCount]
  obtain ⟨k, rfl⟩ := hv
  simp only [pageSize, pageMask]
  omega

/-- **`alloc` returns null, or the region that `allocPages` has found.** -/
theorem alloc_cases (hs : Paging.Sound m.root m.ram) (halign : pageSize ∣ m.virtualBase)
    (hsize : size < 2 ^ 64)
    (hrange : ∀ base, (m.vmm.allocPages (numPages size)).1 = some base →
      numPages size < 2 ^ 36 ∧
        (m.virtualBase + base * pageSize) % 2 ^ 48 + numPages size * pageSize ≤ 2 ^ 48)
    (h : m.alloc size flags = some (p, m')) :
    p = 0 ∧ m' = m ∨
    ∃ base, numPages size ≠ 0 ∧ (m.vmm.allocPages (numPages size)).1 = some base ∧
      p = m.virtualBase + base * pageSize ∧ m'.virtualBase = m.virtualBase ∧
      Paging.Sound m'.root m'.ram ∧
      Filled { m with vmm := (m.vmm.allocPages (numPages size)).2 } m' base (numPages size)
        flags := by
  unfold alloc at h
  by_cases hn : numPages size = 0
  · rw [if_pos hn] at h
    obtain ⟨⟩ := h
    exact .inl ⟨rfl, rfl⟩
  rw [if_neg hn] at h
  obtain ⟨h1, hnum⟩ := numPages_eq hsize hn
  cases hb : (m.vmm.allocPages (numPages size)).1 with
  | none =>
    simp only [hb, allocPages_none _ _ hb] at h
    obtain ⟨⟩ := h
    exact .inl ⟨rfl, rfl⟩
  | some base =>
    simp only [hb] at h
    refine .inr ⟨base, hn, rfl, ?_⟩
    obtain ⟨hlt, hin⟩ := hrange base hb
    have hdvd : pageSize ∣ m.virtualBase + base * pageSize :=
      Dvd.dvd.add halign (Nat.dvd_mul_left _ _)
    generalize hm₁ :
      ({ m with vmm := (m.vmm.allocPages (numPages size)).2 } : VmManager) = m₁ at h ⊢
    have hroot : m₁.root = m.root ∧ m₁.ram = m.ram ∧ m₁.virtualBase = m.virtualBase := by
      subst hm₁
      exact ⟨rfl, rfl, rfl⟩
    -- the two ways to fill the pages
    have hcommit : ∀ pflags : UInt64, flags &&& vmmCommit ≠ 0 →
        pflags &&& (pageFlagAllocated ||| pageFlagPresent) = pageFlagPresent →
        pflags &&& ~~~0xFFF = 0 →
        m₁.commitPages base (m.virtualBase + base * pageSize) pflags (numPages size)
          (m.virtualBase + base * pageSize) = some (p, m') →
        p = m.virtualBase + base * pageSize ∧ m'.virtualBase = m.virtualBase ∧
          Paging.Sound m'.root m'.ram ∧ Filled m₁ m' base (numPages size) flags := by
      intro pflags hc hflags hmask h
      have hs₁ : Paging.Sound m₁.root m₁.ram := by rw [hroot.1, hroot.2.1]; exact hs
      obtain ⟨hp, hvmm, hvb, hsound, frames, hframes, hupd⟩ := commitPages_spec hs₁ hlt h
      have hkeeps := fun habsent => commitPages_keeps hs₁ hlt hmask
        (by rw [and_present hflags]; decide) habsent h
      rw [pointer_div m, ← hroot.2.2] at hupd hkeeps
      exact ⟨hp, hvb.trans hroot.2.2, hsound,
        .committed pflags frames hvmm hc hflags hframes hupd hkeeps⟩
    have harm : ∀ pflags : UInt64, flags &&& vmmCommit = 0 →
        (flags &&& vmmReadwrite ≠ 0 ∨ flags &&& vmmReadonly ≠ 0) →
        pflags &&& (pageFlagAllocated ||| pageFlagPresent) = pageFlagAllocated →
        m₁.armPages base (m.virtualBase + base * pageSize) size pflags = some (p, m') →
        p = m.virtualBase + base * pageSize ∧ m'.virtualBase = m.virtualBase ∧
          Paging.Sound m'.root m'.ram ∧ Filled m₁ m' base (numPages size) flags := by
      intro pflags hc haccess hflags h
      obtain ⟨w, hw, h⟩ := Option.map_eq_some_iff.mp h
      obtain ⟨rfl, rfl⟩ := Prod.mk.inj h
      have hin' : (m.virtualBase + base * pageSize) % 2 ^ 48 + size ≤ 2 ^ 48 := by
        rw [hnum] at hin
        simp only [pageSize, pageMask] at *
        omega
      have hs₁ : Paging.Sound m₁.root m₁.ram := by rw [hroot.1, hroot.2.1]; exact hs
      have hupd := Paging.setPagesFlags_updates h1 hin' hw
      have hkeeps := fun habsent => Paging.setPagesFlags_keeps
        (by rw [and_present hflags]; decide) h1 hin' hs₁.2 habsent hw
      rw [pointer_div m, pageCount_eq hsize hn hdvd, ← hroot.2.2] at hupd hkeeps
      exact ⟨rfl, hroot.2.2, Paging.setPagesFlags_sound hin' hs₁ hw,
        .armed pflags rfl hc haccess hflags hupd hkeeps⟩
    split_ifs at h with hc hrw hrw hro
    · exact hcommit _ hc (cacheFlags_or_and (by decide) flags)
        (cacheFlags_or_and (by decide) flags) h
    · exact hcommit _ hc (cacheFlags_or_and (by decide) flags)
        (cacheFlags_or_and (by decide) flags) h
    · exact harm _ (not_not.mp hc) (.inl hrw) (cacheFlags_or_and (by decide) flags) h
    · exact harm _ (not_not.mp hc) (.inr hro) (cacheFlags_or_and (by decide) flags) h
    · obtain ⟨⟩ := h
      exact ⟨rfl, hroot.2.2, by rw [hroot.1, hroot.2.1]; exact hs,
        .reserved rfl (not_not.mp hc) (not_not.mp hrw) (not_not.mp hro)⟩

end VmManager

/-! ## The invariant -/

/-- **What holds in the states of the manager.** -/
structure VmState.Ok (s : VmState) (A : Space) : Prop where
  sim : (⟨s.mgr.vmm, s.live⟩ : VmmState).Sim A
  low : kernelVirtualBase ≤ s.mgr.virtualBase
  aligned : pageSize ∣ s.mgr.virtualBase
  high : s.mgr.virtualBase + s.mgr.vmm.virtualPages * pageSize ≤
    kernelVirtualBase + kernelMaxVirtualMemory
  sound : Paging.Sound s.mgr.root s.mgr.ram

/-- The calls that do not make `allocPages` take its last exit for a
region larger than asked for. -/
def VmState.NoShortFallback (s : VmState) : VmCall → Prop
  | .alloc size _ => ¬ s.mgr.vmm.ShortFallback (VmManager.numPages size)
  | .mapMmio mmioBase size _ =>
    ¬ s.mgr.vmm.ShortFallback (VmManager.numPages (VmManager.alignSize mmioBase size))
  | _ => True

namespace VmState.Ok

open VmManager (alignSize numPages)

variable {s : VmState} {A : Space} {r : Span} {size flags p : ℕ} {m' : VmManager}

section

variable (h : s.Ok A)

include h

/-- The addresses of a live region are in the upper half. -/
theorem range {base n : ℕ} (hend : base + n ≤ s.mgr.vmm.virtualPages) :
    n < 2 ^ 36 ∧ (s.mgr.virtualBase + base * pageSize) % 2 ^ 48 + n * pageSize + 2 ^ 30 ≤ 2 ^ 48 ∧
      kernelVirtualBase ≤ s.mgr.virtualBase + base * pageSize ∧
      s.mgr.virtualBase + base * pageSize + n * pageSize + 2 ^ 30 ≤ 2 ^ 64 := by
  have hlow := h.low
  have hhigh := h.high
  have hpages := h.sim.pages.2
  simp only [kernelVirtualBase, kernelMaxVirtualMemory, pageSize] at *
  omega

/-- The managed pages have numbers near the top of the tables. -/
theorem pages_lt : s.mgr.vmm.virtualPages < 2 ^ 27 ∧
    2 ^ 52 - 2 ^ 27 ≤ s.mgr.virtualBase / pageSize ∧
    s.mgr.virtualBase / pageSize + s.mgr.vmm.virtualPages ≤ 2 ^ 52 := by
  have hlow := h.low
  have hhigh := h.high
  simp only [kernelVirtualBase, kernelMaxVirtualMemory, pageSize] at *
  omega

/-- New tables under the same page allocator. -/
theorem withTables (hvmm : m'.vmm = s.mgr.vmm)
    (hbase : m'.virtualBase = s.mgr.virtualBase) (hsound : Paging.Sound m'.root m'.ram) :
    (⟨m', s.live⟩ : VmState).Ok A :=
  ⟨by rw [hvmm]; exact h.sim, hbase ▸ h.low, hbase ▸ h.aligned, by rw [hvmm, hbase]; exact h.high,
    hsound⟩

/-- A region of `allocPages` is one of managed pages. -/
theorem allocPages_end {n base : ℕ} (hn : 1 ≤ n) (hok : ¬ s.mgr.vmm.ShortFallback n)
    (hb : (s.mgr.vmm.allocPages n).1 = some base) : base + n ≤ s.mgr.vmm.virtualPages := by
  obtain ⟨B, hB⟩ := h.sim.allocPages_some hn hok hb
  have hend := (hB.end_le (List.mem_cons_self ..)).2
  rwa [(s.mgr.vmm.allocPages_const n).1] at hend

/-- **`alloc`**: null and nothing done, or a region filled as the flags
say. -/
theorem alloc (hsize : size < 2 ^ 64)
    (hok : ¬ s.mgr.vmm.ShortFallback (numPages size))
    (hcall : s.mgr.alloc size flags = some (p, m')) : p = 0 ∧ m' = s.mgr ∨
    ∃ base, numPages size ≠ 0 ∧
      (s.mgr.vmm.allocPages (numPages size)).1 = some base ∧
      p = s.mgr.virtualBase + base * pageSize ∧ m'.virtualBase = s.mgr.virtualBase ∧
      base + numPages size ≤ s.mgr.vmm.virtualPages ∧
      VmManager.Filled { s.mgr with vmm := (s.mgr.vmm.allocPages (numPages size)).2 } m'
        base (numPages size) flags ∧
      ∃ B, (⟨m', ⟨base, numPages size⟩ :: s.live⟩ : VmState).Ok B := by
  have hpages := (s.mgr.vmm.allocPages_const (numPages size)).1
  have hrange : numPages size ≠ 0 → ∀ base,
      (s.mgr.vmm.allocPages (numPages size)).1 = some base →
      base + numPages size ≤ s.mgr.vmm.virtualPages :=
    fun hn base hb => h.allocPages_end (Nat.one_le_iff_ne_zero.mpr hn) hok hb
  have hspace : ∀ base, (s.mgr.vmm.allocPages (numPages size)).1 = some base →
      numPages size < 2 ^ 36 ∧ (s.mgr.virtualBase + base * pageSize) % 2 ^ 48 +
        numPages size * pageSize ≤ 2 ^ 48 := by
    intro base hb
    by_cases hn : numPages size = 0
    · rw [hn, Nat.zero_mul]
      exact ⟨by decide, by omega⟩
    · obtain ⟨hlt, hin, -⟩ := h.range (hrange hn base hb)
      exact ⟨hlt, by omega⟩
  rcases VmManager.alloc_cases h.sound h.aligned hsize hspace hcall with
    ⟨rfl, rfl⟩ | ⟨base, hn, hb, rfl, hvb, hsound, hfill⟩
  · exact .inl ⟨rfl, rfl⟩
  · obtain ⟨B, hB⟩ := h.sim.allocPages_some (Nat.one_le_iff_ne_zero.mpr hn) hok hb
    have hB' : (⟨m'.vmm, ⟨base, numPages size⟩ :: s.live⟩ : VmmState).Sim B ∧
        m'.vmm.virtualPages = s.mgr.vmm.virtualPages := by
      cases hfill with
      | reserved hm =>
        subst hm
        exact ⟨hB, hpages⟩
      | armed _ hvmm | committed _ _ hvmm =>
        rw [hvmm]
        exact ⟨hB.markAllocated (List.mem_cons_self ..), hpages⟩
    exact .inr ⟨base, hn, hb, rfl, hvb, hrange hn base hb, hfill, B, hB'.1, hvb ▸ h.low,
      hvb ▸ h.aligned, by rw [hB'.2, hvb]; exact h.high, hsound⟩

/-- The page of a pointer and its offset. -/
theorem pointer_eq {pointer : ℕ} (hlow : s.mgr.virtualBase ≤ pointer) :
    pointer = s.mgr.virtualBase + s.pageOf pointer * pageSize + pointer % pageSize := by
  obtain ⟨k, hk⟩ := h.aligned
  unfold pageOf
  simp only [pageSize] at hk ⊢
  omega

end

/-! ## The calls -/

variable {t : VmState} {pointer : ℕ} {b : Bool}

/-- The list of a call that has given pointers back. -/
theorem call_alloc (h : s.Ok A) (hsize : size < 2 ^ 64)
    (hok : ¬ s.mgr.vmm.ShortFallback (numPages size))
    (hcall : s.mgr.alloc size flags = some (p, m')) :
    ∃ B, (s.given (numPages size) (p, m')).Ok B := by
  unfold given
  rcases h.alloc hsize hok hcall with ⟨rfl, rfl⟩ | ⟨base, -, -, rfl, -, -, -, hB⟩
  · rw [if_pos rfl]
    exact ⟨A, h⟩
  · have hlow := h.low
    have hbase : s.pageOf (s.mgr.virtualBase + base * pageSize) = base := by
      rw [pageOf, Nat.add_sub_cancel_left, Nat.mul_div_cancel _ (by decide)]
    rw [if_neg (by simp only [kernelVirtualBase] at hlow; omega), hbase]
    exact hB

/-- How `free` and `unmapMmio` start: a pointer to no managed page or to
no live region is refused, and `k` goes on with the region. -/
theorem call_release (h : s.Ok A) {k : Option (Bool × VmManager)}
    (hcall : (if pointer < s.mgr.virtualBase then some (false, s.mgr)
      else if s.mgr.vmm.virtualPages ≤ s.pageOf pointer then some (false, s.mgr)
      else if (s.mgr.vmm.freePages (s.pageOf pointer)).1 = 0 then
        some (false, { s.mgr with vmm := (s.mgr.vmm.freePages (s.pageOf pointer)).2 })
      else k) = some (b, m'))
    (hk : ∀ b m', k = some (b, m') →
      pointer % 2 ^ 48 + (s.mgr.vmm.freePages (s.pageOf pointer)).1 * pageSize ≤ 2 ^ 48 →
      b = true ∧ m'.vmm = (s.mgr.vmm.freePages (s.pageOf pointer)).2 ∧
        m'.virtualBase = s.mgr.virtualBase ∧ Paging.Sound m'.root m'.ram) :
    ∃ B, (s.taken pointer (b, m')).Ok B := by
  unfold taken
  split_ifs at hcall with hlow hpages hzero
  · obtain ⟨⟩ := hcall
    exact ⟨A, h⟩
  · obtain ⟨⟩ := hcall
    exact ⟨A, h⟩
  -- what `freePages` frees is the live region at the page of the pointer
  all_goals
    obtain ⟨B, hB⟩ := h.sim.freePages (Nat.not_le.mp hpages)
    have hhigh := h.high
    rw [← (s.mgr.vmm.freePages_const (s.pageOf pointer)).1] at hhigh
  · obtain ⟨⟩ := hcall
    rw [if_pos hzero] at hB
    exact ⟨B, hB, h.low, h.aligned, hhigh, h.sound⟩
  · have hmem := h.sim.mem_live_of_freePages (Nat.not_le.mp hpages) hzero
    obtain ⟨hlt, hin, hlo, hhi⟩ := h.range (h.sim.end_le hmem).2
    have hptr := h.pointer_eq (Nat.not_lt.mp hlow)
    have hoff := Nat.mod_lt pointer (show 0 < pageSize by decide)
    obtain ⟨rfl, hvmm, hvb, hsound⟩ := hk _ _ hcall (by
      simp only [kernelVirtualBase, pageSize] at *
      omega)
    rw [if_neg hzero, ← hvmm] at hB
    exact ⟨B, hB, hvb ▸ h.low, hvb ▸ h.aligned, by rwa [hvmm, hvb], hsound⟩

theorem call_free (h : s.Ok A) (hcall : s.mgr.free pointer = some (b, m')) :
    ∃ B, (s.taken pointer (b, m')).Ok B := by
  refine h.call_release hcall fun b m' hk hrange => ?_
  split_ifs at hk with hflag
  · obtain ⟨w, hw, hk⟩ := Option.map_eq_some_iff.mp hk
    obtain ⟨rfl, rfl⟩ := Prod.mk.inj hk
    exact ⟨rfl, rfl, rfl, Paging.freeRamPages_sound hrange h.sound hw⟩
  · obtain ⟨⟩ := hk
    exact ⟨rfl, rfl, rfl, h.sound⟩

theorem call_unmapMmio (h : s.Ok A) (hcall : s.mgr.unmapMmio pointer = some (b, m')) :
    ∃ B, (s.taken pointer (b, m')).Ok B := by
  refine h.call_release hcall fun b m' hk hrange => ?_
  split_ifs at hk with hone
  · obtain ⟨w, hw, hk⟩ := Option.map_eq_some_iff.mp hk
    obtain ⟨rfl, rfl⟩ := Prod.mk.inj hk
    exact ⟨rfl, rfl, rfl, Paging.mapPage_sound h.sound hw⟩
  · obtain ⟨w, hw, hk⟩ := Option.map_eq_some_iff.mp hk
    obtain ⟨rfl, rfl⟩ := Prod.mk.inj hk
    refine ⟨rfl, rfl, rfl, Paging.setPagesFlags_sound (le_trans ?_ hrange) h.sound hw⟩
    exact Nat.add_le_add_left (Nat.le_mul_of_pos_right _ (by decide)) _

theorem and_mask_toNat (a : UInt64) : (a &&& 0xFFF).toNat = a.toNat % pageSize :=
  uint64_toNat_and_mask a (show 12 < 64 by decide)

/-- **`mapMmio`**: null, or a region whose pages have consecutive frames
from `mmioBase` on. -/
theorem mapMmio (h : s.Ok A) {mmioBase : UInt64} {memoryType : MemoryType}
    (hok : ¬ s.mgr.vmm.ShortFallback (numPages (alignSize mmioBase size)))
    (hcall : s.mgr.mapMmio mmioBase size memoryType = some (p, m')) :
    p = 0 ∧ (∃ B, (⟨m', s.live⟩ : VmState).Ok B) ∨
    ∃ base, numPages (alignSize mmioBase size) ≠ 0 ∧
      p = s.mgr.virtualBase + base * pageSize + mmioBase.toNat % pageSize ∧
      m'.virtualBase = s.mgr.virtualBase ∧
      Paging.Updates (s.mgr.virtualBase / pageSize + base)
        (numPages (alignSize mmioBase size))
        (fun i _ => (mmioBase + 0x1000 * UInt64.ofNat i) ||| VmManager.mmioFlags memoryType)
        s.mgr.root m'.root ∧
      ∃ B, (⟨m', ⟨base, numPages (alignSize mmioBase size)⟩ :: s.live⟩ :
        VmState).Ok B := by
  have hlt : alignSize mmioBase size < 2 ^ 64 := Nat.mod_lt _ (by decide)
  obtain ⟨⟨vBase, m₁⟩, halloc, hcall⟩ := Option.bind_eq_some_iff.mp hcall
  rcases h.alloc hlt hok halloc with ⟨rfl, rfl⟩ | ⟨base, hn, -, rfl, hvb, hend, hfill, B, hB⟩
  · obtain ⟨⟩ := hcall
    exact .inl ⟨rfl, A, h⟩
  obtain ⟨h1, hnum⟩ := VmManager.numPages_eq hlt hn
  obtain ⟨-, hin, hlo, -⟩ := h.range hend
  have hsame : m₁.root = s.mgr.root := by
    cases hfill with
    | reserved hm => subst hm; rfl
    | armed _ _ _ haccess => exact absurd haccess (by decide)
    | committed _ _ _ hc => exact absurd rfl hc
  have hdvd : pageSize ∣ s.mgr.virtualBase + base * pageSize :=
    Dvd.dvd.add h.aligned (Nat.dvd_mul_left _ _)
  have hne : s.mgr.virtualBase + base * pageSize ≠ 0 := by
    simp only [kernelVirtualBase] at hlo
    omega
  simp only [if_neg hne, and_mask_toNat] at hcall
  refine .inr ⟨base, hn, ?_⟩
  split_ifs at hcall with hone
  · obtain ⟨w, hw, hcall⟩ := Option.map_eq_some_iff.mp hcall
    obtain ⟨rfl, rfl⟩ := Prod.mk.inj hcall
    have hupd := Paging.mapPage_updates hw
    have hn1 : numPages (alignSize mmioBase size) = 1 := by
      rw [hnum]
      simp only [pageSize, pageMask] at *
      omega
    rw [VmManager.pointer_div, hsame] at hupd
    refine ⟨rfl, hvb, ?_, B, hB.withTables rfl rfl (Paging.mapPage_sound hB.sound hw)⟩
    rw [hn1]
    refine ⟨fun i hi => ?_, hupd.outside, hupd.table, hupd.kept⟩
    obtain rfl : i = 0 := by omega
    refine (hupd.page 0 hi).trans ?_
    simp
  · obtain ⟨w, hw, hcall⟩ := Option.map_eq_some_iff.mp hcall
    obtain ⟨rfl, rfl⟩ := Prod.mk.inj hcall
    have hin' : (s.mgr.virtualBase + base * pageSize) % 2 ^ 48 +
        alignSize mmioBase size ≤ 2 ^ 48 := by
      rw [hnum] at hin
      simp only [pageSize, pageMask] at *
      omega
    have hupd := Paging.mapPages_updates h1 hin' hw
    rw [VmManager.pointer_div, hsame, VmManager.pageCount_eq hlt hn hdvd] at hupd
    exact ⟨rfl, hvb, hupd, B, hB.withTables rfl rfl (Paging.mapPages_sound hin' hB.sound hw)⟩

theorem call_mapMmio (h : s.Ok A) {mmioBase : UInt64} {memoryType : MemoryType}
    (hok : ¬ s.mgr.vmm.ShortFallback (numPages (alignSize mmioBase size)))
    (hcall : s.mgr.mapMmio mmioBase size memoryType = some (p, m')) :
    ∃ B, (s.given (numPages (alignSize mmioBase size)) (p, m')).Ok B := by
  unfold given
  rcases h.mapMmio hok hcall with ⟨rfl, hB⟩ | ⟨base, -, rfl, -, -, hB⟩
  · rw [if_pos rfl]
    exact hB
  · have hlow := h.low
    have hoff := Nat.mod_lt mmioBase.toNat (show 0 < pageSize by decide)
    have hbase : s.pageOf (s.mgr.virtualBase + base * pageSize + mmioBase.toNat % pageSize) =
        base := by
      unfold pageOf
      simp only [pageSize] at *
      omega
    simp only [kernelVirtualBase] at hlow
    rw [if_neg (by omega), hbase]
    exact hB

/-- A busy word is one of a managed page, and its size is that of a region
of managed pages. -/
theorem busy_word (h : s.Ok A) {base : ℕ}
    (hbusy : s.mgr.vmm.memoryRegions base &&& vmmRegBusyFlag ≠ 0) : base < s.mgr.vmm.virtualPages ∧
      base + s.mgr.vmm.memoryRegions base >>> vmmRegSizeShift ≤ s.mgr.vmm.virtualPages := by
  have hlt : base < s.mgr.vmm.virtualPages := by
    by_contra hge
    refine hbusy ?_
    rw [h.sim.rep.inner base (List.not_mem_nil) fun r hr => ?_]
    · rfl
    · have hend := h.sim.inv.tiles.end_le hr
      have hpos := h.sim.inv.tiles.pos r hr
      simp only at hend
      omega
  refine ⟨hlt, ?_⟩
  by_cases hn : s.mgr.vmm.memoryRegions base >>> vmmRegSizeShift = 0
  · rw [hn]
    omega
  · have hfree : (s.mgr.vmm.freePages base).1 =
        s.mgr.vmm.memoryRegions base >>> vmmRegSizeShift := by
      unfold Vmm.freePages
      simp only [if_neg hbusy, if_neg hn]
    have hmem := h.sim.mem_live_of_freePages hlt (by rw [hfree]; exact hn)
    rw [hfree] at hmem
    exact (h.sim.end_le hmem).2

theorem call_setPagesFlags (h : s.Ok A)
    (hcall : s.mgr.setPagesFlags pointer size flags = some (b, m')) :
    (⟨m', s.live⟩ : VmState).Ok A := by
  unfold VmManager.setPagesFlags at hcall
  simp only at hcall
  split_ifs at hcall with hlow hstop hbusy hsize
  · obtain ⟨⟩ := hcall
    exact h
  · obtain ⟨⟩ := hcall
    exact h
  · obtain ⟨⟩ := hcall
    exact h
  · obtain ⟨⟩ := hcall
    exact h
  · obtain ⟨w, hw, hcall⟩ := Option.map_eq_some_iff.mp hcall
    obtain ⟨rfl, rfl⟩ := Prod.mk.inj hcall
    have hword := (h.busy_word hbusy).2
    have hhigh := h.high
    have hlow := h.low
    refine h.withTables rfl rfl (Paging.setPagesFlags_sound ?_ h.sound hw)
    simp only [kernelVirtualBase, kernelMaxVirtualMemory, pageSize] at *
    omega

/-- Boot memory that is given back. -/
theorem valid_foldl {ram : RamPages} {physAddr count : ℕ} (hram : ram.Valid)
    (halign : pageSize ∣ physAddr) (hpos : 0 < physAddr)
    (hend : physAddr + count * pageSize ≤ 2 ^ 48) : RamPages.Valid ((List.range count).foldl
      (fun ram i => RamPages.freePage (UInt64.ofNat (physAddr + i * pageSize)) ram) ram) := by
  induction count with
  | zero => exact hram
  | succ count ih =>
    have hlt : physAddr + count * pageSize < 2 ^ 48 := by
      simp only [pageSize] at *
      omega
    have hrest := ih hlt.le
    rw [List.range_succ, List.foldl_append, List.foldl_cons, List.foldl_nil]
    intro a ha
    rcases List.mem_cons.mp ha with rfl | ha
    · refine ⟨.ofNat (Dvd.dvd.add halign (Nat.dvd_mul_left _ _)) hlt, fun hzero => ?_⟩
      have hnat := congrArg UInt64.toNat hzero
      rw [UInt64.toNat_ofNat', Nat.mod_eq_of_lt (by omega)] at hnat
      simp only [UInt64.toNat_zero] at hnat
      omega
    · exact hrest a ha

theorem call_freeRamPages (h : s.Ok A) {base : ℕ} {realloc : Bool}
    (hallowed : Allowed (.freeRamPages base size realloc))
    (hcall : s.mgr.freeRamPages base size realloc = some m') : (⟨m', s.live⟩ : VmState).Ok A := by
  obtain ⟨hrange, hboot⟩ := hallowed
  unfold VmManager.freeRamPages at hcall
  simp only at hcall
  split_ifs at hcall with hram halign hone
  · obtain ⟨⟩ := hcall
    obtain ⟨hge, hlt⟩ : ramVirtualBase ≤ base ∧ base < kernelVirtualBase := by
      simpa [VmManager.isRamMappingPtr] using hram
    have hmask := Nat.and_two_pow_sub_one_eq_mod (base - ramVirtualBase) 12
    rw [if_pos hram] at hboot
    have hram : ramVirtualBase = 0xFFFF800000000000 := by rw [ramVirtualBase]
    refine h.withTables rfl rfl ⟨h.sound.1, valid_foldl h.sound.2 ?_ (by omega) ?_⟩
    · exact Nat.dvd_of_mod_eq_zero (hmask.symm.trans (not_not.mp halign))
    · rw [hram] at *
      simp only [pageSize, pageMask, kernelVirtualBase] at *
      omega
  · obtain ⟨w, hw, rfl⟩ := Option.map_eq_some_iff.mp hcall
    exact h.withTables rfl rfl (Paging.freeRamPage_sound h.sound hw)
  · obtain ⟨w, hw, rfl⟩ := Option.map_eq_some_iff.mp hcall
    exact h.withTables rfl rfl (Paging.freeRamPages_sound hrange h.sound hw)

theorem call_onPageFault (h : s.Ok A) {addr errorCode : ℕ}
    (hcall : s.mgr.onPageFault addr errorCode = some (b, m')) : (⟨m', s.live⟩ : VmState).Ok A := by
  obtain ⟨⟨b', root, ram⟩, hfault, hcall⟩ := Option.map_eq_some_iff.mp hcall
  obtain ⟨rfl, rfl⟩ := Prod.mk.inj hcall
  refine h.withTables rfl rfl ?_
  unfold Paging.onPageFault at hfault
  split_ifs at hfault with hprot
  · obtain ⟨-, hfault⟩ := Prod.mk.inj (Option.some.inj hfault)
    obtain ⟨rfl, rfl⟩ := Prod.mk.inj hfault
    exact h.sound
  · by_cases hplain : s.mgr.root.PlainAt 3 (addr / pageSize)
    swap
    · obtain ⟨⟩ := Paging.faultLevel_of_not_plain hplain hfault
      exact h.sound
    obtain ⟨hnone, hsome⟩ := @Paging.faultLevel_spec s.mgr.ram 3 addr s.mgr.root hplain
    cases hentry : Paging.faultEntry s.mgr.ram (s.mgr.root.entry 3 (addr / pageSize)) with
    | none =>
      rw [hnone hentry] at hfault
      cases hfault
    | some r =>
      obtain ⟨root', hlevel, hplain, -⟩ := hsome r hentry
      rw [hlevel] at hfault
      obtain ⟨-, hfault⟩ := Prod.mk.inj (Option.some.inj hfault)
      obtain ⟨rfl, rfl⟩ := Prod.mk.inj hfault
      exact h.sound.of_walk ⟨hplain, Paging.faultEntry_valid h.sound.2 hentry⟩

/-- The constructor's state. -/
theorem init (hinit : vmMachine.init s) : ∃ A, s.Ok A := by
  obtain ⟨needPages, freeStart, hlow, halign, hhigh, hV, hvmm, hbase, hsound, hlive⟩ := hinit
  have hregions : pageSize ∣ regionsSize needPages := dvd_cpuAlignAddrHi _
  have hlist : pageSize ∣ freeListSize needPages := dvd_cpuAlignAddrHi _
  have hsim := @VmmState.Sim.constructed needPages (freeStart + regionsSize needPages)
    (by omega) hV (by simp only [kernelVirtualBase] at hlow; omega) (Dvd.dvd.add halign hregions)
  have hpages : (Vmm.constructed needPages (freeStart + regionsSize needPages)).virtualPages =
      needPages - (regionsSize needPages + freeListSize needPages) / pageSize := by
    rw [Vmm.constructed, addFreeRegion_virtualPages]
    rfl
  rw [← hvmm, ← hlive] at hsim
  refine ⟨_, hsim, ?_, ?_, ?_, hsound⟩
  · rw [hbase]
    omega
  · rw [hbase]
    exact Dvd.dvd.add (Dvd.dvd.add halign hregions) hlist
  · rw [hvmm, hbase, hpages]
    have hle : 1 ≤ needPages - (regionsSize needPages + freeListSize needPages) / pageSize :=
      hV
    generalize regionsSize needPages = regions at *
    generalize freeListSize needPages = list at *
    simp only [pageSize, kernelVirtualBase, kernelMaxVirtualMemory] at *
    omega

/-- **Every state of a guarded run** is as it should be. -/
theorem exists_of_reachable (h : (vmMachine.guard VmState.NoShortFallback).Reachable s) :
    ∃ A, s.Ok A := by
  refine h.invariant (fun _ => init) fun s c t ⟨A, hA⟩ ⟨hok, hallowed, ht⟩ => ?_
  cases c with
  | alloc size flags =>
    obtain ⟨⟨p, m'⟩, hcall, rfl⟩ := Option.map_eq_some_iff.mp ht
    exact hA.call_alloc hallowed hok hcall
  | free pointer =>
    obtain ⟨⟨b, m'⟩, hcall, rfl⟩ := Option.map_eq_some_iff.mp ht
    exact hA.call_free hcall
  | freeRamPages base size realloc =>
    obtain ⟨m', hcall, rfl⟩ := Option.map_eq_some_iff.mp ht
    exact ⟨A, hA.call_freeRamPages hallowed hcall⟩
  | mapMmio mmioBase size memoryType =>
    obtain ⟨⟨p, m'⟩, hcall, rfl⟩ := Option.map_eq_some_iff.mp ht
    exact hA.call_mapMmio hok hcall
  | unmapMmio pointer =>
    obtain ⟨⟨b, m'⟩, hcall, rfl⟩ := Option.map_eq_some_iff.mp ht
    exact hA.call_unmapMmio hcall
  | setPagesFlags pointer size flags =>
    obtain ⟨⟨b, m'⟩, hcall, rfl⟩ := Option.map_eq_some_iff.mp ht
    exact ⟨A, hA.call_setPagesFlags hcall⟩
  | onPageFault addr errorCode =>
    obtain ⟨⟨b, m'⟩, hcall, rfl⟩ := Option.map_eq_some_iff.mp ht
    exact ⟨A, hA.call_onPageFault hcall⟩

end VmState.Ok

/-! ## A small machine -/

/-- A kernel with 128 MiB of virtual memory, no tables and eight pages of
RAM. -/
def smallVmState : VmState :=
  ⟨⟨smallVmm, 0xFFFFFF8000900000, .zero 3,
    (List.range 8).map fun i => UInt64.ofNat (0x100000 + i * pageSize)⟩, []⟩

theorem smallVmState_init : vmMachine.init smallVmState := by
  refine ⟨32768, 0xFFFFFF80007BF000, by decide, by decide, by decide, by decide, ?_, by decide,
    ⟨fun page _ => Paging.plainAt_zero 3 page, fun addr haddr => ?_⟩, rfl⟩
  · rw [show 0xFFFFFF80007BF000 + regionsSize 32768 = 0xFFFFFF8000800000 by decide]
    rfl
  · obtain ⟨i, hi, rfl⟩ := List.mem_map.mp haddr
    have hlt := List.mem_range.mp hi
    refine ⟨.ofNat (Dvd.dvd.add (by decide) (Nat.dvd_mul_left _ _)) ?_, fun hzero => ?_⟩
    · simp only [pageSize]
      omega
    · have hnat := congrArg UInt64.toNat hzero
      rw [UInt64.toNat_ofNat'] at hnat
      simp only [pageSize, UInt64.toNat_zero] at hnat
      omega

theorem smallVmState_reachable :
    (vmMachine.guard VmState.NoShortFallback).Reachable smallVmState :=
  .init smallVmState_init

/-- A larger list has a region. -/
theorem smallVmm_noShortFallback {n : ℕ} (hn : n < 2 ^ 14) : ¬ smallVmm.ShortFallback n := by
  rintro ⟨-, hempty, -⟩
  have hindex : cpuLastOneBitIndex n < 14 := by
    rcases Nat.eq_zero_or_pos n with rfl | hpos
    · decide +kernel
    · have hle := pow_cpuLastOneBitIndex_le (n := n) (by omega)
      exact (Nat.pow_lt_pow_iff_right (by decide)).mp (lt_of_le_of_lt hle hn)
  have hzero := hempty 14 hindex (by decide +kernel)
  exact absurd hzero (by decide +kernel)

end ShmDos64
