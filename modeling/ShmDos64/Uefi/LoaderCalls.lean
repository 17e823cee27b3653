import Mathlib
import ShmDos64.Uefi.BootTables
/-!
# The calls of the loader

What a sequence of calls has mapped, as the loader sees it: each `mapToKernel` has
returned an address, and some of the ranges are protected afterwards. As long as the
window of the kernel is large enough for all of them, the processor finds every page
where it was mapped, whatever the tables that were kept on the way.
-/

namespace ShmDos64

namespace BootPaging

/-! ## Entries of pages -/

/-- The walk finds a page of 4 KB with the physical address and the flags. -/
def Finds (s : BootPaging) (virtualBase : ℕ) (physBase : UInt64) (readOnly wc : Bool) : Prop :=
  ∃ e, s.walk virtualBase = some (0, e) ∧ e &&& ~~~0xFFF = physBase ∧
    e &&& 0xFFF = pageFlags readOnly wc

variable {phys : UInt64}

theorem pageEntry_and_present (phys : UInt64) (readOnly wc : Bool) :
    pageEntry phys readOnly wc &&& pageFlagPresent ≠ 0 := by
  rw [pageEntry, uint64_or_and, Ne, UInt64.or_eq_zero_iff]
  intro h
  revert h
  cases readOnly <;> cases wc <;> exact fun h => absurd h.2 (by decide)

theorem pageFlags_and_mask (readOnly wc : Bool) :
    pageFlags readOnly wc &&& 0xFFF = pageFlags readOnly wc ∧
      pageFlags readOnly wc &&& ~~~0xFFF = 0 := by
  cases readOnly <;> cases wc <;> decide

/-- The address in the entry of a page. -/
theorem pageEntry_address (hphys : phys &&& 0xFFF = 0) (readOnly wc : Bool) :
    pageEntry phys readOnly wc &&& ~~~0xFFF = phys := by
  rw [pageEntry, uint64_or_and, (pageFlags_and_mask readOnly wc).2, UInt64.or_zero,
    uint64_and_not hphys, uint64_and_not hphys]

theorem pageEntry_flags (hphys : phys &&& 0xFFF = 0) (readOnly wc : Bool) :
    pageEntry phys readOnly wc &&& 0xFFF = pageFlags readOnly wc := by
  rw [pageEntry, uint64_or_and, (pageFlags_and_mask readOnly wc).1, uint64_and_not hphys, hphys,
    UInt64.zero_or]

/-- A protected page. -/
theorem pageEntry_protect (phys : UInt64) (readOnly wc : Bool) :
    pageEntry phys readOnly wc &&& ~~~pageFlagWrite = pageEntry phys true wc := by
  have hflags : pageFlags readOnly wc &&& ~~~pageFlagWrite = pageFlags true wc := by
    cases readOnly <;> cases wc <;> decide
  rw [pageEntry, uint64_or_and, hflags, UInt64.and_assoc, pageEntry]
  rfl

/-- Page after page. -/
theorem page_aligned (hphys : phys &&& 0xFFF = 0) (k : ℕ) :
    phys + UInt64.ofNat (k * pageSize) &&& 0xFFF = 0 := by
  have hmask := fun a => uint64_toNat_and_mask a (show 12 < 64 by decide)
  have hzero := (hmask phys).symm.trans (congrArg UInt64.toNat hphys)
  refine UInt64.toNat_inj.mp ((hmask _).trans ?_)
  rw [UInt64.toNat_add, UInt64.toNat_ofNat']
  simp only [UInt64.toNat_zero, pageSize] at *
  omega

end BootPaging

open BootPaging

/-! ## The calls -/

/-- A call of the loader. -/
inductive PagingCall where
  | mapToKernel (physPtr : UInt64) (size : ℕ) (readOnly wc : Bool)
  | protectPages (virtualBase size : ℕ)
  deriving DecidableEq

/-- What `mapToKernel` was called with, and the address that it returned. -/
structure Mapping where
  base : ℕ
  physPtr : UInt64
  size : ℕ
  readOnly : Bool
  wc : Bool

/-- The page tables, and what the loader has mapped and protected, in order. -/
structure Loader where
  paging : BootPaging
  mapped : List Mapping
  readOnlyRanges : List (ℕ × ℕ)

/-- The pages that a size takes. -/
def pagesOf (size : ℕ) : ℕ := (size + pageMask) / pageSize

/-- The pages of all the calls of `mapToKernel`. -/
def totalPages (calls : List PagingCall) : ℕ :=
  (calls.map fun call => match call with
    | .mapToKernel _ size _ _ => pagesOf size
    | .protectPages _ _ => 0).sum

/-- The number of pages before those of the mapping with the index. -/
def pagesBefore (mapped : List Mapping) (k : ℕ) : ℕ :=
  ((mapped.take k).map fun m => pagesOf m.size).sum

/-- Calls with page-aligned addresses, of which those of `protectPages` are for pages
that have been mapped, `n` of them before the first. -/
def Proper : ℕ → List PagingCall → Prop
  | _, [] => True
  | n, .mapToKernel physPtr size _ _ :: calls =>
    physPtr &&& 0xFFF = 0 ∧ Proper (n + pagesOf size) calls
  | n, .protectPages virtualBase size :: calls =>
    (virtualBase < 2 ^ 64 ∧ virtualBase % pageSize = 0 ∧ kernelVirtualBase ≤ virtualBase ∧
      virtualBase + size ≤ kernelPage n) ∧ Proper n calls

namespace PagingCall

/-- The arguments of `mapToKernel`. -/
def mapping? : PagingCall → Option (UInt64 × ℕ × Bool × Bool)
  | .mapToKernel physPtr size readOnly wc => some (physPtr, size, readOnly, wc)
  | .protectPages _ _ => none

/-- The arguments of `protectPages`. -/
def protection? : PagingCall → Option (ℕ × ℕ)
  | .mapToKernel _ _ _ _ => none
  | .protectPages virtualBase size => some (virtualBase, size)

end PagingCall

namespace Mapping

/-- What was asked for. -/
def request (m : Mapping) : UInt64 × ℕ × Bool × Bool := (m.physPtr, m.size, m.readOnly, m.wc)

/-- The addresses of the mapping. -/
def addresses (m : Mapping) : Set ℕ := Set.Ico m.base (m.base + pagesOf m.size * pageSize)

end Mapping

namespace Loader

variable (pages : ℕ → UInt64)

/-- A call; `none` is a panic. -/
def apply (l : Loader) : PagingCall → Option Loader
  | .mapToKernel physPtr size readOnly wc =>
    (l.paging.mapToKernel pages physPtr size readOnly wc).map fun r =>
      { l with paging := r.2, mapped := l.mapped ++ [⟨r.1, physPtr, size, readOnly, wc⟩] }
  | .protectPages virtualBase size =>
    (l.paging.protectPages pages virtualBase size).map fun s =>
      { l with paging := s, readOnlyRanges := l.readOnlyRanges ++ [(virtualBase, size)] }

/-- A sequence of calls. -/
def run (l : Loader) (calls : List PagingCall) : Option Loader :=
  calls.foldlM (apply pages) l

theorem run_nil {pages : ℕ → UInt64} {l : Loader} : l.run pages [] = some l :=
  rfl

theorem run_cons {pages : ℕ → UInt64} {l l' l'' : Loader} {call : PagingCall}
    {calls : List PagingCall} (h : l.apply pages call = some l')
    (hrun : l'.run pages calls = some l'') : l.run pages (call :: calls) = some l'' := by
  rw [run, List.foldlM_cons, h]
  exact hrun

/-- The page is in a range that was protected. -/
def protects (l : Loader) (virtualBase : ℕ) : Bool :=
  l.readOnlyRanges.any fun r =>
    r.1 ≤ virtualBase && virtualBase < r.1 + pagesOf r.2 * pageSize

end Loader

/-- The page tables after the calls. -/
structure Served (support : Bool) (memEnd : ℕ) (lower : ℕ → UInt64) (l : Loader) : Prop where
  found : ∀ m ∈ l.mapped, ∀ i < pagesOf m.size,
    l.paging.Finds (m.base + i * pageSize) (m.physPtr + UInt64.ofNat (i * pageSize))
      (m.readOnly || l.protects (m.base + i * pageSize)) m.wc
  consecutive : ∀ k m, l.mapped[k]? = some m →
    m.base = (kernelVirtualBase + pagesBefore l.mapped k * pageSize) % 2 ^ 64
  disjoint : l.mapped.Pairwise fun m m' => Disjoint m.addresses m'.addresses
  ram : ∀ addr < memEnd, l.paging.walk (ramVirtualBase + addr) = some (ramLeaf support addr)
  lower_eq : ∀ i < 256, l.paging.mem l.paging.pageDirPtrTable i = lower i

variable {pages : ℕ → UInt64} {support : Bool} {s s₀ : BootPaging} {l l' : Loader}
  {calls : List PagingCall} {mem₀ : UInt64 → ℕ → UInt64} {cr3 : UInt64} {n g size memEnd : ℕ}

theorem pageCount_eq (h : pagesOf size ≤ windowPages) : pageCount size = pagesOf size := by
  simp only [pageCount, pagesOf, cpuAlignAddrLo, pageMask, pageSize, windowPages] at *
  omega

/-! ## The invariant -/

/-- The window has `n` pages, which are those of the mappings. -/
structure LoaderOk (pages : ℕ → UInt64) (s₀ : BootPaging) (n : ℕ) (l : Loader) : Prop where
  boot : l.paging.Boot pages
  step : KernelStep pages s₀ l.paging
  free : l.paging.freeKernelVirtualMemory = kernelPage n % 2 ^ 64
  total : n = pagesBefore l.mapped l.mapped.length
  base : ∀ k m, l.mapped[k]? = some m → m.base = kernelPage (pagesBefore l.mapped k) % 2 ^ 64
  entries : ∀ k m, l.mapped[k]? = some m → m.physPtr &&& 0xFFF = 0 ∧ ∀ i < pagesOf m.size,
    l.paging.Pte (kernelPage (pagesBefore l.mapped k + i))
      (pageEntry (m.physPtr + UInt64.ofNat (i * pageSize))
        (m.readOnly || l.protects (kernelPage (pagesBefore l.mapped k + i))) m.wc)
  ranges : ∀ r ∈ l.readOnlyRanges, r.1 + pagesOf r.2 * pageSize ≤ kernelPage n

variable {mapped : List Mapping}

theorem pagesBefore_append_left {m : Mapping} {k : ℕ}
    (hk : k ≤ mapped.length) : pagesBefore (mapped ++ [m]) k = pagesBefore mapped k := by
  rw [pagesBefore, List.take_append_of_le_length hk, pagesBefore]

theorem pagesBefore_concat {m : Mapping} :
    pagesBefore (mapped ++ [m]) (mapped ++ [m]).length =
      pagesBefore mapped mapped.length + pagesOf m.size := by
  simp [pagesBefore]

/-- One mapping comes before the next. -/
theorem pagesBefore_succ_le {m : Mapping} {k k' : ℕ}
    (hm : mapped[k]? = some m) (hk : k < k') :
    pagesBefore mapped k + pagesOf m.size ≤ pagesBefore mapped k' := by
  obtain ⟨hlt, rfl⟩ := List.getElem?_eq_some_iff.mp hm
  have hsucc : pagesBefore mapped (k + 1) = pagesBefore mapped k + pagesOf mapped[k].size := by
    rw [pagesBefore, List.take_succ_eq_append_getElem hlt, List.map_append, List.sum_append]
    rfl
  rw [← hsucc]
  have hsub : (mapped.take (k + 1)).Sublist (mapped.take k') :=
    List.take_sublist_take_left hk
  exact (hsub.map _).sum_le_sum (fun _ _ => Nat.zero_le _)

theorem getElem?_concat_cases {m m' : Mapping} {k : ℕ}
    (h : (mapped ++ [m])[k]? = some m') :
    (k < mapped.length ∧ mapped[k]? = some m') ∨ (k = mapped.length ∧ m' = m) := by
  rcases lt_trichotomy k mapped.length with hk | rfl | hk
  · exact .inl ⟨hk, by rwa [List.getElem?_append_left hk] at h⟩
  · rw [List.getElem?_concat_length] at h
    exact .inr ⟨rfl, (Option.some.inj h).symm⟩
  · rw [List.getElem?_eq_none (by simpa using hk)] at h
    cases h

namespace LoaderOk

variable {physPtr : UInt64} {readOnly wc : Bool} {virtualBase : ℕ}

/-- Pages that are not mapped yet are not protected. -/
theorem protects_eq_false (h : LoaderOk pages s₀ n l) (i : ℕ) :
    l.protects (kernelPage (n + i)) = false := by
  rw [Loader.protects, List.any_eq_false]
  intro r hr
  have hle := h.ranges r hr
  simp only [Bool.and_eq_true, decide_eq_true_eq, not_and, Nat.not_lt]
  intro _
  refine hle.trans ?_
  simp only [kernelPage, pageSize]
  omega

section

variable (hf : FreshPages pages) (h : LoaderOk pages s₀ n l)

include hf h

/-- **A call of `mapToKernel`.** -/
theorem mapToKernel (hfit : n + pagesOf size ≤ windowPages) (hphys : physPtr &&& 0xFFF = 0) :
    ∃ l', l.apply pages (.mapToKernel physPtr size readOnly wc) = some l' ∧
      LoaderOk pages s₀ (n + pagesOf size) l' ∧
      l'.mapped.map Mapping.request =
        l.mapped.map Mapping.request ++ [(physPtr, size, readOnly, wc)] ∧
      l'.readOnlyRanges = l.readOnlyRanges := by
  obtain ⟨s', hloop, hboot, hstep, -, hold, hnew⟩ :=
    mapLoop_spec readOnly wc physPtr hf h.boot hfit
  have hcall : l.paging.mapToKernel pages physPtr size readOnly wc =
      some (kernelPage n % 2 ^ 64,
        { s' with freeKernelVirtualMemory := kernelPage (n + pagesOf size) % 2 ^ 64 }) := by
    rw [BootPaging.mapToKernel, pageCount_eq (by omega), h.free, hloop]
    rfl
  have happly : l.apply pages (.mapToKernel physPtr size readOnly wc) = some ⟨{ s' with
        freeKernelVirtualMemory := kernelPage (n + pagesOf size) % 2 ^ 64 },
      l.mapped ++ [⟨kernelPage n % 2 ^ 64, physPtr, size, readOnly, wc⟩], l.readOnlyRanges⟩ := by
    rw [Loader.apply, hcall]
    rfl
  refine ⟨_, happly, ?_, by rw [List.map_append]; rfl, rfl⟩
  have hpte : ∀ {va e}, s'.Pte va e → ({ s' with
      freeKernelVirtualMemory := kernelPage (n + pagesOf size) % 2 ^ 64 } : BootPaging).Pte va e :=
    id
  refine ⟨hboot.withFree _,
    h.step.trans ⟨hstep.root, hstep.at_of, hstep.kept, hstep.foreign⟩, rfl, ?_,
    fun k m hm => ?_, fun k m hm => ?_, fun r hr => ?_⟩
  · rw [pagesBefore_concat, ← h.total]
  · rcases getElem?_concat_cases hm with ⟨hk, hm⟩ | ⟨rfl, rfl⟩
    · rw [pagesBefore_append_left hk.le]
      exact h.base k m hm
    · rw [pagesBefore_append_left le_rfl, ← h.total]
  · rcases getElem?_concat_cases hm with ⟨hk, hm⟩ | ⟨rfl, rfl⟩
    · rw [pagesBefore_append_left hk.le]
      obtain ⟨haligned, hentries⟩ := h.entries k m hm
      refine ⟨haligned, fun i hi => hpte (hold _ ?_ _ (hentries i hi))⟩
      have := pagesBefore_succ_le hm hk
      rw [← h.total] at this
      omega
    · rw [pagesBefore_append_left le_rfl, ← h.total]
      refine ⟨hphys, fun i hi => ?_⟩
      have hnot := h.protects_eq_false i
      rw [Loader.protects] at hnot ⊢
      rw [hnot, Bool.or_false]
      exact hpte (hnew i hi)
  · refine (h.ranges r hr).trans ?_
    simp only [kernelPage, pageSize]
    omega

/-- **A call of `protectPages`.** -/
theorem protectPages (hn : n ≤ windowPages) (hlt : virtualBase < 2 ^ 64)
    (haligned : virtualBase % pageSize = 0) (hbase : kernelVirtualBase ≤ virtualBase)
    (hend : virtualBase + size ≤ kernelPage n) :
    ∃ l', l.apply pages (.protectPages virtualBase size) = some l' ∧ LoaderOk pages s₀ n l' ∧
      l'.mapped = l.mapped ∧ l'.readOnlyRanges = l.readOnlyRanges ++ [(virtualBase, size)] := by
  obtain ⟨a, rfl⟩ : ∃ a, virtualBase = kernelPage a := by
    refine ⟨(virtualBase - kernelVirtualBase) / pageSize, ?_⟩
    simp only [kernelPage, kernelVirtualBase, pageSize] at *
    omega
  have ha : a + pagesOf size ≤ n := by
    simp only [kernelPage, kernelVirtualBase, pageSize, pagesOf, pageMask] at *
    omega
  obtain ⟨s', hloop, hboot, hstep, hfree, hpages⟩ :=
    protectLoop_spec hf h.boot (show a + pagesOf size ≤ windowPages by omega)
  have hcall : l.paging.protectPages pages (kernelPage a) size = some s' := by
    rw [BootPaging.protectPages, pageCount_eq (by omega), ← hloop, Nat.mod_eq_of_lt hlt]
  have happly : l.apply pages (.protectPages (kernelPage a) size) =
      some ⟨s', l.mapped, l.readOnlyRanges ++ [(kernelPage a, size)]⟩ := by
    rw [Loader.apply, hcall]
    rfl
  refine ⟨_, happly, ?_, rfl, rfl⟩
  refine ⟨hboot, h.step.trans hstep, hfree.trans h.free, h.total, h.base,
    fun k m (hm : l.mapped[k]? = some m) => ?_, fun r hr => ?_⟩
  · obtain ⟨hphys, hentries⟩ := h.entries k m hm
    refine ⟨hphys, fun i hi => ?_⟩
    have hpage := pagesBefore_succ_le hm (List.getElem?_eq_some_iff.mp hm).1
    rw [← h.total] at hpage
    have hpte := hpages (pagesBefore l.mapped k + i) (by omega) _ (hentries i hi)
    -- the page is in the range just when its number is
    have hiff : (kernelPage a ≤ kernelPage (pagesBefore l.mapped k + i) ∧
        kernelPage (pagesBefore l.mapped k + i) < kernelPage a + pagesOf size * pageSize) ↔
        a ≤ pagesBefore l.mapped k + i ∧ pagesBefore l.mapped k + i < a + pagesOf size := by
      simp only [kernelPage, pageSize]
      omega
    have hprotects : (⟨s', l.mapped, l.readOnlyRanges ++ [(kernelPage a, size)]⟩ :
        Loader).protects (kernelPage (pagesBefore l.mapped k + i)) =
        (l.protects (kernelPage (pagesBefore l.mapped k + i)) ||
          decide (a ≤ pagesBefore l.mapped k + i ∧
            pagesBefore l.mapped k + i < a + pagesOf size)) := by
      simp only [Loader.protects, List.any_append, List.any_cons, List.any_nil, Bool.or_false]
      rw [← Bool.decide_and, decide_eq_decide.mpr hiff]
    rw [hprotects, ← Bool.or_assoc]
    by_cases hin : a ≤ pagesBefore l.mapped k + i ∧ pagesBefore l.mapped k + i < a + pagesOf size
    · rw [if_pos hin, pageEntry_protect] at hpte
      rwa [decide_eq_true hin, Bool.or_true]
    · rw [if_neg hin] at hpte
      rwa [decide_eq_false hin, Bool.or_false]
  · rcases List.mem_append.mp hr with hr | hr
    · exact h.ranges r hr
    · obtain rfl := List.mem_singleton.mp hr
      simp only [kernelPage, pageSize]
      omega

/-- **A sequence of calls** that the window is large enough for. -/
theorem run (hproper : Proper n calls) (hfit : n + totalPages calls ≤ windowPages) :
    ∃ l', l.run pages calls = some l' ∧ LoaderOk pages s₀ (n + totalPages calls) l' ∧
      l'.mapped.map Mapping.request =
        l.mapped.map Mapping.request ++ calls.filterMap PagingCall.mapping? ∧
      l'.readOnlyRanges = l.readOnlyRanges ++ calls.filterMap PagingCall.protection? := by
  induction calls generalizing n l with
  | nil => exact ⟨l, rfl, by simpa [totalPages] using h, by simp, by simp⟩
  | cons call calls ih =>
    cases call with
    | mapToKernel physPtr size readOnly wc =>
      obtain ⟨hphys, hproper⟩ := hproper
      have htotal : totalPages (.mapToKernel physPtr size readOnly wc :: calls) =
          pagesOf size + totalPages calls := by
        rw [totalPages, List.map_cons, List.sum_cons, totalPages]
      rw [htotal, ← Nat.add_assoc] at hfit
      have hfirst : n + pagesOf size ≤ windowPages := by omega
      obtain ⟨l₁, hcall, hok, hmapped, hranges⟩ : ∃ l', l.apply pages
          (.mapToKernel physPtr size readOnly wc) = some l' ∧ _ := h.mapToKernel hf hfirst hphys
      obtain ⟨l', hrun, hok', hmapped', hranges'⟩ := ih hok hproper hfit
      rw [htotal, ← Nat.add_assoc]
      refine ⟨l', Loader.run_cons hcall hrun, hok', ?_, ?_⟩
      · rw [hmapped', hmapped, List.append_assoc]
        rfl
      · rw [hranges', hranges]
        rfl
    | protectPages virtualBase size =>
      obtain ⟨⟨hlt, haligned, hbase, hend⟩, hproper⟩ := hproper
      have htotal : totalPages (.protectPages virtualBase size :: calls) = totalPages calls := by
        rw [totalPages, List.map_cons, List.sum_cons, Nat.zero_add, totalPages]
      rw [htotal] at hfit ⊢
      obtain ⟨l₁, hcall, hok, hmapped, hranges⟩ :=
        h.protectPages hf (by omega) hlt haligned hbase hend
      obtain ⟨l', hrun, hok', hmapped', hranges'⟩ := ih hok hproper hfit
      refine ⟨l', Loader.run_cons hcall hrun, hok', ?_, ?_⟩
      · rw [hmapped', hmapped]
        rfl
      · rw [hranges', hranges, List.append_assoc]
        rfl

/-- What the invariant says of the pages. -/
theorem found (hn : n ≤ windowPages) {k : ℕ} {m : Mapping} (hm : l.mapped[k]? = some m) {i : ℕ}
    (hi : i < pagesOf m.size) : m.base + i * pageSize = kernelPage (pagesBefore l.mapped k + i) ∧
      l.paging.Finds (m.base + i * pageSize) (m.physPtr + UInt64.ofNat (i * pageSize))
        (m.readOnly || l.protects (m.base + i * pageSize)) m.wc := by
  have hpage := pagesBefore_succ_le hm (List.getElem?_eq_some_iff.mp hm).1
  rw [← h.total] at hpage
  have haddr : m.base + i * pageSize = kernelPage (pagesBefore l.mapped k + i) := by
    rw [h.base k m hm, kernelPage_mod (by omega)]
    simp only [kernelPage, pageSize]
    omega
  obtain ⟨hphys, hentries⟩ := h.entries k m hm
  rw [haddr]
  exact ⟨rfl, _, (hentries i hi).walk_eq hf h.boot.toTables (pageEntry_and_present _ _ _),
    pageEntry_address (page_aligned hphys i) _ _, pageEntry_flags (page_aligned hphys i) _ _⟩

end

theorem disjoint (h : LoaderOk pages s₀ n l) (hn : n ≤ windowPages) :
    l.mapped.Pairwise fun m m' => Disjoint m.addresses m'.addresses := by
  rw [List.pairwise_iff_getElem]
  intro i j hi hj hij
  have hgi := List.getElem?_eq_getElem hi
  have hgj := List.getElem?_eq_getElem hj
  have hnext := pagesBefore_succ_le hgi hij
  have hlast := pagesBefore_succ_le hgj hj
  rw [← h.total] at hlast
  have hbi := h.base i _ hgi
  have hbj := h.base j _ hgj
  -- a mapping without pages may be at the end of the window
  rcases Nat.eq_zero_or_pos (pagesOf l.mapped[j].size) with hzero | hpos
  · rw [Mapping.addresses, Mapping.addresses, hzero]
    simp
  · rw [kernelPage_mod (by omega)] at hbi hbj
    rw [Mapping.addresses, Mapping.addresses, Set.Ico_disjoint_Ico, hbi, hbj]
    simp only [kernelPage, pageSize]
    omega

end LoaderOk

/-- The loader before the first call. -/
def Loader.start (s : BootPaging) : Loader := ⟨s, [], []⟩

theorem loaderOk_start (h : s.Boot pages) (hfree : s.freeKernelVirtualMemory = kernelVirtualBase) :
    LoaderOk pages s 0 (.start s) where
  boot := h
  step := .refl
  free := hfree
  total := rfl
  base k m hm := by cases hm
  entries k m hm := by cases hm
  ranges r hr := by cases hr

/-- **The loader's page tables.** If the memory ends before the window of the kernel
and this is large enough for all the pages of the calls, then no call panics, the
processor finds every page that was mapped with the flags that were asked for, and the
window of the memory and the lower half of the root are as they were. -/
theorem loader_served (hf : FreshPages pages) (hmem : memEnd ≤ kernelVirtualBase - ramVirtualBase)
    (hproper : Proper 0 calls) (hfit : totalPages calls ≤ windowPages) :
    ∃ s₀ l, construct pages support mem₀ cr3 memEnd = some s₀ ∧
      (Loader.start s₀).run pages calls = some l ∧
      l.mapped.map Mapping.request = calls.filterMap PagingCall.mapping? ∧
      l.readOnlyRanges = calls.filterMap PagingCall.protection? ∧
      Served support memEnd (mem₀ cr3) l := by
  have hend : memEnd ≤ 255 * 2 ^ 39 := by
    refine hmem.trans ?_
    simp only [kernelVirtualBase, ramVirtualBase]
    omega
  obtain ⟨s₀, hs₀, hcons⟩ := construct_spec support mem₀ cr3 hf
    (show memEnd ≤ 2 ^ 47 by omega)
  have hboot := hcons.boot (by simp only [dirEntries]; omega)
  obtain ⟨l, hrun, hok, hmapped, hranges⟩ :=
    (loaderOk_start hboot hcons.free).run hf hproper (by omega)
  rw [Nat.zero_add] at hok
  refine ⟨s₀, l, hs₀, hrun, hmapped, hranges, fun m hm i hi => ?_, hok.base, hok.disjoint hfit,
    fun addr haddr => ?_, fun i hi => ?_⟩
  · obtain ⟨k, hk⟩ := List.mem_iff_getElem?.mp hm
    exact (hok.found hf hfit hk hi).2
  · have hram := hcons.ram.kernelStep hok.step (by simp only [dirEntries]; omega)
    exact hram.walk_eq hf hok.boot.toTables (by omega) (by omega)
  · rw [hok.step.root, hok.step.kept [] _ i .root (by simp; omega)]
    exact hcons.lower i hi

/-! ## A firmware -/

/-- Pages from 16 MB on. -/
def bootPages (n : ℕ) : UInt64 := UInt64.ofNat (0x1000000 + n * pageSize)

theorem toNat_bootPages (hn : n < 2 ^ 28) : (bootPages n).toNat = 0x1000000 + n * pageSize := by
  rw [bootPages, UInt64.toNat_ofNat']
  simp only [pageSize]
  omega

theorem freshPages_bootPages : FreshPages bootPages where
  address n hn := by
    refine IsTableAddress.ofNat (Dvd.dvd.add (by decide) (Nat.dvd_mul_left _ _)) ?_
    simp only [pageSize]
    omega
  injective n hn m hm h := by
    have htoNat := congrArg UInt64.toNat h
    rw [toNat_bootPages hn, toNat_bootPages hm] at htoNat
    simp only [pageSize] at htoNat
    omega

/-- A root at `0x1000` that leads to a page of 1 GB at the address 0. -/
def firmwareMem (table : UInt64) (i : ℕ) : UInt64 :=
  if table = 0x1000 ∧ i = 0 then 0x2003 else if table = 0x2000 ∧ i = 0 then 0x83 else 0

/-- Two pages are mapped and the first is protected. -/
theorem loader_served_two_pages :
    ∃ s₀ l, construct bootPages true firmwareMem 0x1000 (2 ^ 30) = some s₀ ∧
      (Loader.start s₀).run bootPages
        [.mapToKernel 0x100000 0x1800 false false, .protectPages kernelVirtualBase 0x1000] =
          some l ∧
      l.mapped.map Mapping.request = [(0x100000, 0x1800, false, false)] ∧
      l.readOnlyRanges = [(kernelVirtualBase, 0x1000)] ∧
      Served true (2 ^ 30) (firmwareMem 0x1000) l :=
  loader_served freshPages_bootPages (by simp only [ramVirtualBase]; decide)
    ⟨by decide, by decide, trivial⟩ (by decide)

/-! ## Past the window -/

theorem ne_bootPages {a : UInt64} (ha : a.toNat < 0x1000000) (hn : n < 2 ^ 28) :
    a ≠ bootPages n := by
  rintro rfl
  rw [toNat_bootPages hn] at ha
  omega

theorem tableIndex_zero (shift : ℕ) : tableIndex 0 shift = 0 := by
  rw [tableIndex_eq, Nat.zero_div, Nat.zero_mod]

/-- The processor finds the large page of the firmware at the address 0. -/
theorem walk_firmware (hroot : s.mem s.pageDirPtrTable 0 = 0x2003) (hdir : s.mem 0x2000 0 = 0x83) :
    s.walk 0 = some (2, 0x83) := by
  have hfirst : s.walk 0 = walkFrom s.mem 0 2 0x2000 := by
    refine (walkFrom_succ (n := 2) ?_ ?_).trans ?_
    · rw [tableIndex_zero, hroot]
      decide
    · rw [tableIndex_zero, hroot]
      decide
    · rw [tableIndex_zero, hroot]
      rfl
  rw [hfirst]
  refine (walkFrom_large (n := 1) ?_ ?_).trans ?_
  · rw [tableIndex_zero, hdir]
    decide
  · rw [tableIndex_zero, hdir]
    decide
  · rw [tableIndex_zero, hdir]

/-- The page after the last one of the window is at the address 0: its entry is looked
for below the first entry of the root, in what the large page there leads to. -/
theorem mapPage_past_window (h : s.Boot bootPages)
    (hbase : s.currentPageDirBase = 2 ^ 64 - pageDirAreaSize)
    (hroot : s.mem s.pageDirPtrTable 0 = 0x2003)
    (hforeign : ∀ u, (∀ n < 2 ^ 28, u ≠ bootPages n) → s.mem u = firmwareMem u) (phys : UInt64)
    (readOnly wc : Bool) :
    ∃ s', s.mapPage bootPages 0 phys readOnly wc = some s' ∧ s'.walk 0 = some (2, 0x83) := by
  have halloc := h.allocated_lt freshPages_bootPages
  have hdir : s.mem 0x2000 0 = 0x83 := by
    rw [hforeign 0x2000 fun n hn => ne_bootPages (by decide) hn]
    decide
  have hzero : s.mem 0 0 = 0 := by
    rw [hforeign 0 fun n hn => ne_bootPages (by decide) hn]
    decide
  have hone : s.accessToTable bootPages s.pageDirPtrTable 0 = (0x2000, s) := by
    rw [accessToTable, hroot, if_pos (by decide)]
    rfl
  have htwo : s.accessToTable bootPages 0x2000 0 = (0, s) := by
    rw [accessToTable, hdir, if_pos (by decide)]
    rfl
  have hthree : s.accessToTable bootPages 0 0 = (bootPages s.allocated,
      (s.allocTable bootPages fun _ => 0).write 0 0 (tableEntry (bootPages s.allocated))) := by
    rw [accessToTable, hzero, if_neg (by decide)]
  have hmiss : (s.currentPageDirBase + pageDirAreaSize) % 2 ^ 64 ≤ 0 ∨
      0 < s.currentPageDirBase := by
    rw [hbase]
    decide
  -- what is written is not in the tables of the firmware
  obtain ⟨s', hs', hsame, hkept⟩ : ∃ s', s.mapPage bootPages 0 phys readOnly wc = some s' ∧
      s'.pageDirPtrTable = s.pageDirPtrTable ∧
      ∀ u, u ≠ 0 → u ≠ bootPages s.allocated → s'.mem u 0 = s.mem u 0 := by
    rw [mapPage, accessToPageTableEntry, if_pos hmiss]
    simp only [accessToDirPtrEntry, tableIndex_zero, hone, htwo, hthree, hdir]
    rw [if_neg (by decide)]
    refine ⟨_, rfl, rfl, fun u hu hu' => ?_⟩
    refine (writeEntry_of_ne fun heq => absurd heq hu').trans ?_
    refine (writeEntry_of_ne fun heq => absurd heq hu).trans ?_
    rw [allocTable_mem, Function.update_of_ne hu']
  refine ⟨s', hs', walk_firmware ?_ ?_⟩
  · obtain ⟨n, hn, heq⟩ := h.owned [] _ .root
    rw [hsame, hkept, hroot]
    · rw [heq]
      exact (ne_bootPages (by decide) (hn.trans halloc)).symm
    · exact fun hfresh => h.fresh freshPages_bootPages [] (hfresh ▸ .root)
  · rw [hkept _ (by decide) (ne_bootPages (by decide) halloc), hdir]

/-- A window of the memory that reaches into that of the kernel has a large page where
the first page is to be mapped. -/
theorem mapPage_over_ram (hf : FreshPages pages) {d : ℕ} (hg : 255 * dirEntries < g)
    (h : s.Constructing pages true mem₀ cr3 d g) (phys : UInt64) (readOnly wc : Bool) :
    s.mapPage pages kernelVirtualBase phys readOnly wc = none := by
  obtain ⟨t, hat, he⟩ := (h.ram _ hg).1 rfl
  obtain ⟨t', hat', hpresent, -, rfl⟩ := h.toTables.link hf hat
  obtain rfl := hat'.unique .root
  have hne : s.mem s.pageDirPtrTable (256 + 255 * dirEntries / dirEntries) ≠ 0 := by
    intro hzero
    rw [hzero] at hpresent
    exact hpresent UInt64.zero_and
  have hmiss : (s.currentPageDirBase + pageDirAreaSize) % 2 ^ 64 ≤ kernelVirtualBase ∨
      kernelVirtualBase < s.currentPageDirBase := by
    rw [h.base]
    decide
  have h39 : tableIndex kernelVirtualBase 39 = 256 + 255 * dirEntries / dirEntries := by decide
  have h30 : tableIndex kernelVirtualBase 30 = 255 * dirEntries % dirEntries := by decide
  rw [mapPage, accessToPageTableEntry, if_pos hmiss, accessToDirPtrEntry, h39, h30, accessToTable,
    if_pos hne]
  dsimp only
  rw [he, if_pos (ramEntry_and_ne_zero _ (by decide))]
  rfl

/-- A call for all of the window. -/
theorem mapToKernel_window (hf : FreshPages pages) (h : s.Boot pages)
    (hfree : s.freeKernelVirtualMemory = kernelVirtualBase) (phys : UInt64) (readOnly wc : Bool) :
    ∃ s', s.mapToKernel pages phys (2 ^ 39) readOnly wc = some (kernelVirtualBase, s') ∧
      s'.Boot pages ∧ KernelStep pages s s' ∧ s'.freeKernelVirtualMemory = 0 ∧
      s'.currentPageDirBase = 2 ^ 64 - pageDirAreaSize := by
  obtain ⟨s', hloop, hboot, hstep, hbase, -, -⟩ :=
    mapLoop_spec (n := 0) readOnly wc phys hf h (Nat.zero_add windowPages).le
  have hcount : pageCount (2 ^ 39) = windowPages := by decide
  have hstart : kernelPage 0 % 2 ^ 64 = kernelVirtualBase := by decide
  have hend : kernelPage (0 + windowPages) % 2 ^ 64 = 0 := by decide
  have hlast : kernelPage (0 + windowPages - 1) / pageDirAreaSize * pageDirAreaSize =
      2 ^ 64 - pageDirAreaSize := by decide
  rw [hstart, hend] at hloop
  refine ⟨{ s' with freeKernelVirtualMemory := 0 }, ?_, hboot.withFree 0,
    ⟨hstep.root, hstep.at_of, hstep.kept, hstep.foreign⟩, rfl, ?_⟩
  · rw [mapToKernel, hcount, hfree, hloop, Option.map_some]
  · exact (hbase (by decide)).trans hlast

/-- **The window is left.** After 512 GB the next page is mapped at the address 0, where
the processor finds the large page of the firmware; and if the memory does not end
before the window, the first page cannot be mapped at all. -/
theorem window_overrun :
    (∃ s₀ l, construct bootPages true firmwareMem 0x1000 (2 ^ 40) = some s₀ ∧
      (Loader.start s₀).run bootPages
        [.mapToKernel 0x100000 (2 ^ 39) false false,
          .mapToKernel 0x200000 0x1000 false false] = some l ∧
      l.mapped.map Mapping.base = [kernelVirtualBase, 0] ∧
      ¬ l.paging.Finds 0 0x200000 false false) ∧
    ∃ s₀, construct bootPages true firmwareMem 0x1000 (kernelVirtualBase - ramVirtualBase + 1) =
        some s₀ ∧
      (Loader.start s₀).run bootPages [.mapToKernel 0x100000 0x1000 false false] = none := by
  have hf := freshPages_bootPages
  have hcount : pageCount 0x1000 = 1 := by decide
  constructor
  · obtain ⟨s₀, hs₀, hcons⟩ := construct_spec true firmwareMem 0x1000 hf
      (show 2 ^ 40 ≤ 2 ^ 47 by decide)
    have hboot := hcons.boot (by decide)
    obtain ⟨s₁, hfirst, hboot₁, hstep, hfree, hbase⟩ :=
      mapToKernel_window hf hboot hcons.free 0x100000 false false
    have hroot : s₁.mem s₁.pageDirPtrTable 0 = 0x2003 := by
      rw [hstep.root, hstep.kept [] _ 0 .root (by decide), hcons.lower 0 (by decide)]
      rfl
    obtain ⟨s₂, hpage, hwalk⟩ := mapPage_past_window hboot₁ hbase hroot
      (fun u hu => (hstep.foreign u hu).trans (hcons.foreign u hu)) 0x200000 false false
    have hsecond : s₁.mapToKernel bootPages 0x200000 0x1000 false false =
        some (0, { s₂ with freeKernelVirtualMemory := pageSize }) := by
      have hnext : (0 + pageSize) % 2 ^ 64 = pageSize := by decide
      rw [mapToKernel, hcount, hfree, mapLoop, hpage, Option.bind_some, mapLoop, hnext,
        Option.map_some]
    have hone : (Loader.start s₀).apply bootPages (.mapToKernel 0x100000 (2 ^ 39) false false) =
        some ⟨s₁, [⟨kernelVirtualBase, 0x100000, 2 ^ 39, false, false⟩], []⟩ := by
      rw [Loader.apply, Loader.start, hfirst, Option.map_some, List.nil_append]
    have htwo : (⟨s₁, [⟨kernelVirtualBase, 0x100000, 2 ^ 39, false, false⟩], []⟩ : Loader).apply
        bootPages (.mapToKernel 0x200000 0x1000 false false) =
        some ⟨{ s₂ with freeKernelVirtualMemory := pageSize },
          [⟨kernelVirtualBase, 0x100000, 2 ^ 39, false, false⟩] ++
            [⟨0, 0x200000, 0x1000, false, false⟩], []⟩ := by
      rw [Loader.apply, hsecond, Option.map_some]
    have hrun := Loader.run_cons hone (Loader.run_cons htwo Loader.run_nil)
    refine ⟨s₀, _, hs₀, hrun, rfl, ?_⟩
    rintro ⟨e, he, -⟩
    have hlarge : some (2, 0x83) = some (0, e) := hwalk.symm.trans he
    cases hlarge
  · obtain ⟨s₀, hs₀, hcons⟩ := construct_spec true firmwareMem 0x1000 hf
      (show kernelVirtualBase - ramVirtualBase + 1 ≤ 2 ^ 47 by simp only [ramVirtualBase]; decide)
    have hnone := mapPage_over_ram hf (by simp only [ramVirtualBase]; decide) hcons 0x100000
      false false
    have hcall : s₀.mapToKernel bootPages 0x100000 0x1000 false false = none := by
      rw [mapToKernel, hcount, hcons.free, mapLoop, hnone, Option.bind_none, Option.map_none]
    refine ⟨s₀, hs₀, ?_⟩
    simp only [Loader.run, List.foldlM_cons, Loader.apply, Loader.start, hcall, Option.map_none,
      Option.bind_eq_bind, Option.bind_none]

end ShmDos64
