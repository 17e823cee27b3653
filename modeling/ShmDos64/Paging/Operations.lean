import ShmDos64.Paging.Tables
/-!
# The operations of the kernel's `PagingManager64`

Each operation is a walk with its own callback; the free list of
`RamAllocator` is what the walk and the callback share. What an operation
does is said once, by `Updates`: the entries of consecutive pages go
through a function, every other entry stays, and tables are only added.
-/

namespace ShmDos64

open Function (update update_eq_self)
open RamPages

namespace Paging

/-- The flags of a directory for pages with the flags. -/
def dirFlagsOf (pageFlags : UInt64) : UInt64 :=
  (pageFlags &&& pageFlagUser) ||| pageFlagPresent ||| pageFlagWrite

/-- `setPagesFlags`. -/
def setPagesFlags (virtualBase size : ℕ) (mask pageFlags : UInt64) (root : PageDir 3)
    (ram : RamPages) : Option (Walk RamPages 3) :=
  processPages RamPages.allocPage virtualBase size (dirFlagsOf pageFlags)
    (fun ram entry => (setFlags mask pageFlags entry, ram)) root ram

/-- `freeRamPages`. -/
def freeRamPages (virtualBase size : ℕ) (virtualAllocated : Bool) (root : PageDir 3)
    (ram : RamPages) : Option (Walk RamPages 3) :=
  processPages RamPages.allocPage virtualBase size 0 (releaseEntry virtualAllocated) root ram

/-- `freeRamPage`. -/
def freeRamPage (virtualBase : ℕ) (virtualAllocated : Bool) (root : PageDir 3)
    (ram : RamPages) : Option (Walk RamPages 3) :=
  processPage RamPages.allocPage virtualBase 0 (releaseEntry virtualAllocated) root ram

/-- `mapPage`. -/
def mapPage (virtualBase : ℕ) (physBase pageFlags : UInt64) (root : PageDir 3)
    (ram : RamPages) : Option (Walk RamPages 3) :=
  processPage RamPages.allocPage virtualBase (dirFlagsOf pageFlags)
    (fun ram _ => (physBase ||| pageFlags, ram)) root ram

/-- The walk of `onPageFault` from a table with `n` levels below it: what
it returns, the table and the free list. `none` is a panic. -/
def faultLevel (addr : ℕ) : (n : ℕ) → PageDir n → RamPages → Option (Bool × PageDir n × RamPages)
  | 0, dir, ram =>
    let index := addr >>> pageShift &&& 0x1FF
    (faultEntry ram (dir index)).map fun r => (r.1, update dir index r.2.1, r.2.2)
  | n + 1, dir, ram =>
    let index := addr >>> (pageShift + (n + 1) * 9) &&& 0x1FF
    match dir index with
    | none => some (false, dir, ram)
    | some (dirValue, child) =>
      if tableOf dirValue = 0 then some (false, dir, ram)
      else if dirValue &&& pageFlagSize ≠ 0 then none
      else (faultLevel addr n child ram).map fun r =>
        (r.1, update dir index (some (dirValue, r.2.1)), r.2.2)

/-- `onPageFault`. -/
def onPageFault (addr errorCode : ℕ) (root : PageDir 3) (ram : RamPages) :
    Option (Bool × PageDir 3 × RamPages) :=
  if errorCode &&& 1 ≠ 0 then some (false, root, ram) else faultLevel addr 3 root ram

/-! ## What an operation does -/

/-- The page is one of `count` from `start` on, for the tables. -/
def InPages (start count page : ℕ) : Prop := ∃ i < count, page % 2 ^ 36 = (start + i) % 2 ^ 36

/-- **What an operation does to the tables**: the entries of `count` pages
from `start` on go through `f`. -/
structure Updates (start count : ℕ) (f : ℕ → UInt64 → UInt64) (root root' : PageDir 3) :
    Prop where
  page : ∀ i < count, root'.entry 3 (start + i) = f i (root.entry 3 (start + i))
  outside : ∀ p, ¬ InPages start count p → root'.entry 3 p = root.entry 3 p
  table : ∀ i < count, root'.HasTable 3 (start + i)
  kept : ∀ p, root.HasTable 3 p → root'.HasTable 3 p

/-- The page is in the window through which the kernel sees RAM, from
`RAM_VIRTUAL_BASE` up to `KERNEL_VIRTUAL_BASE`. The loader maps it with
large pages. -/
def InRamWindow (page : ℕ) : Prop := 2 ^ 35 ≤ page % 2 ^ 36 ∧ page % 2 ^ 36 < 511 * 2 ^ 27

/-- The way to every page outside the window of RAM is plain, and the list
is one of pages of RAM. -/
def Sound (root : PageDir 3) (ram : RamPages) : Prop :=
  (∀ page, ¬ InRamWindow page → root.PlainAt 3 page) ∧ ram.Valid

/-- How many pages a range of addresses has bytes of. -/
def pageCount (virtualBase size : ℕ) : ℕ :=
  (virtualBase + size - 1) / pageSize + 1 - virtualBase / pageSize

section Walks

variable {σ : Type*} {alloc : Alloc σ} {dirFlags : UInt64} {callback : Callback σ}
variable {root : PageDir 3} {st : σ} {w : Walk σ 3} {virtualBase size : ℕ}

theorem entry_eq {root : PageDir 3} {p q : ℕ} (h : p % 2 ^ 36 = q % 2 ^ 36) :
    root.entry 3 p = root.entry 3 q :=
  entry_congr (n := 3) h

theorem pageCount_le (hrange : virtualBase % 2 ^ 48 + size ≤ 2 ^ 48) :
    pageCount virtualBase size ≤ dirEntries ^ (3 + 1) := by
  have htop : dirEntries ^ (3 + 1) = 2 ^ 36 := by decide
  rw [htop, pageCount]
  simp only [pageSize]
  omega

/-- **A range walk** whose callback computes the entry from the entry. -/
theorem processPages_updates {f : UInt64 → UInt64} (hf : ∀ st e, (callback st e).1 = f e)
    (hsize : 1 ≤ size) (hrange : virtualBase % 2 ^ 48 + size ≤ 2 ^ 48)
    (h : processPages alloc virtualBase size dirFlags callback root st = some w) :
    Updates (virtualBase / pageSize) (pageCount virtualBase size) (fun _ => f) root w.1 := by
  rw [processPages_eq hsize hrange] at h
  obtain ⟨hframe, hpages⟩ := walkRange_entry (pageCount_le hrange) h
  obtain ⟨htable, hkept⟩ := walkRange_hasTable h
  refine ⟨fun i hi => ?_, fun p hp => hframe p fun i hi heq => hp ⟨i, hi, heq⟩, htable, hkept⟩
  obtain ⟨st₀, hst₀⟩ := hpages i hi
  rw [hst₀, hf]

/-- A walk over pages that have their tables ends. -/
theorem exists_processPages (hsize : 1 ≤ size) (hrange : virtualBase % 2 ^ 48 + size ≤ 2 ^ 48)
    (h : ∀ i < pageCount virtualBase size, root.HasTable 3 (virtualBase / pageSize + i)) :
    ∃ w, processPages alloc virtualBase size dirFlags callback root st = some w := by
  rw [processPages_eq hsize hrange]
  exact exists_walkRange_of_hasTable h

/-- **The walk to one page.** -/
theorem processPage_updates {f : UInt64 → UInt64} (hf : ∀ st e, (callback st e).1 = f e)
    (h : processPage alloc virtualBase dirFlags callback root st = some w) :
    Updates (virtualBase / pageSize) 1 (fun _ => f) root w.1 := by
  have htop : dirEntries ^ (3 + 1) = 2 ^ 36 := by decide
  rw [processPage, walkPage_eq_walkTo] at h
  obtain ⟨st₀, -, -, hentry⟩ := walkTo_entry h
  obtain ⟨htable, hkept⟩ := walkTo_hasTable h
  rw [htop] at hentry
  refine ⟨fun i hi => ?_, fun p hp => ?_, fun i hi => ?_, hkept⟩
  · obtain rfl : i = 0 := by omega
    rw [Nat.add_zero, hentry, if_pos rfl, hf]
  · have hne : p % 2 ^ 36 ≠ virtualBase / pageSize % 2 ^ 36 := fun heq => hp ⟨0, Nat.one_pos, heq⟩
    rw [hentry, if_neg hne]
  · obtain rfl : i = 0 := by omega
    exact htable

theorem exists_processPage (h : root.HasTable 3 (virtualBase / pageSize)) :
    ∃ w, processPage alloc virtualBase dirFlags callback root st = some w := by
  rw [processPage, walkPage_eq_walkTo]
  obtain ⟨w, hw, -⟩ := exists_walkTo_of_hasTable (w := (root, st, false)) h
  exact ⟨w, hw⟩

end Walks

/-! ## The operations -/

variable {virtualBase size : ℕ} {mask pageFlags physBase : UInt64} {root : PageDir 3}
  {ram : RamPages} {w : Walk RamPages 3} {va : Bool}

theorem setPagesFlags_updates (hsize : 1 ≤ size) (hrange : virtualBase % 2 ^ 48 + size ≤ 2 ^ 48)
    (h : setPagesFlags virtualBase size mask pageFlags root ram = some w) :
    Updates (virtualBase / pageSize) (pageCount virtualBase size)
      (fun _ => setFlags mask pageFlags) root w.1 :=
  processPages_updates (fun _ _ => rfl) hsize hrange h

theorem mapPage_updates (h : mapPage virtualBase physBase pageFlags root ram = some w) :
    Updates (virtualBase / pageSize) 1 (fun _ _ => physBase ||| pageFlags) root w.1 :=
  processPage_updates (fun _ _ => rfl) h

theorem mapPages_updates {w : Walk (UInt64 × RamPages) 3} (hsize : 1 ≤ size)
    (hrange : virtualBase % 2 ^ 48 + size ≤ 2 ^ 48)
    (h : mapPages allocPage virtualBase physBase size pageFlags root ram = some w) :
    Updates (virtualBase / pageSize) (pageCount virtualBase size)
      (fun i _ => (physBase + 0x1000 * UInt64.ofNat i) ||| pageFlags) root w.1 := by
  have hwalk := h
  rw [mapPages, processPages_eq hsize hrange] at hwalk
  obtain ⟨hframe, -⟩ := walkRange_entry (pageCount_le hrange) hwalk
  obtain ⟨htable, hkept⟩ := walkRange_hasTable hwalk
  refine ⟨fun i hi => mapPages_entry hsize hrange h ?_,
    fun p hp => hframe p fun i hi heq => hp ⟨i, hi, heq⟩, htable, hkept⟩
  rw [pageCount] at hi
  omega

/-! ## Enough memory -/

/-- A walk that takes RAM for tables only takes at most one page a level. -/
theorem exists_walkTo_ram {callback : Callback RamPages} {dirFlags : UInt64} {n : ℕ}
    (hcall : ∀ ram e, (callback ram e).2 = ram) (hflags : dirFlags ≠ 0) (page : ℕ)
    {w : Walk RamPages n} (hram : n ≤ w.2.1.length) :
    ∃ w', walkTo allocPage dirFlags callback n page w = some w' ∧
      w.2.1.length ≤ w'.2.1.length + n := by
  induction n with
  | zero =>
    rw [walkTo_zero, visit, if_neg (Nat.not_le.mpr (Nat.mod_lt _ (by decide)))]
    exact ⟨_, rfl, by simp only [hcall]; exact le_rfl⟩
  | succ n ih =>
    obtain ⟨r, hr, hlen⟩ : ∃ r, accessToChildDir allocPage dirFlags w.1
        (page / dirEntries ^ (n + 1) % dirEntries) w.2.1 = some r ∧
        w.2.1.length ≤ r.2.length + 1 := by
      rw [accessToChildDir, if_neg (Nat.not_le.mpr (Nat.mod_lt _ (by decide)))]
      cases w.1 (page / dirEntries ^ (n + 1) % dirEntries) with
      | some e => exact ⟨_, rfl, Nat.le_succ _⟩
      | none =>
        cases hlist : w.2.1 with
        | nil => simp [hlist] at hram
        | cons addr ram =>
          rw [if_neg hflags]
          exact ⟨_, rfl, by simp⟩
    obtain ⟨c, hc, hlen'⟩ := ih (w := (r.1.2, r.2, w.2.2)) (by simp only; omega)
    refine
      ⟨(update w.1 (page / dirEntries ^ (n + 1) % dirEntries) (some (r.1.1, c.1)), c.2), ?_, ?_⟩
    · rw [walkTo_succ, inChild, hr, Option.bind_some, hc]
      rfl
    · simp only at hlen' ⊢
      omega

theorem exists_walkRange_ram {callback : Callback RamPages} {dirFlags : UInt64} {n : ℕ}
    (hcall : ∀ ram e, (callback ram e).2 = ram) (hflags : dirFlags ≠ 0) {start count : ℕ}
    {w : Walk RamPages n} (hram : n * count ≤ w.2.1.length) :
    ∃ w', walkRange allocPage dirFlags callback n start count w = some w' := by
  induction count generalizing start w with
  | zero => exact ⟨w, rfl⟩
  | succ count ih =>
    rw [Nat.mul_succ] at hram
    obtain ⟨w₁, h₁, hlen⟩ := exists_walkTo_ram hcall hflags start (w := w) (by omega)
    obtain ⟨w₂, h₂⟩ : ∃ w₂, walkRange allocPage dirFlags callback n (start + 1) count w₁ =
        some w₂ := ih (by omega)
    refine ⟨w₂, ?_⟩
    rw [walkRange, List.range'_succ, List.foldlM_cons]
    exact (congrArg (fun o => Option.bind o _) h₁).trans h₂

theorem dirFlagsOf_ne_zero (pageFlags : UInt64) : dirFlagsOf pageFlags ≠ 0 := by
  intro hzero
  rw [dirFlagsOf, UInt64.or_eq_zero_iff] at hzero
  exact absurd hzero.2 (by decide)

/-- `setPagesFlags` ends if there are three pages of RAM for each page. -/
theorem exists_setPagesFlags (hsize : 1 ≤ size) (hrange : virtualBase % 2 ^ 48 + size ≤ 2 ^ 48)
    (hram : 3 * pageCount virtualBase size ≤ ram.length) :
    ∃ w, setPagesFlags virtualBase size mask pageFlags root ram = some w := by
  rw [setPagesFlags, processPages_eq hsize hrange]
  exact exists_walkRange_ram (fun _ _ => rfl) (dirFlagsOf_ne_zero _) hram

/-! ## Tables stay plain -/

theorem dirFlagsOf_and (pageFlags : UInt64) : dirFlagsOf pageFlags &&& ~~~7 = 0 := by
  have huser : pageFlagUser &&& ~~~7 = 0 := by decide
  rw [dirFlagsOf, uint64_or_and, uint64_or_and, UInt64.and_assoc, huser, UInt64.and_zero]
  decide

theorem allocPage_valid {ram : RamPages} {r : UInt64 × RamPages} (h : ram.Valid)
    (hr : allocPage ram = some r) : IsRamPage r.1 ∧ Valid r.2 := by
  cases ram with
  | nil => cases hr
  | cons addr ram =>
    obtain ⟨⟩ := hr
    exact ⟨h addr (by simp), fun a ha => h a (List.mem_cons_of_mem _ ha)⟩

theorem tableOf_isTableAddress (e : UInt64) : IsTableAddress (tableOf e) := by
  rw [IsTableAddress, tableOf, UInt64.and_assoc, UInt64.and_self]

/-- Only pages of RAM are released. -/
theorem releaseEntry_valid {ram : RamPages} {entry : UInt64} (h : ram.Valid) :
    Valid (releaseEntry va ram entry).2 := by
  have hfree : tableOf entry ≠ 0 → Valid (freePage (tableOf entry) ram) := by
    intro haddr a ha
    rcases List.mem_cons.mp ha with rfl | ha
    · exact ⟨tableOf_isTableAddress entry, haddr⟩
    · exact h a ha
  unfold releaseEntry
  simp only
  split_ifs with hpresent haddr
  · exact hfree haddr
  · exact hfree haddr
  · exact h
  · exact h

section Plain

variable {σ : Type*} {alloc : Alloc σ} {dirFlags : UInt64} {callback : Callback σ} {P : σ → Prop}

section

variable (hflags : dirFlags &&& ~~~7 = 0)
  (halloc : ∀ st r, P st → alloc st = some r → IsRamPage r.1 ∧ P r.2)
  (hcall : ∀ st e, P st → P (callback st e).2)

include hflags halloc hcall

theorem processPages_plain {st : σ} {w : Walk σ 3} (hrange : virtualBase % 2 ^ 48 + size ≤ 2 ^ 48)
    (hw : P st) (h : processPages alloc virtualBase size dirFlags callback root st = some w) :
    (∀ p, root.PlainAt 3 p → w.1.PlainAt 3 p) ∧ P w.2.1 := by
  rcases Nat.eq_zero_or_pos size with rfl | hsize
  · obtain ⟨⟩ := h
    exact ⟨fun _ hp => hp, hw⟩
  · rw [processPages_eq hsize hrange] at h
    exact walkRange_plain hflags halloc hcall hw h

theorem processPage_plain {st : σ} {w : Walk σ 3} (hw : P st)
    (h : processPage alloc virtualBase dirFlags callback root st = some w) :
    (∀ p, root.PlainAt 3 p → w.1.PlainAt 3 p) ∧ P w.2.1 := by
  rw [processPage, walkPage_eq_walkTo] at h
  exact walkTo_plain hflags halloc hcall hw h

end

end Plain

/-- What a walk keeps. -/
theorem Sound.of_walk {root' : PageDir 3} {ram' : RamPages} (hs : Sound root ram)
    (h : (∀ p, root.PlainAt 3 p → root'.PlainAt 3 p) ∧ ram'.Valid) : Sound root' ram' :=
  ⟨fun p hp => h.1 p (hs.1 p hp), h.2⟩

theorem setPagesFlags_sound (hrange : virtualBase % 2 ^ 48 + size ≤ 2 ^ 48) (hs : Sound root ram)
    (h : setPagesFlags virtualBase size mask pageFlags root ram = some w) : Sound w.1 w.2.1 :=
  hs.of_walk (processPages_plain (dirFlagsOf_and _) (fun _ _ => allocPage_valid)
    (fun _ _ hP => hP) hrange hs.2 h)

theorem freeRamPages_sound (hrange : virtualBase % 2 ^ 48 + size ≤ 2 ^ 48) (hs : Sound root ram)
    (h : freeRamPages virtualBase size va root ram = some w) : Sound w.1 w.2.1 :=
  hs.of_walk (processPages_plain (by decide) (fun _ _ => allocPage_valid)
    (fun _ _ => releaseEntry_valid) hrange hs.2 h)

theorem freeRamPage_sound (hs : Sound root ram) (h : freeRamPage virtualBase va root ram = some w) :
    Sound w.1 w.2.1 :=
  hs.of_walk (processPage_plain (by decide) (fun _ _ => allocPage_valid)
    (fun _ _ => releaseEntry_valid) hs.2 h)

theorem mapPage_sound (hs : Sound root ram)
    (h : mapPage virtualBase physBase pageFlags root ram = some w) : Sound w.1 w.2.1 :=
  hs.of_walk (processPage_plain (dirFlagsOf_and _) (fun _ _ => allocPage_valid)
    (fun _ _ hP => hP) hs.2 h)

theorem mapPages_sound {w : Walk (UInt64 × RamPages) 3}
    (hrange : virtualBase % 2 ^ 48 + size ≤ 2 ^ 48) (hs : Sound root ram)
    (h : mapPages allocPage virtualBase physBase size pageFlags root ram = some w) :
    Sound w.1 w.2.1.2 := by
  have hst : (physBase, ram).2.Valid := hs.2
  refine hs.of_walk (processPages_plain (P := fun st : UInt64 × RamPages => Valid st.2)
    (dirFlagsOf_and _) (fun st r hP hr => ?_) (fun _ _ hP => hP) hrange hst h)
  obtain ⟨a, ha, rfl⟩ := Option.map_eq_some_iff.mp hr
  exact allocPage_valid hP ha

/-! ## The page fault -/

theorem faultEntry_zero (ram : RamPages) : faultEntry ram 0 = some (false, 0, ram) := rfl

theorem faultEntry_valid {e : UInt64} {r : Bool × UInt64 × RamPages} (h : ram.Valid)
    (hr : faultEntry ram e = some r) : r.2.2.Valid := by
  unfold faultEntry at hr
  split_ifs at hr
  · obtain ⟨⟩ := hr
    exact h
  · obtain ⟨⟩ := hr
    exact h
  · obtain ⟨a, ha, rfl⟩ := Option.map_eq_some_iff.mp hr
    exact (allocPage_valid h ha).2

/-- A page fault does nothing where the way to the page is not plain. -/
theorem faultLevel_of_not_plain {n addr : ℕ} {dir : PageDir n}
    {r : Bool × PageDir n × RamPages} (hplain : ¬ dir.PlainAt n (addr / pageSize))
    (h : faultLevel addr n dir ram = some r) : r = (false, dir, ram) := by
  induction n with
  | zero => exact absurd trivial hplain
  | succ n ih =>
    rw [PageDir.PlainAt] at hplain
    push Not at hplain
    obtain ⟨e, hd, he⟩ := hplain
    rw [faultLevel, index_addr, hd] at h
    simp only at h
    split_ifs at h with hframe hsize
    · exact (Option.some.inj h).symm
    · obtain ⟨r', hr', rfl⟩ := Option.map_eq_some_iff.mp h
      rw [ih (he ⟨hframe, not_not.mp hsize⟩) hr', ← hd]
      exact congrArg (fun d => (false, d, ram)) (update_eq_self _ _)

/-- **The page fault** does at the entry of the page what `faultEntry`
does, and a page without a table has the entry 0. -/
theorem faultLevel_spec {n addr : ℕ} {dir : PageDir n}
    (hplain : dir.PlainAt n (addr / pageSize)) :
    (faultEntry ram (dir.entry n (addr / pageSize)) = none → faultLevel addr n dir ram = none) ∧
    ∀ r, faultEntry ram (dir.entry n (addr / pageSize)) = some r →
      ∃ dir', faultLevel addr n dir ram = some (r.1, dir', r.2.2) ∧
        (∀ p, dir.PlainAt n p → dir'.PlainAt n p) ∧
        (∀ p, dir'.entry n p =
          if p % dirEntries ^ (n + 1) = addr / pageSize % dirEntries ^ (n + 1) then r.2.1
          else dir.entry n p) ∧
        ∀ p, dir.HasTable n p → dir'.HasTable n p := by
  induction n with
  | zero =>
    rw [faultLevel, index_addr_zero, PageDir.entry]
    refine ⟨fun h => by rw [h]; rfl, fun r hr => ?_⟩
    rw [hr]
    refine ⟨_, rfl, fun _ _ => trivial, fun p => ?_, fun _ _ => trivial⟩
    rw [Nat.pow_one]
    exact Function.update_apply ..
  | succ n ih =>
    rw [faultLevel, index_addr]
    cases hd : dir (addr / pageSize / dirEntries ^ (n + 1) % dirEntries) with
    | none =>
      -- no table for the page: its entry is 0
      have hentry : dir.entry (n + 1) (addr / pageSize) = 0 := by rw [PageDir.entry, hd]
      rw [hentry, faultEntry_zero]
      refine ⟨by simp, fun r hr => ?_⟩
      obtain ⟨⟩ := hr
      refine ⟨dir, rfl, fun _ hp => hp, fun p => ?_, fun _ hp => hp⟩
      split_ifs with hp
      · rw [entry_congr hp, hentry]
      · rfl
    | some e =>
      obtain ⟨⟨hframe, hsize⟩, hchild⟩ := hplain e hd
      have hentry : dir.entry (n + 1) (addr / pageSize) = e.2.entry n (addr / pageSize) := by
        rw [PageDir.entry, hd]
      obtain ⟨hnone, hsome⟩ := ih hchild
      simp only [if_neg hframe, if_neg (not_not.mpr hsize)]
      rw [hentry]
      refine ⟨fun h => by rw [hnone h]; rfl, fun r hr => ?_⟩
      obtain ⟨child, hfault, hplain', hentries, htables⟩ := hsome r hr
      rw [hfault]
      refine ⟨_, rfl, fun p hp => plainAt_update hp fun hi => ?_, fun p => ?_, fun p hp => ?_⟩
      · exact ⟨⟨hframe, hsize⟩, hplain' p (hp e (hi ▸ hd)).2⟩
      · refine entry_update.trans ?_
        by_cases hi : p / dirEntries ^ (n + 1) % dirEntries =
            addr / pageSize / dirEntries ^ (n + 1) % dirEntries
        · have hbelow : dir.entry (n + 1) p = e.2.entry n p := by rw [PageDir.entry, hi, hd]
          simp only [mod_pow_succ_inj, hi, true_and, if_true, hentries, hbelow]
        · simp only [mod_pow_succ_inj, hi, false_and, if_false]
      · refine hasTable_update.mpr ?_
        split_ifs with hi
        · obtain ⟨e', he', hp⟩ := hp
          rw [hi, hd] at he'
          obtain ⟨⟩ := he'
          exact htables p hp
        · exact hp

/-- `onPageFault` for a fault that is not one of protection. -/
theorem onPageFault_spec {addr code : ℕ} (hplain : root.PlainAt 3 (addr / pageSize)) :
    (faultEntry ram (root.entry 3 (addr / pageSize)) = none →
      onPageFault addr (2 * code) root ram = none) ∧
    ∀ r, faultEntry ram (root.entry 3 (addr / pageSize)) = some r →
      ∃ root', onPageFault addr (2 * code) root ram = some (r.1, root', r.2.2) ∧
        (∀ p, root.PlainAt 3 p → root'.PlainAt 3 p) ∧
        (∀ p, root'.entry 3 p =
          if p % 2 ^ 36 = addr / pageSize % 2 ^ 36 then r.2.1 else root.entry 3 p) ∧
        ∀ p, root.HasTable 3 p → root'.HasTable 3 p := by
  rw [onPageFault, if_neg (by simp)]
  exact faultLevel_spec hplain

/-- The first access to a page that is armed. -/
theorem onPageFault_armed : ∃ root root', root.entry 3 0 = pageFlagAllocated ||| pageFlagWrite ∧
    onPageFault 0 2 root [0x100000] = some (true, root', []) ∧ root'.entry 3 0 = 0x100003 := by
  have hset : (setPagesFlags 0 0x1000 0xFFF (pageFlagAllocated ||| pageFlagWrite) (.zero 3)
      [0x1000, 0x2000, 0x3000]).map (fun w => w.1.entry 3 0) =
      some (pageFlagAllocated ||| pageFlagWrite) := by decide +kernel
  obtain ⟨w, hw, hentry⟩ := Option.map_eq_some_iff.mp hset
  have hplain : w.1.PlainAt 3 0 := by
    refine (setPagesFlags_sound (by decide) ⟨fun p _ => plainAt_zero 3 p, ?_⟩ hw).1 0 ?_
    · simp only [RamPages.Valid, List.forall_mem_cons, IsRamPage, IsTableAddress]
      exact ⟨by decide, by decide, by decide, List.forall_mem_nil _⟩
    · simp [InRamWindow]
  obtain ⟨root', hfault, -, hroot', -⟩ := (@onPageFault_spec w.1 [0x100000] 0 1 hplain).2
    (true, 0x100003, []) (by rw [Nat.zero_div, hentry]; decide)
  exact ⟨w.1, root', hentry, hfault, (hroot' 0).trans (if_pos rfl)⟩

end Paging

end ShmDos64
