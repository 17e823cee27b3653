import ShmDos64.Paging.Entry
import ShmDos64.Paging.Walk
/-!
# The tables of a page

A walk that ends at a page leaves the tables the page needs, and takes
away none. A walk to a page that has its tables allocates nothing and
cannot fail, whatever its `dirFlags`. No walk puts an entry for a large
page on the way to any page.
-/

namespace ShmDos64

open Function (update update_of_ne update_self)

/-- There is a table with an entry for the page. -/
def PageDir.HasTable : (n : ℕ) → PageDir n → ℕ → Prop
  | 0, _, _ => True
  | n + 1, dir, page =>
    ∃ e : UInt64 × PageDir n, dir (page / dirEntries ^ (n + 1) % dirEntries) = some e ∧
      e.2.HasTable n page

/-- The directory entries on the way to the page lead to pages, and none
is that of a large page. -/
def PageDir.PlainAt : (n : ℕ) → PageDir n → ℕ → Prop
  | 0, _, _ => True
  | n + 1, dir, page =>
    ∀ e : UInt64 × PageDir n, dir (page / dirEntries ^ (n + 1) % dirEntries) = some e →
      (tableOf e.1 ≠ 0 ∧ e.1 &&& pageFlagSize = 0) ∧ e.2.PlainAt n page

/-- The address of a page of RAM: aligned, in the range of an entry's
address, and not null. -/
def IsRamPage (addr : UInt64) : Prop := IsTableAddress addr ∧ addr ≠ 0

/-- Every page of the list is a page of RAM. -/
def RamPages.Valid (ram : RamPages) : Prop := ∀ addr ∈ ram, IsRamPage addr

namespace Paging

variable {σ : Type*} {alloc : Alloc σ} {dirFlags : UInt64} {callback : Callback σ} {n : ℕ}

/-! ## Tables that are there -/

theorem hasTable_update {dir : ℕ → Option (UInt64 × PageDir n)} {index page : ℕ} {e : UInt64}
    {child : PageDir n} : PageDir.HasTable (n + 1) (update dir index (some (e, child))) page ↔
      if page / dirEntries ^ (n + 1) % dirEntries = index then child.HasTable n page
      else PageDir.HasTable (n + 1) dir page := by
  change (∃ e' : UInt64 × PageDir n,
    update dir index (some (e, child)) (page / dirEntries ^ (n + 1) % dirEntries) = some e' ∧
      e'.2.HasTable n page) ↔ _
  split_ifs with hp
  · simp [hp]
  · rw [update_of_ne hp]
    exact Iff.rfl

/-- The table an access leads to has the tables that there were. -/
theorem hasTable_access {dir : PageDir (n + 1)} {st : σ} {r : (UInt64 × PageDir n) × σ} {page : ℕ}
    (h : accessToChildDir alloc dirFlags dir (page / dirEntries ^ (n + 1) % dirEntries) st =
      some r) (hdir : dir.HasTable (n + 1) page) : r.1.2.HasTable n page := by
  obtain ⟨e, he, hchild⟩ := hdir
  rw [accessToChildDir_some (index_lt_of_access h) he] at h
  obtain ⟨⟩ := h
  exact hchild

/-- **A walk leaves the tables of its page**, and those of other pages. -/
theorem walkTo_hasTable {page : ℕ} {w w' : Walk σ n}
    (h : walkTo alloc dirFlags callback n page w = some w') :
    w'.1.HasTable n page ∧ ∀ p, w.1.HasTable n p → w'.1.HasTable n p := by
  induction n with
  | zero => exact ⟨trivial, fun _ _ => trivial⟩
  | succ n ih =>
    rw [walkTo_succ, inChild] at h
    obtain ⟨r, hacc, h⟩ := Option.bind_eq_some_iff.mp h
    obtain ⟨c, hc, rfl⟩ := Option.map_eq_some_iff.mp h
    obtain ⟨hpage, hkept⟩ := ih hc
    refine ⟨hasTable_update.mpr (by rw [if_pos rfl]; exact hpage), fun p hp => ?_⟩
    refine hasTable_update.mpr ?_
    split_ifs with hi
    · rw [← hi] at hacc
      exact hkept p (hasTable_access hacc hp)
    · exact hp

/-- **A walk to a page with its tables** allocates nothing. -/
theorem exists_walkTo_of_hasTable {page : ℕ} {w : Walk σ n} (h : w.1.HasTable n page) :
    ∃ w', walkTo alloc dirFlags callback n page w = some w' ∧
      w'.2.1 = (callback w.2.1 (w.1.entry n page)).2 := by
  induction n with
  | zero =>
    rw [walkTo_zero, visit, if_neg (Nat.not_le.mpr (Nat.mod_lt _ (by decide)))]
    exact ⟨_, rfl, rfl⟩
  | succ n ih =>
    obtain ⟨e, he, hchild⟩ := h
    have hacc : accessToChildDir alloc dirFlags w.1 (page / dirEntries ^ (n + 1) % dirEntries)
        w.2.1 = some (e, w.2.1) := accessToChildDir_some (Nat.mod_lt _ (by decide)) he
    obtain ⟨c, hc, hstate⟩ := ih (w := (e.2, w.2.1, w.2.2)) hchild
    refine ⟨(update w.1 (page / dirEntries ^ (n + 1) % dirEntries) (some (e.1, c.1)), c.2), ?_, ?_⟩
    · rw [walkTo_succ, inChild, hacc, Option.bind_some, hc]
      rfl
    · rw [hstate, ← entry_access hacc]

/-- A walk over a range leaves the tables of its pages. -/
theorem walkRange_hasTable {start count : ℕ} {w w' : Walk σ n}
    (h : walkRange alloc dirFlags callback n start count w = some w') :
    (∀ i < count, w'.1.HasTable n (start + i)) ∧ ∀ p, w.1.HasTable n p → w'.1.HasTable n p := by
  induction count generalizing start w with
  | zero =>
    obtain ⟨⟩ := h
    exact ⟨fun i hi => absurd hi (Nat.not_lt_zero i), fun _ hp => hp⟩
  | succ count ih =>
    rw [walkRange, List.range'_succ, List.foldlM_cons] at h
    obtain ⟨w₁, h₁, h⟩ := Option.bind_eq_some_iff.mp h
    obtain ⟨hpage, hkept₁⟩ := walkTo_hasTable h₁
    obtain ⟨hrest, hkept⟩ := ih h
    refine ⟨fun i hi => ?_, fun p hp => hkept p (hkept₁ p hp)⟩
    rcases Nat.eq_zero_or_pos i with rfl | hpos
    · exact hkept _ hpage
    · have hidx : start + 1 + (i - 1) = start + i := by omega
      exact hidx ▸ hrest (i - 1) (by omega)

/-- A walk over pages that have their tables ends. -/
theorem exists_walkRange_of_hasTable {start count : ℕ} {w : Walk σ n}
    (h : ∀ i < count, w.1.HasTable n (start + i)) :
    ∃ w', walkRange alloc dirFlags callback n start count w = some w' := by
  induction count generalizing start w with
  | zero => exact ⟨w, rfl⟩
  | succ count ih =>
    obtain ⟨w₁, h₁, -⟩ : ∃ w₁, walkTo alloc dirFlags callback n start w = some w₁ ∧ _ :=
      exists_walkTo_of_hasTable (h 0 (by omega))
    have hnext : ∀ i < count, w₁.1.HasTable n (start + 1 + i) := by
      intro i hi
      rw [Nat.add_assoc]
      exact (walkTo_hasTable h₁).2 _ (h (1 + i) (by omega))
    obtain ⟨w₂, h₂⟩ := ih hnext
    refine ⟨w₂, ?_⟩
    rw [walkRange, List.range'_succ, List.foldlM_cons]
    exact (congrArg (fun o => Option.bind o _) h₁).trans h₂

/-! ## Directories -/

theorem plainAt_zero (n page : ℕ) : (PageDir.zero n).PlainAt n page := by
  cases n with
  | zero => trivial
  | succ n => exact fun _ h => nomatch h

theorem plainAt_update {dir : ℕ → Option (UInt64 × PageDir n)} {index page : ℕ}
    {e : UInt64 × PageDir n} (hdir : PageDir.PlainAt (n + 1) dir page)
    (he : page / dirEntries ^ (n + 1) % dirEntries = index →
      (tableOf e.1 ≠ 0 ∧ e.1 &&& pageFlagSize = 0) ∧ e.2.PlainAt n page) :
    PageDir.PlainAt (n + 1) (update dir index (some e)) page := by
  intro e' h
  by_cases hi : page / dirEntries ^ (n + 1) % dirEntries = index
  · rw [hi, update_self] at h
    obtain ⟨⟩ := h
    exact he hi
  · rw [update_of_ne hi] at h
    exact hdir e' h

/-- The entry of a new directory. -/
theorem plain_entry {addr : UInt64} (h : IsRamPage addr) (hflags : dirFlags &&& ~~~7 = 0) :
    tableOf (addr ||| dirFlags) ≠ 0 ∧ (addr ||| dirFlags) &&& pageFlagSize = 0 := by
  have hmask : ∀ mask : UInt64, ~~~7 &&& mask = mask → dirFlags &&& mask = 0 := by
    intro mask hm
    rw [← hm, ← UInt64.and_assoc, hflags, UInt64.zero_and]
  rw [tableOf, uint64_or_and, uint64_or_and, hmask _ (by decide), hmask _ (by decide),
    UInt64.or_zero, UInt64.or_zero, h.1, h.1.and_eq_zero (by decide)]
  exact ⟨h.2, rfl⟩

/-- **The way to a page stays plain** in a walk to any page, with a
property of the shared state that makes every page the allocator returns
one of RAM. -/
theorem walkTo_plain {P : σ → Prop} (hflags : dirFlags &&& ~~~7 = 0)
    (halloc : ∀ st r, P st → alloc st = some r → IsRamPage r.1 ∧ P r.2)
    (hcall : ∀ st e, P st → P (callback st e).2) {page : ℕ} {w w' : Walk σ n}
    (hw : P w.2.1) (h : walkTo alloc dirFlags callback n page w = some w') :
    (∀ p, w.1.PlainAt n p → w'.1.PlainAt n p) ∧ P w'.2.1 := by
  induction n with
  | zero =>
    rw [walkTo_zero, visit, if_neg (Nat.not_le.mpr (Nat.mod_lt _ (by decide)))] at h
    obtain ⟨⟩ := h
    exact ⟨fun _ _ => trivial, hcall _ _ hw⟩
  | succ n ih =>
    rw [walkTo_succ, inChild] at h
    obtain ⟨r, hacc, h⟩ := Option.bind_eq_some_iff.mp h
    obtain ⟨c, hc, rfl⟩ := Option.map_eq_some_iff.mp h
    have hr : (∀ p, w.1.PlainAt (n + 1) p →
        p / dirEntries ^ (n + 1) % dirEntries = page / dirEntries ^ (n + 1) % dirEntries →
        (tableOf r.1.1 ≠ 0 ∧ r.1.1 &&& pageFlagSize = 0) ∧ r.1.2.PlainAt n p) ∧ P r.2 := by
      rw [accessToChildDir, if_neg (Nat.not_le.mpr (index_lt_of_access hacc))] at hacc
      cases hd : w.1 (page / dirEntries ^ (n + 1) % dirEntries) with
      | some e =>
        rw [hd] at hacc
        obtain ⟨⟩ := hacc
        exact ⟨fun p hp hi => hp e (hi ▸ hd), hw⟩
      | none =>
        rw [hd] at hacc
        change (if dirFlags = 0 then none else _) = some r at hacc
        split_ifs at hacc
        obtain ⟨a, ha, rfl⟩ := Option.map_eq_some_iff.mp hacc
        obtain ⟨hpage, hP⟩ := halloc _ _ hw ha
        exact ⟨fun p _ _ => ⟨plain_entry hpage hflags, plainAt_zero n p⟩, hP⟩
    obtain ⟨hplain, hP⟩ := ih hr.2 hc
    exact ⟨fun p hp => plainAt_update hp fun hi =>
      ⟨(hr.1 p hp hi).1, hplain p (hr.1 p hp hi).2⟩, hP⟩

theorem walkRange_plain {P : σ → Prop} (hflags : dirFlags &&& ~~~7 = 0)
    (halloc : ∀ st r, P st → alloc st = some r → IsRamPage r.1 ∧ P r.2)
    (hcall : ∀ st e, P st → P (callback st e).2) {start count : ℕ} {w w' : Walk σ n}
    (hw : P w.2.1) (h : walkRange alloc dirFlags callback n start count w = some w') :
    (∀ p, w.1.PlainAt n p → w'.1.PlainAt n p) ∧ P w'.2.1 := by
  induction count generalizing start w with
  | zero =>
    obtain ⟨⟩ := h
    exact ⟨fun _ hp => hp, hw⟩
  | succ count ih =>
    rw [walkRange, List.range'_succ, List.foldlM_cons] at h
    obtain ⟨w₁, h₁, h⟩ := Option.bind_eq_some_iff.mp h
    obtain ⟨hplain₁, hP₁⟩ := walkTo_plain hflags halloc hcall hw h₁
    obtain ⟨hplain, hP⟩ := ih hP₁ h
    exact ⟨fun p hp => hplain p (hplain₁ p hp), hP⟩

/-! ## A page from an address -/

/-- The index of an address in a table with `n` levels below it is that of
its page. -/
theorem index_addr (n addr : ℕ) :
    addr >>> (pageShift + n * 9) &&& 0x1FF = addr / pageSize / dirEntries ^ n % dirEntries := by
  have hshift : addr >>> (pageShift + n * 9) =
      (addr / pageSize) <<< pageShift >>> (pageShift + n * 9) := by
    rw [Nat.shiftRight_eq_div_pow, Nat.shiftRight_eq_div_pow, Nat.shiftLeft_eq, Nat.pow_add,
      ← Nat.div_div_eq_div_mul, ← Nat.div_div_eq_div_mul, Nat.mul_div_cancel _ (Nat.two_pow_pos _)]
    rfl
  rw [hshift, index_eq]

theorem index_addr_zero (addr : ℕ) :
    addr >>> pageShift &&& 0x1FF = addr / pageSize % dirEntries := by
  have hindex := index_addr 0 addr
  rwa [Nat.zero_mul, Nat.add_zero, Nat.pow_zero, Nat.div_one] at hindex

/-- The walk to an address is the walk to its page. -/
theorem walkPage_eq_walkTo {virtualBase : ℕ} : walkPage alloc dirFlags callback virtualBase n =
      walkTo alloc dirFlags callback n (virtualBase / pageSize) := by
  induction n with
  | zero =>
    funext w
    rw [walkTo_zero, walkPage, index_addr_zero]
  | succ n ih =>
    funext w
    rw [walkTo_succ, walkPage, ih, index_addr]

end Paging

end ShmDos64
