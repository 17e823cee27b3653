import ShmDos64.Uefi.PageTables
/-!
# The pages of the kernel's window

What `mapToKernel` and `protectPages` do to the entries of the pages: each page of
the window has an entry of its own, and the loops write those of their pages and no
others. The walk of the processor finds them, through tables that are present.
-/

namespace ShmDos64

open Function (update)

namespace BootPaging

variable {pages : ℕ → UInt64} {s s' s'' : BootPaging} {p q : List ℕ} {t t' u e e' : UInt64}
  {i j n m va virtualBase : ℕ}

/-- The entry of the page that the address is in. -/
def Pte (s : BootPaging) (virtualBase : ℕ) (e : UInt64) : Prop :=
  ∃ t, s.At (path virtualBase) t ∧ s.mem t (tableIndex virtualBase 12) = e

theorem Pte.lookup (h : s.Pte va e) (hlook : Lookup pages s s') : s'.Pte va e := by
  obtain ⟨t, ht, rfl⟩ := h
  exact ⟨t, hlook.at_of _ t ht, hlook.leaf _ t _ ht rfl⟩

/-! ## A page entry is written -/

section Write

variable (ht : s.At p t) (hp : p.length = 3)

include ht hp

/-- The entries of the pages are no links. -/
theorem at_write_iff (h : s.Tables pages) : (s.write t i e).At q u ↔ s.At q u := by
  refine tableAt_writeEntry_iff fun q hq hslot => ?_
  have hlen := hslot.1
  rw [h.tree q p t hq ht, hp] at hlen
  omega

omit hp in
theorem write_mem_of_ne (h : s.Tables pages) (hu : s.At q u) (hne : q = p → j ≠ i) :
    (s.write t i e).mem u j = s.mem u j := by
  rw [write_mem, writeEntry_of_ne]
  rintro rfl
  exact hne (h.tree q p u hu ht)

theorem Boot.write (h : s.Boot pages) : (s.write t i e).Boot pages := by
  have hiff := fun {q u} => at_write_iff (q := q) (u := u) (i := i) (e := e) ht hp h.toTables
  have hkept : ∀ {q u j}, s.At q u → bootLinks.slots q j →
      (s.write t i e).mem u j = s.mem u j := by
    intro q u j hu hslot
    refine write_mem_of_ne ht h.toTables hu ?_
    rintro rfl
    have := hslot.1
    omega
  refine ⟨⟨fun q q' u hq hq' => ?_, fun q u hu => ?_, fun n hn => ?_, fun q u j hu hslot => ?_⟩,
    fun q u j hu hslot hlast => ?_, ?_⟩
  · exact h.tree q q' u (hiff.mp hq) (hiff.mp hq')
  · exact h.owned q u (hiff.mp hu)
  · obtain ⟨q, hq⟩ := h.used n hn
    exact ⟨q, hiff.mpr hq⟩
  · rw [hkept (hiff.mp hu) hslot]
    exact h.entries q u j (hiff.mp hu) hslot
  · rw [hkept (hiff.mp hu) hslot]
    exact h.small q u j (hiff.mp hu) hslot hlast
  · rcases h.cached with hzero | ⟨haligned, hat⟩
    · exact .inl hzero
    · exact .inr ⟨haligned, hiff.mpr hat⟩

theorem KernelStep.write (hf : FreshPages pages) (h : s.Boot pages)
    (hlast : p.getLast? = some 511) : KernelStep pages s (s.write t i e) where
  root := rfl
  at_of q u hu := (at_write_iff ht hp h.toTables).mpr hu
  kept q u j hu hj := by
    refine write_mem_of_ne ht h.toTables hu ?_
    rintro rfl
    obtain ⟨a, q, rfl⟩ := List.exists_cons_of_length_pos (show 0 < q.length by omega)
    rw [List.getLast?_cons_cons] at hj
    exact absurd hlast hj
  foreign u hu := by
    obtain ⟨n, hn, rfl⟩ := h.owned p t ht
    funext j
    rw [write_mem, writeEntry_of_ne fun heq => absurd heq (hu n (hn.trans (h.allocated_lt hf)))]

end Write

/-- What a change of the entry of one page does. -/
structure Modified (pages : ℕ → UInt64) (s s' : BootPaging) (va : ℕ) (f : UInt64 → UInt64) : Prop
    extends KernelStep pages s s' where
  boot : s'.Boot pages
  free : s'.freeKernelVirtualMemory = s.freeKernelVirtualMemory
  base : s'.currentPageDirBase = va / pageDirAreaSize * pageDirAreaSize
  entry : ∃ e, s'.Pte va (f e) ∧ ∀ e', s.Pte va e' → e' = e
  others : ∀ va' e, s.Pte va' e →
    (path va' = path va → tableIndex va' 12 ≠ tableIndex va 12) → s'.Pte va' e

/-- **The entry of one page is changed**, where `accessToPageTableEntry` finds it. -/
theorem exists_modified (hf : FreshPages pages) (h : s.Boot pages) (hva : tableIndex va 39 = 511)
    (f : UInt64 → UInt64) : ∃ s', ((s.accessToPageTableEntry pages va).map fun r =>
        r.2.write r.1 (tableIndex va 12) (f (r.2.mem r.1 (tableIndex va 12)))) = some s' ∧
      Modified pages s s' va f := by
  obtain ⟨t, s₁, haccess, hboot, hat, hlook, hbase⟩ := accessToPageTableEntry_spec hf h hva
  have hlast : (path va).getLast? = some 511 := by rw [← hva]; rfl
  have hiff := fun {q u} => at_write_iff (q := q) (u := u) (i := tableIndex va 12)
    (e := f (s₁.mem t (tableIndex va 12))) hat rfl hboot.toTables
  rw [haccess]
  refine ⟨_, rfl, hlook.toKernelStep.trans (.write hat rfl hf hboot hlast), hboot.write hat rfl,
    hlook.free, hbase, ⟨s₁.mem t (tableIndex va 12), ⟨t, hiff.mpr hat, writeEntry_self⟩, ?_⟩, ?_⟩
  · intro e' he'
    obtain ⟨t', ht', rfl⟩ := he'.lookup hlook
    rw [ht'.unique hat]
  · intro va' e he hne
    obtain ⟨t', ht', rfl⟩ := he.lookup hlook
    exact ⟨t', hiff.mpr ht', write_mem_of_ne hat hboot.toTables ht' hne⟩

/-! ## The pages of the window -/

/-- The address of a page of the window. -/
def kernelPage (n : ℕ) : ℕ := kernelVirtualBase + n * pageSize

/-- How many pages the window has. -/
abbrev windowPages : ℕ := 2 ^ 27

theorem kernelPage_lt (hn : n < windowPages) : kernelPage n < 2 ^ 64 := by
  simp only [kernelPage, kernelVirtualBase, pageSize, windowPages] at *
  omega

theorem kernelPage_mod (hn : n < windowPages) : kernelPage n % 2 ^ 64 = kernelPage n :=
  Nat.mod_eq_of_lt (kernelPage_lt hn)

theorem kernelPage_succ :
    (kernelPage n + pageSize) % 2 ^ 64 = kernelPage (n + 1) % 2 ^ 64 := by
  rw [kernelPage, kernelPage, Nat.add_mul, Nat.one_mul, Nat.add_assoc]

theorem tableIndex_kernelPage (hn : n < windowPages) :
    tableIndex (kernelPage n) 39 = 511 ∧ tableIndex (kernelPage n) 30 = n / 2 ^ 18 ∧
      tableIndex (kernelPage n) 21 = n / 2 ^ 9 % dirEntries ∧
      tableIndex (kernelPage n) 12 = n % dirEntries := by
  simp only [tableIndex_eq, kernelPage, kernelVirtualBase, pageSize, windowPages, dirEntries] at *
  omega

/-- Different pages have different entries. -/
theorem kernelPage_apart (hn : n < windowPages) (hm : m < windowPages) (hne : n ≠ m)
    (hpath : path (kernelPage n) = path (kernelPage m)) :
    tableIndex (kernelPage n) 12 ≠ tableIndex (kernelPage m) 12 := by
  obtain ⟨-, hn30, hn21, hn12⟩ := tableIndex_kernelPage hn
  obtain ⟨-, hm30, hm21, hm12⟩ := tableIndex_kernelPage hm
  simp only [path, List.cons.injEq, hn30, hn21, hm30, hm21] at hpath
  rw [hn12, hm12]
  simp only [dirEntries] at *
  omega

variable {cnt : ℕ}

theorem add_page (phys : UInt64) (k : ℕ) :
    phys + 4096 + UInt64.ofNat (k * pageSize) = phys + UInt64.ofNat ((k + 1) * pageSize) := by
  rw [Nat.add_mul, Nat.one_mul, UInt64.ofNat_add, UInt64.add_assoc,
    UInt64.add_comm (UInt64.ofNat (k * pageSize))]
  rfl

/-- **The loop of `mapToKernel`** writes the entries of the next pages. -/
theorem mapLoop_spec (readOnly wc : Bool) (phys : UInt64) (hf : FreshPages pages) (h : s.Boot pages)
    (hn : n + cnt ≤ windowPages) :
    ∃ s', mapLoop pages readOnly wc cnt s (kernelPage n % 2 ^ 64) phys =
        some (kernelPage (n + cnt) % 2 ^ 64, s') ∧
      s'.Boot pages ∧ KernelStep pages s s' ∧
      (0 < cnt → s'.currentPageDirBase =
        kernelPage (n + cnt - 1) / pageDirAreaSize * pageDirAreaSize) ∧
      (∀ m < n, ∀ e, s.Pte (kernelPage m) e → s'.Pte (kernelPage m) e) ∧
      ∀ k < cnt, s'.Pte (kernelPage (n + k))
        (pageEntry (phys + UInt64.ofNat (k * pageSize)) readOnly wc) := by
  induction cnt generalizing s n phys with
  | zero =>
    exact ⟨s, rfl, h, .refl, fun h => absurd h (lt_irrefl 0), fun _ _ _ he => he,
      fun k hk => absurd hk (Nat.not_lt_zero k)⟩
  | succ cnt ih =>
    have hlt : n < windowPages := by omega
    obtain ⟨s₁, hpage, hmod⟩ := exists_modified hf h (tableIndex_kernelPage hlt).1
      fun _ => pageEntry phys readOnly wc
    obtain ⟨e₀, hpte, -⟩ := hmod.entry
    obtain ⟨s', hloop, hboot, hstep, hbase, hold, hnew⟩ :=
      ih (s := s₁) (n := n + 1) (phys + 4096) hmod.boot (by omega)
    refine ⟨s', ?_, hboot, hmod.toKernelStep.trans hstep, fun _ => ?_, fun m hm e he => ?_,
      fun k hk => ?_⟩
    · rw [mapLoop, kernelPage_mod hlt, mapPage, hpage, Option.bind_some, kernelPage_succ, hloop,
        Nat.add_right_comm, Nat.add_assoc]
    · rcases Nat.eq_zero_or_pos cnt with rfl | hpos
      · rw [mapLoop] at hloop
        obtain ⟨-, rfl⟩ := Prod.mk.inj (Option.some.inj hloop)
        exact hmod.base
      · rw [hbase hpos, show n + 1 + cnt - 1 = n + (cnt + 1) - 1 by omega]
    · exact hold m (by omega) e
        (hmod.others _ e he (kernelPage_apart (by omega) hlt (by omega)))
    · -- the first page, and then those of the rest of the loop
      rcases k with - | k
      · have hzero : phys + UInt64.ofNat (0 * pageSize) = phys := by simp
        rw [Nat.add_zero, hzero]
        exact hold n (by omega) _ hpte
      · rw [← add_page, show n + (k + 1) = n + 1 + k by omega]
        exact hnew k (by omega)

/-- **The loop of `protectPages`** clears the flag in the entries of its pages. -/
theorem protectLoop_spec (hf : FreshPages pages) (h : s.Boot pages) (hn : n + cnt ≤ windowPages) :
    ∃ s', protectLoop pages cnt s (kernelPage n % 2 ^ 64) = some s' ∧
      s'.Boot pages ∧ KernelStep pages s s' ∧
      s'.freeKernelVirtualMemory = s.freeKernelVirtualMemory ∧
      ∀ m < windowPages, ∀ e, s.Pte (kernelPage m) e → s'.Pte (kernelPage m)
        (if n ≤ m ∧ m < n + cnt then e &&& ~~~pageFlagWrite else e) := by
  induction cnt generalizing s n with
  | zero =>
    refine ⟨s, rfl, h, .refl, rfl, fun m _ e he => ?_⟩
    rwa [if_neg (by omega)]
  | succ cnt ih =>
    have hlt : n < windowPages := by omega
    obtain ⟨s₁, hpage, hmod⟩ := exists_modified hf h (tableIndex_kernelPage hlt).1
      fun e => e &&& ~~~pageFlagWrite
    obtain ⟨e₀, hpte, hunique⟩ := hmod.entry
    obtain ⟨s', hloop, hboot, hstep, hfree, hold⟩ := ih (s := s₁) (n := n + 1) hmod.boot (by omega)
    refine ⟨s', ?_, hboot, hmod.toKernelStep.trans hstep, hfree.trans hmod.free,
      fun m hm e he => ?_⟩
    · rw [protectLoop, kernelPage_mod hlt, protectPage, hpage, Option.bind_some,
        kernelPage_succ, hloop]
    · by_cases hmn : m = n
      · subst hmn
        have hfirst := hold m hm _ hpte
        rw [if_neg (by omega)] at hfirst
        rwa [if_pos ⟨le_rfl, by omega⟩, hunique e he]
      · have hlater := hold m hm e (hmod.others _ e he (kernelPage_apart hm hlt hmn))
        have hiff : (n ≤ m ∧ m < n + (cnt + 1)) ↔ n + 1 ≤ m ∧ m < n + 1 + cnt := by omega
        simpa only [hiff] using hlater

/-! ## The walk -/

section

variable (hpresent : s.mem t (tableIndex va (12 + 9 * (n + 1))) &&& pageFlagPresent ≠ 0)

include hpresent

theorem walkFrom_succ
    (hsize : s.mem t (tableIndex va (12 + 9 * (n + 1))) &&& pageFlagSize = 0) :
    walkFrom s.mem va (n + 1) t =
      walkFrom s.mem va n (tableOf (s.mem t (tableIndex va (12 + 9 * (n + 1))))) := by
  rw [walkFrom, if_neg hpresent, if_neg (not_not.mpr hsize)]

theorem walkFrom_large
    (hsize : s.mem t (tableIndex va (12 + 9 * (n + 1))) &&& pageFlagSize ≠ 0) :
    walkFrom s.mem va (n + 1) t = some (n + 1, s.mem t (tableIndex va (12 + 9 * (n + 1)))) := by
  rw [walkFrom, if_neg hpresent, if_pos hsize]

end

section Walk

variable (hf : FreshPages pages) (h : s.Tables pages)

include hf h

/-- The walk comes to the table below an entry of the root. -/
theorem walk_eq_one (hat : s.At [tableIndex va 39] t) : s.walk va = walkFrom s.mem va 2 t := by
  obtain ⟨t', hat', hpresent, hsize, rfl⟩ := h.link hf hat
  obtain rfl := hat'.unique .root
  exact walkFrom_succ hpresent hsize

theorem walk_eq_two (hat : s.At [tableIndex va 30, tableIndex va 39] t) :
    s.walk va = walkFrom s.mem va 1 t := by
  obtain ⟨t', hat', hpresent, hsize, rfl⟩ := h.link hf hat
  rw [walk_eq_one hf h hat']
  exact walkFrom_succ hpresent hsize

/-- **The walk finds the entry of a page.** -/
theorem Pte.walk_eq (hpte : s.Pte va e) (hpresent : e &&& pageFlagPresent ≠ 0) :
    s.walk va = some (0, e) := by
  obtain ⟨t, hat, rfl⟩ := hpte
  obtain ⟨t', hat', hpresent', hsize, rfl⟩ := h.link hf hat
  rw [walk_eq_two hf h hat']
  refine (walkFrom_succ (n := 0) hpresent' hsize).trans ?_
  exact if_neg hpresent

end Walk

end BootPaging

end ShmDos64
