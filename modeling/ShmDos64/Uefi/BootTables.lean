import ShmDos64.Uefi.KernelWindow
/-!
# The loader's page tables, from the constructor on

The constructor maps the memory at `RAM_VIRTUAL_BASE`, gigabyte by gigabyte, below
the entries of the root that come before the kernel's. The calls that follow are in
the window of the kernel, one range of pages after the other. The window is as large
as one entry of the root, and nothing keeps the calls inside it.
-/

namespace ShmDos64

open Function (update update_of_ne update_self)

namespace BootPaging

variable {pages : ℕ → UInt64} {support : Bool} {s s' : BootPaging} {p q : List ℕ}
  {t u e cr3 : UInt64} {mem₀ : UInt64 → ℕ → UInt64} {i j k n g d va addr memEnd : ℕ}
  {row : ℕ → UInt64}

/-! ## The constructor -/

/-- The first `g` gigabytes are in the window at `RAM_VIRTUAL_BASE`. -/
def Ram (support : Bool) (g : ℕ) (s : BootPaging) : Prop :=
  ∀ k < g,
    (support = true → ∃ t, s.At [256 + k / dirEntries] t ∧
      s.mem t (k % dirEntries) = ramEntry (UInt64.ofNat (k * 2 ^ 30))) ∧
    (support = false → ∃ t, s.At [k % dirEntries, 256 + k / dirEntries] t ∧
      ∀ j < dirEntries, s.mem t j = ramEntry (UInt64.ofNat (k * 2 ^ 30 + j * 2 ^ 21)))

/-- After `g` rounds, with `d` tables below the root. -/
structure Constructing (pages : ℕ → UInt64) (support : Bool) (mem₀ : UInt64 → ℕ → UInt64)
    (cr3 : UInt64) (d g : ℕ) (s : BootPaging) : Prop extends s.Tables pages where
  ram : s.Ram support g
  rootFree : ∀ i < dirEntries, 256 + d ≤ i → s.mem s.pageDirPtrTable i = 0
  dirFree : ∀ r t i, s.At [r] t → i < dirEntries → g ≤ (r - 256) * dirEntries + i → s.mem t i = 0
  lower : ∀ i < 256, s.mem s.pageDirPtrTable i = mem₀ cr3 i
  base : s.currentPageDirBase = 0
  free : s.freeKernelVirtualMemory = kernelVirtualBase
  foreign : ∀ u, (∀ n < 2 ^ 28, u ≠ pages n) → s.mem u = mem₀ u

theorem at_withRoot_iff : (withRoot pages mem₀ cr3).At q u ↔ q = [] ∧ u = pages 0 := by
  constructor
  · intro hat
    induction hat with
    | root => exact ⟨rfl, rfl⟩
    | @link p t t' i _ hslot hchild ih =>
      obtain ⟨rfl, rfl⟩ := ih
      have hzero : (withRoot pages mem₀ cr3).mem (pages 0) i = 0 := by
        rw [withRoot, allocTable_mem, update_self]
        exact if_neg (Nat.not_lt.mpr (hslot.2.2 rfl))
      rw [hzero, child_eq_none (.inl rfl)] at hchild
      cases hchild
  · rintro ⟨rfl, rfl⟩
    exact .root

theorem constructing_withRoot :
    (withRoot pages mem₀ cr3).Constructing pages support mem₀ cr3 0 0 where
  tree p q u hp hq := (at_withRoot_iff.mp hp).1.trans (at_withRoot_iff.mp hq).1.symm
  owned p t ht := ⟨0, Nat.one_pos, (at_withRoot_iff.mp ht).2⟩
  used n hn := ⟨[], at_withRoot_iff.mpr ⟨rfl, by rw [Nat.lt_one_iff.mp hn]⟩⟩
  entries p t i ht hslot := by
    obtain ⟨rfl, rfl⟩ := at_withRoot_iff.mp ht
    left
    rw [withRoot, allocTable_mem, update_self]
    exact if_neg (Nat.not_lt.mpr (hslot.2.2 rfl))
  ram k hk := absurd hk (Nat.not_lt_zero k)
  rootFree i _ hi := by
    rw [withRoot, allocTable_mem]
    exact (congrFun (update_self ..) i).trans (if_neg (Nat.not_lt.mpr hi))
  dirFree r t i ht := absurd (at_withRoot_iff.mp ht).1 (List.cons_ne_nil r [])
  lower i hi := by
    rw [withRoot, allocTable_mem]
    exact (congrFun (update_self ..) i).trans (if_pos hi)
  base := rfl
  free := rfl
  foreign u hu := update_of_ne (hu 0 (by decide)) _ _

/-- A table is added below the root. -/
theorem Constructing.extends_root (h : s.Constructing pages support mem₀ cr3 d g)
    (hext : Extends pages s s' [] (256 + g / dirEntries) fun _ => 0) (htables : s'.Tables pages)
    (hd : d ≤ g / dirEntries + 1) :
    s'.Constructing pages support mem₀ cr3 (g / dirEntries + 1) g := by
  have hroot : ∀ i, i ≠ 256 + g / dirEntries →
      s'.mem s'.pageDirPtrTable i = s.mem s.pageDirPtrTable i := by
    intro i hi
    rw [hext.root]
    exact hext.kept [] _ i .root fun heq => hi heq.2
  refine ⟨htables, fun k hk => ⟨fun hs => ?_, fun hs => ?_⟩, fun i hi hle => ?_,
    fun r t i ht hi hg => ?_, fun i hi => ?_, hext.base.trans h.base, hext.free.trans h.free,
    fun u hu => (hext.foreign u hu).trans (h.foreign u hu)⟩
  · obtain ⟨t, ht, he⟩ := (h.ram k hk).1 hs
    exact ⟨t, hext.at_of _ t ht, (hext.kept _ t _ ht (by simp)).trans he⟩
  · obtain ⟨t, ht, he⟩ := (h.ram k hk).2 hs
    exact ⟨t, hext.at_of _ t ht, fun j hj => (hext.kept _ t _ ht (by simp)).trans (he j hj)⟩
  · rw [hroot i (by omega)]
    exact h.rootFree i hi (by omega)
  · rcases hext.added [r] t ht with hold | ⟨-, hrow⟩
    · rw [hext.kept _ t i hold (by simp)]
      exact h.dirFree r t i hold hi hg
    · rw [hrow]
  · rw [hroot i (Nat.lt_add_right _ hi).ne]
    exact h.lower i hi

/-- The gigabyte is mapped. -/
theorem Constructing.extends_dir (h : s.Constructing pages support mem₀ cr3 d g)
    (hext : Extends pages s s' [256 + g / dirEntries] (g % dirEntries) row)
    (htables : s'.Tables pages)
    (hone : support = true → ∃ t, s'.At [256 + g / dirEntries] t ∧
      s'.mem t (g % dirEntries) = ramEntry (UInt64.ofNat (g * 2 ^ 30)))
    (htwo : support = false → ∃ t, s'.At [g % dirEntries, 256 + g / dirEntries] t ∧
      ∀ j < dirEntries, s'.mem t j = ramEntry (UInt64.ofNat (g * 2 ^ 30 + j * 2 ^ 21))) :
    s'.Constructing pages support mem₀ cr3 d (g + 1) := by
  have hroot : ∀ i, s'.mem s'.pageDirPtrTable i = s.mem s.pageDirPtrTable i := by
    intro i
    rw [hext.root]
    exact hext.kept [] _ i .root (by simp)
  refine ⟨htables, fun k hk => ⟨fun hs => ?_, fun hs => ?_⟩, fun i hi hle => ?_,
    fun r t i ht hi hg => ?_, fun i hi => ?_, hext.base.trans h.base, hext.free.trans h.free,
    fun u hu => (hext.foreign u hu).trans (h.foreign u hu)⟩
  · rcases Nat.lt_succ_iff_lt_or_eq.mp hk with hlt | rfl
    · obtain ⟨t, ht, he⟩ := (h.ram k hlt).1 hs
      refine ⟨t, hext.at_of _ t ht, (hext.kept _ t _ ht ?_).trans he⟩
      -- another gigabyte is another entry
      rintro ⟨hpath, hindex⟩
      simp only [List.cons.injEq, and_true, dirEntries] at hpath hindex
      omega
    · exact hone hs
  · rcases Nat.lt_succ_iff_lt_or_eq.mp hk with hlt | rfl
    · obtain ⟨t, ht, he⟩ := (h.ram k hlt).2 hs
      exact ⟨t, hext.at_of _ t ht, fun j hj => (hext.kept _ t _ ht (by simp)).trans (he j hj)⟩
    · exact htwo hs
  · rw [hroot i]
    exact h.rootFree i hi hle
  · rcases hext.added [r] t ht with hold | ⟨hpath, -⟩
    · have hne : ¬ ([r] = [256 + g / dirEntries] ∧ i = g % dirEntries) := by
        rintro ⟨hpath, rfl⟩
        simp only [List.cons.injEq, and_true, dirEntries] at hpath hg
        omega
      rw [hext.kept _ t i hold hne]
      exact h.dirFree r t i hold hi (by omega)
    · simp at hpath
  · rw [hroot i]
    exact h.lower i hi

/-- The entry of a large page is no link. -/
theorem Tables.write_large (row : ℕ → UInt64) (hf : FreshPages pages) (h : s.Tables pages)
    (ht : s.At p t) (hp : p ≠ []) (hzero : s.mem t i = 0) (he : e &&& pageFlagSize ≠ 0) :
    (s.write t i e).Tables pages ∧ Extends pages s (s.write t i e) p i row ∧
      (s.write t i e).At p t := by
  have hiff : ∀ {q u}, (s.write t i e).At q u ↔ s.At q u :=
    tableAt_writeEntry_iff fun _ _ _ => ⟨child_eq_none (.inl hzero), child_eq_none (.inr he)⟩
  refine ⟨⟨fun q q' u hq hq' => ?_, fun q u hu => ?_, fun n hn => ?_, fun q u j hu hslot => ?_⟩,
    ⟨rfl, rfl, rfl, rfl, fun q u hu => hiff.mpr hu, fun q u j hu hne => ?_,
      fun q u hu => .inl (hiff.mp hu), fun u hu => ?_⟩, hiff.mpr ht⟩
  · exact h.tree q q' u (hiff.mp hq) (hiff.mp hq')
  · exact h.owned q u (hiff.mp hu)
  · obtain ⟨q, hq⟩ := h.used n hn
    exact ⟨q, hiff.mpr hq⟩
  · by_cases heq : u = t ∧ j = i
    · obtain ⟨rfl, rfl⟩ := heq
      rw [write_mem, writeEntry_self]
      exact .inr (.inl ⟨h.tree q p u (hiff.mp hu) ht ▸ hp, he⟩)
    · rw [write_mem, writeEntry_of_ne fun hu hj => heq ⟨hu, hj⟩]
      exact h.entries q u j (hiff.mp hu) hslot
  · exact write_mem_of_ne ht h hu fun hq hj => hne ⟨hq, hj⟩
  · obtain ⟨n, hn, rfl⟩ := h.owned p t ht
    funext j
    rw [write_mem, writeEntry_of_ne fun heq => absurd heq (hu n (hn.trans (h.allocated_lt hf)))]

/-- The flags of a large page. -/
theorem ramEntry_and_ne_zero (a : UInt64) {b : UInt64}
    (hb : (pageFlagPresent ||| pageFlagWrite ||| pageFlagSize ||| pageFlagGlobal) &&& b ≠ 0) :
    ramEntry a &&& b ≠ 0 := by
  rw [ramEntry, uint64_or_and, Ne, UInt64.or_eq_zero_iff]
  exact fun h => hb h.2

theorem ramEntry_and_size (a : UInt64) : ramEntry a &&& pageFlagSize ≠ 0 :=
  ramEntry_and_ne_zero a (by decide)

theorem ramEntry_and_present (a : UInt64) : ramEntry a &&& pageFlagPresent ≠ 0 :=
  ramEntry_and_ne_zero a (by decide)

/-- A gigabyte starts where it starts. -/
theorem gigabyte_and_not (k : ℕ) :
    UInt64.ofNat (k * 2 ^ 30) &&& ~~~0x3FFFFFFF = UInt64.ofNat (k * 2 ^ 30) := by
  refine uint64_and_not (UInt64.toNat_inj.mp ?_)
  refine (uint64_toNat_and_mask _ (show 30 < 64 by decide)).trans ?_
  rw [UInt64.toNat_ofNat']
  simp only [UInt64.toNat_zero]
  omega

/-- The entries of the window at `RAM_VIRTUAL_BASE`. -/
theorem tableIndex_ram (haddr : addr < 2 ^ 47) :
    (ramVirtualBase + addr) % 2 ^ 64 = ramVirtualBase + addr ∧
      tableIndex (ramVirtualBase + addr) 39 = 256 + addr / 2 ^ 30 / dirEntries ∧
      tableIndex (ramVirtualBase + addr) 30 = addr / 2 ^ 30 % dirEntries ∧
      tableIndex (ramVirtualBase + addr) 21 = addr / 2 ^ 21 % dirEntries := by
  simp only [tableIndex_eq, ramVirtualBase, dirEntries] at *
  omega

/-- **A round of the constructor.** -/
theorem mapRam_spec (hf : FreshPages pages) (h : s.Constructing pages support mem₀ cr3 d g)
    (hd : d ≤ g / dirEntries + 1) (hg : g < 2 ^ 17) : ∃ s', mapRam pages support s g = some s' ∧
      s'.Constructing pages support mem₀ cr3 (g / dirEntries + 1) (g + 1) := by
  obtain ⟨hmod, h39, h30, -⟩ := tableIndex_ram (show g * 2 ^ 30 < 2 ^ 47 by omega)
  rw [Nat.mul_div_cancel _ (by decide : 0 < 2 ^ 30)] at h39 h30
  have hlt : g / dirEntries < 256 := by
    simp only [dirEntries]
    omega
  have hslot : bootLinks.slots [] (256 + g / dirEntries) :=
    ⟨by decide, by simp only [dirEntries] at hlt ⊢; omega, fun _ => Nat.le_add_right _ _⟩
  -- an entry of the root is null or leads to a table
  have hsize : s.mem s.pageDirPtrTable (256 + g / dirEntries) &&& pageFlagSize = 0 := by
    rcases h.entries [] _ _ .root hslot with hzero | ⟨hne, -⟩ | ⟨n, hn, heq⟩
    · rw [hzero]
      exact UInt64.zero_and
    · exact absurd rfl hne
    · rw [heq]
      exact (hf.address n (hn.trans (h.allocated_lt hf))).tableEntry_size
  obtain ⟨htables, hat, hext⟩ := accessToTable_spec hf h.toTables .root hslot hsize
  rw [mapRam, map1GbPage, accessToDirPtrEntry, hmod, h39, h30]
  set r := s.accessToTable pages s.pageDirPtrTable (256 + g / dirEntries)
  have hroot := h.extends_root hext htables hd
  have hi : g % dirEntries < dirEntries := Nat.mod_lt _ (by decide)
  have hnull : r.2.mem r.1 (g % dirEntries) = 0 := by
    refine hroot.dirFree _ _ _ hat hi ?_
    simp only [dirEntries]
    omega
  dsimp only
  rw [if_neg (not_not.mpr hnull)]
  cases support with
  | true =>
    rw [if_pos rfl, gigabyte_and_not]
    obtain ⟨htables', hext', hat'⟩ := htables.write_large (fun _ => 0) hf hat
      (List.cons_ne_nil _ _) hnull (ramEntry_and_size (UInt64.ofNat (g * 2 ^ 30)))
    exact ⟨_, rfl, hroot.extends_dir hext' htables' (fun _ => ⟨_, hat', writeEntry_self⟩)
      fun hs => absurd hs (by decide)⟩
  | false =>
    have hslot' : bootLinks.slots [256 + g / dirEntries] (g % dirEntries) :=
      ⟨by simp, hi, fun hnil => absurd hnil (List.cons_ne_nil _ _)⟩
    have hrow : ∀ j : ℕ, ramEntry (UInt64.ofNat (g * 2 ^ 30) + UInt64.ofNat j * 0x200000) = 0 ∨
        ramEntry (UInt64.ofNat (g * 2 ^ 30) + UInt64.ofNat j * 0x200000) &&& pageFlagSize ≠ 0 :=
      fun j => .inr (ramEntry_and_size _)
    have hext' := extends_linkTable hf htables hat hslot' hnull hrow
    have hat' := (at_linkTable_iff hf htables hat hslot' hnull hrow).mpr (.inr ⟨rfl, rfl⟩)
    refine ⟨_, rfl, hroot.extends_dir hext' (tables_linkTable hf htables hat hslot' hnull hrow)
      (fun hs => absurd hs (by decide)) fun _ => ⟨_, hat', fun j _ => ?_⟩⟩
    have hnew : ∀ u, ¬ r.2.At [g % dirEntries, 256 + g / dirEntries] u := by
      intro u hu
      obtain ⟨t', ht', hpresent, -⟩ := htables.link hf hu
      rw [ht'.unique hat, hnull] at hpresent
      exact hpresent UInt64.zero_and
    rcases hext'.added _ _ hat' with hold | ⟨-, hfilled⟩
    · exact absurd hold (hnew _)
    · rw [hfilled, UInt64.ofNat_add, UInt64.ofNat_mul j]
      rfl

/-- **The constructor returns**, with all of the memory in the window. -/
theorem construct_spec (support : Bool) (mem₀ : UInt64 → ℕ → UInt64) (cr3 : UInt64)
    (hf : FreshPages pages) (hmem : memEnd ≤ 2 ^ 47) :
    ∃ s, construct pages support mem₀ cr3 memEnd = some s ∧
      s.Constructing pages support mem₀ cr3
        (((memEnd + (2 ^ 30 - 1)) / 2 ^ 30 + (dirEntries - 1)) / dirEntries)
        ((memEnd + (2 ^ 30 - 1)) / 2 ^ 30) := by
  have hloop : ∀ g ≤ 2 ^ 17, ∃ s, (List.range g).foldlM (mapRam pages support)
      (withRoot pages mem₀ cr3) = some s ∧
      s.Constructing pages support mem₀ cr3 ((g + (dirEntries - 1)) / dirEntries) g := by
    intro g
    induction g with
    | zero => exact fun _ => ⟨_, rfl, constructing_withRoot⟩
    | succ g ih =>
      intro hg
      obtain ⟨s, hs, hcons⟩ := ih (by omega)
      obtain ⟨s', hs', hcons'⟩ := mapRam_spec hf hcons (by simp only [dirEntries]; omega) (by omega)
      refine ⟨s', ?_, ?_⟩
      · rw [List.range_succ, List.foldlM_append, hs]
        simpa using hs'
      · rwa [show (g + 1 + (dirEntries - 1)) / dirEntries = g / dirEntries + 1 by
          simp only [dirEntries]; omega]
  exact hloop _ (by omega)

/-- What is below an entry of the root is below an entry that is no null one. -/
theorem At.root_ne_zero (h : s.At p t) (hlast : p.getLast? = some i) :
    s.mem s.pageDirPtrTable i ≠ 0 := by
  induction h with
  | root => cases hlast
  | @link q t t' j ht _ hchild ih =>
    cases q with
    | nil =>
      obtain rfl := ht.unique .root
      obtain ⟨⟩ := hlast
      exact (child_eq_some_iff.mp hchild).1
    | cons k q => exact ih (by rwa [List.getLast?_cons_cons] at hlast)

/-- The memory ends before the window of the kernel, so that nothing is in it. -/
theorem Constructing.boot (h : s.Constructing pages support mem₀ cr3 d g) (hd : d ≤ 255) :
    s.Boot pages := by
  have hzero : s.mem s.pageDirPtrTable 511 = 0 := h.rootFree 511 (by decide) (by omega)
  refine ⟨h.toTables, fun q u j hu hslot hlast => ?_, .inl h.base⟩
  cases q with
  | nil =>
    obtain rfl := hu.unique .root
    obtain ⟨⟩ := hlast
    rw [hzero]
    exact UInt64.zero_and
  | cons k q =>
    rw [List.getLast?_cons_cons] at hlast
    exact absurd hzero (hu.root_ne_zero hlast)

/-- The entry of the large page that an address of the memory is in. -/
def ramLeaf (support : Bool) (addr : ℕ) : ℕ × UInt64 :=
  if support then (2, ramEntry (UInt64.ofNat (addr / 2 ^ 30 * 2 ^ 30)))
  else (1, ramEntry (UInt64.ofNat (addr / 2 ^ 21 * 2 ^ 21)))

/-- **The window at `RAM_VIRTUAL_BASE`** leads to the memory. -/
theorem Ram.walk_eq (hf : FreshPages pages) (h : s.Tables pages) (hram : s.Ram support g)
    (haddr : addr < 2 ^ 47) (hg : addr / 2 ^ 30 < g) :
    s.walk (ramVirtualBase + addr) = some (ramLeaf support addr) := by
  obtain ⟨-, h39, h30, h21⟩ := tableIndex_ram haddr
  cases support with
  | true =>
    obtain ⟨t, ht, he⟩ := (hram _ hg).1 rfl
    rw [← h39] at ht
    rw [← h30] at he
    rw [walk_eq_one hf h ht]
    refine (walkFrom_large (n := 1) ?_ ?_).trans ?_
    · rw [he]
      exact ramEntry_and_present _
    · rw [he]
      exact ramEntry_and_size _
    · rw [he]
      rfl
  | false =>
    obtain ⟨t, ht, he⟩ := (hram _ hg).2 rfl
    have hentry := he (addr / 2 ^ 21 % dirEntries) (Nat.mod_lt _ (by decide))
    rw [← h30, ← h39] at ht
    rw [← h21, show addr / 2 ^ 30 * 2 ^ 30 + tableIndex (ramVirtualBase + addr) 21 * 2 ^ 21 =
      addr / 2 ^ 21 * 2 ^ 21 by rw [h21]; simp only [dirEntries]; omega] at hentry
    rw [walk_eq_two hf h ht]
    refine (walkFrom_large (n := 0) ?_ ?_).trans ?_
    · rw [hentry]
      exact ramEntry_and_present _
    · rw [hentry]
      exact ramEntry_and_size _
    · rw [hentry]
      rfl

/-- The calls leave the window of the memory as it is. -/
theorem Ram.kernelStep (h : s.Ram support g) (hstep : KernelStep pages s s')
    (hg : g ≤ 255 * dirEntries) : s'.Ram support g := by
  intro k hk
  have hlt : 256 + k / dirEntries ≠ 511 := by
    simp only [dirEntries] at *
    omega
  refine ⟨fun hs => ?_, fun hs => ?_⟩
  · obtain ⟨t, ht, he⟩ := (h k hk).1 hs
    exact ⟨t, hstep.at_of _ t ht, (hstep.kept _ t _ ht (by simpa using hlt)).trans he⟩
  · obtain ⟨t, ht, he⟩ := (h k hk).2 hs
    exact ⟨t, hstep.at_of _ t ht, fun j hj =>
      (hstep.kept _ t _ ht (by simpa using hlt)).trans (he j hj)⟩

end BootPaging

end ShmDos64
