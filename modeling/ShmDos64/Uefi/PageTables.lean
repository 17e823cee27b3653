import ShmDos64.Uefi.Paging
/-!
# The tables of the loader are a tree

Every table is in a page of its own, so that an entry is where one path leads to.
That is what the table kept by `accessToPageTableEntry` rests on: tables are added
and page entries written, but the table at a path stays.
-/

namespace ShmDos64

open Function (update update_of_ne update_self)

/-- The links of the page tables: the entries of the first three levels, in the root
those of the upper half. Null entries and those of large pages lead nowhere. -/
def bootLinks : TableLinks UInt64 UInt64 where
  child e := if e = 0 ∨ e &&& pageFlagSize ≠ 0 then none else some (tableOf e)
  slots p i := p.length < 3 ∧ i < dirEntries ∧ (p = [] → 256 ≤ i)

/-- `AllocatePages` returns pages of memory, and none of them twice. There are fewer
tables than `2 ^ 28`. -/
structure FreshPages (pages : ℕ → UInt64) : Prop where
  address : ∀ n < 2 ^ 28, IsTableAddress (pages n)
  injective : ∀ n < 2 ^ 28, ∀ m < 2 ^ 28, pages n = pages m → n = m

namespace BootPaging

/-- The table is at the path. -/
abbrev At (s : BootPaging) : List ℕ → UInt64 → Prop :=
  TableAt bootLinks s.mem s.pageDirPtrTable

/-- The tables are a tree, and are the pages that have been allocated. -/
structure Tables (pages : ℕ → UInt64) (s : BootPaging) : Prop where
  tree : IsTree bootLinks s.mem s.pageDirPtrTable
  owned : ∀ p t, s.At p t → ∃ n < s.allocated, t = pages n
  used : ∀ n < s.allocated, ∃ p, s.At p (pages n)
  entries : ∀ p t i, s.At p t → bootLinks.slots p i → s.mem t i = 0 ∨
    (p ≠ [] ∧ s.mem t i &&& pageFlagSize ≠ 0) ∨ ∃ n < s.allocated, s.mem t i = tableEntry (pages n)

variable {pages : ℕ → UInt64} {s s' s'' : BootPaging} {p q : List ℕ} {t t' u e : UInt64} {i j n : ℕ}

@[simp] theorem write_mem : (s.write t i e).mem = writeEntry s.mem t i e :=
  rfl

@[simp] theorem allocTable_mem {row : ℕ → UInt64} :
    (s.allocTable pages row).mem = update s.mem (pages s.allocated) row :=
  rfl

/-! ## How many there are -/

theorem At.bounds (h : s.At p t) : p.length ≤ 3 ∧ ∀ i ∈ p, i < dirEntries := by
  induction h with
  | root => simp
  | link _ hslot _ ih =>
    refine ⟨hslot.1, fun i hi => ?_⟩
    rcases List.mem_cons.mp hi with rfl | hi
    · exact hslot.2.1
    · exact ih.2 i hi

/-- A number for a path. -/
def pathCode : List ℕ → ℕ
  | [] => 1
  | i :: p => pathCode p * dirEntries + i

theorem pathCode_pos : 0 < pathCode p := by
  induction p with
  | nil => exact Nat.one_pos
  | cons i p ih => exact Nat.add_pos_left (Nat.mul_pos ih (by decide)) i

theorem pathCode_lt (h : ∀ i ∈ p, i < dirEntries) : pathCode p < 2 * dirEntries ^ p.length := by
  induction p with
  | nil => exact Nat.one_lt_two
  | cons i p ih =>
    have hp := ih fun j hj => h j (List.mem_cons_of_mem i hj)
    have hi := h i List.mem_cons_self
    rw [pathCode, List.length_cons, Nat.pow_succ, ← Nat.mul_assoc]
    simp only [dirEntries] at *
    omega

theorem pathCode_injective (hp : ∀ i ∈ p, i < dirEntries) (hq : ∀ i ∈ q, i < dirEntries)
    (h : pathCode p = pathCode q) : p = q := by
  induction p generalizing q with
  | nil =>
    cases q with
    | nil => rfl
    | cons j q =>
      have := pathCode_pos (p := q)
      simp only [pathCode, dirEntries] at h
      omega
  | cons i p ih =>
    cases q with
    | nil =>
      have := pathCode_pos (p := p)
      simp only [pathCode, dirEntries] at h
      omega
    | cons j q =>
      have hi := hp i List.mem_cons_self
      have hj := hq j List.mem_cons_self
      simp only [pathCode, dirEntries] at h hi hj
      rw [show i = j by omega, ih (fun k hk => hp k (List.mem_cons_of_mem i hk))
        (fun k hk => hq k (List.mem_cons_of_mem j hk)) (by omega)]

/-- Each page is at a path of its own, and there are not that many. -/
theorem Tables.allocated_lt (hf : FreshPages pages) (h : s.Tables pages) :
    s.allocated < 2 ^ 28 := by
  by_contra hge
  have hused : ∀ n, n < 2 ^ 28 → ∃ p, s.At p (pages n) := fun n hn => h.used n (by omega)
  choose! path hpath using hused
  have hmaps : ∀ n ∈ Finset.range (2 ^ 28), pathCode (path n) ∈ Finset.Ico 1 (2 ^ 28) := by
    intro n hn
    obtain ⟨hlen, hlt⟩ := (hpath n (Finset.mem_range.mp hn)).bounds
    refine Finset.mem_Ico.mpr ⟨pathCode_pos, (pathCode_lt hlt).trans_le ?_⟩
    calc 2 * dirEntries ^ (path n).length ≤ 2 * dirEntries ^ 3 :=
          Nat.mul_le_mul_left 2 (Nat.pow_le_pow_right (by decide) hlen)
      _ = 2 ^ 28 := by decide
  obtain ⟨n, hn, m, hm, hne, heq⟩ := Finset.exists_ne_map_eq_of_card_lt_of_maps_to
    (by rw [Nat.card_Ico, Finset.card_range]; omega) hmaps
  rw [Finset.mem_range] at hn hm
  have hsame := pathCode_injective (hpath n hn).bounds.2 (hpath m hm).bounds.2 heq
  have hpages := (hpath n hn).unique (hsame ▸ hpath m hm)
  exact hne (hf.injective n hn m hm hpages)

/-! ## Links -/

theorem child_eq_some_iff : bootLinks.child e = some t ↔
    e ≠ 0 ∧ e &&& pageFlagSize = 0 ∧ tableOf e = t := by
  simp only [bootLinks]
  split
  next h =>
    simp only [reduceCtorEq, false_iff]
    rintro ⟨hne, hsize, -⟩
    exact h.elim hne fun h => h hsize
  next h =>
    rw [not_or, not_not] at h
    simp [h.1, h.2]

/-- Null entries and those of large pages. -/
theorem child_eq_none (h : e = 0 ∨ e &&& pageFlagSize ≠ 0) : bootLinks.child e = none := by
  simp only [bootLinks]
  exact if_pos h

theorem child_tableEntry (h : IsTableAddress t) : bootLinks.child (tableEntry t) = some t :=
  child_eq_some_iff.mpr ⟨h.tableEntry_ne_zero, h.tableEntry_size, h.tableOf_tableEntry⟩

/-- The next page is not in the tree. -/
theorem Tables.fresh (hf : FreshPages pages) (h : s.Tables pages) (q : List ℕ) :
    ¬ s.At q (pages s.allocated) := by
  intro hat
  obtain ⟨n, hn, heq⟩ := h.owned q _ hat
  have hlt := h.allocated_lt hf
  have := hf.injective _ hlt _ (hn.trans hlt) heq
  omega

/-- An entry on the way to a table. -/
theorem Tables.link (hf : FreshPages pages) (h : s.Tables pages) (hat : s.At (i :: p) t') :
    ∃ t, s.At p t ∧ s.mem t i &&& pageFlagPresent ≠ 0 ∧ s.mem t i &&& pageFlagSize = 0 ∧
      tableOf (s.mem t i) = t' := by
  obtain _ | ⟨ht, hslot, hchild⟩ := hat
  obtain ⟨hne, hsize, htable⟩ := child_eq_some_iff.mp hchild
  refine ⟨_, ht, ?_, hsize, htable⟩
  rcases h.entries _ _ _ ht hslot with hzero | ⟨-, hlarge⟩ | ⟨n, hn, heq⟩
  · exact absurd hzero hne
  · exact absurd hsize hlarge
  · rw [heq, (hf.address n (hn.trans (h.allocated_lt hf))).tableEntry_present]
    decide

/-! ## A table is added -/

/-- What adding a table at the entry `i` of the table at `p` changes. -/
structure Extends (pages : ℕ → UInt64) (s s' : BootPaging) (p : List ℕ) (i : ℕ)
    (row : ℕ → UInt64) : Prop where
  root : s'.pageDirPtrTable = s.pageDirPtrTable
  dir : s'.currentPageDir = s.currentPageDir
  base : s'.currentPageDirBase = s.currentPageDirBase
  free : s'.freeKernelVirtualMemory = s.freeKernelVirtualMemory
  at_of : ∀ q u, s.At q u → s'.At q u
  kept : ∀ q u j, s.At q u → ¬ (q = p ∧ j = i) → s'.mem u j = s.mem u j
  added : ∀ q u, s'.At q u → s.At q u ∨ (q = i :: p ∧ s'.mem u = row)
  foreign : ∀ u, (∀ n < 2 ^ 28, u ≠ pages n) → s'.mem u = s.mem u

variable {row : ℕ → UInt64}

theorem Extends.refl (p : List ℕ) (i : ℕ) (row : ℕ → UInt64) : Extends pages s s p i row where
  root := rfl
  dir := rfl
  base := rfl
  free := rfl
  at_of _ _ h := h
  kept _ _ _ _ _ := rfl
  added _ _ h := .inl h
  foreign _ _ := rfl

section Grow

variable (hf : FreshPages pages) (h : s.Tables pages) (ht : s.At p t)
  (hslot : bootLinks.slots p i) (hzero : s.mem t i = 0)
  (hrow : ∀ j, row j = 0 ∨ row j &&& pageFlagSize ≠ 0)

include hf h ht hslot hzero hrow

/-- The tables after one is added. -/
theorem at_linkTable_iff :
    ((s.allocTable pages row).write t i (tableEntry (pages s.allocated))).At q u ↔
      s.At q u ∨ (q = i :: p ∧ u = pages s.allocated) :=
  tableAt_grow_iff h.tree ht hslot (child_eq_none (.inl hzero)) (h.fresh hf)
    (fun j => child_eq_none (hrow j))
    (child_tableEntry (hf.address _ (h.allocated_lt hf)))

theorem extends_linkTable :
    Extends pages s
      ((s.allocTable pages row).write t i (tableEntry (pages s.allocated))) p i row := by
  have hiff := fun {q u} => at_linkTable_iff (q := q) (u := u) hf h ht hslot hzero hrow
  have hlt := h.allocated_lt hf
  have hne : ∀ {q u}, s.At q u → u ≠ pages s.allocated := by
    rintro q u hu rfl
    exact h.fresh hf q hu
  refine ⟨rfl, rfl, rfl, rfl, fun q u hu => hiff.mpr (.inl hu), fun q u j hu hj => ?_,
    fun q u hu => ?_, fun u hu => ?_⟩
  · rw [write_mem, allocTable_mem, writeEntry_of_ne, update_of_ne (hne hu)]
    rintro rfl rfl
    exact hj ⟨h.tree q p u hu ht, rfl⟩
  · rcases hiff.mp hu with hold | ⟨rfl, rfl⟩
    · exact .inl hold
    · refine .inr ⟨rfl, funext fun j => ?_⟩
      rw [write_mem, allocTable_mem, writeEntry_of_ne fun heq => absurd heq.symm (hne ht),
        update_self]
  · obtain ⟨m, hm, rfl⟩ := h.owned p t ht
    funext j
    rw [write_mem, allocTable_mem, writeEntry_of_ne fun heq => absurd heq (hu m (hm.trans hlt)),
      update_of_ne (hu _ hlt)]

theorem tables_linkTable :
    ((s.allocTable pages row).write t i (tableEntry (pages s.allocated))).Tables pages := by
  have hiff := fun {q u} => at_linkTable_iff (q := q) (u := u) hf h ht hslot hzero hrow
  have hext := extends_linkTable hf h ht hslot hzero hrow
  have hlt := h.allocated_lt hf
  refine ⟨?_, fun q u hu => ?_, fun n hn => ?_, fun q u j hu hj => ?_⟩
  · exact h.tree.grow ht hslot (child_eq_none (.inl hzero)) (h.fresh hf)
      (fun j => child_eq_none (hrow j)) (child_tableEntry (hf.address _ hlt))
  · rcases hiff.mp hu with hold | ⟨rfl, rfl⟩
    · obtain ⟨n, hn, heq⟩ := h.owned q u hold
      exact ⟨n, hn.trans (Nat.lt_succ_self _), heq⟩
    · exact ⟨s.allocated, Nat.lt_succ_self _, rfl⟩
  · rcases Nat.lt_succ_iff_lt_or_eq.mp hn with hn | rfl
    · obtain ⟨q, hq⟩ := h.used n hn
      exact ⟨q, hiff.mpr (.inl hq)⟩
    · exact ⟨i :: p, hiff.mpr (.inr ⟨rfl, rfl⟩)⟩
  · rcases hext.added q u hu with hold | ⟨rfl, hnew⟩
    · by_cases heq : q = p ∧ j = i
      · obtain ⟨rfl, rfl⟩ := heq
        obtain rfl := hold.unique ht
        exact .inr (.inr ⟨s.allocated, Nat.lt_succ_self _, writeEntry_self⟩)
      · rw [hext.kept q u j hold heq]
        rcases h.entries q u j hold hj with hz | hl | ⟨n, hn, he⟩
        · exact .inl hz
        · exact .inr (.inl hl)
        · exact .inr (.inr ⟨n, hn.trans (Nat.lt_succ_self _), he⟩)
    · rw [hnew]
      rcases hrow j with hz | hl
      · exact .inl hz
      · exact .inr (.inl ⟨List.cons_ne_nil i p, hl⟩)

end Grow

/-- **`accessToTable` leads to the table at the path.** -/
theorem accessToTable_spec (hf : FreshPages pages) (h : s.Tables pages) (ht : s.At p t)
    (hslot : bootLinks.slots p i) (hsize : s.mem t i &&& pageFlagSize = 0) :
    (s.accessToTable pages t i).2.Tables pages ∧
      (s.accessToTable pages t i).2.At (i :: p) (s.accessToTable pages t i).1 ∧
      Extends pages s (s.accessToTable pages t i).2 p i fun _ => 0 := by
  rw [accessToTable]
  split
  next hne =>
    exact ⟨h, .link ht hslot (child_eq_some_iff.mpr ⟨hne, hsize, rfl⟩), Extends.refl p i _⟩
  next hzero =>
    rw [not_not] at hzero
    have hrow : ∀ j : ℕ, (fun _ => 0 : ℕ → UInt64) j = 0 ∨
      (fun _ => 0 : ℕ → UInt64) j &&& pageFlagSize ≠ 0 := fun _ => .inl rfl
    exact ⟨tables_linkTable hf h ht hslot hzero hrow,
      (at_linkTable_iff hf h ht hslot hzero hrow).mpr (.inr ⟨rfl, rfl⟩),
      extends_linkTable hf h ht hslot hzero hrow⟩

/-! ## The window of the kernel

The addresses from `KERNEL_VIRTUAL_BASE` on are those below the last entry of the
root. -/

variable {virtualBase va : ℕ}

/-- The path to the table with the entry of an address. -/
def path (virtualBase : ℕ) : List ℕ :=
  [tableIndex virtualBase 21, tableIndex virtualBase 30, tableIndex virtualBase 39]

theorem tableIndex_eq (virtualBase shift : ℕ) :
    tableIndex virtualBase shift = virtualBase / 2 ^ shift % dirEntries := by
  have hmask : (0x1FF : ℕ) = 2 ^ 9 - 1 := by decide
  rw [tableIndex, hmask, Nat.and_two_pow_sub_one_eq_mod, Nat.shiftRight_eq_div_pow]

theorem tableIndex_lt (virtualBase shift : ℕ) : tableIndex virtualBase shift < dirEntries := by
  rw [tableIndex_eq]
  exact Nat.mod_lt _ (by decide)

/-- The entries of the same 2 MB are in one table. -/
theorem path_congr (h : va / pageDirAreaSize = virtualBase / pageDirAreaSize) :
    path va = path virtualBase := by
  simp only [path, tableIndex_eq, dirEntries]
  simp only [pageDirAreaSize] at h
  rw [show va / 2 ^ 21 = virtualBase / 2 ^ 21 by omega,
    show va / 2 ^ 30 = virtualBase / 2 ^ 30 by omega,
    show va / 2 ^ 39 = virtualBase / 2 ^ 39 by omega]

/-- What a call leaves as it is: the tables, and every entry outside the window. -/
structure KernelStep (pages : ℕ → UInt64) (s s' : BootPaging) : Prop where
  root : s'.pageDirPtrTable = s.pageDirPtrTable
  at_of : ∀ q u, s.At q u → s'.At q u
  kept : ∀ q u j, s.At q u → (j :: q).getLast? ≠ some 511 → s'.mem u j = s.mem u j
  foreign : ∀ u, (∀ n < 2 ^ 28, u ≠ pages n) → s'.mem u = s.mem u

theorem KernelStep.refl : KernelStep pages s s :=
  ⟨rfl, fun _ _ h => h, fun _ _ _ _ _ => rfl, fun _ _ => rfl⟩

theorem KernelStep.trans (h : KernelStep pages s s') (h' : KernelStep pages s' s'') :
    KernelStep pages s s'' where
  root := h'.root.trans h.root
  at_of q u hu := h'.at_of q u (h.at_of q u hu)
  kept q u j hu hj := (h'.kept q u j (h.at_of q u hu) hj).trans (h.kept q u j hu hj)
  foreign u hu := (h'.foreign u hu).trans (h.foreign u hu)

/-- The search of an entry leaves the entries of the pages as they are too. -/
structure Lookup (pages : ℕ → UInt64) (s s' : BootPaging) : Prop extends
    KernelStep pages s s' where
  leaf : ∀ q u j, s.At q u → q.length = 3 → s'.mem u j = s.mem u j
  free : s'.freeKernelVirtualMemory = s.freeKernelVirtualMemory

theorem Lookup.trans (h : Lookup pages s s') (h' : Lookup pages s' s'') : Lookup pages s s'' where
  toKernelStep := h.toKernelStep.trans h'.toKernelStep
  leaf q u j hu hq := (h'.leaf q u j (h.at_of q u hu) hq).trans (h.leaf q u j hu hq)
  free := h'.free.trans h.free

/-- There is no large page in the window. -/
def Small (s : BootPaging) : Prop :=
  ∀ p t i, s.At p t → bootLinks.slots p i → (i :: p).getLast? = some 511 →
    s.mem t i &&& pageFlagSize = 0

/-- The tables between the calls: the kept table is the one at the path of its
addresses. -/
structure Boot (pages : ℕ → UInt64) (s : BootPaging) : Prop extends s.Tables pages where
  small : s.Small
  cached : s.currentPageDirBase = 0 ∨ (s.currentPageDirBase % pageDirAreaSize = 0 ∧
    s.At (path s.currentPageDirBase) s.currentPageDir)

/-- The next address to be returned is not in the tables. -/
theorem Boot.withFree (h : s.Boot pages) (n : ℕ) :
    ({ s with freeKernelVirtualMemory := n } : BootPaging).Boot pages :=
  ⟨⟨h.tree, h.owned, h.used, h.entries⟩, h.small, h.cached⟩

theorem Extends.lookup (h : Extends pages s s' p i row) (hp : p.length < 3)
    (hlast : (i :: p).getLast? = some 511) : Lookup pages s s' where
  root := h.root
  at_of := h.at_of
  kept q u j hu hj := by
    refine h.kept q u j hu ?_
    rintro ⟨rfl, rfl⟩
    exact hj hlast
  foreign := h.foreign
  leaf q u j hu hq := by
    refine h.kept q u j hu ?_
    rintro ⟨rfl, -⟩
    omega
  free := h.free

theorem Extends.small (hf : FreshPages pages) (h : Extends pages s s' p i fun _ => 0)
    (htables : s'.Tables pages) (hat : s'.At (i :: p) t') (hsmall : s.Small) : s'.Small := by
  intro q u j hu hslot hlast
  rcases h.added q u hu with hold | ⟨rfl, hrow⟩
  · by_cases heq : q = p ∧ j = i
    · obtain ⟨rfl, rfl⟩ := heq
      obtain ⟨t, ht, -, hsize, -⟩ := htables.link hf hat
      rwa [hu.unique ht]
    · rw [h.kept q u j hold heq]
      exact hsmall q u j hold hslot hlast
  · rw [hrow]
    exact UInt64.zero_and

/-- An entry of the window does not make the search panic. -/
theorem Tables.and_global (hf : FreshPages pages) (h : s.Tables pages) (ht : s.At p t)
    (hslot : bootLinks.slots p i) (hsize : s.mem t i &&& pageFlagSize = 0) :
    s.mem t i &&& pageFlagGlobal = 0 := by
  rcases h.entries p t i ht hslot with hzero | ⟨-, hlarge⟩ | ⟨n, hn, heq⟩
  · rw [hzero]
    exact UInt64.zero_and
  · exact absurd hsize hlarge
  · rw [heq]
    exact (hf.address n (hn.trans (h.allocated_lt hf))).tableEntry_global

/-- One level of the search, in the window. -/
theorem accessToTable_window (hf : FreshPages pages) (h : s.Tables pages) (hsmall : s.Small)
    (ht : s.At p t) (hslot : bootLinks.slots p i) (hlast : (i :: p).getLast? = some 511) :
    (s.accessToTable pages t i).2.Tables pages ∧ (s.accessToTable pages t i).2.Small ∧
      (s.accessToTable pages t i).2.At (i :: p) (s.accessToTable pages t i).1 ∧
      Lookup pages s (s.accessToTable pages t i).2 := by
  obtain ⟨htables, hat, hext⟩ := accessToTable_spec hf h ht hslot (hsmall p t i ht hslot hlast)
  exact ⟨htables, hext.small hf htables hat hsmall, hat, hext.lookup hslot.1 hlast⟩

/-- The window is above the 2 MB that the kept table seems to be for at first. -/
theorem le_of_window (hva : tableIndex va 39 = 511) : pageDirAreaSize ≤ va := by
  rw [tableIndex_eq] at hva
  simp only [dirEntries, pageDirAreaSize] at *
  omega

/-- **`accessToPageTableEntry` finds the table at the path**, kept or not. -/
theorem accessToPageTableEntry_spec (hf : FreshPages pages) (h : s.Boot pages)
    (hva : tableIndex va 39 = 511) :
    ∃ t s', s.accessToPageTableEntry pages va = some (t, s') ∧ s'.Boot pages ∧
      s'.At (path va) t ∧ Lookup pages s s' ∧
      s'.currentPageDirBase = va / pageDirAreaSize * pageDirAreaSize := by
  have hle := le_of_window hva
  rw [accessToPageTableEntry]
  split
  next =>
    have hslot : bootLinks.slots [] 511 := ⟨by decide, by decide, fun _ => by decide⟩
    obtain ⟨htab₁, hsmall₁, hat₁, hlook₁⟩ :=
      accessToTable_window hf h.toTables h.small .root hslot rfl
    rw [accessToDirPtrEntry, hva]
    set r₁ := s.accessToTable pages s.pageDirPtrTable 511
    have hslot₁ : bootLinks.slots [511] (tableIndex va 30) :=
      ⟨by decide, tableIndex_lt _ _, fun h => by cases h⟩
    obtain ⟨htab₂, hsmall₂, hat₂, hlook₂⟩ :=
      accessToTable_window hf htab₁ hsmall₁ hat₁ hslot₁ rfl
    have hglobal := htab₁.and_global hf hat₁ hslot₁ (hsmall₁ _ _ _ hat₁ hslot₁ rfl)
    dsimp only
    rw [if_neg (not_not.mpr hglobal)]
    set r₂ := r₁.2.accessToTable pages r₁.1 (tableIndex va 30)
    have hslot₂ : bootLinks.slots [tableIndex va 30, 511] (tableIndex va 21) :=
      ⟨by simp, tableIndex_lt _ _, fun h => by cases h⟩
    obtain ⟨htab₃, hsmall₃, hat₃, hlook₃⟩ :=
      accessToTable_window hf htab₂ hsmall₂ hat₂ hslot₂ rfl
    set r₃ := r₂.2.accessToTable pages r₂.1 (tableIndex va 21)
    have hlook := (hlook₁.trans hlook₂).trans hlook₃
    rw [← hva] at hat₃
    refine ⟨_, _, rfl, ⟨⟨htab₃.tree, htab₃.owned, htab₃.used, htab₃.entries⟩, hsmall₃,
      .inr ⟨?_, ?_⟩⟩,
      hat₃, ⟨⟨hlook.root, hlook.at_of, hlook.kept, hlook.foreign⟩, hlook.leaf, hlook.free⟩, rfl⟩
    · exact Nat.mul_mod_left _ _
    · rw [path_congr (Nat.mul_div_cancel _ (by decide))]
      exact hat₃
  next hhit =>
    -- the address is in the 2 MB of the kept table
    rw [not_or, Nat.not_le, Nat.not_lt] at hhit
    have hlt : va < s.currentPageDirBase + pageDirAreaSize :=
      hhit.1.trans_le (Nat.mod_le _ _)
    rcases h.cached with hzero | ⟨haligned, hat⟩
    · omega
    · have hsame : va / pageDirAreaSize = s.currentPageDirBase / pageDirAreaSize := by
        simp only [pageDirAreaSize] at *
        omega
      refine ⟨_, s, rfl, h, ?_, ⟨.refl, fun _ _ _ _ _ => rfl, rfl⟩, ?_⟩
      · rwa [path_congr hsame]
      · simp only [pageDirAreaSize] at *
        omega

end BootPaging

end ShmDos64
