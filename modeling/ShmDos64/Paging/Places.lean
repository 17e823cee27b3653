import ShmDos64.Common.Total
import ShmDos64.Paging.Operations
/-!
# The places of a page of RAM

A page of RAM is on the free list, it is a directory, or a present entry
has its address. A walk takes the pages for new directories from the list,
and its callback moves a page from the list to the entry or back, so that
a page keeps the number of places that it has.
-/

namespace ShmDos64

open Function (update)
open PageDir RamPages

/-- Whether the entry is present and has the address. -/
def frameAt (a entry : UInt64) : ℕ :=
  if entry &&& pageFlagPresent ≠ 0 ∧ tableOf entry = a then 1 else 0

/-- The directories at the address, below a table. -/
def PageDir.dirsAt (a : UInt64) : (n : ℕ) → PageDir n → ℕ
  | 0, _ => 0
  | n + 1, dir =>
    total (fun o : Option (UInt64 × PageDir n) =>
      o.elim 0 fun e => (if tableOf e.1 = a then 1 else 0) + e.2.dirsAt a n)
      fun i : Fin dirEntries => dir i

/-- The present entries with the address, among those of `count` pages. -/
def PageDir.framesAt (a : UInt64) (root : PageDir 3) (start count : ℕ) : ℕ :=
  ∑ i ∈ Finset.range count, frameAt a (root.entry 3 (start + i))

/-- **The places of a page**: on the free list, as a directory, and in the
entries of `count` pages. -/
def places (a : UInt64) (root : PageDir 3) (ram : RamPages) (start count : ℕ) : ℕ :=
  ram.count a + root.dirsAt a 3 + root.framesAt a start count

/-- An operation on `n` pages from `start` on leaves every page of RAM the
places that it has, counted in any window with these pages. -/
def KeepsPlaces (start n : ℕ) (root : PageDir 3) (ram : RamPages) (root' : PageDir 3)
    (ram' : RamPages) : Prop :=
  ∀ a win V, V ≤ 2 ^ 36 → win ≤ start → start + n ≤ win + V →
    places a root' ram' win V = places a root ram win V

namespace Paging

variable {dirFlags : UInt64} {callback : Callback RamPages} {n : ℕ} {a : UInt64}

/-- What the callback does with an entry: the list and the entry have
the page as often as before, and `k` times more. -/
def Adds (callback : Callback RamPages) (a e : UInt64) (k : ℕ) : Prop :=
  ∀ ram : RamPages, ram.Valid →
    (callback ram e).2.count a + frameAt a (callback ram e).1 = ram.count a + frameAt a e + k

/-! ## Directories -/

theorem dirsAt_zero (a : UInt64) (n : ℕ) : (PageDir.zero n).dirsAt a n = 0 := by
  cases n with
  | zero => rfl
  | succ n => exact total_eq_zero fun _ => rfl

/-- The entry of a directory is replaced. -/
theorem dirsAt_update (dir : ℕ → Option (UInt64 × PageDir n)) {index : ℕ} (e : UInt64)
    (child : PageDir n) (hi : index < dirEntries) :
    dirsAt a (n + 1) (update dir index (some (e, child))) +
      ((dir index).elim 0 fun e => (if tableOf e.1 = a then 1 else 0) + e.2.dirsAt a n) =
    dirsAt a (n + 1) dir + ((if tableOf e = a then 1 else 0) + child.dirsAt a n) := by
  have hcomp : (fun i : Fin dirEntries => update dir index (some (e, child)) i) =
      update (fun i : Fin dirEntries => dir i) ⟨index, hi⟩ (some (e, child)) :=
    Function.update_comp_eq_of_injective dir Fin.val_injective ⟨index, hi⟩ (some (e, child))
  change total _ (fun i : Fin dirEntries => update dir index (some (e, child)) i) + _ = _
  rw [hcomp]
  exact total_update _ (fun i : Fin dirEntries => dir i) ⟨index, hi⟩ (some (e, child))

/-- The address of a new directory. -/
theorem tableOf_or {addr : UInt64} (h : IsTableAddress addr) (hflags : dirFlags &&& ~~~7 = 0) :
    tableOf (addr ||| dirFlags) = addr := by
  have hzero : dirFlags &&& 0xFFFFFFFFF000 = 0 := by
    rw [show (0xFFFFFFFFF000 : UInt64) = ~~~7 &&& 0xFFFFFFFFF000 by decide, ← UInt64.and_assoc,
      hflags, UInt64.zero_and]
  rw [tableOf, uint64_or_and, hzero, UInt64.or_zero]
  exact h

theorem count_allocPage {ram : RamPages} {r : UInt64 × RamPages}
    (h : allocPage ram = some r) :
    ram.count a = (if r.1 = a then 1 else 0) + r.2.count a := by
  cases ram with
  | nil => cases h
  | cons addr ram =>
    obtain ⟨⟩ := h
    rw [List.count_cons, Nat.add_comm]
    simp only [beq_iff_eq]

/-- A step down takes the page of a new directory from the list. -/
theorem access_places {dir : PageDir (n + 1)} {index : ℕ} {ram : RamPages}
    {r : (UInt64 × PageDir n) × RamPages} (hflags : dirFlags &&& ~~~7 = 0) (hram : ram.Valid)
    (h : accessToChildDir allocPage dirFlags dir index ram = some r) :
    r.2.Valid ∧ r.2.count a + ((if tableOf r.1.1 = a then 1 else 0) + r.1.2.dirsAt a n) =
      ram.count a +
        ((dir index).elim 0 fun e => (if tableOf e.1 = a then 1 else 0) + e.2.dirsAt a n) := by
  rw [accessToChildDir, if_neg (Nat.not_le.mpr (index_lt_of_access h))] at h
  cases hd : dir index with
  | some e =>
    rw [hd] at h
    obtain ⟨⟩ := h
    exact ⟨hram, rfl⟩
  | none =>
    rw [hd] at h
    change (if dirFlags = 0 then none else _) = some r at h
    split_ifs at h
    obtain ⟨r₀, hr₀, rfl⟩ := Option.map_eq_some_iff.mp h
    obtain ⟨hpage, hvalid⟩ := allocPage_valid hram hr₀
    refine ⟨hvalid, ?_⟩
    rw [count_allocPage hr₀, tableOf_or hpage.1 hflags, dirsAt_zero]
    simp only [Option.elim_none]
    omega

/-! ## Walks -/

/-- **A walk to a page** keeps the places of a page of RAM, but for what
the callback adds. -/
theorem walkTo_places {page k : ℕ} {w w' : Walk RamPages n} (hflags : dirFlags &&& ~~~7 = 0)
    (hram : w.2.1.Valid) (hcall : Adds callback a (w.1.entry n page) k)
    (h : walkTo allocPage dirFlags callback n page w = some w') :
    w'.2.1.count a + w'.1.dirsAt a n + frameAt a (w'.1.entry n page) =
      w.2.1.count a + w.1.dirsAt a n + frameAt a (w.1.entry n page) + k := by
  induction n with
  | zero =>
    rw [walkTo_zero, visit, if_neg (Nat.not_le.mpr (Nat.mod_lt _ (by decide)))] at h
    obtain ⟨⟩ := h
    refine (congrArg
      (fun e => (callback w.2.1 (w.1 (page % dirEntries))).2.count a + 0 + frameAt a e)
      (Function.update_self ..)).trans ?_
    exact hcall w.2.1 hram
  | succ n ih =>
    rw [walkTo_succ, inChild] at h
    obtain ⟨r, hacc, h⟩ := Option.bind_eq_some_iff.mp h
    obtain ⟨c, hc, rfl⟩ := Option.map_eq_some_iff.mp h
    have hindex := index_lt_of_access hacc
    obtain ⟨hvalid, hdown⟩ := access_places (a := a) hflags hram hacc
    rw [← entry_access hacc] at hcall ⊢
    have hchild := ih (w := (r.1.2, r.2, w.2.2)) hvalid hcall hc
    have hup := dirsAt_update (a := a) w.1 r.1.1 c.1 hindex
    have hentry : PageDir.entry (n + 1) (update w.1 (page / dirEntries ^ (n + 1) % dirEntries)
        (some (r.1.1, c.1))) page = c.1.entry n page := entry_update.trans (if_pos rfl)
    simp only at hchild ⊢
    rw [hentry]
    omega

/-- **A walk over pages** keeps the places. -/
theorem walkRange_places {start count : ℕ} {w w' : Walk RamPages n} (hflags : dirFlags &&& ~~~7 = 0)
    (hcount : count ≤ dirEntries ^ (n + 1)) (hw : w.2.1.Valid)
    (hvalid : ∀ ram e, Valid ram → Valid (callback ram e).2)
    (hcall : ∀ i < count, Adds callback a (w.1.entry n (start + i)) 0)
    (h : walkRange allocPage dirFlags callback n start count w = some w') :
    w'.2.1.count a + w'.1.dirsAt a n +
        ∑ i ∈ Finset.range count, frameAt a (w'.1.entry n (start + i)) =
      w.2.1.count a + w.1.dirsAt a n +
        ∑ i ∈ Finset.range count, frameAt a (w.1.entry n (start + i)) := by
  induction count generalizing start w with
  | zero =>
    obtain ⟨⟩ := h
    rfl
  | succ count ih =>
    rw [walkRange, List.range'_succ, List.foldlM_cons] at h
    obtain ⟨w₁, h₁, h⟩ := Option.bind_eq_some_iff.mp h
    have hone := walkTo_places hflags hw (hcall 0 (by omega)) h₁
    have hw₁ := (walkTo_plain hflags (fun _ _ => allocPage_valid) hvalid hw h₁).2
    obtain ⟨st₀, -, -, hentry⟩ := walkTo_entry h₁
    have hother : ∀ i < count, w₁.1.entry n (start + 1 + i) = w.1.entry n (start + (i + 1)) := by
      intro i hi
      rw [Nat.add_assoc, Nat.add_comm 1 i, hentry, if_neg (add_mod_ne (by omega) (by omega))]
    have hrest := ih (by omega) hw₁ (fun i hi => by
      rw [hother i hi]
      exact hcall (i + 1) (by omega)) h
    have hfirst : w'.1.entry n start = w₁.1.entry n start := by
      refine (walkRange_entry (by omega) h).1 start fun i hi heq => ?_
      rw [Nat.add_assoc] at heq
      exact add_mod_ne (by omega) (by omega) heq.symm
    have hsum : ∑ i ∈ Finset.range count, frameAt a (w₁.1.entry n (start + 1 + i)) =
        ∑ i ∈ Finset.range count, frameAt a (w.1.entry n (start + (i + 1))) :=
      Finset.sum_congr rfl fun i hi => by rw [hother i (Finset.mem_range.mp hi)]
    have hshift : ∑ i ∈ Finset.range count, frameAt a (w'.1.entry n (start + 1 + i)) =
        ∑ i ∈ Finset.range count, frameAt a (w'.1.entry n (start + (i + 1))) :=
      Finset.sum_congr rfl fun i _ => by rw [Nat.add_assoc, Nat.add_comm 1 i]
    rw [Finset.sum_range_succ', Finset.sum_range_succ', ← hshift, ← hsum]
    simp only [Nat.add_zero, hfirst] at hone ⊢
    omega

/-! ## What the callbacks add -/

theorem frameAt_of_absent {e : UInt64} (h : e &&& pageFlagPresent = 0) : frameAt a e = 0 :=
  if_neg fun hp => hp.1 h

/-- The bits of an entry whose flags are set, without its address. -/
theorem setFlags_and_present {pflags : UInt64} (h : pflags &&& pageFlagPresent = 0) (e : UInt64) :
    setFlags 0xFFF pflags e &&& pageFlagPresent = 0 := by
  rw [setFlags, uint64_or_and, h, UInt64.and_assoc, show ~~~0xFFF &&& pageFlagPresent = 0 by decide,
    UInt64.and_zero, UInt64.zero_or]

theorem adds_setFlags {pflags e : UInt64} (h : pflags &&& pageFlagPresent = 0)
    (he : e &&& pageFlagPresent = 0) :
    Adds (fun ram entry => (setFlags 0xFFF pflags entry, ram)) a e 0 := by
  intro ram _
  rw [frameAt_of_absent he, frameAt_of_absent (setFlags_and_present h e)]

/-- The entry of a page of RAM with flags. -/
theorem frameAt_or {addr pflags : UInt64} (h : IsTableAddress addr)
    (hflags : pflags &&& ~~~0xFFF = 0) (hp : pflags &&& pageFlagPresent ≠ 0) :
    frameAt a (addr ||| pflags) = if addr = a then 1 else 0 := by
  have hzero : pflags &&& 0xFFFFFFFFF000 = 0 := by
    rw [show (0xFFFFFFFFF000 : UInt64) = ~~~0xFFF &&& 0xFFFFFFFFF000 by decide, ← UInt64.and_assoc,
      hflags, UInt64.zero_and]
  have hpresent : (addr ||| pflags) &&& pageFlagPresent ≠ 0 := by
    rw [uint64_or_and, h.and_eq_zero (by decide), UInt64.zero_or]
    exact hp
  have htable : tableOf (addr ||| pflags) = addr := by
    rw [tableOf, uint64_or_and, hzero, UInt64.or_zero]
    exact h
  rw [frameAt, htable]
  simp only [hpresent, ne_eq, not_false_eq_true, true_and]

/-! ## The operations -/

section Operations

variable {root root' : PageDir 3} {ram ram' : RamPages} {w : Walk RamPages 3}
  {virtualBase size start m win V : ℕ} {va : Bool}

/-- A window is the pages of the operation, those before and those after. -/
theorem framesAt_window (h : ∀ p, ¬ InPages start m p → root'.entry 3 p = root.entry 3 p)
    (hV : V ≤ 2 ^ 36) (hlow : win ≤ start) (hend : start + m ≤ win + V) :
    root'.framesAt a win V + root.framesAt a start m =
      root.framesAt a win V + root'.framesAt a start m := by
  obtain ⟨b, rfl⟩ := Nat.exists_eq_add_of_le hlow
  obtain ⟨c, rfl⟩ := Nat.exists_eq_add_of_le (show b + m ≤ V by omega)
  have hsame : ∀ i < b + m + c, i < b ∨ b + m ≤ i →
      root'.entry 3 (win + i) = root.entry 3 (win + i) := by
    intro i hi hout
    refine h _ ?_
    rintro ⟨j, hj, heq⟩
    omega
  have hsplit : ∀ r : PageDir 3, r.framesAt a win (b + m + c) =
      r.framesAt a win b + r.framesAt a (win + b) m +
        ∑ i ∈ Finset.range c, frameAt a (r.entry 3 (win + (b + m + i))) := by
    intro r
    simp only [framesAt, Finset.sum_range_add, Nat.add_assoc]
  have hbefore : root'.framesAt a win b = root.framesAt a win b :=
    Finset.sum_congr rfl fun i hi => by
      have hi := Finset.mem_range.mp hi
      rw [hsame i (by omega) (.inl hi)]
  have hafter : ∑ i ∈ Finset.range c, frameAt a (root'.entry 3 (win + (b + m + i))) =
      ∑ i ∈ Finset.range c, frameAt a (root.entry 3 (win + (b + m + i))) :=
    Finset.sum_congr rfl fun i hi => by
      have hi := Finset.mem_range.mp hi
      rw [hsame _ (by omega) (.inr (by omega))]
  rw [hsplit root, hsplit root', hbefore, hafter]
  omega

/-- **`setPagesFlags` of pages that are not present** moves pages only. -/
theorem setPagesFlags_keeps {pflags : UInt64} (hflags : pflags &&& pageFlagPresent = 0)
    (hsize : 1 ≤ size) (hrange : virtualBase % 2 ^ 48 + size ≤ 2 ^ 48) (hram : ram.Valid)
    (habsent : ∀ i < pageCount virtualBase size,
      root.entry 3 (virtualBase / pageSize + i) &&& pageFlagPresent = 0)
    (h : setPagesFlags virtualBase size 0xFFF pflags root ram = some w) :
    KeepsPlaces (virtualBase / pageSize) (pageCount virtualBase size) root ram w.1 w.2.1 := by
  intro a win V hV hlow hend
  have hwindow :=
    framesAt_window (a := a) (setPagesFlags_updates hsize hrange h).outside hV hlow hend
  rw [setPagesFlags, processPages_eq hsize hrange] at h
  have hwalk := walkRange_places (a := a) (w := (root, ram, false)) (dirFlagsOf_and pflags)
    (pageCount_le hrange) hram (fun _ _ hv => hv)
    (fun i hi => adds_setFlags hflags (habsent i hi)) h
  unfold places
  unfold framesAt at *
  simp only at hwalk
  omega

/-- `mapPage` of a page of RAM to a page that is not present. -/
theorem mapPage_places {physBase pflags : UInt64} (hphys : IsTableAddress physBase)
    (hflags : pflags &&& ~~~0xFFF = 0) (hp : pflags &&& pageFlagPresent ≠ 0) (hram : ram.Valid)
    (habsent : root.entry 3 (virtualBase / pageSize) &&& pageFlagPresent = 0)
    (h : mapPage virtualBase physBase pflags root ram = some w) (hV : V ≤ 2 ^ 36)
    (hlow : win ≤ virtualBase / pageSize) (hend : virtualBase / pageSize + 1 ≤ win + V) :
    places a w.1 w.2.1 win V = places a root ram win V + if physBase = a then 1 else 0 := by
  have hwindow := framesAt_window (a := a) (mapPage_updates h).outside hV hlow hend
  rw [mapPage, processPage, walkPage_eq_walkTo] at h
  have hcall : Adds (fun ram _ => (physBase ||| pflags, ram)) a
      (root.entry 3 (virtualBase / pageSize)) (if physBase = a then 1 else 0) := by
    intro ram _
    rw [frameAt_of_absent habsent, frameAt_or hphys hflags hp, Nat.add_zero]
  have hwalk := walkTo_places (w := (root, ram, false)) (dirFlagsOf_and pflags) hram hcall h
  unfold places
  unfold framesAt at *
  simp only [Finset.sum_range_one, Nat.add_zero] at hwalk hwindow
  omega

end Operations

end Paging

end ShmDos64
