import ShmDos64.Common.Buckets
import ShmDos64.RamAllocator.Model
/-!
# No page is lost or handed out twice

At any time each page is on the list, owned by one caller, or held by one
routine in progress. A caller that exchanges the header successfully saw
the header it exchanges: the counter grows with every exchange, and was
read after the head. So the link it read is the head page's, which no one
writes while it is on the list.
-/

namespace ShmDos64

open Function (update update_of_ne update_self)
open RamOp

/-! ## The pages the constructor links -/

namespace RamAllocator

/-- The `n + 1` pages from `ptr` on. -/
def pagesFrom (ptr : ℕ) : ℕ → List ℕ
  | 0 => [ptr]
  | n + 1 => ptr :: pagesFrom (nextPage ptr) n

theorem linkPages_snd_mem (mem : ℕ → ℕ) (ptr n : ℕ) :
    (linkPages mem ptr n).2 ∈ pagesFrom ptr n := by
  induction n generalizing mem ptr with
  | zero => exact List.mem_singleton.mpr rfl
  | succ n ih => exact List.mem_cons_of_mem _ (ih _ _)

/-- The loop writes to the pages of the region only. -/
theorem linkPages_frame {mem : ℕ → ℕ} {ptr n a : ℕ} (ha : a ∉ pagesFrom ptr n) :
    (linkPages mem ptr n).1 a = mem a := by
  induction n generalizing mem ptr with
  | zero => rfl
  | succ n ih =>
    rw [pagesFrom, List.mem_cons, not_or] at ha
    exact (ih ha.2).trans (update_of_ne ha.1 _ _)

/-- **The pages of a region are put before the list.** -/
theorem links_linkPages {mem : ℕ → ℕ} {ptr n e h : ℕ} {L : List ℕ} (hl : Links mem e h L)
    (hnd : (pagesFrom ptr n ++ L).Nodup) (he : e ∉ pagesFrom ptr n) :
    Links (update (linkPages mem ptr n).1 (linkPages mem ptr n).2 h) e ptr
      (pagesFrom ptr n ++ L) := by
  induction n generalizing mem ptr with
  | zero =>
    rw [pagesFrom, List.singleton_append, List.nodup_cons] at hnd
    refine ⟨rfl, fun hpe => he (by simp [pagesFrom, hpe]), ?_⟩
    rw [linkPages, update_self]
    exact hl.congr fun y hy => update_of_ne (ne_of_mem_of_not_mem hy hnd.1) _ _
  | succ n ih =>
    rw [pagesFrom, List.cons_append, List.nodup_cons, List.mem_append, not_or] at hnd
    rw [pagesFrom, List.mem_cons, not_or] at he
    refine ⟨rfl, Ne.symm he.1, ?_⟩
    have hl' : Links (update mem ptr (nextPage ptr)) e h L :=
      hl.congr fun y hy => update_of_ne (ne_of_mem_of_not_mem hy hnd.1.2) _ _
    have hlinks := ih hl' hnd.2 he.2
    -- the page's own link is the next page: the rest of the loop leaves it
    have hptr : update (linkPages mem ptr (n + 1)).1 (linkPages mem ptr (n + 1)).2 h ptr =
        nextPage ptr := by
      have hne : ptr ≠ (linkPages mem ptr (n + 1)).2 :=
        (ne_of_mem_of_not_mem (linkPages_snd_mem _ _ n) hnd.1.1).symm
      rw [update_of_ne hne, linkPages, linkPages_frame hnd.1.1, update_self]
    rw [hptr]
    exact hlinks

end RamAllocator

namespace PhysicalMemoryRegion

theorem nextPage_physToVirtualInt (a : ℕ) :
    RamAllocator.nextPage (physToVirtualInt a) = physToVirtualInt (a + pageSize) := by
  unfold RamAllocator.nextPage physToVirtualInt
  omega

theorem map_range_pages (a n : ℕ) :
    ((List.range (n + 1)).map fun k => physToVirtualInt (a + k * pageSize)) =
      RamAllocator.pagesFrom (physToVirtualInt a) n := by
  induction n generalizing a with
  | zero =>
    rw [List.range_one, List.map_singleton, Nat.zero_mul, Nat.add_zero, RamAllocator.pagesFrom]
  | succ n ih =>
    have hk : ∀ k, a + (k + 1) * pageSize = a + pageSize + k * pageSize := by
      intro k
      rw [Nat.succ_mul]
      omega
    rw [RamAllocator.pagesFrom, nextPage_physToVirtualInt, ← ih,
      List.range_succ_eq_map (n := n + 1), List.map_cons, List.map_map, Nat.zero_mul, Nat.add_zero]
    congr 1
    refine List.map_congr_left fun k _ => ?_
    rw [Function.comp_apply, Nat.succ_eq_add_one, hk]

/-- Disjoint regions of the physical address space. -/
structure Disjoint (regions : List PhysicalMemoryRegion) : Prop where
  bound : ∀ r ∈ regions, r.start ≤ r.stop ∧ r.stop ≤ 2 ^ 64
  apart : regions.Pairwise fun r r' => r.stop ≤ r'.start ∨ r'.stop ≤ r.start

theorem mem_pages {r : PhysicalMemoryRegion} {p : ℕ} : p ∈ r.pages ↔
    ∃ k < (r.stop - r.start) / pageSize, physToVirtualInt (r.start + k * pageSize) = p := by
  simp [pages]

theorem physToVirtualInt_inj {a b : ℕ} (ha : a < 2 ^ 64) (hb : b < 2 ^ 64)
    (h : physToVirtualInt a = physToVirtualInt b) : a = b := by
  unfold physToVirtualInt at h
  omega

/-- The pages of a region start within it. -/
theorem page_bounds {r : PhysicalMemoryRegion} {k : ℕ} (hk : k < (r.stop - r.start) / pageSize) :
    r.start + k * pageSize < r.stop := by
  have hle := Nat.div_mul_le_self (r.stop - r.start) pageSize
  simp only [pageSize] at *
  omega

theorem Disjoint.nodup {regions : List PhysicalMemoryRegion} (h : Disjoint regions) :
    (ramPages regions).Nodup := by
  have hinj : ∀ r ∈ regions, ∀ r' ∈ regions, ∀ k < (r.stop - r.start) / pageSize,
      ∀ k' < (r'.stop - r'.start) / pageSize, physToVirtualInt (r.start + k * pageSize) =
        physToVirtualInt (r'.start + k' * pageSize) →
      r.start + k * pageSize = r'.start + k' * pageSize := by
    intro r hr r' hr' k hk k' hk'
    exact physToVirtualInt_inj ((page_bounds hk).trans_le (h.bound r hr).2)
      ((page_bounds hk').trans_le (h.bound r' hr').2)
  refine List.nodup_flatMap.mpr ⟨fun r hr => ?_, h.apart.imp_of_mem fun {r r'} hr hr' hapart => ?_⟩
  · refine List.Nodup.map_on (fun k hk k' hk' he => ?_) List.nodup_range
    have heq := hinj r hr r hr k (List.mem_range.mp hk) k' (List.mem_range.mp hk') he
    simp only [pageSize] at heq
    omega
  · intro p hp hp'
    obtain ⟨k, hk, rfl⟩ := mem_pages.mp hp
    obtain ⟨k', hk', he⟩ := mem_pages.mp hp'
    have hb := page_bounds hk
    have hb' := page_bounds hk'
    have heq := hinj r hr r' hr' k hk k' hk' he.symm
    omega

end PhysicalMemoryRegion

namespace RamAllocator

/-- One region of the constructor's loop. -/
theorem links_addRegion {a : RamAllocator} {r : PhysicalMemoryRegion} {e : ℕ} {L : List ℕ}
    (hl : Links a.mem e a.header.head L) (hnd : (r.pages ++ L).Nodup) (he : e ∉ r.pages) :
    Links (a.addRegion r).mem e (a.addRegion r).header.head (r.pages ++ L) := by
  unfold PhysicalMemoryRegion.pages at hnd he ⊢
  unfold addRegion
  rcases hcnt : (r.stop - r.start) / pageSize with _ | n
  · simp only [hcnt]
    exact hl
  · rw [hcnt, PhysicalMemoryRegion.map_range_pages] at hnd he
    rw [PhysicalMemoryRegion.map_range_pages]
    simp only [hcnt]
    exact links_linkPages hl hnd he

variable {regions : List PhysicalMemoryRegion}

theorem links_foldl {a : RamAllocator} {e : ℕ} {L : List ℕ}
    (hl : Links a.mem e a.header.head L) (hnd : (ramPages regions ++ L).Nodup)
    (he : e ∉ ramPages regions) :
    ∃ L', Links (regions.foldl addRegion a).mem e (regions.foldl addRegion a).header.head L' ∧
      L'.Perm (ramPages regions ++ L) := by
  induction regions generalizing a L with
  | nil => exact ⟨L, hl, .refl _⟩
  | cons r regions ih =>
    have hpages : ramPages (r :: regions) = r.pages ++ ramPages regions := rfl
    rw [hpages, List.mem_append, not_or] at he
    have hperm : (ramPages (r :: regions) ++ L).Perm (ramPages regions ++ (r.pages ++ L)) := by
      rw [hpages, ← List.append_assoc]
      exact (List.perm_append_comm).append_right L
    have hnd' := hperm.nodup_iff.mp hnd
    obtain ⟨L', hl', hp⟩ := ih (links_addRegion hl (List.nodup_append.mp hnd').2.1 he.1) hnd' he.2
    exact ⟨L', hl', hp.trans hperm.symm⟩

/-- **The constructor links every page once.** -/
theorem links_constructed {e : ℕ} {mem : ℕ → ℕ}
    (hnd : (ramPages regions).Nodup) (he : e ∉ ramPages regions) :
    ∃ L, Links (constructed e mem regions).mem e (constructed e mem regions).header.head L ∧
      L.Perm (ramPages regions) := by
  have hl : Links (⟨⟨e, 0⟩, 0, 0, mem⟩ : RamAllocator).mem e e [] := rfl
  have hfold := links_foldl hl (by simpa using hnd) he
  rwa [List.append_nil] at hfold

end RamAllocator

namespace RamState

variable {ι : Type*} [DecidableEq ι] {s : RamState ι} {i : ι} {header : RegionListHeader}
variable {lo : ℕ} {op retry : RamOp}

theorem exchange_of_eq (h : s.ram.header = header) : s.exchange i header lo op retry =
    { s with
      ram := { s.ram with header := ⟨lo, (header.refCnt + 1) % 2 ^ 64⟩ }
      ops := update s.ops i op } := by
  simp [exchange, RamAllocator.compareExchange, h]

theorem exchange_of_ne (h : s.ram.header ≠ header) :
    s.exchange i header lo op retry = s.goto i retry := by
  simp [exchange, RamAllocator.compareExchange, h, goto]

end RamState

/-! ## The invariant -/

variable {ι : Type*} {e : ℕ} {pages L : List ℕ} {H : List (ι × ℕ)} {s : RamState ι}

/-- What a caller knows from what it read. -/
def RamOp.Seen (e : ℕ) (a : RamAllocator) : RamOp → Prop
  | .allocNext _ header => header.refCnt ≤ a.header.refCnt
  | .allocExchange _ header next => header.head ≠ e ∧ header.refCnt ≤ a.header.refCnt ∧
    (header = a.header → next = a.mem header.head)
  | .freeExchange addr header => a.mem addr = header.head
  | _ => True

/-- What a caller saw stays true when another exchanges the header: the
counter is past the one it read. -/
theorem RamOp.Seen.exchange {a : RamAllocator} {op : RamOp} {header : RegionListHeader}
    (h : op.Seen e a) (hlt : a.header.refCnt < header.refCnt) :
    op.Seen e { a with header := header } := by
  cases op with
  | allocNext z hd => exact Nat.le_trans h hlt.le
  | allocExchange z hd next =>
    refine ⟨h.1, Nat.le_trans h.2.1 hlt.le, ?_⟩
    rintro rfl
    exact absurd h.2.1 (Nat.not_le.mpr hlt)
  | _ => exact h

/-- The free list is `L`, and the routines in progress hold the pages of
`H`. -/
structure RamInv (e : ℕ) (pages : List ℕ) (s : RamState ι) (L : List ℕ) (H : List (ι × ℕ)) :
    Prop where
  links : Links s.ram.mem e s.ram.header.head L
  perm : (L ++ (s.owned.map Prod.snd ++ H.map Prod.snd)).Perm pages
  held : ∀ i p, (i, p) ∈ H ↔ (s.ops i).holds = some p
  seen : ∀ i, (s.ops i).Seen e s.ram

namespace RamInv

variable {i j : ι} {p : ℕ} {op : RamOp}

section

variable (h : RamInv e pages s L H) (hp : pages.Nodup)

include h hp

theorem nodup :
    (L ++ (s.owned.map Prod.snd ++ H.map Prod.snd)).Nodup :=
  h.perm.nodup_iff.mpr hp

theorem notMem_of_owned (ho : (i, p) ∈ s.owned) : p ∉ L := fun hm =>
  List.disjoint_of_nodup_append (h.nodup hp) hm
    (List.mem_append_left _ (List.mem_map_of_mem ho))

theorem notMem_of_held (hh : (i, p) ∈ H) : p ∉ L :=
  fun hm => List.disjoint_of_nodup_append (h.nodup hp) hm
    (List.mem_append_right _ (List.mem_map_of_mem hh))

/-- A page is held by one routine. -/
theorem eq_of_held (hi : (i, p) ∈ H) (hj : (j, p) ∈ H) : i = j := by
  have hnd := (List.nodup_append.mp (List.nodup_append.mp (h.nodup hp)).2.1).2.1
  exact congrArg Prod.fst (List.inj_on_of_nodup_map hnd hi hj rfl)

theorem not_held_of_owned (ho : (i, p) ∈ s.owned) : (j, p) ∉ H := by
  intro hj
  have h₁ : p ∈ s.owned.map Prod.snd := List.mem_map.mpr ⟨_, ho, rfl⟩
  have h₂ : p ∈ H.map Prod.snd := List.mem_map.mpr ⟨_, hj, rfl⟩
  exact List.disjoint_of_nodup_append (List.nodup_append.mp (h.nodup hp)).2.1 h₁ h₂

theorem held_nodup : H.Nodup :=
  (List.nodup_append.mp (List.nodup_append.mp (h.nodup hp)).2.1).2.1.of_map

end

variable {regions : List PhysicalMemoryRegion}

theorem init {mem : ℕ → ℕ} (hnd : (ramPages regions).Nodup)
    (he : e ∉ ramPages regions) : ∃ L, RamInv e (ramPages regions)
      (⟨.constructed e mem regions, fun _ => .idle, []⟩ : RamState ι) L [] := by
  obtain ⟨L, hl, hperm⟩ : ∃ L, Links (RamAllocator.constructed e mem regions).mem e _ L ∧ _ :=
    RamAllocator.links_constructed hnd he
  exact ⟨L, hl, by simpa using hperm, by simp [holds], fun _ => trivial⟩

/-- With no routine in progress no page is held. -/
theorem held_nil (h : RamInv e pages s L H) (hq : s.Quiet) : H = [] := by
  refine List.eq_nil_iff_forall_not_mem.mpr fun x hx => ?_
  have hheld := (h.held x.1 x.2).mp hx
  rcases hq x.1 with hi | hi <;> rw [hi] at hheld <;> cases hheld

/-! ### Steps that move no page -/

/-- A step that reads: the routine goes on, holding what it held. -/
theorem goto [DecidableEq ι] (h : RamInv e pages s L H) (hop : op.holds = (s.ops i).holds)
    (hseen : op.Seen e s.ram) : RamInv e pages (s.goto i op) L H where
  links := h.links
  perm := h.perm
  held j p := by
    rw [h.held]
    by_cases hj : j = i
    · subst hj
      simp [RamState.goto, hop]
    · simp [RamState.goto, hj]
  seen j := by
    by_cases hj : j = i
    · subst hj
      simpa [RamState.goto] using hseen
    · simpa [RamState.goto, hj] using h.seen j

/-- The head of a list that is not empty is on it. -/
theorem head_mem (h : RamInv e pages s L H) (hne : s.ram.header.head ≠ e) :
    s.ram.header.head ∈ L := by
  rcases L with _ | ⟨x, L⟩
  · exact absurd h.links hne
  · rw [h.links.1]
    exact List.mem_cons_self ..

/-- A page off the list is written to, by its owner or by the routine
that holds it. -/
theorem store (h : RamInv e pages s L H) (hL : p ∉ L) {value : ℕ} (hops : ∀ j, j ≠ i → (j, p) ∉ H)
    (hi : ∀ header, s.ops i ≠ .freeExchange p header) : RamInv e pages (s.store p value) L H where
  links := h.links.congr fun y hy => update_of_ne (ne_of_mem_of_not_mem hy hL) _ _
  perm := h.perm
  held := h.held
  seen j := by
    have hseen := h.seen j
    have hheld := h.held j p
    rcases hop : s.ops j with _ | _ | _ | _ | ⟨z, header, next⟩ | _ | _ | _ | _ | _ | _ |
      ⟨addr, header⟩ <;> simp only [RamState.store, hop] at hseen ⊢ <;> try exact hseen
    · refine ⟨hseen.1, hseen.2.1, fun heq => ?_⟩
      have hm := h.head_mem (heq ▸ hseen.1)
      rw [← heq] at hm
      exact (hseen.2.2 heq).trans (update_of_ne (ne_of_mem_of_not_mem hm hL) _ _).symm
    · have hne : addr ≠ p := by
        rintro rfl
        by_cases hj : j = i
        · exact hi header (hj ▸ hop)
        · exact hops j hj (hheld.mpr (by rw [hop]; rfl))
      exact (update_of_ne hne _ _).trans hseen

/-! ### Steps that move a page -/

variable [DecidableEq ι]

section

variable (h : RamInv e pages s L H)

include h

/-- A routine that held nothing takes the page. -/
theorem held_take (hi : (s.ops i).holds = none) (hop : op.holds = some p) (j : ι) (q : ℕ) :
    (j, q) ∈ (i, p) :: H ↔ (update s.ops i op j).holds = some q := by
  rw [List.mem_cons, h.held]
  by_cases hj : j = i
  · subst hj
    simp [hop, hi, eq_comm]
  · simp [hj]

/-- A routine lets go of the page it held. -/
theorem held_drop (hp : pages.Nodup) (hi : (s.ops i).holds = some p) (hop : op.holds = none) (j : ι)
    (q : ℕ) : (j, q) ∈ H.erase (i, p) ↔ (update s.ops i op j).holds = some q := by
  rw [(h.held_nodup hp).mem_erase_iff, h.held]
  by_cases hj : j = i
  · subst hj
    simp [hop, hi, eq_comm]
  · simp [hj]

theorem perm_held_erase (hi : (s.ops i).holds = some p) :
    (H.map Prod.snd).Perm (p :: (H.erase (i, p)).map Prod.snd) :=
  (List.perm_cons_erase ((h.held i p).mpr hi)).map Prod.snd

/-- **A page is taken off the list.** The exchange succeeds on the header
the link was read under, so the link is that of the head page. -/
theorem take {z : Bool} {header : RegionListHeader} {next cnt : ℕ}
    (hi : s.ops i = .allocExchange z header next) (heq : s.ram.header = header)
    (hcnt : header.refCnt < cnt) (hop : op.holds = some header.head) (hseen : ∀ a, op.Seen e a) :
    ∃ L' H', RamInv e pages { s with
      ram := { s.ram with header := ⟨next, cnt⟩ }
      ops := update s.ops i op } L' H' := by
  have hs := h.seen i
  rw [hi] at hs
  have hnext : next = s.ram.mem header.head := hs.2.2 heq.symm
  have hlinks := h.links
  rw [heq] at hlinks
  rcases L with _ | ⟨x, L⟩
  · exact absurd hlinks hs.1
  · obtain ⟨rfl, -, hrest⟩ := hlinks
    refine ⟨L, (i, header.head) :: H, ?_, ?_, h.held_take (by rw [hi]; rfl) hop, fun j => ?_⟩
    · rw [hnext]
      exact hrest
    · refine List.Perm.trans ?_ h.perm
      simp only [List.map_cons, List.cons_append]
      exact (List.perm_middle.append_left L).trans (List.perm_middle)
    · by_cases hj : j = i
      · subst hj
        simpa using hseen _
      · simp only [update_of_ne hj]
        exact (h.seen j).exchange (heq ▸ hcnt)

/-- **A page is put on the list.** Its link is the head the exchange
replaces. -/
theorem put {addr cnt : ℕ} {header : RegionListHeader} (hp : pages.Nodup) (he : e ∉ pages)
    (hi : s.ops i = .freeExchange addr header) (heq : s.ram.header = header)
    (hcnt : header.refCnt < cnt) : ∃ L' H', RamInv e pages { s with
      ram := { s.ram with header := ⟨addr, cnt⟩ }
      ops := update s.ops i .idle } L' H' := by
  have hs := h.seen i
  have hheld : (s.ops i).holds = some addr := by rw [hi]; rfl
  have hmem : addr ∈ pages := h.perm.mem_iff.mp (List.mem_append_right _
    (List.mem_append_right _ (List.mem_map.mpr ⟨_, (h.held i addr).mpr hheld, rfl⟩)))
  rw [hi] at hs
  refine ⟨addr :: L, H.erase (i, addr), ⟨rfl, fun h => he (h ▸ hmem), ?_⟩, ?_,
    h.held_drop hp hheld rfl, fun j => ?_⟩
  · have hlinks := h.links
    rw [heq, ← hs] at hlinks
    exact hlinks
  · refine List.Perm.trans ?_ h.perm
    refine List.Perm.trans ?_ (((h.perm_held_erase hheld).symm.append_left _).append_left L)
    exact List.perm_middle.symm.trans (List.perm_middle.symm.append_left L)
  · by_cases hj : j = i
    · subst hj
      simp [Seen]
    · simp only [update_of_ne hj]
      exact (h.seen j).exchange (heq ▸ hcnt)

/-- The page goes to the caller. -/
theorem deliver {ret : ℕ} (hp : pages.Nodup) (hi : s.ops i = .allocReturn ret) :
    RamInv e pages { s.goto i .idle with owned := (i, ret) :: s.owned } L (H.erase (i, ret)) := by
  have hheld : (s.ops i).holds = some ret := by rw [hi]; rfl
  refine ⟨h.links, ?_, h.held_drop hp hheld rfl, fun j => ?_⟩
  · refine List.Perm.trans ?_ h.perm
    refine List.Perm.append_left L
      (List.Perm.trans ?_ ((h.perm_held_erase hheld).symm.append_left _))
    exact List.perm_middle.symm
  · by_cases hj : j = i
    · subst hj
      simp [RamState.goto, Seen]
    · simpa [RamState.goto, hj] using h.seen j

/-- The caller gives its page to `freePagePtr`. -/
theorem surrender {addr : ℕ} (hi : s.ops i = .idle) (ho : (i, addr) ∈ s.owned) :
    RamInv e pages { s.goto i (.freeHead addr) with owned := s.owned.erase (i, addr) } L
      ((i, addr) :: H) := by
  refine ⟨h.links, ?_, h.held_take (by rw [hi]; rfl) rfl, fun j => ?_⟩
  · refine List.Perm.trans (List.Perm.append_left L ?_) h.perm
    refine List.perm_middle.trans ?_
    exact ((List.perm_cons_erase ho).map Prod.snd).symm.append_right _
  · by_cases hj : j = i
    · subst hj
      simp [RamState.goto, Seen]
    · simpa [RamState.goto, hj] using h.seen j

theorem give {addr : ℕ} (ho : (i, addr) ∈ s.owned) :
    RamInv e pages { s with owned := (j, addr) :: s.owned.erase (i, addr) } L H := by
  refine ⟨h.links, ?_, h.held, h.seen⟩
  refine List.Perm.trans (List.Perm.append_left L (List.Perm.append_right _ ?_)) h.perm
  exact ((List.perm_cons_erase ho).map Prod.snd).symm

end

/-- A counter that does not wrap around has grown. -/
theorem refCnt_lt {c : ℕ} (h : c ≤ (c + 1) % 2 ^ 64) : c < (c + 1) % 2 ^ 64 := by
  omega

/-- **One access keeps the invariant.** -/
theorem exec (h : RamInv e pages s L H) (hp : pages.Nodup) (he : e ∉ pages)
    (hcnt : s.ram.header.refCnt ≤ (s.exec e i).ram.header.refCnt) :
    ∃ L' H', RamInv e pages (s.exec e i) L' H' := by
  have hs := h.seen i
  unfold RamState.exec at hcnt ⊢
  rcases hi : s.ops i with _ | z | ⟨z, head⟩ | ⟨z, header⟩ | ⟨z, header, next⟩ | ret | ret | _ |
    addr | ⟨addr, head⟩ | ⟨addr, header⟩ | ⟨addr, header⟩ <;> simp only [hi] at hs hcnt ⊢
  · exact ⟨L, H, h⟩
  · exact ⟨L, H, h.goto (by rw [hi]; rfl) trivial⟩
  · exact ⟨L, H, h.goto (by rw [hi]; rfl) (le_refl s.ram.header.refCnt)⟩
  · by_cases hend : header.head = e
    · rw [if_pos hend]
      exact ⟨L, H, h.goto (by rw [hi]; rfl) trivial⟩
    · rw [if_neg hend]
      exact ⟨L, H, h.goto (by rw [hi]; rfl) ⟨hend, hs, fun _ => rfl⟩⟩
  · by_cases heq : s.ram.header = header
    · rw [RamState.exchange_of_eq heq] at hcnt ⊢
      rw [heq] at hcnt
      refine h.take hi heq (refCnt_lt hcnt) ?_ fun a => ?_ <;> cases z <;> simp [holds, Seen]
    · rw [RamState.exchange_of_ne heq]
      exact ⟨L, H, h.goto (by rw [hi]; rfl) trivial⟩
  · have hm : (i, ret) ∈ H := (h.held i ret).mpr (by rw [hi]; rfl)
    have hst : RamInv e pages (s.store ret 0) L H :=
      h.store (h.notMem_of_held hp hm) (fun j hj hjm => hj (h.eq_of_held hp hjm hm)) (i := i)
        (by simp [hi])
    exact ⟨L, H, hst.goto (by simp only [RamState.store, hi]; rfl) trivial⟩
  · exact ⟨L, _, h.deliver hp hi⟩
  · exact ⟨L, H, h⟩
  · exact ⟨L, H, h.goto (by rw [hi]; rfl) trivial⟩
  · exact ⟨L, H, h.goto (by rw [hi]; rfl) trivial⟩
  · have hm : (i, addr) ∈ H := (h.held i addr).mpr (by rw [hi]; rfl)
    have hst : RamInv e pages (s.store addr header.head) L H :=
      h.store (h.notMem_of_held hp hm) (fun j hj hjm => hj (h.eq_of_held hp hjm hm)) (i := i)
        (by simp [hi])
    exact ⟨L, H, hst.goto (by simp only [RamState.store, hi]; rfl) (update_self ..)⟩
  · by_cases heq : s.ram.header = header
    · rw [RamState.exchange_of_eq heq] at hcnt ⊢
      rw [heq] at hcnt
      exact h.put hp he hi heq (refCnt_lt hcnt)
    · rw [RamState.exchange_of_ne heq]
      exact ⟨L, H, h.goto (by rw [hi]; rfl) trivial⟩

/-- **Every step keeps the invariant.** -/
theorem apply {a : RamStep ι} (h : RamInv e pages s L H) (hp : pages.Nodup) (he : e ∉ pages)
    (ha : s.Allowed a) (hcnt : s.ram.header.refCnt ≤ (s.apply e a).ram.header.refCnt) :
    ∃ L' H', RamInv e pages (s.apply e a) L' H' := by
  cases a with
  | alloc i z =>
    have hi : s.ops i = .idle := ha
    exact ⟨L, H, h.goto (by rw [hi]; rfl) trivial⟩
  | free i addr => exact ⟨L, _, h.surrender ha.1 ha.2⟩
  | run i => exact h.exec hp he hcnt
  | write i addr value =>
    -- the owner may be inside a routine, which then works on another page
    refine ⟨L, H, h.store (i := i) (h.notMem_of_owned hp ha)
      (fun j _ => h.not_held_of_owned hp ha) fun header hop => ?_⟩
    exact h.not_held_of_owned hp ha ((h.held i addr).mpr (by rw [hop]; rfl))
  | give i j addr => exact ⟨L, H, h.give ha⟩

theorem reachable (hnd : (ramPages regions).Nodup)
    (he : e ∉ ramPages regions) (h : (ramMachine ι e regions).Reachable s) :
    ∃ L H, RamInv e (ramPages regions) s L H := by
  refine h.invariant (I := fun s => ∃ L H, RamInv e (ramPages regions) s L H) ?_ ?_
  · rintro s ⟨mem, rfl⟩
    obtain ⟨L, hinv⟩ := init (ι := ι) hnd he
    exact ⟨L, [], hinv⟩
  · rintro s a t ⟨L, H, hinv⟩ ⟨ha, rfl, hcnt⟩
    exact hinv.apply hnd he ha hcnt

end RamInv

/-- **Pages are neither lost nor handed out twice**, in any interleaving
of the callers' accesses: the free list has no cycle and no page that
somebody owns, no page has two owners, and between the routines the list
and the owners have all the pages the constructor was given. -/
theorem ram_pages_conserved [DecidableEq ι] {regions : List PhysicalMemoryRegion}
    (hr : PhysicalMemoryRegion.Disjoint regions) (he : e ∉ ramPages regions)
    (h : (ramMachine ι e regions).Reachable s) :
    ∃ L, Links s.ram.mem e s.ram.header.head L ∧ L.Nodup ∧
      (∀ c p, (c, p) ∈ s.owned → p ∉ L) ∧
      (s.owned.map Prod.snd).Nodup ∧
      (∀ c c' p, (c, p) ∈ s.owned → (c', p) ∈ s.owned → c = c') ∧
      (s.Quiet → (L ++ s.owned.map Prod.snd).Perm (ramPages regions)) := by
  obtain ⟨L, H, hinv⟩ := RamInv.reachable hr.nodup he h
  have hnd := hinv.nodup hr.nodup
  have howned := (List.nodup_append.mp (List.nodup_append.mp hnd).2.1).1
  refine ⟨L, hinv.links, (List.nodup_append.mp hnd).1,
    fun c p ho => hinv.notMem_of_owned hr.nodup ho, howned, fun c c' p ho ho' => ?_, fun hq => ?_⟩
  · exact congrArg Prod.fst (List.inj_on_of_nodup_map howned ho ho' rfl)
  · have hperm := hinv.perm
    rw [hinv.held_nil hq] at hperm
    simpa using hperm

/-- The state two pages of memory start in. -/
def twoPages : RamState ℕ := ⟨.constructed 8 (fun _ => 0) [⟨0x1000, 0x3000⟩], fun _ => .idle, []⟩

/-- One caller has read the head when another takes the page. -/
theorem ram_pages_conserved_twoPages : ∃ s : RamState ℕ,
    (ramMachine ℕ 8 [⟨0x1000, 0x3000⟩]).Reachable s ∧ s.owned = [(1, physToVirtualInt 0x1000)] ∧
    ∃ L, Links s.ram.mem 8 s.ram.header.head L ∧ L.Nodup ∧ ∀ c p, (c, p) ∈ s.owned → p ∉ L := by
  have hstep : ∀ {s : RamState ℕ} {a : RamStep ℕ},
      (ramMachine ℕ 8 [⟨0x1000, 0x3000⟩]).Reachable s → s.Allowed a →
      s.ram.header.refCnt ≤ (s.apply 8 a).ram.header.refCnt →
      (ramMachine ℕ 8 [⟨0x1000, 0x3000⟩]).Reachable (s.apply 8 a) :=
    fun h ha hcnt => h.step ⟨ha, rfl, hcnt⟩
  have h₀ : (ramMachine ℕ 8 [⟨0x1000, 0x3000⟩]).Reachable twoPages := .init ⟨_, rfl⟩
  have h₁ := hstep (hstep (a := .alloc 0 false) h₀ (by rfl) (by decide +kernel)) (a := .run 0)
    trivial (by decide +kernel)
  have h₂ := hstep (a := .alloc 1 false) h₁ (by rfl) (by decide +kernel)
  have h₃ := hstep (hstep h₂ (a := .run 1) trivial (by decide +kernel)) (a := .run 1)
    trivial (by decide +kernel)
  have h₄ := hstep (hstep h₃ (a := .run 1) trivial (by decide +kernel)) (a := .run 1)
    trivial (by decide +kernel)
  have h₅ := hstep h₄ (a := .run 1) trivial (by decide +kernel)
  obtain ⟨L, hl, hnd, hown, -⟩ := ram_pages_conserved ⟨by decide, by simp⟩ (by decide +kernel) h₅
  exact ⟨_, h₅, by decide +kernel, L, hl, hnd, hown⟩

end ShmDos64
