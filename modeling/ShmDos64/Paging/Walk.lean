import ShmDos64.Paging.Model
/-!
# The range walk is the single-page walk, page by page

The single-page walk descends into the same child for all the pages that
are below it, so that a stretch of pages below one child is a stretch of
the child's own walk (`foldlM_inChild`); `processPagesLevel` is the split
of its range into such stretches.
-/

namespace ShmDos64

open Function (update update_of_ne update_self)
open PageDir

namespace Paging

variable {σ α : Type*} {alloc : Alloc σ} {dirFlags : UInt64} {callback : Callback σ} {n : ℕ}

/-! ## Inside a child -/

variable {dir : PageDir (n + 1)} {st : σ} {index : ℕ}

/-- An entry that leads to a table is used as it is. -/
theorem accessToChildDir_some {e : UInt64 × PageDir n}
    (hi : index < dirEntries) (he : dir index = some e) :
    accessToChildDir alloc dirFlags dir index st = some (e, st) := by
  rw [accessToChildDir, if_neg (Nat.not_le.mpr hi), he]

variable {r : (UInt64 × PageDir n) × σ}

theorem index_lt_of_access (h : accessToChildDir alloc dirFlags dir index st = some r) :
    index < dirEntries := by
  by_contra hi
  rw [accessToChildDir, if_pos (Nat.not_lt.mp hi)] at h
  cases h

variable {w : Walk σ (n + 1)}

/-- Two descents into the same child are one. -/
theorem inChild_bind {f g : Walk σ n → Option (Walk σ n)} :
    ((inChild alloc dirFlags f index w).bind fun w => inChild alloc dirFlags g index w) =
      inChild alloc dirFlags (fun c => (f c).bind g) index w := by
  simp only [inChild]
  cases hacc : accessToChildDir alloc dirFlags w.1 index w.2.1 with
  | none => rfl
  | some r =>
    simp only [Option.bind_some]
    cases hf : f (r.1.2, r.2, w.2.2) with
    | none => rfl
    | some c =>
      have hagain : accessToChildDir alloc dirFlags (update w.1 index (some (r.1.1, c.1))) index
          c.2.1 = some ((r.1.1, c.1), c.2.1) :=
        accessToChildDir_some (index_lt_of_access hacc) (update_self ..)
      simp only [Option.map_some, Option.bind_some, hagain]
      exact congrArg (fun h => Option.map h (g c))
        (funext fun c' => Prod.ext (Function.update_idem ..) rfl)

/-- **A stretch of descents into one child** is one descent. -/
theorem foldlM_inChild {f : α → Walk σ n → Option (Walk σ n)} {a : α} {l : List α} :
    (a :: l).foldlM (fun w x => inChild alloc dirFlags (f x) index w) w =
      inChild alloc dirFlags (fun c => (a :: l).foldlM (fun c x => f x c) c) index w := by
  induction l generalizing a w with
  | nil => simp
  | cons b l ih =>
    rw [List.foldlM_cons]
    simp only [ih]
    exact inChild_bind

/-! ## The single-page walk -/

/-- The index of a page in a table with `n` levels below it. -/
theorem index_eq (n page : ℕ) : page <<< pageShift >>> (pageShift + n * 9) &&& 0x1FF =
      page / dirEntries ^ n % dirEntries := by
  have hmask : (0x1FF : ℕ) = 2 ^ 9 - 1 := by decide
  have hpow : (2 : ℕ) ^ (pageShift + n * 9) = 2 ^ pageShift * dirEntries ^ n := by
    rw [Nat.pow_add, Nat.mul_comm n 9, Nat.pow_mul]
  rw [hmask, Nat.and_two_pow_sub_one_eq_mod, Nat.shiftRight_eq_div_pow, Nat.shiftLeft_eq, hpow,
    ← Nat.div_div_eq_div_mul, Nat.mul_div_cancel _ (Nat.two_pow_pos _)]

/-- The walk of the page with the number `page`. -/
abbrev walkTo (alloc : Alloc σ) (dirFlags : UInt64) (callback : Callback σ) (n page : ℕ) :
    Walk σ n → Option (Walk σ n) :=
  walkPage alloc dirFlags callback (page <<< pageShift) n

variable {page : ℕ}

theorem walkTo_zero {w : Walk σ 0} :
    walkTo alloc dirFlags callback 0 page w = visit callback w (page % dirEntries) := by
  have hindex := index_eq 0 page
  rw [Nat.zero_mul, Nat.add_zero, Nat.pow_zero, Nat.div_one] at hindex
  rw [walkTo, walkPage, hindex]

theorem walkTo_succ :
    walkTo alloc dirFlags callback (n + 1) page w =
      inChild alloc dirFlags (walkTo alloc dirFlags callback n page)
        (page / dirEntries ^ (n + 1) % dirEntries) w := by
  rw [walkTo, walkPage, index_eq]

/-- A walk reads only the part of the page number below its table. -/
theorem walkTo_add_mul {page q : ℕ} :
    walkTo alloc dirFlags callback n (q * dirEntries ^ (n + 1) + page) =
      walkTo alloc dirFlags callback n page := by
  induction n generalizing q with
  | zero =>
    funext w
    rw [walkTo_zero, walkTo_zero, Nat.pow_one, Nat.mul_add_mod_self_right]
  | succ n ih =>
    funext w
    have hchild : q * dirEntries ^ (n + 1 + 1) = q * dirEntries * dirEntries ^ (n + 1) := by
      rw [Nat.pow_succ dirEntries (n + 1), Nat.mul_comm (dirEntries ^ (n + 1)), Nat.mul_assoc]
    rw [walkTo_succ, walkTo_succ, hchild, ih, Nat.mul_comm (q * dirEntries),
      Nat.mul_add_div (Nat.pow_pos (by decide)), Nat.mul_add_mod_self_right]

/-- The walks of consecutive pages. -/
abbrev walkRange (alloc : Alloc σ) (dirFlags : UInt64) (callback : Callback σ)
    (n start count : ℕ) (w : Walk σ n) : Option (Walk σ n) :=
  (List.range' start count).foldlM (fun w page => walkTo alloc dirFlags callback n page w) w

theorem walkRange_add {start c₁ c₂ : ℕ} {w : Walk σ n} :
    walkRange alloc dirFlags callback n start (c₁ + c₂) w =
      (walkRange alloc dirFlags callback n start c₁ w).bind
        (walkRange alloc dirFlags callback n (start + c₁) c₂) := by
  have hsplit : List.range' start (c₁ + c₂) =
      List.range' start c₁ ++ List.range' (start + c₁) c₂ := by
    rw [List.range'_append_1]
  rw [walkRange, hsplit, List.foldlM_append]
  rfl

/-- Only the part of the page numbers below the table matters. -/
theorem walkRange_add_mul {start count q : ℕ} :
    walkRange alloc dirFlags callback n (q * dirEntries ^ (n + 1) + start) count =
      walkRange alloc dirFlags callback n start count := by
  funext w
  rw [walkRange, ← List.map_add_range', List.foldlM_map]
  simp only [walkTo_add_mul]

/-- **Pages below one child** are walked inside it. -/
theorem walkRange_child {start count i : ℕ} (hi : i < dirEntries)
    (hpos : 0 < count) (hend : start + count ≤ dirEntries ^ (n + 1)) :
    walkRange alloc dirFlags callback (n + 1) (i * dirEntries ^ (n + 1) + start) count w =
      inChild alloc dirFlags (walkRange alloc dirFlags callback n start count) i w := by
  -- each of the pages has the index `i`
  have hindex : ∀ page ∈ List.range' (i * dirEntries ^ (n + 1) + start) count,
      page / dirEntries ^ (n + 1) % dirEntries = i := by
    intro page hp
    obtain ⟨hlo, hhi⟩ := List.mem_range'_1.mp hp
    have hdiv : page / dirEntries ^ (n + 1) = i :=
      Nat.div_eq_of_lt_le (by omega) (by rw [Nat.succ_mul]; omega)
    rw [hdiv, Nat.mod_eq_of_lt hi]
  have hfold : ∀ (l : List ℕ) (w : Walk σ (n + 1)),
      (∀ page ∈ l, page / dirEntries ^ (n + 1) % dirEntries = i) →
      l.foldlM (fun w page => walkTo alloc dirFlags callback (n + 1) page w) w =
        l.foldlM (fun w page =>
          inChild alloc dirFlags (walkTo alloc dirFlags callback n page) i w) w := by
    intro l
    induction l with
    | nil => exact fun _ _ => rfl
    | cons p l ih =>
      intro w hl
      rw [List.foldlM_cons, List.foldlM_cons, walkTo_succ, hl p (by simp)]
      exact congrArg _ (funext fun w' => ih w' fun page hp => hl page (by simp [hp]))
  obtain ⟨c, rfl⟩ : ∃ c, count = c + 1 := ⟨count - 1, by omega⟩
  rw [walkRange, hfold _ _ hindex, List.range'_succ, foldlM_inChild, ← List.range'_succ,
    ← walkRange_add_mul (q := i)]

/-- A stretch of whole children. -/
theorem walkRange_children {first count : ℕ}
    (hend : first + count ≤ dirEntries) :
    walkRange alloc dirFlags callback (n + 1) (first * dirEntries ^ (n + 1))
        (count * dirEntries ^ (n + 1)) w =
      (List.range' first count).foldlM (fun w index =>
        inChild alloc dirFlags (walkRange alloc dirFlags callback n 0 (dirEntries ^ (n + 1)))
          index w) w := by
  induction count generalizing first w with
  | zero => simp [walkRange]
  | succ count ih =>
    have hfirst : walkRange alloc dirFlags callback (n + 1) (first * dirEntries ^ (n + 1) + 0)
        (dirEntries ^ (n + 1)) w =
        inChild alloc dirFlags (walkRange alloc dirFlags callback n 0 (dirEntries ^ (n + 1)))
          first w :=
      walkRange_child (by omega) (Nat.pow_pos (by decide)) (Nat.zero_add _).le
    rw [Nat.succ_mul, Nat.add_comm (count * _), walkRange_add, ← Nat.succ_mul,
      List.range'_succ, List.foldlM_cons]
    refine (congrArg (fun o => Option.bind o _) hfirst).trans ?_
    exact congrArg _ (funext fun w' => ih (by omega))

/-! ## The range walk -/

theorem shiftRight_eq (n a : ℕ) : a >>> ((n + 1) * 9) = a / dirEntries ^ (n + 1) := by
  rw [Nat.shiftRight_eq_div_pow, Nat.mul_comm, Nat.pow_mul]

theorem shiftLeft_eq (n a : ℕ) : a <<< ((n + 1) * 9) = a * dirEntries ^ (n + 1) := by
  rw [Nat.shiftLeft_eq, Nat.mul_comm (n + 1), Nat.pow_mul]

theorem and_mask_eq (n a : ℕ) : a &&& dirEntries ^ (n + 1) - 1 = a % dirEntries ^ (n + 1) := by
  have hpow : dirEntries ^ (n + 1) = 2 ^ (9 * (n + 1)) := by rw [Nat.pow_mul]
  rw [hpow, Nat.and_two_pow_sub_one_eq_mod]

/-- One level of the range walk, in terms of quotients and remainders. -/
theorem processPagesLevel_succ {s e : ℕ} :
    processPagesLevel alloc dirFlags callback (n + 1) s e w =
      if e < (s / dirEntries ^ (n + 1) + 1) * dirEntries ^ (n + 1) then
        inChild alloc dirFlags (processPagesLevel alloc dirFlags callback n
          (s % dirEntries ^ (n + 1)) (e % dirEntries ^ (n + 1))) (s / dirEntries ^ (n + 1)) w
      else
        (inChild alloc dirFlags (processPagesLevel alloc dirFlags callback n
          (s % dirEntries ^ (n + 1)) (dirEntries ^ (n + 1) - 1)) (s / dirEntries ^ (n + 1)) w).bind
          fun w => ((List.range' (s / dirEntries ^ (n + 1) + 1)
            ((e + 1) / dirEntries ^ (n + 1) - (s / dirEntries ^ (n + 1) + 1))).foldlM
            (fun w index => inChild alloc dirFlags (processPagesLevel alloc dirFlags callback n
              0 (dirEntries ^ (n + 1) - 1)) index w) w).bind
            fun w => if (e + 1) % dirEntries ^ (n + 1) ≠ 0 then
              inChild alloc dirFlags (processPagesLevel alloc dirFlags callback n
                0 (e % dirEntries ^ (n + 1))) ((e + 1) / dirEntries ^ (n + 1)) w
              else some w := by
  have hpos : 0 < dirEntries ^ (n + 1) := Nat.pow_pos (by decide)
  rw [processPagesLevel]
  simp only [shiftRight_eq, shiftLeft_eq, Nat.one_mul, and_mask_eq, Nat.add_div_right _ hpos,
    Nat.mul_div_cancel _ hpos]

/-- The last level: the entries of the pages are visited in order. -/
theorem foldlM_visit {l : List ℕ} {w : Walk σ 0} (hl : ∀ p ∈ l, p < dirEntries) :
    l.foldlM (visit callback) w =
      l.foldlM (fun w page => walkTo alloc dirFlags callback 0 page w) w := by
  induction l generalizing w with
  | nil => rfl
  | cons p l ih =>
    rw [List.foldlM_cons, List.foldlM_cons, walkTo_zero, Nat.mod_eq_of_lt (hl p (by simp))]
    exact congrArg _ (funext fun w' => ih fun q hq => hl q (by simp [hq]))

/-- **The range walk of a level** is the walks of its pages, in order. -/
theorem processPagesLevel_eq {s e : ℕ} (hse : s ≤ e) (he : e < dirEntries ^ (n + 1)) :
    processPagesLevel alloc dirFlags callback n s e =
      walkRange alloc dirFlags callback n s (e + 1 - s) := by
  induction n generalizing s e with
  | zero =>
    funext w
    rw [processPagesLevel]
    refine foldlM_visit fun p hp => ?_
    have := List.mem_range'_1.mp hp
    rw [Nat.pow_one] at he
    omega
  | succ n ih =>
    funext w
    rw [processPagesLevel_succ]
    rw [Nat.pow_succ dirEntries (n + 1)] at he
    have hmpos : 0 < dirEntries ^ (n + 1) := Nat.pow_pos (by decide)
    have hchild : ∀ i a b, i < dirEntries → a ≤ b → b < dirEntries ^ (n + 1) →
        inChild alloc dirFlags (processPagesLevel alloc dirFlags callback n a b) i =
          walkRange alloc dirFlags callback (n + 1) (i * dirEntries ^ (n + 1) + a) (b + 1 - a) := by
      intro i a b hi hab hb
      funext w
      rw [ih hab hb, walkRange_child hi (by omega) (by omega)]
    have hblocks : ∀ first count w, first + count ≤ dirEntries →
        (List.range' first count).foldlM (fun w index => inChild alloc dirFlags
          (processPagesLevel alloc dirFlags callback n 0 (dirEntries ^ (n + 1) - 1)) index w) w =
        walkRange alloc dirFlags callback (n + 1) (first * dirEntries ^ (n + 1))
          (count * dirEntries ^ (n + 1)) w := by
      intro first count w hend
      rw [walkRange_children hend, ih (Nat.zero_le _) (by omega), Nat.sub_add_cancel hmpos,
        Nat.sub_zero]
    generalize dirEntries ^ (n + 1) = m at *
    have hstart : s / m * m + s % m = s := by rw [Nat.mul_comm, Nat.div_add_mod]
    have hend : (e + 1) / m * m + (e + 1) % m = e + 1 := by rw [Nat.mul_comm, Nat.div_add_mod]
    have hsm := Nat.mod_lt s hmpos
    have hem := Nat.mod_lt (e + 1) hmpos
    have hsi : s / m < dirEntries := Nat.div_lt_of_lt_mul (by omega)
    have hsucc : (s / m + 1) * m = s / m * m + m := Nat.succ_mul ..
    by_cases hlt : e < (s / m + 1) * m
    · -- all the pages are below one child
      have hdiv : e / m = s / m := Nat.div_eq_of_lt_le (by omega) (by omega)
      have hemod := Nat.div_add_mod e m
      have hem := Nat.mod_lt e hmpos
      rw [hdiv, Nat.mul_comm] at hemod
      have hcount : e % m + 1 - s % m = e + 1 - s := by omega
      rw [if_pos hlt, hchild _ _ _ hsi (by omega) hem, hcount, hstart]
    · -- the rest of a child, whole children, and the start of one
      have hle : s / m + 1 ≤ (e + 1) / m := (Nat.le_div_iff_mul_le hmpos).mpr (by omega)
      have hei : (e + 1) / m ≤ dirEntries := Nat.div_le_of_le_mul (by omega)
      have hmid : ((e + 1) / m - (s / m + 1)) * m = (e + 1) / m * m - (s / m + 1) * m :=
        Nat.sub_mul ..
      have hmul : (s / m + 1) * m ≤ (e + 1) / m * m := Nat.mul_le_mul_right m hle
      have hsplit : e + 1 - s =
          (m - s % m) + (((e + 1) / m - (s / m + 1)) * m + (e + 1) % m) := by omega
      have hnext : s + (m - s % m) = (s / m + 1) * m := by omega
      have hlast : (s / m + 1) * m + ((e + 1) / m - (s / m + 1)) * m = (e + 1) / m * m := by omega
      rw [if_neg hlt, hchild _ _ _ hsi (by omega) (by omega), hstart, Nat.sub_add_cancel hmpos,
        hsplit, walkRange_add, hnext]
      refine congrArg _ (funext fun w' => ?_)
      rw [hblocks _ _ _ (by omega), walkRange_add, hlast]
      refine congrArg _ (funext fun w' => ?_)
      by_cases h0 : (e + 1) % m = 0
      · rw [if_neg (not_not.mpr h0), h0]
        rfl
      · have hmod : e % m = (e + 1) % m - 1 := by
          have heq : e = (e + 1) / m * m + ((e + 1) % m - 1) := by omega
          conv_lhs => rw [heq, Nat.mul_add_mod_self_right]
          exact Nat.mod_eq_of_lt (by omega)
        have hei' : (e + 1) / m < dirEntries := Nat.div_lt_of_lt_mul (by
          refine lt_of_le_of_ne (by omega) fun heq => h0 ?_
          rw [heq, Nat.mul_mod_right])
        have hcount : (e + 1) % m - 1 + 1 - 0 = (e + 1) % m := by omega
        rw [if_pos h0, hchild _ _ _ hei' (Nat.zero_le _) (by omega), hmod, hcount,
          Nat.add_zero ((e + 1) / m * m)]

/-! ## The entries of the pages -/

theorem entry_zero (n page : ℕ) : (PageDir.zero n).entry n page = 0 := by
  cases n <;> rfl

/-- An entry is set: the pages below it are those of the new table. -/
theorem entry_update {dir : ℕ → Option (UInt64 × PageDir n)} {index page : ℕ} {e : UInt64}
    {child : PageDir n} : entry (n + 1) (update dir index (some (e, child))) page =
      if page / dirEntries ^ (n + 1) % dirEntries = index then child.entry n page
      else entry (n + 1) dir page := by
  simp only [entry]
  split_ifs with hp
  · rw [hp, update_self]
  · rw [update_of_ne hp]

/-- The table an access leads to has the entries there were. -/
theorem entry_access
    (h : accessToChildDir alloc dirFlags dir (page / dirEntries ^ (n + 1) % dirEntries) st =
      some r) : r.1.2.entry n page = dir.entry (n + 1) page := by
  rw [accessToChildDir, if_neg (Nat.not_le.mpr (Nat.mod_lt _ (by decide)))] at h
  rw [entry]
  cases hd : dir (page / dirEntries ^ (n + 1) % dirEntries) with
  | some e =>
    rw [hd] at h
    obtain ⟨⟩ := h
    rfl
  | none =>
    rw [hd] at h
    change (if dirFlags = 0 then none else _) = some r at h
    split_ifs at h
    obtain ⟨a, -, rfl⟩ := Option.map_eq_some_iff.mp h
    exact entry_zero n page

/-- Two pages are below the same entry and the same below it, or differ. -/
theorem mod_pow_succ_inj {p q : ℕ} : p % dirEntries ^ (n + 1 + 1) = q % dirEntries ^ (n + 1 + 1) ↔
      p / dirEntries ^ (n + 1) % dirEntries = q / dirEntries ^ (n + 1) % dirEntries ∧
      p % dirEntries ^ (n + 1) = q % dirEntries ^ (n + 1) := by
  have hpos : 0 < dirEntries ^ (n + 1) := Nat.pow_pos (by decide)
  rw [Nat.mod_pow_succ, Nat.mod_pow_succ (x := q)]
  constructor
  · intro heq
    have hmod := congrArg (· % dirEntries ^ (n + 1)) heq
    simp only [Nat.add_mul_mod_self_left, Nat.mod_mod] at hmod
    rw [hmod] at heq
    exact ⟨Nat.eq_of_mul_eq_mul_left hpos (Nat.add_left_cancel heq), hmod⟩
  · rintro ⟨hdiv, hmod⟩
    rw [hdiv, hmod]

/-- An entry depends on the part of the page number below its table. -/
theorem entry_congr {dir : PageDir n} {p q : ℕ}
    (h : p % dirEntries ^ (n + 1) = q % dirEntries ^ (n + 1)) : dir.entry n p = dir.entry n q := by
  induction n with
  | zero =>
    rw [Nat.pow_one] at h
    rw [entry, entry, h]
  | succ n ih =>
    obtain ⟨hdiv, hmod⟩ := mod_pow_succ_inj.mp h
    rw [entry, entry, hdiv]
    cases dir (q / dirEntries ^ (n + 1) % dirEntries) with
    | none => rfl
    | some e => exact ih hmod

/-- The states that a walk can reach by allocating tables. -/
abbrev Allocates (alloc : Alloc σ) : σ → σ → Prop :=
  Relation.ReflTransGen fun st st' => ∃ page, alloc st = some (page, st')

theorem allocates_access
    (h : accessToChildDir alloc dirFlags dir index st = some r) : Allocates alloc st r.2 := by
  rw [accessToChildDir, if_neg (Nat.not_le.mpr (index_lt_of_access h))] at h
  cases hd : dir index with
  | some e =>
    rw [hd] at h
    obtain ⟨⟩ := h
    exact .refl
  | none =>
    rw [hd] at h
    change (if dirFlags = 0 then none else _) = some r at h
    split_ifs at h
    obtain ⟨a, ha, rfl⟩ := Option.map_eq_some_iff.mp h
    exact .single ⟨a.1, ha⟩

/-- **One page.** Its entry goes through the callback, once, after the
tables it needs are allocated; every other entry stays. -/
theorem walkTo_entry {w w' : Walk σ n}
    (h : walkTo alloc dirFlags callback n page w = some w') : ∃ st₀,
      Allocates alloc w.2.1 st₀ ∧ w'.2.1 = (callback st₀ (w.1.entry n page)).2 ∧
      ∀ p, w'.1.entry n p =
        if p % dirEntries ^ (n + 1) = page % dirEntries ^ (n + 1) then
          (callback st₀ (w.1.entry n p)).1
        else w.1.entry n p := by
  induction n with
  | zero =>
    rw [walkTo_zero, visit, if_neg (Nat.not_le.mpr (Nat.mod_lt _ (by decide)))] at h
    obtain ⟨⟩ := h
    refine ⟨w.2.1, .refl, rfl, fun p => ?_⟩
    rw [Nat.pow_one, entry, entry]
    by_cases hp : p % dirEntries = page % dirEntries
    · rw [if_pos hp, hp]
      exact update_self ..
    · rw [if_neg hp]
      exact update_of_ne hp ..
  | succ n ih =>
    rw [walkTo_succ, inChild] at h
    obtain ⟨r, hacc, h⟩ := Option.bind_eq_some_iff.mp h
    obtain ⟨c, hc, rfl⟩ := Option.map_eq_some_iff.mp h
    obtain ⟨st₀, halloc, hstate, hst₀⟩ := ih hc
    rw [entry_access hacc] at hstate
    refine ⟨st₀, (allocates_access hacc).trans halloc, hstate, fun p => ?_⟩
    refine entry_update.trans ?_
    by_cases hp : p / dirEntries ^ (n + 1) % dirEntries = page / dirEntries ^ (n + 1) % dirEntries
    · rw [← hp] at hacc
      simp only [mod_pow_succ_inj, hp, true_and, if_true, hst₀ p, entry_access hacc]
    · simp only [mod_pow_succ_inj, hp, false_and, if_false]

/-- The pages of a range are different below the table. -/
theorem add_mod_ne {start i m : ℕ} (hi : 0 < i) (him : i < m) : (start + i) % m ≠ start % m := by
  intro heq
  have hdvd := (Nat.modEq_iff_dvd' (Nat.le_add_right start i)).mp (Nat.ModEq.symm heq)
  rw [Nat.add_sub_cancel_left] at hdvd
  exact absurd (Nat.le_of_dvd hi hdvd) (by omega)

/-- **A range of pages.** Each of their entries goes through the callback,
once; every other entry stays. -/
theorem walkRange_entry {start count : ℕ} {w w' : Walk σ n} (hcount : count ≤ dirEntries ^ (n + 1))
    (h : walkRange alloc dirFlags callback n start count w = some w') :
    (∀ p, (∀ i < count, p % dirEntries ^ (n + 1) ≠ (start + i) % dirEntries ^ (n + 1)) →
      w'.1.entry n p = w.1.entry n p) ∧
    ∀ i < count, ∃ st₀,
      w'.1.entry n (start + i) = (callback st₀ (w.1.entry n (start + i))).1 := by
  induction count generalizing start w with
  | zero =>
    obtain ⟨⟩ := h
    exact ⟨fun _ _ => rfl, fun i hi => absurd hi (Nat.not_lt_zero i)⟩
  | succ count ih =>
    rw [walkRange, List.range'_succ, List.foldlM_cons] at h
    obtain ⟨w₁, h₁, h⟩ := Option.bind_eq_some_iff.mp h
    obtain ⟨st₀, -, -, hst₀⟩ := walkTo_entry h₁
    obtain ⟨hframe, hpages⟩ := ih (by omega) h
    have hne : ∀ i, 0 < i → i ≤ count →
        (start + i) % dirEntries ^ (n + 1) ≠ start % dirEntries ^ (n + 1) :=
      fun i hi hic => add_mod_ne hi (by omega)
    refine ⟨fun p hp => ?_, fun i hi => ?_⟩
    · have hp₀ : p % dirEntries ^ (n + 1) ≠ start % dirEntries ^ (n + 1) := hp 0 (by omega)
      rw [hframe p fun i hi => ?_, hst₀, if_neg hp₀]
      have hpi := hp (1 + i) (by omega)
      rwa [← Nat.add_assoc] at hpi
    · rcases Nat.eq_zero_or_pos i with rfl | hpos
      · refine ⟨st₀, ?_⟩
        change w'.1.entry n start = _
        rw [hframe start fun j hj => ?_, hst₀, if_pos rfl]
        · rfl
        · rw [Nat.add_assoc]
          exact (hne (1 + j) (by omega) (by omega)).symm
      · obtain ⟨st₁, hst₁⟩ := hpages (i - 1) (by omega)
        have hidx : start + 1 + (i - 1) = start + i := by omega
        rw [hidx, hst₀, if_neg (hne i hpos (by omega))] at hst₁
        exact ⟨st₁, hst₁⟩

/-- A walk ends at its page as long as there is memory for tables. -/
theorem exists_walkTo (halloc : ∀ st, ∃ r, alloc st = some r) (hflags : dirFlags ≠ 0) (page : ℕ)
    (w : Walk σ n) : ∃ w', walkTo alloc dirFlags callback n page w = some w' := by
  induction n with
  | zero =>
    rw [walkTo_zero, visit, if_neg (Nat.not_le.mpr (Nat.mod_lt _ (by decide)))]
    exact ⟨_, rfl⟩
  | succ n ih =>
    have haccess : ∃ r, accessToChildDir alloc dirFlags w.1
        (page / dirEntries ^ (n + 1) % dirEntries) w.2.1 = some r := by
      rw [accessToChildDir, if_neg (Nat.not_le.mpr (Nat.mod_lt _ (by decide)))]
      cases w.1 (page / dirEntries ^ (n + 1) % dirEntries) with
      | some e => exact ⟨_, rfl⟩
      | none =>
        obtain ⟨r, hr⟩ := halloc w.2.1
        rw [if_neg hflags, hr]
        exact ⟨_, rfl⟩
    obtain ⟨r, hr⟩ := haccess
    obtain ⟨c, hc⟩ := ih (r.1.2, r.2, w.2.2)
    rw [walkTo_succ, inChild, hr, Option.bind_some, hc]
    exact ⟨_, rfl⟩

theorem exists_walkRange (halloc : ∀ st, ∃ r, alloc st = some r) (hflags : dirFlags ≠ 0)
    (start count : ℕ) (w : Walk σ n) :
    ∃ w', walkRange alloc dirFlags callback n start count w = some w' := by
  induction count generalizing start w with
  | zero => exact ⟨w, rfl⟩
  | succ count ih =>
    obtain ⟨w₁, h₁⟩ : ∃ w₁, walkTo alloc dirFlags callback n start w = some w₁ :=
      exists_walkTo halloc hflags start w
    obtain ⟨w₂, h₂⟩ := ih (start + 1) w₁
    refine ⟨w₂, ?_⟩
    rw [walkRange, List.range'_succ, List.foldlM_cons, h₁]
    exact h₂

/-! ## `processPages` -/

/-- The flag of a walk is that of its page, next to what it was before. -/
theorem walkPage_flag {virtualBase : ℕ} {w : Walk σ n} :
    walkPage alloc dirFlags callback virtualBase n w =
      (walkPage alloc dirFlags callback virtualBase n (w.1, w.2.1, false)).map
        fun r => (r.1, r.2.1, w.2.2 || r.2.2) := by
  induction n with
  | zero =>
    simp only [walkPage, visit]
    split_ifs <;> simp
  | succ n ih =>
    simp only [walkPage, inChild]
    cases accessToChildDir alloc dirFlags w.1
      (virtualBase >>> (pageShift + (n + 1) * 9) &&& 0x1FF) w.2.1 with
    | none => rfl
    | some r =>
      simp only [Option.bind_some]
      rw [ih, Option.map_map, Option.map_map]
      rfl

variable {root : PageDir 3}

theorem processEach_eq {pages : List ℕ} :
    processEach alloc dirFlags callback pages root st =
      pages.foldlM (fun w page => walkTo alloc dirFlags callback 3 page w) (root, st, false) := by
  rw [processEach]
  refine congrArg (fun f => pages.foldlM f (root, st, false))
    (funext fun w => funext fun page => ?_)
  exact walkPage_flag.symm

/-- The pages a range of addresses has bytes of. -/
def pagesOf (virtualBase size : ℕ) : List ℕ :=
  List.range' (virtualBase / pageSize)
    ((virtualBase + size - 1) / pageSize + 1 - virtualBase / pageSize)

/-- The range walk is the walk of the range's pages from the root. -/
theorem processPages_eq {virtualBase size : ℕ} (hsize : 1 ≤ size)
    (hrange : virtualBase % 2 ^ 48 + size ≤ 2 ^ 48) :
    processPages alloc virtualBase size dirFlags callback root st =
      walkRange alloc dirFlags callback 3 (virtualBase / pageSize)
        ((virtualBase + size - 1) / pageSize + 1 - virtualBase / pageSize) (root, st, false) := by
  have hmask : (0xFFFFFFFFFFFF : ℕ) = 2 ^ 48 - 1 := by decide
  have htop : dirEntries ^ (3 + 1) = 2 ^ 36 := by decide
  have hbase : virtualBase / pageSize =
      virtualBase / 2 ^ 48 * dirEntries ^ (3 + 1) + virtualBase % 2 ^ 48 / 2 ^ pageShift := by
    rw [htop]
    simp only [pageSize, pageShift]
    omega
  have hse : virtualBase % 2 ^ 48 / 2 ^ pageShift ≤
      (size + virtualBase % 2 ^ 48 + pageMask) / 2 ^ pageShift - 1 := by
    simp only [pageShift, pageMask]
    omega
  have he : (size + virtualBase % 2 ^ 48 + pageMask) / 2 ^ pageShift - 1 <
      dirEntries ^ (3 + 1) := by
    rw [htop]
    simp only [pageShift, pageMask]
    omega
  have hcount : (size + virtualBase % 2 ^ 48 + pageMask) / 2 ^ pageShift - 1 + 1 -
      virtualBase % 2 ^ 48 / 2 ^ pageShift =
      (virtualBase + size - 1) / pageSize + 1 - virtualBase / pageSize := by
    simp only [pageShift, pageMask, pageSize]
    omega
  rw [processPages, if_neg (by omega), hmask, Nat.and_two_pow_sub_one_eq_mod]
  simp only [Nat.shiftRight_eq_div_pow]
  rw [processPagesLevel_eq hse he, hcount]
  generalize (virtualBase + size - 1) / pageSize + 1 - virtualBase / pageSize = count
  rw [hbase, walkRange_add_mul]

/-- **The range walk agrees with the single-page walk.** It leaves the
tables, directories included, that `processPage` leaves when it is called
for each page of the range in order; the entry of each page goes through
the callback once, and no other page's entry changes. -/
theorem processPages_eq_processPage {virtualBase size : ℕ} (hsize : 1 ≤ size)
    (hrange : virtualBase % 2 ^ 48 + size ≤ 2 ^ 48) (root : PageDir 3) (st : σ) :
    processPages alloc virtualBase size dirFlags callback root st =
      processEach alloc dirFlags callback (pagesOf virtualBase size) root st ∧
    ∀ w, processPages alloc virtualBase size dirFlags callback root st = some w →
      (∀ p, (∀ page ∈ pagesOf virtualBase size, p % 2 ^ 36 ≠ page % 2 ^ 36) →
        w.1.entry 3 p = root.entry 3 p) ∧
      ∀ page ∈ pagesOf virtualBase size, ∃ st₀,
        w.1.entry 3 page = (callback st₀ (root.entry 3 page)).1 := by
  have htop : dirEntries ^ (3 + 1) = 2 ^ 36 := by decide
  refine ⟨by rw [processPages_eq hsize hrange, processEach_eq]; rfl, fun w hw => ?_⟩
  rw [processPages_eq hsize hrange] at hw
  have hcount : (virtualBase + size - 1) / pageSize + 1 - virtualBase / pageSize ≤
      dirEntries ^ (3 + 1) := by
    rw [htop]
    simp only [pageSize]
    omega
  obtain ⟨hframe, hpages⟩ := walkRange_entry hcount hw
  rw [htop] at hframe
  refine ⟨fun p hp => hframe p fun i hi => hp _ ?_, fun page hp => ?_⟩
  · exact List.mem_range'_1.mpr ⟨by omega, by omega⟩
  · obtain ⟨hlo, hhi⟩ := List.mem_range'_1.mp hp
    have hpage := hpages (page - virtualBase / pageSize) (by omega)
    rwa [Nat.add_sub_cancel' hlo] at hpage

/-- Two pages on either side of a table's last entry. -/
theorem processPages_eq_processPage_twoPages :
    processPages (fun st : UInt64 => some (st, st + 0x1000)) 0x1FF800 0x1000 3
        (fun st e => (e + 1, st)) (.zero 3) 0x100000 =
      processEach (fun st : UInt64 => some (st, st + 0x1000)) 3 (fun st e => (e + 1, st))
        [0x1FF, 0x200] (.zero 3) 0x100000 :=
  (processPages_eq_processPage (by decide) (by decide) (.zero 3) 0x100000).1

/-! ## `mapPages` -/

/-- A range of pages whose entries are written one after the other. -/
theorem walkRange_mapPages {alloc : Alloc (UInt64 × σ)} {pageFlags : UInt64} {start count : ℕ}
    {w w' : Walk (UInt64 × σ) n} (halloc : ∀ s r, alloc s = some r → r.2.1 = s.1)
    (hcount : count ≤ dirEntries ^ (n + 1))
    (h : walkRange alloc dirFlags (fun s _ => (s.1 ||| pageFlags, s.1 + 0x1000, s.2)) n start count
      w = some w') {i : ℕ} (hi : i < count) :
    w'.1.entry n (start + i) = (w.2.1.1 + 0x1000 * UInt64.ofNat i) ||| pageFlags := by
  have hkeep : ∀ {st st'}, Allocates alloc st st' → st'.1 = st.1 := by
    intro st st' hst
    induction hst with
    | refl => rfl
    | tail _ hstep ih =>
      obtain ⟨page, hstep⟩ := hstep
      rw [← ih]
      exact halloc _ _ hstep
  induction count generalizing start w i with
  | zero => exact absurd hi (Nat.not_lt_zero i)
  | succ count ih =>
    rw [walkRange, List.range'_succ, List.foldlM_cons] at h
    obtain ⟨w₁, h₁, h⟩ := Option.bind_eq_some_iff.mp h
    obtain ⟨st₀, hst, hstate, hst₀⟩ := walkTo_entry h₁
    rcases Nat.eq_zero_or_pos i with rfl | hpos
    · have hframe := (walkRange_entry (by omega) h).1 start fun j hj => by
        rw [Nat.add_assoc]
        exact (add_mod_ne (by omega) (by omega)).symm
      rw [Nat.add_zero, hframe, hst₀, if_pos rfl, hkeep hst]
      simp
    · obtain ⟨i, rfl⟩ : ∃ j, i = j + 1 := ⟨i - 1, by omega⟩
      have hrest := ih (by omega) h (by omega : i < count)
      rw [hstate, hkeep hst] at hrest
      have hone : 0x1000 * UInt64.ofNat 1 = 0x1000 := by decide
      rw [← Nat.add_assoc, Nat.add_right_comm, hrest, UInt64.ofNat_add, UInt64.mul_add, hone,
        UInt64.add_comm (0x1000 * _), UInt64.add_assoc]

/-- **`mapPages` maps the pages of the range to consecutive frames** from
`physBase` on. -/
theorem mapPages_entry {alloc : Alloc σ} {virtualBase size : ℕ} {physBase pageFlags : UInt64}
    {w : Walk (UInt64 × σ) 3} (hsize : 1 ≤ size)
    (hrange : virtualBase % 2 ^ 48 + size ≤ 2 ^ 48)
    (h : mapPages alloc virtualBase physBase size pageFlags root st = some w) {i : ℕ}
    (hi : virtualBase / pageSize + i ≤ (virtualBase + size - 1) / pageSize) :
    w.1.entry 3 (virtualBase / pageSize + i) =
      (physBase + 0x1000 * UInt64.ofNat i) ||| pageFlags := by
  have htop : dirEntries ^ (3 + 1) = 2 ^ 36 := by decide
  rw [mapPages, processPages_eq hsize hrange] at h
  refine walkRange_mapPages (fun s r hr => ?_) ?_ h (by omega)
  · obtain ⟨a, -, rfl⟩ := Option.map_eq_some_iff.mp hr
    rfl
  · rw [htop]
    simp only [pageSize]
    omega

end Paging

end ShmDos64
