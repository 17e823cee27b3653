import ShmDos64.KUnorderedMap.Erase
/-!
# Runs of `kunordered_map`

A run in which no insertion rehashes and no erasure is of an unsafe node
keeps every mapping. `rehash` itself walks the chain of one bucket where
it means the list of all nodes, so that growing loses keys; `erase` of the
node that was inserted first follows a null link.
-/

namespace ShmDos64

open Function (update update_of_ne update_self)

variable {K V : Type*} [DecidableEq K]

namespace MapState

variable (hash : K → ℕ)

/-- The node `find` leads to. -/
def nodeOf (s : MapState K V) (k : K) : ℕ := (s.find hash k).getD 0

/-- Insertions of a new key find room, and the node that is erased has a
successor in the iteration list, is the only one in its bucket if it is
the first, and is looked for in that bucket. -/
def Sound (s : MapState K V) : MapCall K V → Prop
  | .emplace k _ _ | .index k _ | .assign k _ _ =>
    s.nodeOf hash k ≠ 0 ∨ s.map.size < s.map.rehashSize
  | .erase k => s.nodeOf hash k = 0 ∨ MapOk.Safe hash s k (s.nodeOf hash k)
  | .eraseIt k stale =>
    MapOk.Safe hash s k (s.nodeOf hash k) ∧ s.bucket hash stale = s.bucket hash k

instance (s : MapState K V) (k : K) (a : ℕ) : Decidable (MapOk.Safe hash s k a) :=
  inferInstanceAs (Decidable (_ ∧ _))

instance (s : MapState K V) : DecidablePred (s.Sound hash)
  | .emplace .. | .index .. | .assign .. => inferInstanceAs (Decidable (_ ∨ _))
  | .erase _ => inferInstanceAs (Decidable (_ ∨ _))
  | .eraseIt .. => inferInstanceAs (Decidable (_ ∧ _))

end MapState

namespace MapOk

variable {hash : K → ℕ} {s t : MapState K V} {f : K → Option V} {B : ℕ → List ℕ}
variable {E F : List ℕ} {a i : ℕ} {k : K} {v : V}

theorem nodeOf_eq (h : MapOk hash s f B E F) (hd : s.mem.data a = some (k, v)) :
    s.nodeOf hash k = a := by
  rw [MapState.nodeOf, MapState.find, h.findNode_chain hd, Option.getD_some]

theorem nodeOf_eq_zero (h : MapOk hash s f B E F) (hf : f k = none) : s.nodeOf hash k = 0 := by
  rw [MapState.nodeOf, MapState.find, h.findNode_absent hf, Option.getD_some]

theorem model_ne_none (h : MapOk hash s f B E F) (hn : s.nodeOf hash k ≠ 0) : f k ≠ none :=
  fun hf => hn (h.nodeOf_eq_zero hf)

variable [Inhabited V]

/-- **One call.** It returns, and does to the map what the model says. -/
theorem call {c : MapCall K V} (h : MapOk hash s f B E F) (ha : s.Allowed f c)
    (hs : s.Sound hash c) :
    ∃ t B' E' F', s.call hash c = some t ∧ MapOk hash t (mapModel f c) B' E' F' := by
  cases c with
  | emplace k v ch =>
    obtain ⟨c, b, t, B', E', F', heq, -, hok⟩ :=
      h.emplace_ok (v := v) (hs.imp_left h.model_ne_none) ha
    exact ⟨t, B', E', F', by rw [MapState.call, heq]; rfl, hok⟩
  | index k ch =>
    obtain ⟨c, t, B', E', F', heq, -, hok⟩ := h.index_ok (hs.imp_left h.model_ne_none) ha
    exact ⟨t, B', E', F', by rw [MapState.call, heq]; rfl, hok⟩
  | assign k v ch =>
    obtain ⟨c, t, B', E', F', heq, hd, hok⟩ := h.index_ok (hs.imp_left h.model_ne_none) ha
    refine ⟨t.setValue c v, B', E', F', by rw [MapState.call, heq]; rfl, ?_⟩
    have hset := hok.setValue (v := v) hd
    rwa [Function.update_idem] at hset
  | erase k =>
    cases hf : f k with
    | none =>
      refine ⟨s, B, E, F, by rw [MapState.call, h.erase_absent hf]; rfl, ?_⟩
      rw [mapModel, ← hf, Function.update_eq_self]
      exact h
    | some v =>
      obtain ⟨a, hd⟩ := (h.model k v).mp hf
      have hsafe : Safe hash s k a := by
        rcases hs with hs | hs
        · exact absurd (h.nodeOf_eq hd ▸ hs) (h.ne_zero hd)
        · rwa [h.nodeOf_eq hd] at hs
      obtain ⟨t, B', E', F', heq, hok, -⟩ := h.erase_ok hd hsafe
      exact ⟨t, B', E', F', heq, hok⟩
  | eraseIt k stale =>
    obtain ⟨v, hf⟩ := Option.isSome_iff_exists.mp ha
    obtain ⟨a, hd⟩ := (h.model k v).mp hf
    have hsafe := hs.1
    rw [h.nodeOf_eq hd] at hsafe
    obtain ⟨t, B', E', F', heq, hok, -⟩ := h.eraseIt_ok hd hsafe hs.2
    refine ⟨t, B', E', F', ?_, hok⟩
    rw [MapState.call, MapState.find, h.findNode_chain hd]
    exact heq

/-- The constructors. -/
theorem init {s : MapState K V × (K → Option V)} (h : (mapMachine K V hash).init s) :
    MapOk hash s.1 s.2 (fun _ => []) [] [] := by
  obtain ⟨hmap, hch, hdata, hf⟩ := h
  obtain ⟨m, r, hm⟩ : ∃ m r, s.1.map = .ofTable m r := by
    rcases hmap with hmap | ⟨n, hmap⟩
    all_goals exact ⟨_, _, hmap⟩
  refine ⟨fun i => ?_, fun i a => ?_, fun _ => .nil, ⟨fun _ => ?_, fun _ => .nil, fun _ => .nil,
    fun _ _ _ _ _ => rfl⟩, fun a => ?_, fun a b k v w hd => ?_, ?_, .nil, fun a ha => ?_,
    fun k v => ?_, ?_, ?_⟩
  · rw [hm]; rfl
  · simp [hdata]
  · rw [hm]; rfl
  · simp [hdata]
  · rw [hdata] at hd; cases hd
  · rw [hm]; rfl
  · cases ha
  · simp [hf, hdata]
  · rw [hm]; rfl
  · rw [hm]; exact Nat.succ_pos _

/-- **Every run of sound calls.** -/
theorem reachable {s : MapState K V × (K → Option V)}
    (h : ((mapMachine K V hash).guard fun s c => s.1.Sound hash c).Reachable s) :
    ∃ B E F, MapOk hash s.1 s.2 B E F := by
  refine h.invariant (I := fun s => ∃ B E F, MapOk hash s.1 s.2 B E F)
    (fun s hs => ⟨_, _, _, init hs⟩) ?_
  rintro s c t ⟨B, E, F, hok⟩ ⟨hs, ha, hcall, hmodel⟩
  obtain ⟨t', B', E', F', hcall', hok'⟩ := hok.call ha hs
  rw [hcall] at hcall'
  obtain ⟨⟩ := hcall'
  rw [hmodel]
  exact ⟨B', E', F', hok'⟩

end MapOk

/-! ## Growing -/

section Results

variable [Inhabited V] {hash : K → ℕ} {s : MapState K V × (K → Option V)}

/-- **A map keeps every mapping** in every run of sound calls, and the
next sound call returns. -/
theorem unordered_map_keeps
    (h : ((mapMachine K V hash).guard fun s c => s.1.Sound hash c).Reachable s) :
    s.1.Represents hash s.2 ∧
    ∀ c, s.1.Allowed s.2 c → s.1.Sound hash c → (s.1.call hash c).isSome := by
  obtain ⟨B, E, F, hok⟩ := MapOk.reachable h
  refine ⟨hok.represents, fun c ha hs => ?_⟩
  obtain ⟨t, -, -, -, hcall, -⟩ := hok.call ha hs
  rw [hcall]
  rfl

end Results

/-- A map of integers that has had no call yet. -/
def emptyMap : MapState ℕ ℕ :=
  ⟨⟨fun _ => none, fun _ => 0, fun _ => 0, fun _ => 0⟩, .default, []⟩

/-- The map after a call; an integer is its own hash. -/
def MapState.next (s : MapState ℕ ℕ) (c : MapCall ℕ ℕ) : MapState ℕ ℕ := (s.call id c).getD s

theorem MapState.call_next {s : MapState ℕ ℕ} {c : MapCall ℕ ℕ} (hc : (s.call id c).isSome) :
    s.call id c = some (s.next c) := by
  obtain ⟨t, ht⟩ := Option.isSome_iff_exists.mp hc
  rw [MapState.next, ht, Option.getD_some]

/-- The keys below `n` are put in, each with itself as its value. -/
def filled : ℕ → MapState ℕ ℕ
  | 0 => emptyMap
  | n + 1 => (filled n).next (.emplace n n 1)

/-- What `filled n` is to stand for. -/
def below (n : ℕ) : ℕ → Option ℕ := fun k => if k < n then some k else none

theorem below_succ (n : ℕ) : below (n + 1) = mapModel (below n) (.emplace n n 1) := by
  funext k
  rcases eq_or_ne k n with rfl | hk
  · rw [mapModel, update_self, below, if_pos (Nat.lt_succ_self k)]
  · rw [mapModel, update_of_ne hk, below, below]
    have hiff : k < n + 1 ↔ k < n := by omega
    simp only [hiff]

theorem filled_step {n : ℕ} (hn : n < 9) :
    (mapMachine ℕ ℕ id).step (filled n, below n) (.emplace n n 1)
      (filled (n + 1), below (n + 1)) := by
  have hall : ∀ n < 9, ((filled n).call id (.emplace n n 1)).isSome ∧
      ((filled n).map.freeList = 0 → (filled n).nodes = []) := by decide +kernel
  obtain ⟨hcall, hfree⟩ := hall n hn
  refine ⟨fun h0 => ⟨Nat.one_ne_zero, ?_⟩, MapState.call_next hcall, below_succ n⟩
  rw [hfree h0]
  intro a ha
  cases ha

theorem filled_reachable {n : ℕ} (hn : n ≤ 8) :
    ((mapMachine ℕ ℕ id).guard fun s c => s.1.Sound id c).Reachable (filled n, below n) := by
  induction n with
  | zero => exact .init ⟨Or.inl rfl, rfl, fun _ => rfl, fun _ => rfl⟩
  | succ n ih =>
    have hall : ∀ n < 8, (filled n).map.size < (filled n).map.rehashSize := by decide +kernel
    have hsound : (filled n).Sound id (.emplace n n 1) := Or.inr (hall n (by omega))
    exact (ih (by omega)).step ⟨hsound, filled_step (by omega)⟩

/-- Eight keys fit. -/
theorem unordered_map_keeps_filled :
    ((mapMachine ℕ ℕ id).guard fun s c => s.1.Sound id c).Reachable (filled 8, below 8) ∧
    (filled 8).Represents id (below 8) := by
  have h : ((mapMachine ℕ ℕ id).guard fun s c => s.1.Sound id c).Reachable (filled 8, below 8) :=
    filled_reachable le_rfl
  obtain ⟨hrep, -⟩ := unordered_map_keeps h
  dsimp only at hrep
  exact ⟨h, hrep⟩

/-- **The ninth key takes the place of the first.** The table is rehashed
along the chain of the key that was inserted last, so that no other key is
in the new one. -/
theorem unordered_map_loses_key : (mapMachine ℕ ℕ id).Reachable (filled 9, below 9) ∧
    below 9 0 = some 0 ∧ (filled 9).lookup id 0 = some none :=
  ⟨(filled_reachable le_rfl).of_guard.step (filled_step (by decide)), rfl, by decide +kernel⟩

/-! ## Erasing -/

/-- **Where `erase` is right.** In every run of sound calls, and for both
forms, a key that is there is erased, and nothing else is, exactly if its
node is safe to erase. -/
theorem unordered_map_erase_iff [Inhabited V] {hash : K → ℕ} {s : MapState K V × (K → Option V)}
    (h : ((mapMachine K V hash).guard fun s c => s.1.Sound hash c).Reachable s) {k : K} {v : V}
    (hk : s.2 k = some v) {c : MapCall K V} (hc : c = .erase k ∨ ∃ stale, c = .eraseIt k stale) :
    (∃ t, s.1.call hash c = some t ∧ t.Represents hash (update s.2 k none) ∧
      t.map.size + 1 = s.1.map.size) ↔ s.1.Sound hash c := by
  obtain ⟨B, E, F, hok⟩ := MapOk.reachable h
  obtain ⟨a, hd⟩ := (hok.model k v).mp hk
  have hnode := hok.nodeOf_eq hd
  rcases hc with rfl | ⟨stale, rfl⟩
  · simp only [MapState.Sound, hnode, hok.ne_zero hd, false_or]
    constructor
    · rintro ⟨t, ht, hrep, -⟩
      exact hok.safe_of_erase hd ht hrep
    · intro hsafe
      obtain ⟨t, B', E', F', ht, hok', hsize⟩ := hok.erase_ok hd hsafe
      exact ⟨t, ht, hok'.represents, hsize⟩
  · simp only [MapState.Sound, hnode, MapState.call, MapState.find, hok.findNode_chain hd,
      Option.bind_some]
    constructor
    · rintro ⟨t, ht, hrep, -⟩
      exact hok.safe_of_eraseIt hd ht hrep
    · rintro ⟨hsafe, hstale⟩
      obtain ⟨t, B', E', F', ht, hok', hsize⟩ := hok.eraseIt_ok hd hsafe hstale
      exact ⟨t, ht, hok'.represents, hsize⟩

/-- Of two keys, the one inserted last is erased. -/
theorem unordered_map_erase_iff_filled :
    ∃ t, (filled 2).call id (.erase 1) = some t ∧ t.Represents id (update (below 2) 1 none) ∧
      t.map.size + 1 = 2 := by
  have hk : below 2 1 = some 1 := rfl
  have hsafe : (filled 2).Sound id (.erase 1) := by decide +kernel
  exact (unordered_map_erase_iff (filled_reachable (by decide)) hk (Or.inl rfl)).mpr hsafe

/-- **Erasing the only key follows the null link** of the iteration list. -/
theorem unordered_map_erase_null : (mapMachine ℕ ℕ id).Reachable (filled 1, below 1) ∧
    below 1 0 = some 0 ∧ (filled 1).call id (.erase 0) = none ∧
    (filled 1).call id (.eraseIt 0 0) = none :=
  ⟨(filled_reachable (by decide)).of_guard, rfl, by decide +kernel, by decide +kernel⟩

end ShmDos64
