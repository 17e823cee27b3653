import ShmDos64.KUnorderedMap.Model
/-!
# `kunordered_map` is a finite map

`MapOk` ties a map's links to the function from keys to values it stands
for: the live nodes are those of the iteration list, each is in the chain
of its key's bucket and in no other, and no two hold the same key. What a
caller can observe of it is `Represents`.
-/

namespace ShmDos64

open Function (update update_of_ne update_self)

variable {K V : Type*}

/-- `find` leads to the values of `f` and to `end()` elsewhere, a loop over
the map visits the keys of `f` once each, and `size()` is their number. -/
structure MapState.Represents [DecidableEq K] (hash : K → ℕ) (s : MapState K V)
    (f : K → Option V) : Prop where
  lookup : ∀ k, s.lookup hash k = some (f k)
  iterate : ∃ L n₀, (∀ n ≥ n₀, MapState.iterate s.mem n s.map.begin = some L) ∧
    (L.map Prod.fst).Nodup ∧ (∀ k v, (k, v) ∈ L ↔ f k = some v) ∧ s.map.size = L.length

/-- The map has the chains `B`, the iteration list `E` and the free nodes
`F`, and stands for `f`. -/
structure MapOk (hash : K → ℕ) (s : MapState K V) (f : K → Option V) (B : ℕ → List ℕ)
    (E F : List ℕ) : Prop where
  chain : ∀ i, Links s.mem.next 0 (s.map.table i) (B i)
  mem_chain : ∀ i a, a ∈ B i ↔
    ∃ k v, s.mem.data a = some (k, v) ∧ hash k % s.map.tableSize = i
  nodup_chain : ∀ i, (B i).Nodup
  ext : Buckets s.mem.extNext s.mem.extPrev (fun _ : Unit => s.map.begin) fun _ => E
  live : ∀ a, a ∈ E ↔ (s.mem.data a).isSome
  key : ∀ a b k v w, s.mem.data a = some (k, v) → s.mem.data b = some (k, w) → a = b
  free : Links s.mem.next 0 s.map.freeList F
  nodup : (E ++ F).Nodup
  nodes : ∀ a ∈ E ++ F, a ∈ s.nodes
  model : ∀ k v, f k = some v ↔ ∃ a, s.mem.data a = some (k, v)
  size : s.map.size = E.length
  chunk : 0 < s.map.currentChunkSize

/-! ## Walks along a chain -/

namespace MapState

variable {m : MapMem K V} {k : K} {a h n old : ℕ} {l : List ℕ}

/-- The nodes of a stretch of a chain are live and have other keys. -/
def Passes (m : MapMem K V) (k : K) (l : List ℕ) : Prop :=
  ∀ x ∈ l, x ≠ 0 ∧ ∃ k' v, m.data x = some (k', v) ∧ k' ≠ k

theorem unlinkLoop_walk {next : ℕ → ℕ} {t : ℕ} (hl : Links next a h l)
    (hp : ∀ x ∈ l, x ≠ 0 ∧ x ≠ t) :
    unlinkLoop next t (l.length + n) old h = unlinkLoop next t n (l.getLastD old) a := by
  induction l generalizing h old with
  | nil =>
    rw [hl, List.length_nil, Nat.zero_add]
    rfl
  | cons x xs ih =>
    obtain ⟨hx0, hxt⟩ := hp x (by simp)
    rw [hl.1, List.length_cons, Nat.add_right_comm, unlinkLoop, if_neg hx0, if_neg hxt,
      List.getLastD_cons]
    exact ih hl.2.2 fun y hy => hp y (by simp [hy])

theorem unlinkLoop_zero {next : ℕ → ℕ} {t : ℕ} : unlinkLoop next t n old 0 = some next := by
  cases n <;> simp [unlinkLoop]

theorem iterate_walk (hl : Links m.extNext 0 h l) (hd : ∀ x ∈ l, (m.data x).isSome)
    (hn : l.length ≤ n) : iterate m n h = some (l.filterMap m.data) := by
  induction l generalizing h n with
  | nil =>
    rw [show h = 0 from hl]
    cases n <;> simp [iterate]
  | cons x xs ih =>
    obtain ⟨n, rfl⟩ : ∃ j, n = j + 1 := ⟨n - 1, by simp only [List.length_cons] at hn; omega⟩
    obtain ⟨kv, hkv⟩ := Option.isSome_iff_exists.mp (hd x (by simp))
    have hrest := ih hl.2.2 (fun y hy => hd y (by simp [hy])) (Nat.le_of_succ_le_succ hn)
    rw [hl.1, iterate, if_neg hl.2.1, hkv, Option.bind_some, hrest, List.filterMap_cons_some hkv]
    rfl

variable [DecidableEq K]

theorem findNode_walk (hl : Links m.next a h l) (hp : Passes m k l) :
    findNode m k (l.length + n) h = findNode m k n a := by
  induction l generalizing h with
  | nil =>
    rw [hl, List.length_nil, Nat.zero_add]
  | cons x xs ih =>
    obtain ⟨hx0, k', v, hd, hne⟩ := hp x (by simp)
    rw [hl.1, List.length_cons, Nat.add_right_comm, findNode, if_neg hx0, hd, Option.bind_some,
      if_neg hne]
    exact ih hl.2.2 fun y hy => hp y (by simp [hy])

theorem findPrev_walk (hl : Links m.next a h l) (hp : Passes m k l) :
    findPrev m k (l.length + n) old h = findPrev m k n (l.getLastD old) a := by
  induction l generalizing h old with
  | nil =>
    rw [hl, List.length_nil, Nat.zero_add]
    rfl
  | cons x xs ih =>
    obtain ⟨hx0, k', v, hd, hne⟩ := hp x (by simp)
    rw [hl.1, List.length_cons, Nat.add_right_comm, findPrev, if_neg hx0, hd, Option.bind_some,
      if_neg hne, List.getLastD_cons]
    exact ih hl.2.2 fun y hy => hp y (by simp [hy])

theorem findNode_zero : findNode m k n 0 = some 0 := by
  cases n <;> simp [findNode]

theorem findPrev_zero : findPrev m k n old 0 = some (old, 0) := by
  cases n <;> simp [findPrev]

/-- The walk meets a node whose object is dead. -/
theorem findNode_dead (ha : a ≠ 0) (hd : m.data a = none) : findNode m k n a = none := by
  cases n <;> simp [findNode, ha, hd]

end MapState

namespace MapOk

variable {hash : K → ℕ} {s t : MapState K V} {f : K → Option V} {B : ℕ → List ℕ}
variable {E F : List ℕ} {a i : ℕ} {k : K} {v : V}

/-! ## What can be observed -/

section

variable (h : MapOk hash s f B E F)

include h

theorem live_of_data (hd : s.mem.data a = some (k, v)) : a ∈ E :=
  (h.live a).mpr (by rw [hd]; rfl)

theorem ne_zero (hd : s.mem.data a = some (k, v)) : a ≠ 0 :=
  (h.ext.links ()).ne_end a (h.live_of_data hd)

theorem data_free (ha : a ∈ F) : s.mem.data a = none := by
  by_contra hd
  exact List.disjoint_of_nodup_append h.nodup
    ((h.live a).mpr (Option.isSome_iff_ne_none.mpr hd)) ha

/-- A chain is no longer than there are nodes. -/
theorem length_chain_le : (B i).length ≤ s.nodes.length := by
  refine ((h.nodup_chain i).subperm fun x hx => ?_).length_le
  obtain ⟨k, v, hd, -⟩ := (h.mem_chain i x).mp hx
  exact h.nodes x (List.mem_append_left _ (h.live_of_data hd))

/-- The nodes of a chain that do not hold the key are passed. -/
theorem passes {l : List ℕ} (hl : ∀ x ∈ l, x ∈ B i)
    (hk : ∀ x ∈ l, ∀ v, s.mem.data x ≠ some (k, v)) : MapState.Passes s.mem k l := by
  intro x hx
  obtain ⟨k', v', hd, -⟩ := (h.mem_chain i x).mp (hl x hx)
  refine ⟨h.ne_zero hd, k', v', hd, ?_⟩
  rintro rfl
  exact hk x hx v' hd

/-- Where the node of a key is in its chain. -/
theorem exists_split (hd : s.mem.data a = some (k, v)) :
    ∃ l₁ l₂ n, B (s.bucket hash k) = l₁ ++ a :: l₂ ∧ MapState.Passes s.mem k l₁ ∧
      Links s.mem.next a (s.map.table (s.bucket hash k)) l₁ ∧
      s.nodes.length = l₁.length + (n + 1) := by
  have ha : a ∈ B (s.bucket hash k) := (h.mem_chain _ a).mpr ⟨k, v, hd, rfl⟩
  obtain ⟨l₁, l₂, hB⟩ := List.append_of_mem ha
  have hnd := h.nodup_chain (s.bucket hash k)
  have hlen := h.length_chain_le (i := s.bucket hash k)
  have hchain := h.chain (s.bucket hash k)
  rw [hB] at hnd hlen hchain
  have hnot : a ∉ l₁ := fun hm => (List.nodup_append.mp hnd).2.2 a hm a (by simp) rfl
  refine ⟨l₁, l₂, s.nodes.length - l₁.length - 1, hB, ?_, hchain.upto hnot, ?_⟩
  · refine h.passes (i := s.bucket hash k) (fun x hx => by rw [hB]; simp [hx]) fun x hx w hw => ?_
    exact hnot (h.key a x k v w hd hw ▸ hx)
  · simp only [List.length_append, List.length_cons] at hlen
    omega

theorem data_ne_of_model_none (hf : f k = none) : s.mem.data a ≠ some (k, v) := by
  intro hd
  have := (h.model k v).mpr ⟨a, hd⟩
  rw [hf] at this
  cases this

/-- A key the map does not have: the whole chain is passed. -/
theorem passes_chain (hf : f k = none) :
    MapState.Passes s.mem k (B i) ∧ ∃ n, s.nodes.length = (B i).length + n := by
  refine ⟨h.passes (fun _ hx => hx) fun x _ w => h.data_ne_of_model_none hf,
    s.nodes.length - (B i).length, ?_⟩
  have := h.length_chain_le (i := i)
  omega

theorem mem_entries :
    (k, v) ∈ E.filterMap s.mem.data ↔ f k = some v := by
  rw [List.mem_filterMap, h.model]
  constructor
  · rintro ⟨a, -, hd⟩
    exact ⟨a, hd⟩
  · rintro ⟨a, hd⟩
    exact ⟨a, h.live_of_data hd, hd⟩

end

variable [DecidableEq K]

section

variable (h : MapOk hash s f B E F)

include h

theorem findNode_chain (hd : s.mem.data a = some (k, v)) :
    MapState.findNode s.mem k s.nodes.length (s.map.table (s.bucket hash k)) = some a := by
  obtain ⟨l₁, l₂, n, -, hp, hl, hn⟩ := h.exists_split hd
  rw [hn, MapState.findNode_walk hl hp, MapState.findNode, if_neg (h.ne_zero hd), hd,
    Option.bind_some, if_pos rfl]

theorem findNode_absent (hf : f k = none) :
    MapState.findNode s.mem k s.nodes.length (s.map.table (s.bucket hash k)) = some 0 := by
  obtain ⟨hp, n, hn⟩ := h.passes_chain hf (i := s.bucket hash k)
  rw [hn, MapState.findNode_walk (h.chain _) hp, MapState.findNode_zero]

theorem lookup_eq : s.lookup hash k = some (f k) := by
  rw [MapState.lookup, MapState.find]
  cases hf : f k with
  | none => rw [h.findNode_absent hf, Option.bind_some, if_pos rfl]
  | some v =>
    obtain ⟨a, hd⟩ := (h.model k v).mp hf
    rw [h.findNode_chain hd, Option.bind_some, if_neg (h.ne_zero hd), hd]
    rfl

theorem represents : s.Represents hash f where
  lookup _ := h.lookup_eq
  iterate := by
    have hd : ∀ x ∈ E, (s.mem.data x).isSome := fun x hx => (h.live x).mp hx
    refine ⟨E.filterMap s.mem.data, E.length,
      fun n hn => MapState.iterate_walk (h.ext.links ()) hd hn, ?_, fun k v => h.mem_entries, ?_⟩
    · rw [List.map_filterMap]
      refine (h.ext.nodup ()).filterMap fun x y k hx hy => ?_
      obtain ⟨⟨k₁, v₁⟩, hd₁, rfl⟩ := Option.map_eq_some_iff.mp hx
      obtain ⟨⟨k₂, v₂⟩, hd₂, rfl⟩ := Option.map_eq_some_iff.mp hy
      exact h.key x y _ _ _ hd₁ hd₂
    · rw [h.size, eq_comm]
      exact List.filterMap_length_eq_length.mpr hd

end

/-! ## Insertion -/

section Insert

omit [DecidableEq K]

/-- The value of a key is replaced. -/
theorem setValue [DecidableEq K] {w : V} (h : MapOk hash s f B E F)
    (hd : s.mem.data a = some (k, w)) :
    MapOk hash (s.setValue a v) (update f k (some v)) B E F := by
  have hdata : (s.setValue a v).mem.data = update s.mem.data a (some (k, v)) := by
    rw [MapState.setValue, hd]
    rfl
  -- the keys of the nodes do not change
  have hkeys : ∀ b k', (∃ v', update s.mem.data a (some (k, v)) b = some (k', v')) ↔
      ∃ v', s.mem.data b = some (k', v') := by
    intro b k'
    rcases eq_or_ne b a with rfl | hb
    · simp [hd]
    · rw [update_of_ne hb]
  refine ⟨h.chain, fun i b => ?_, h.nodup_chain, h.ext, fun b => ?_, fun b c k' v' w' hb hc => ?_,
    h.free, h.nodup, h.nodes, fun k' v' => ?_, h.size, h.chunk⟩
  · rw [h.mem_chain, hdata]
    exact exists_congr fun k' => by rw [exists_and_right, exists_and_right, hkeys]; rfl
  · rw [h.live, hdata]
    rcases eq_or_ne b a with rfl | hb
    · simp [hd]
    · rw [update_of_ne hb]
  · rw [hdata] at hb hc
    obtain ⟨v₁, hv₁⟩ := (hkeys b k').mp ⟨v', hb⟩
    obtain ⟨v₂, hv₂⟩ := (hkeys c k').mp ⟨w', hc⟩
    exact h.key b c k' v₁ v₂ hv₁ hv₂
  · rw [hdata]
    rcases eq_or_ne k' k with rfl | hk
    · rw [update_self]
      constructor
      · rintro ⟨⟩
        exact ⟨a, update_self ..⟩
      · rintro ⟨b, hb⟩
        obtain ⟨v₁, hv₁⟩ := (hkeys b k').mp ⟨v', hb⟩
        rw [h.key b a k' v₁ w hv₁ hd, update_self] at hb
        exact congrArg some (Prod.mk.inj (Option.some.inj hb)).2
    · rw [update_of_ne hk, h.model]
      refine exists_congr fun b => ?_
      rcases eq_or_ne b a with rfl | hb
      · simp [hd, hk.symm]
      · rw [update_of_ne hb]

/-- A new array, when the free list is empty. -/
theorem addChunk {ch : ℕ} (h : MapOk hash s f B E []) (hf : s.Fresh ch) :
    MapOk hash (s.addChunk ch) f B E (List.range' ch s.map.currentChunkSize) := by
  have hpos := h.chunk
  have hE : ∀ a ∈ E, a < ch ∨ ch + s.map.currentChunkSize ≤ a := fun a ha =>
    hf.2 a (h.nodes a (List.mem_append_left _ ha))
  have hnodes : (s.addChunk ch).nodes = List.range' ch s.map.currentChunkSize ++ s.nodes := rfl
  refine ⟨fun i => ?_, h.mem_chain, h.nodup_chain, h.ext, h.live, h.key, ?_, ?_, fun a ha => ?_,
    h.model, h.size, ?_⟩
  · refine (h.chain i).congr fun y hy => linkRange_of_lt_or_lt ?_
    obtain ⟨k, v, hd, -⟩ := (h.mem_chain i y).mp hy
    have := hE y (h.live_of_data hd)
    omega
  · have hlinks : Links (linkRange s.mem.next ch (s.map.currentChunkSize - 1)) 0 ch
        (List.range' ch (s.map.currentChunkSize - 1 + 1)) := links_linkRange hf.1
    rw [Nat.sub_add_cancel hpos] at hlinks
    exact hlinks
  · refine List.nodup_append.mpr ⟨h.ext.nodup (), List.nodup_range', fun a ha b hb => ?_⟩
    have := hE a ha
    have := List.mem_range'_1.mp hb
    omega
  · rw [hnodes]
    rcases List.mem_append.mp ha with ha | ha
    · exact List.mem_append_right _ (h.nodes a (List.mem_append_left _ ha))
    · exact List.mem_append_left _ ha
  · simp only [MapState.addChunk]
    split <;> omega

/-- **A key that is not there is inserted** with the first free node. -/
theorem insert_free [DecidableEq K] {c : ℕ} (h : MapOk hash s f B E (c :: F)) (hf : f k = none)
    (v : V) (ch : ℕ) :
    s.insert (s.bucket hash k) k v ch = (c, (s.insert (s.bucket hash k) k v ch).2) ∧
    (s.insert (s.bucket hash k) k v ch).2.mem.data = update s.mem.data c (some (k, v)) ∧
    MapOk hash (s.insert (s.bucket hash k) k v ch).2 (update f k (some v))
      (update B (s.bucket hash k) (c :: B (s.bucket hash k))) (c :: E) F := by
  set i := s.bucket hash k with hi
  obtain ⟨hc, hc0, hfree⟩ := h.free
  have hdc : s.mem.data c = none := h.data_free (by simp)
  have hcE : c ∉ E := fun hm => by simpa [hdc] using (h.live c).mp hm
  have hcB : ∀ j, c ∉ B j := fun j hm => by
    obtain ⟨k', v', hd, -⟩ := (h.mem_chain j c).mp hm
    rw [hdc] at hd
    cases hd
  have hcF : c ∉ F := (List.nodup_cons.mp (List.nodup_append.mp h.nodup).2.1).1
  have hadd : s.add ch = (c, { s with map := { s.map with
      freeList := s.mem.next c, size := s.map.size + 1 } }) := by
    rw [MapState.add, if_neg (by rw [hc]; exact hc0), hc]
  rw [MapState.insert, hadd]
  refine ⟨rfl, rfl, ⟨fun j => ?_, fun j a => ?_, fun j => ?_, ?_, fun a => ?_,
    fun a b k' v' w' ha hb => ?_, ?_, ?_, fun a ha => ?_, fun k' v' => ?_, ?_, h.chunk⟩⟩
  · have hold : Links (update s.mem.next c (s.map.table i)) 0 (s.map.table j) (B j) :=
      (h.chain j).congr fun y hy => update_of_ne (ne_of_mem_of_not_mem hy (hcB j)) ..
    rcases eq_or_ne j i with rfl | hj
    · simp only [update_self]
      exact ⟨rfl, hc0, by rw [update_self]; exact hold⟩
    · simpa only [update_of_ne hj] using hold
  · rcases eq_or_ne a c with rfl | ha
    · simp only [update_self, Option.some.injEq, Prod.mk.injEq]
      rcases eq_or_ne j i with rfl | hj
      · simp only [update_self, List.mem_cons, true_or, true_iff]
        exact ⟨k, v, ⟨rfl, rfl⟩, rfl⟩
      · simp only [update_of_ne hj, hcB, false_iff]
        rintro ⟨k', v', ⟨rfl, rfl⟩, hij⟩
        exact hj hij.symm
    · simp only [update_of_ne ha]
      rw [← h.mem_chain]
      rcases eq_or_ne j i with rfl | hj
      · simp [ha]
      · rw [update_of_ne hj]
  · rcases eq_or_ne j i with rfl | hj
    · rw [update_self]
      exact List.nodup_cons.mpr ⟨hcB i, h.nodup_chain i⟩
    · rw [update_of_ne hj]
      exact h.nodup_chain j
  · have hpush : Buckets (update s.mem.extNext c s.map.begin)
        (if s.map.begin ≠ 0 then update (update s.mem.extPrev c 0) s.map.begin c
          else update s.mem.extPrev c 0) (update (fun _ : Unit => s.map.begin) () c)
        (update (fun _ => E) () (c :: E)) :=
      h.ext.push hc0 (fun _ => hcE) (update_self ..)
        (fun y hy => update_of_ne hy ..) ?_ ?_
    · exact hpush
    · intro hb
      rw [if_pos hb, update_self]
    · intro y hy hyb
      split
      · rw [update_of_ne hyb, update_of_ne hy]
      · rw [update_of_ne hy]
  · rcases eq_or_ne a c with rfl | ha
    · simp
    · simp only [update_of_ne ha]
      simp [ha, h.live]
  · rcases eq_or_ne a c with rfl | hac
    · rcases eq_or_ne b a with rfl | hba
      · rfl
      · simp only [update_self, Option.some.injEq, Prod.mk.injEq,
          update_of_ne hba] at ha hb
        exact absurd (ha.1 ▸ hb) (h.data_ne_of_model_none hf)
    · rcases eq_or_ne b c with rfl | hbc
      · simp only [update_self, Option.some.injEq, Prod.mk.injEq,
          update_of_ne hac] at ha hb
        exact absurd (hb.1 ▸ ha) (h.data_ne_of_model_none hf)
      · simp only [update_of_ne hac, update_of_ne hbc] at ha hb
        exact h.key a b k' v' w' ha hb
  · exact hfree.congr fun y hy => update_of_ne (ne_of_mem_of_not_mem hy hcF) ..
  · have := h.nodup
    exact (List.perm_middle.nodup_iff.mp this)
  · refine h.nodes a ?_
    simp only [List.cons_append, List.mem_cons, List.mem_append] at ha ⊢
    tauto
  · rcases eq_or_ne k' k with rfl | hk
    · rw [update_self]
      constructor
      · rintro ⟨⟩
        exact ⟨c, update_self ..⟩
      · rintro ⟨b, hb⟩
        rcases eq_or_ne b c with rfl | hbc
        · simp only [update_self] at hb
          exact congrArg some (Prod.mk.inj (Option.some.inj hb)).2
        · simp only [update_of_ne hbc] at hb
          exact absurd hb (h.data_ne_of_model_none hf)
    · rw [update_of_ne hk, h.model]
      refine exists_congr fun b => ?_
      rcases eq_or_ne b c with rfl | hb
      · simp [hdc, hk.symm]
      · simp only [update_of_ne hb]
  · simp [h.size]

end Insert

/-- A key that is not there is inserted. -/
theorem insert_ok {ch : ℕ} (h : MapOk hash s f B E F) (hf : f k = none)
    (hfresh : s.map.freeList = 0 → s.Fresh ch) : ∃ c t B' E' F',
    s.insert (s.bucket hash k) k v ch = (c, t) ∧ t.mem.data c = some (k, v) ∧
    MapOk hash t (update f k (some v)) B' E' F' := by
  by_cases h0 : s.map.freeList = 0
  · obtain rfl : F = [] := (h.free.head_eq_end_iff).mp h0
    have hchunk := h.addChunk (hfresh h0)
    obtain ⟨n, hn⟩ : ∃ n, s.map.currentChunkSize = n + 1 :=
      ⟨s.map.currentChunkSize - 1, (Nat.sub_add_cancel h.chunk).symm⟩
    have hinsert : s.insert (s.bucket hash k) k v ch =
        (s.addChunk ch).insert ((s.addChunk ch).bucket hash k) k v ch := by
      have hch : (s.addChunk ch).map.freeList ≠ 0 := (hfresh h0).1
      have hadd : s.add ch = (s.addChunk ch).add ch := by
        rw [MapState.add, MapState.add, if_pos h0, if_neg hch]
      rw [MapState.insert, MapState.insert, hadd]
      rfl
    rw [hn, List.range'_succ] at hchunk
    obtain ⟨heq, hd, hok⟩ := hchunk.insert_free hf v ch
    refine ⟨_, _, _, _, _, hinsert.trans heq, ?_, hok⟩
    rw [hd, update_self]
  · obtain ⟨c, F', rfl⟩ := List.exists_cons_of_ne_nil (mt (h.free.head_eq_end_iff).mpr h0)
    obtain ⟨heq, hd, hok⟩ := h.insert_free hf v ch
    refine ⟨_, _, _, _, _, heq, ?_, hok⟩
    rw [hd, update_self]

theorem emplace_ok {ch : ℕ} (h : MapOk hash s f B E F)
    (hs : f k ≠ none ∨ s.map.size < s.map.rehashSize) (hfresh : s.map.freeList = 0 → s.Fresh ch) :
    ∃ c b t B' E' F', s.emplace hash k v ch = some ((c, b), t) ∧ t.mem.data c = some (k, v) ∧
      MapOk hash t (update f k (some v)) B' E' F' := by
  rw [MapState.emplace]
  cases hf : f k with
  | none =>
    obtain ⟨c, t, B', E', F', heq, hd, hok⟩ := h.insert_ok hf (v := v) hfresh
    have hlt : ¬ s.map.rehashSize ≤ s.map.size := by
      have := hs.resolve_left (not_not.mpr hf)
      omega
    refine ⟨c, true, t, B', E', F', ?_, hd, hok⟩
    simp only [h.findNode_absent hf, Option.bind_some, ne_eq, not_true_eq_false, if_false,
      if_neg hlt, Option.map_some, heq]
  | some w =>
    obtain ⟨a, hd⟩ := (h.model k w).mp hf
    refine ⟨a, false, _, _, _, _, ?_, ?_, h.setValue hd⟩
    · simp only [h.findNode_chain hd, Option.bind_some, if_pos (h.ne_zero hd)]
    · simp [MapState.setValue, hd]

theorem index_ok [Inhabited V] {ch : ℕ} (h : MapOk hash s f B E F)
    (hs : f k ≠ none ∨ s.map.size < s.map.rehashSize) (hfresh : s.map.freeList = 0 → s.Fresh ch) :
    ∃ c t B' E' F', s.index hash k ch = some (c, t) ∧
      t.mem.data c = some (k, (f k).getD default) ∧
      MapOk hash t (update f k (some ((f k).getD default))) B' E' F' := by
  rw [MapState.index, MapState.find]
  cases hf : f k with
  | none =>
    obtain ⟨c, b, t, B', E', F', heq, hd, hok⟩ := h.emplace_ok hs (v := default) hfresh
    refine ⟨c, t, B', E', F', ?_, hd, hok⟩
    simp only [h.findNode_absent hf, Option.bind_some, ne_eq, not_true_eq_false, if_false, heq,
      Option.map_some]
  | some w =>
    obtain ⟨a, hd⟩ := (h.model k w).mp hf
    refine ⟨a, s, B, E, F, ?_, hd, ?_⟩
    · simp only [h.findNode_chain hd, Option.bind_some, ne_eq, h.ne_zero hd, not_false_eq_true,
        if_true]
    · rw [Option.getD_some, ← hf, Function.update_eq_self]
      exact h

end MapOk

end ShmDos64
