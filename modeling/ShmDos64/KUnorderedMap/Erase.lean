import ShmDos64.KUnorderedMap.Refine
/-!
# `kunordered_map::erase`

Both forms of `erase` destroy a node, unlink it from the iteration list
and from its chain, and give it back to the pool. The unlinking follows
the link to the next node of the iteration list whether there is one or
not, and the chain of a node that is first in its bucket is dropped whole:
`erase` is right exactly where neither matters.
-/

namespace ShmDos64

open Function (update update_of_ne update_self)
open MapState

namespace MapOk

variable {K V : Type*} {hash : K → ℕ} {s t : MapState K V} {f : K → Option V}
variable {B : ℕ → List ℕ} {E F l₁ l₂ : List ℕ} {a i q b : ℕ} {k stale : K} {v : V}
variable {p n : ℕ → ℕ}

/-! ## Relinking -/

/-- The state when the object of `a` is destroyed and the iteration list
is relinked. -/
def unlisted (s : MapState K V) (a begin : ℕ) (extPrev extNext : ℕ → ℕ) : MapState K V :=
  { s with
    mem := { s.mem with data := update s.mem.data a none, extPrev, extNext }
    map := { s.map with begin := begin } }

/-- **`removeFromExtList` is right for a node that has a successor** in the
iteration list. -/
theorem removeFromExtList_ok (h : MapOk hash s f B E F) (hd : s.mem.data a = some (k, v))
    (hnext : s.mem.extNext a ≠ 0) : ∃ b p n,
    (s.destroy a).removeFromExtList a = some (unlisted s a b p n) ∧
    Buckets n p (fun _ : Unit => b) fun _ => E.erase a := by
  have ha := h.live_of_data hd
  have hn0 : (s.destroy a).mem.extNext a ≠ 0 := hnext
  rw [removeFromExtList]
  by_cases hb : a = s.map.begin
  · have hun : Buckets s.mem.extNext (update s.mem.extPrev (s.mem.extNext a) 0)
        (update (fun _ : Unit => s.map.begin) () (s.mem.extNext a))
        (update (fun _ => E) () (E.erase a)) := by
      have hhead : Buckets s.mem.extNext s.mem.extPrev
          (update (fun _ : Unit => s.map.begin) () (s.mem.extNext a))
          (update (fun _ => E) () (E.erase a)) :=
        h.ext.unlink_head ha hb.symm (fun _ _ => rfl) fun _ _ => rfl
      refine ⟨hhead.links, fun j => (hhead.back j).congr fun y hy => ?_, hhead.nodup,
        hhead.disjoint⟩
      -- the back link that is cleared is that of the new first node
      refine update_of_ne ?_ ..
      rintro rfl
      have hl := hhead.links j
      have hnd := hhead.nodup j
      cases hE : update (fun _ : Unit => E) () (E.erase a) j with
      | nil => rw [hE] at hy; cases hy
      | cons x xs =>
        rw [hE] at hl hnd hy
        have hx : s.mem.extNext a = x := hl.1
        rw [hx] at hy
        exact (List.nodup_cons.mp hnd).1 hy
    refine ⟨s.mem.extNext a, update s.mem.extPrev (s.mem.extNext a) 0, s.mem.extNext, ?_, hun⟩
    have hb' : a = (s.destroy a).map.begin := hb
    rw [if_pos hb', if_neg hn0]
    rfl
  · have hpm : s.mem.extPrev a ∈ E ∧ s.mem.extPrev a ≠ a :=
      h.ext.prev_mem (i := ()) ha (Ne.symm hb)
    have hp0 : s.mem.extPrev a ≠ 0 := (h.ext.links ()).ne_end _ hpm.1
    have hun : Buckets (update s.mem.extNext (s.mem.extPrev a) (s.mem.extNext a))
        (update s.mem.extPrev (s.mem.extNext a) (s.mem.extPrev a)) (fun _ : Unit => s.map.begin)
        (update (fun _ => E) () (E.erase a)) :=
      h.ext.unlink_inner ha (Ne.symm hb) (update_self ..)
        (fun y _ hy => update_of_ne hy ..) (fun _ => update_self ..)
        fun y _ hy => update_of_ne hy ..
    refine ⟨s.map.begin, _, _, ?_, hun⟩
    have hb' : ¬ a = (s.destroy a).map.begin := hb
    have hp0' : (s.destroy a).mem.extPrev a ≠ 0 := hp0
    rw [if_neg hb', if_neg (not_or.mpr ⟨hp0', hn0⟩)]
    rfl

/-- Without one it follows the null link. -/
theorem removeFromExtList_none (hnext : s.mem.extNext a = 0) :
    (s.destroy a).removeFromExtList a = none := by
  rw [removeFromExtList]
  simp [destroy, hnext]

/-- **A node is removed**, once the iteration list and its chain are
relinked past it. -/
theorem erased [DecidableEq K] (h : MapOk hash s f B E F) (hd : s.mem.data a = some (k, v))
    (hi : s.bucket hash k = i) {b : ℕ} {p n next table : ℕ → ℕ}
    (hext : Buckets n p (fun _ : Unit => b) fun _ => E.erase a)
    (hchain : Links next 0 (table i) ((B i).erase a)) (hnext : ∀ y, y ∉ B i → next y = s.mem.next y)
    (htable : ∀ j, j ≠ i → table j = s.map.table j) : MapOk hash (remove
      { (unlisted s a b p n) with
        mem := { (unlisted s a b p n).mem with next := next }
        map := { (unlisted s a b p n).map with table := table } } a)
      (update f k none) (update B i ((B i).erase a)) (E.erase a) (a :: F) := by
  have haE := h.live_of_data hd
  have haB : ∀ j, a ∈ B j → j = i := by
    intro j hj
    obtain ⟨k', v', hd', rfl⟩ := (h.mem_chain j a).mp hj
    rw [hd] at hd'
    obtain ⟨⟩ := hd'
    exact hi
  have hnd := h.ext.nodup ()
  have hFB : ∀ y ∈ F, ∀ j, y ∉ B j := by
    intro y hy j hm
    obtain ⟨k', v', hd', -⟩ := (h.mem_chain j y).mp hm
    rw [h.data_free hy] at hd'
    cases hd'
  have hdisj : ∀ j, j ≠ i → ∀ y ∈ B j, y ∉ B i := by
    intro j hj y hy hyi
    obtain ⟨k₁, v₁, hd₁, rfl⟩ := (h.mem_chain j y).mp hy
    obtain ⟨k₂, v₂, hd₂, rfl⟩ := (h.mem_chain i y).mp hyi
    rw [hd₁] at hd₂
    obtain ⟨⟩ := hd₂
    exact hj rfl
  have haF : a ∉ F := fun hm => by
    rw [h.data_free hm] at hd
    cases hd
  refine ⟨fun j => ?_, fun j y => ?_, fun j => ?_, hext, fun y => ?_,
    fun x y k' v' w' hx hy => ?_, ⟨rfl, h.ne_zero hd, ?_⟩, ?_, fun y hy => ?_, fun k' v' => ?_, ?_,
    h.chunk⟩
  · rcases eq_or_ne j i with rfl | hj
    · rw [update_self]
      refine hchain.congr fun y hy => update_of_ne ?_ ..
      rintro rfl
      exact (h.nodup_chain j).not_mem_erase hy
    · rw [update_of_ne hj]
      change Links (update next a s.map.freeList) 0 (table j) (B j)
      rw [htable j hj]
      refine (h.chain j).congr fun y hy => ?_
      have hya : y ≠ a := ne_of_mem_of_not_mem hy fun hm => hj (haB j hm)
      rw [update_of_ne hya, hnext y (hdisj j hj y hy)]
  · change _ ↔ ∃ k' v', update s.mem.data a none y = some (k', v') ∧ _
    rcases eq_or_ne y a with rfl | hy
    · rw [update_self]
      have hnot : y ∉ update B i ((B i).erase y) j := by
        rcases eq_or_ne j i with rfl | hj
        · rw [update_self]
          exact (h.nodup_chain j).not_mem_erase
        · rw [update_of_ne hj]
          exact fun hm => hj (haB j hm)
      simp [hnot]
    · rw [update_of_ne hy]
      refine Iff.trans ?_ (h.mem_chain j y)
      rcases eq_or_ne j i with rfl | hj
      · rw [update_self, List.mem_erase_of_ne hy]
      · rw [update_of_ne hj]
  · rcases eq_or_ne j i with rfl | hj
    · rw [update_self]
      exact (h.nodup_chain j).erase a
    · rw [update_of_ne hj]
      exact h.nodup_chain j
  · change _ ↔ (update s.mem.data a none y).isSome
    rcases eq_or_ne y a with rfl | hy
    · rw [update_self]
      simp [hnd.not_mem_erase]
    · rw [update_of_ne hy, List.mem_erase_of_ne hy, h.live]
  · change update s.mem.data a none x = _ at hx
    change update s.mem.data a none y = _ at hy
    have hxa : x ≠ a := by
      rintro rfl
      rw [update_self] at hx
      cases hx
    have hya : y ≠ a := by
      rintro rfl
      rw [update_self] at hy
      cases hy
    rw [update_of_ne hxa] at hx
    rw [update_of_ne hya] at hy
    exact h.key x y k' v' w' hx hy
  · change Links (update next a s.map.freeList) 0 (update next a s.map.freeList a) F
    rw [update_self]
    refine h.free.congr fun y hy => ?_
    rw [update_of_ne (ne_of_mem_of_not_mem hy haF), hnext y (hFB y hy i)]
  · have hperm : (E.erase a ++ a :: F).Perm (E ++ F) :=
      List.perm_middle.trans ((List.perm_cons_erase haE).symm.append_right F)
    exact hperm.nodup_iff.mpr h.nodup
  · refine h.nodes y ?_
    rcases List.mem_append.mp hy with hy | hy
    · exact List.mem_append_left _ (List.mem_of_mem_erase hy)
    · rcases List.mem_cons.mp hy with rfl | hy
      · exact List.mem_append_left _ haE
      · exact List.mem_append_right _ hy
  · change _ ↔ ∃ y, update s.mem.data a none y = some (k', v')
    rcases eq_or_ne k' k with rfl | hk
    · rw [update_self]
      simp only [reduceCtorEq, false_iff, not_exists]
      intro y hy
      rcases eq_or_ne y a with rfl | hya
      · rw [update_self] at hy
        cases hy
      · rw [update_of_ne hya] at hy
        exact hya (h.key y a k' v' v hy hd)
    · rw [update_of_ne hk, h.model]
      refine exists_congr fun y => ?_
      rcases eq_or_ne y a with rfl | hya
      · simp [hd, hk.symm]
      · rw [update_of_ne hya]
  · change s.map.size - 1 = _
    rw [h.size, List.length_erase_of_mem haE]

/-- The chain past a node that is not its first. -/
theorem relinked (h : MapOk hash s f B E F) (hB : B i = l₁ ++ q :: a :: l₂) :
    Links (update s.mem.next q (s.mem.next a)) 0 (s.map.table i) ((B i).erase a) := by
  have hchain := h.chain i
  have hnd := h.nodup_chain i
  rw [hB] at hchain hnd ⊢
  have hassoc : l₁ ++ q :: a :: l₂ = (l₁ ++ [q]) ++ a :: l₂ := by simp
  have htail : Links s.mem.next 0 (s.mem.next a) l₂ := by
    rw [hassoc] at hchain
    exact hchain.tail_of_append
  obtain ⟨-, hnd₂, hdisj⟩ := List.nodup_append.mp hnd
  have hq₁ : q ∉ l₁ := fun hm => hdisj q hm q (by simp) rfl
  have hq₂ : q ∉ l₂ := fun hm => (List.nodup_cons.mp hnd₂).1 (by simp [hm])
  have ha : a ∉ l₁ ++ [q] := by
    rw [hassoc] at hnd
    exact fun hm => (List.nodup_append.mp hnd).2.2 a hm a (by simp) rfl
  have herase : (l₁ ++ q :: a :: l₂).erase a = l₁ ++ q :: l₂ := by
    rw [hassoc, List.erase_append_right _ ha, List.erase_cons_head, List.append_assoc]
    rfl
  rw [herase]
  refine hchain.splice ?_ fun y hy => update_of_ne (ne_of_mem_of_not_mem hy hq₁) ..
  rw [update_self]
  exact htail.congr fun y hy => update_of_ne (ne_of_mem_of_not_mem hy hq₂) ..

/-! ## The states `erase` leaves -/

/-- The node was found at the head of its chain. -/
def headErased (s : MapState K V) (a i b : ℕ) (p n : ℕ → ℕ) : MapState K V :=
  ((unlisted s a b p n).clearBucket i).remove a

/-- The node was found behind `q`. -/
def innerErased (s : MapState K V) (a q b : ℕ) (p n : ℕ → ℕ) : MapState K V :=
  MapState.remove { (unlisted s a b p n) with
    mem := { (unlisted s a b p n).mem with
      next := update s.mem.next q (s.mem.next a) } } a

theorem headErased_ok [DecidableEq K] (h : MapOk hash s f B E F) (hd : s.mem.data a = some (k, v))
    (hB : B (s.bucket hash k) = [a]) (hext : Buckets n p (fun _ : Unit => b) fun _ => E.erase a) :
    MapOk hash (headErased s a (s.bucket hash k) b p n) (update f k none)
      (update B (s.bucket hash k) ((B (s.bucket hash k)).erase a)) (E.erase a) (a :: F) := by
  refine h.erased hd rfl hext ?_ (fun _ _ => rfl) fun j hj => update_of_ne hj ..
  rw [hB, List.erase_cons_head]
  exact update_self ..

theorem innerErased_ok [DecidableEq K] (h : MapOk hash s f B E F) (hd : s.mem.data a = some (k, v))
    (hB : B (s.bucket hash k) = l₁ ++ q :: a :: l₂)
    (hext : Buckets n p (fun _ : Unit => b) fun _ => E.erase a) :
    MapOk hash (innerErased s a q b p n) (update f k none)
      (update B (s.bucket hash k) ((B (s.bucket hash k)).erase a)) (E.erase a) (a :: F) := by
  refine h.erased hd rfl hext (h.relinked hB) (fun y hy => update_of_ne ?_ ..)
    fun _ _ => rfl
  rintro rfl
  exact hy (by rw [hB]; simp)

variable [DecidableEq K]

/-! ## `erase(key)` -/

theorem findPrev_chain (h : MapOk hash s f B E F) (hd : s.mem.data a = some (k, v)) :
    ∃ l₁ l₂, B (s.bucket hash k) = l₁ ++ a :: l₂ ∧
      findPrev s.mem k s.nodes.length 0 (s.map.table (s.bucket hash k)) =
        some (l₁.getLastD 0, a) := by
  obtain ⟨l₁, l₂, n, hB, hp, hl, hn⟩ := h.exists_split hd
  refine ⟨l₁, l₂, hB, ?_⟩
  rw [hn, findPrev_walk hl hp, findPrev, if_neg (h.ne_zero hd), hd,
    Option.bind_some, if_pos rfl]

theorem erase_absent (h : MapOk hash s f B E F) (hf : f k = none) :
    s.erase hash k = some (0, s) := by
  obtain ⟨hp, n, hn⟩ := h.passes_chain hf (i := s.bucket hash k)
  simp only [erase, hn, findPrev_walk (h.chain _) hp, findPrev_zero,
    Option.bind_some, if_true]

/-- What `erase(key)` does with the node of the key, in terms of where it
is in its chain. -/
theorem erase_cases (h : MapOk hash s f B E F) (hd : s.mem.data a = some (k, v))
    (hu : (s.destroy a).removeFromExtList a = some (unlisted s a b p n)) :
    (s.map.table (s.bucket hash k) = a ∧ (∃ l₂, B (s.bucket hash k) = a :: l₂) ∧
      s.erase hash k = some (1, headErased s a (s.bucket hash k) b p n)) ∨
    (s.map.table (s.bucket hash k) ≠ a ∧ ∃ l₁ q l₂, B (s.bucket hash k) = l₁ ++ q :: a :: l₂ ∧
      s.erase hash k = some (1, innerErased s a q b p n)) := by
  obtain ⟨l₁, l₂, hB, hfind⟩ := h.findPrev_chain hd
  have ha0 := h.ne_zero hd
  have hchain := h.chain (s.bucket hash k)
  have hnd := h.nodup_chain (s.bucket hash k)
  rw [hB] at hchain hnd
  rcases List.eq_nil_or_concat l₁ with rfl | ⟨l₀, q, rfl⟩
  · refine Or.inl ⟨hchain.1, ⟨l₂, hB⟩, ?_⟩
    simp only [erase, hfind, Option.bind_some, if_neg ha0, hu, Option.map_some,
      List.getLastD_nil, if_true]
    rfl
  · rw [List.concat_eq_append, List.append_assoc] at hB hchain hnd
    have hq0 : q ≠ 0 := hchain.ne_end q (by simp)
    refine Or.inr ⟨fun hta => ?_, l₀, q, l₂, hB, ?_⟩
    · cases l₀ with
      | nil =>
        obtain rfl : q = a := hchain.1.symm.trans hta
        exact (List.nodup_cons.mp hnd).1 (by simp)
      | cons x xs =>
        obtain rfl : x = a := hchain.1.symm.trans hta
        exact (List.nodup_cons.mp hnd).1 (by simp)
    · simp only [erase, hfind, Option.bind_some, if_neg ha0, hu, Option.map_some,
        List.concat_eq_append, List.getLastD_concat, if_neg hq0]
      rfl

/-! ## `erase(it)` -/

section

variable (h : MapOk hash s f B E F) (hd : s.mem.data a = some (k, v))
  (hu : (s.destroy a).removeFromExtList a = some (unlisted s a b p n))

include h hd hu

/-- With the key's own hash, `erase(it)` leaves what `erase(key)` does. -/
theorem eraseIt_eq (hstale : s.bucket hash stale = s.bucket hash k) :
    (s.eraseIt hash a stale).map Prod.snd = (s.erase hash k).map Prod.snd := by
  have hnone : ¬ (s.mem.data a).isNone := by simp [hd]
  have hst : (unlisted s a b p n).bucket hash stale = s.bucket hash k := hstale
  rw [eraseIt, if_neg hnone]
  rcases h.erase_cases hd hu with ⟨hta, -, heq⟩ | ⟨hta, l₁, q, l₂, hB, heq⟩
  · have hfirst : (unlisted s a b p n).map.table (s.bucket hash k) = a := hta
    simp only [hu, Option.bind_some, hst, if_pos hfirst, heq, Option.map_some]
    rfl
  · have hchain := h.chain (s.bucket hash k)
    have hnd := h.nodup_chain (s.bucket hash k)
    have hlen := h.length_chain_le (i := s.bucket hash k)
    rw [hB] at hchain hnd hlen
    have hfirst : ¬ (unlisted s a b p n).map.table (s.bucket hash k) = a := hta
    have hfirst0 : ¬ (unlisted s a b p n).map.table (s.bucket hash k) = 0 := by
      change ¬ s.map.table (s.bucket hash k) = 0
      rw [hchain.head_eq_end_iff]
      simp
    -- the loop starts behind the first node of the chain
    obtain ⟨x, l, hx⟩ : ∃ x l, l₁ ++ [q] = x :: l := List.exists_cons_of_ne_nil (by simp)
    have hsplit : l₁ ++ q :: a :: l₂ = x :: (l ++ a :: l₂) := by
      rw [← List.cons_append, ← hx]
      simp
    have hlast : l.getLastD x = q := by
      rw [← List.getLastD_cons (a := 0), ← hx, List.getLastD_concat]
    rw [hsplit] at hchain hnd hlen
    have hal : a ∉ l := fun hm =>
      (List.nodup_append.mp (List.nodup_cons.mp hnd).2).2.2 a hm a (by simp) rfl
    have hloop : unlinkLoop s.mem.next a s.nodes.length x (s.mem.next x) =
        some (update s.mem.next q (s.mem.next a)) := by
      obtain ⟨j, hj⟩ : ∃ j, s.nodes.length = l.length + (j + 1) := by
        simp only [List.length_cons, List.length_append] at hlen
        exact ⟨s.nodes.length - l.length - 1, by omega⟩
      rw [hj, unlinkLoop_walk (hchain.2.2.upto hal) fun y hy =>
        ⟨hchain.ne_end y (by simp [hy]), ne_of_mem_of_not_mem hy hal⟩, unlinkLoop,
        if_neg (h.ne_zero hd), if_pos rfl, hlast]
    have hx' : (unlisted s a b p n).map.table (s.bucket hash k) = x := hchain.1
    simp only [hu, Option.bind_some, hst, if_neg hfirst, if_neg hfirst0, heq, Option.map_some]
    rw [hx']
    change Option.map Prod.snd (Option.map _
      (unlinkLoop s.mem.next a s.nodes.length x (s.mem.next x))) = _
    rw [hloop]
    rfl

omit [DecidableEq K] in
/-- With another hash it unlinks the node from no chain. -/
theorem eraseIt_astray (hstale : s.bucket hash stale ≠ s.bucket hash k)
    (ht : (s.eraseIt hash a stale).map Prod.snd = some t) : t = (unlisted s a b p n).remove a := by
  have hnone : ¬ (s.mem.data a).isNone := by simp [hd]
  have hnot : a ∉ B (s.bucket hash stale) := by
    intro hm
    obtain ⟨k', v', hd', hk'⟩ := (h.mem_chain _ a).mp hm
    rw [hd] at hd'
    obtain ⟨⟩ := hd'
    exact hstale hk'.symm
  have hchain := h.chain (s.bucket hash stale)
  have hlen := h.length_chain_le (i := s.bucket hash stale)
  have hst : (unlisted s a b p n).bucket hash stale = s.bucket hash stale := rfl
  rw [eraseIt, if_neg hnone] at ht
  simp only [hu, Option.bind_some, hst] at ht
  cases hB : B (s.bucket hash stale) with
  | nil =>
    rw [hB] at hchain
    have h0 : (unlisted s a b p n).map.table (s.bucket hash stale) = 0 := hchain
    rw [h0, if_neg (Ne.symm (h.ne_zero hd)), if_pos rfl] at ht
    cases ht
  | cons x l =>
    rw [hB] at hchain hlen hnot
    have hx : (unlisted s a b p n).map.table (s.bucket hash stale) = x := hchain.1
    have hxa : ¬ x = a := fun hxa => hnot (by simp [hxa])
    have hloop : unlinkLoop s.mem.next a s.nodes.length x (s.mem.next x) =
        some s.mem.next := by
      obtain ⟨j, hj⟩ : ∃ j, s.nodes.length = l.length + j := by
        simp only [List.length_cons] at hlen
        exact ⟨s.nodes.length - l.length, by omega⟩
      rw [hj, unlinkLoop_walk hchain.2.2 fun y hy =>
        ⟨hchain.ne_end y (by simp [hy]), fun hya => hnot (by simp [← hya, hy])⟩,
        unlinkLoop_zero]
    rw [hx, if_neg hxa, if_neg hchain.2.1] at ht
    change Option.map Prod.snd (Option.map _
      (unlinkLoop s.mem.next a s.nodes.length x (s.mem.next x))) = _ at ht
    rw [hloop] at ht
    exact (Option.some.inj ht).symm

end

/-- A dead node is left in its chain, where `find` comes across it. -/
theorem lookup_astray (h : MapOk hash s f B E F) (hd : s.mem.data a = some (k, v)) :
    ((unlisted s a b p n).remove a).lookup hash k = none := by
  obtain ⟨l₁, l₂, j, hB, hp, hl, hj⟩ := h.exists_split hd
  have hnd := h.nodup_chain (s.bucket hash k)
  rw [hB] at hnd
  have hal : ∀ x ∈ l₁, x ≠ a := fun x hx hxa =>
    (List.nodup_append.mp hnd).2.2 x hx a (by simp) hxa
  have hl' : Links ((unlisted s a b p n).remove a).mem.next a (s.map.table (s.bucket hash k)) l₁ :=
    hl.congr fun y hy => update_of_ne (hal y hy) ..
  have hp' : Passes ((unlisted s a b p n).remove a).mem k l₁ := by
    intro x hx
    obtain ⟨hx0, k', v', hd', hne⟩ := hp x hx
    exact ⟨hx0, k', v', (update_of_ne (hal x hx) ..).trans hd', hne⟩
  have hdead : ((unlisted s a b p n).remove a).mem.data a = none := update_self ..
  have hfind : ((unlisted s a b p n).remove a).find hash k = none := by
    change findNode ((unlisted s a b p n).remove a).mem k s.nodes.length
      (s.map.table (s.bucket hash k)) = none
    rw [hj, findNode_walk hl' hp', findNode_dead (h.ne_zero hd) hdead]
  rw [lookup, hfind]
  rfl

/-! ## Where `erase` is right -/

/-- The keys of a bucket whose first node is erased are all gone. -/
theorem lookup_headErased {k' : K} (hk : s.bucket hash k' = i) :
    (headErased s a i b p n).lookup hash k' = some none := by
  have hfind : (headErased s a i b p n).find hash k' = some 0 := by
    change findNode _ k' _ (update s.map.table i 0 (s.bucket hash k')) = some 0
    rw [hk, update_self, findNode_zero]
  rw [lookup, hfind, Option.bind_some, if_pos rfl]

/-- The node has a successor in the iteration list, and is the only one in
its bucket if it is the first. -/
def Safe (hash : K → ℕ) (s : MapState K V) (k : K) (a : ℕ) : Prop :=
  s.mem.extNext a ≠ 0 ∧ (s.map.table (s.bucket hash k) = a → s.mem.next a = 0)

section

variable (h : MapOk hash s f B E F) (hd : s.mem.data a = some (k, v))

include h hd

/-- **`erase(key)` is right** where the node is safe to erase. -/
theorem erase_ok (hsafe : Safe hash s k a) : ∃ t B' E' F', (s.erase hash k).map Prod.snd = some t ∧
      MapOk hash t (update f k none) B' E' F' ∧ t.map.size + 1 = s.map.size := by
  obtain ⟨b, p, n, hu, hext⟩ := h.removeFromExtList_ok hd hsafe.1
  have hpos : s.map.size - 1 + 1 = s.map.size := by
    have := List.length_pos_of_mem (h.live_of_data hd)
    have := h.size
    omega
  rcases h.erase_cases hd hu with ⟨hta, ⟨l₂, hB⟩, heq⟩ | ⟨-, l₁, q, l₂, hB, heq⟩
  · have hchain := h.chain (s.bucket hash k)
    rw [hB] at hchain
    obtain rfl : l₂ = [] := (hchain.2.2.head_eq_end_iff).mp (hsafe.2 hta)
    exact ⟨_, _, _, _, by rw [heq]; rfl, h.headErased_ok hd hB hext, hpos⟩
  · exact ⟨_, _, _, _, by rw [heq]; rfl, h.innerErased_ok hd hB hext, hpos⟩

/-- **And nowhere else.** -/
theorem safe_of_erase (ht : (s.erase hash k).map Prod.snd = some t)
    (hrep : t.Represents hash (update f k none)) : Safe hash s k a := by
  have hnext : s.mem.extNext a ≠ 0 := by
    intro h0
    obtain ⟨l₁, l₂, -, hfind⟩ := h.findPrev_chain hd
    simp only [erase, hfind, Option.bind_some, if_neg (h.ne_zero hd),
      removeFromExtList_none h0, Option.map_none, reduceCtorEq] at ht
  obtain ⟨b, p, n, hu, -⟩ := h.removeFromExtList_ok hd hnext
  refine ⟨hnext, fun hta => ?_⟩
  rcases h.erase_cases hd hu with ⟨-, ⟨l₂, hB⟩, heq⟩ | ⟨hta', -⟩
  · have hchain := h.chain (s.bucket hash k)
    have hnd := h.nodup_chain (s.bucket hash k)
    rw [hB] at hchain hnd
    cases l₂ with
    | nil => exact hchain.2.2
    | cons y l =>
      -- the key of the second node is lost
      obtain ⟨k', v', hd', hk'⟩ := (h.mem_chain (s.bucket hash k) y).mp (by rw [hB]; simp)
      have hne : k' ≠ k := by
        rintro rfl
        exact (List.nodup_cons.mp hnd).1 (by simp [h.key a y k' v v' hd hd'])
      rw [heq] at ht
      obtain ⟨⟩ := ht
      have hlook := hrep.lookup k'
      rw [lookup_headErased hk', update_of_ne hne, (h.model k' v').mpr ⟨y, hd'⟩] at hlook
      cases hlook
  · exact absurd hta hta'

theorem eraseIt_ok (hsafe : Safe hash s k a) (hstale : s.bucket hash stale = s.bucket hash k) :
    ∃ t B' E' F', (s.eraseIt hash a stale).map Prod.snd = some t ∧
      MapOk hash t (update f k none) B' E' F' ∧ t.map.size + 1 = s.map.size := by
  obtain ⟨b, p, n, hu, -⟩ := h.removeFromExtList_ok hd hsafe.1
  rw [h.eraseIt_eq hd hu hstale]
  exact h.erase_ok hd hsafe

theorem safe_of_eraseIt (ht : (s.eraseIt hash a stale).map Prod.snd = some t)
    (hrep : t.Represents hash (update f k none)) :
    Safe hash s k a ∧ s.bucket hash stale = s.bucket hash k := by
  have hnext : s.mem.extNext a ≠ 0 := by
    intro h0
    have hnone : ¬ (s.mem.data a).isNone := by simp [hd]
    rw [eraseIt, if_neg hnone] at ht
    simp only [removeFromExtList_none h0, Option.bind_none, Option.map_none, reduceCtorEq] at ht
  obtain ⟨b, p, n, hu, -⟩ := h.removeFromExtList_ok hd hnext
  have hstale : s.bucket hash stale = s.bucket hash k := by
    by_contra hne
    have hlook := hrep.lookup k
    rw [h.eraseIt_astray hd hu hne ht, h.lookup_astray hd] at hlook
    cases hlook
  rw [h.eraseIt_eq hd hu hstale] at ht
  exact ⟨h.safe_of_erase hd ht hrep, hstale⟩

end

end MapOk

end ShmDos64
