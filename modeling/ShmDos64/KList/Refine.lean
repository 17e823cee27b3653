import ShmDos64.Common.Buckets
import ShmDos64.KList.Model
/-!
# `klist` is a sequence

`KListOk` ties a list's links to the sequence it stands for: the nodes
from `m_begin_item` hold the elements, those from `m_free_list` the rest
of the areas. Only the back links past the first node and the end cursor
of a list that has nodes are right: what the cursor of an emptied list
holds is left open, since the source leaves a dead node in it.
-/

namespace ShmDos64

open Function (update update_of_ne update_self)
open KList

variable {T : Type*}

/-- The list `k` has the nodes `L`, which hold `xs`, and the free nodes
`F`. -/
structure KListOk (m : NodeMem T) (k : KList) (L F : List ℕ) (xs : List T) : Prop where
  chain : Links m.next 0 k.beginItem L
  back : BackLinks m.prev L
  last : ∀ x ∈ L.getLast?, k.endItem = x
  free : Links m.next 0 k.freeList F
  perm : (L ++ F).Perm k.nodes
  nodup : k.nodes.Nodup
  null : 0 ∉ k.nodes
  items : L.map m.item = xs.map some
  size : 0 < k.curArSize ∧ 0 < k.maxSize

namespace KListOk

variable {m m' : NodeMem T} {k : KList} {L F l₁ l₂ : List ℕ} {xs : List T} {a c : ℕ}

section

variable (h : KListOk m k L F xs)

include h

theorem nodup_nodes : (L ++ F).Nodup := h.perm.nodup_iff.mpr h.nodup

theorem mem_nodes (ha : a ∈ L ++ F) : a ∈ k.nodes := h.perm.mem_iff.mp ha

theorem ne_zero (ha : a ∈ L ++ F) : a ≠ 0 := by
  rintro rfl
  exact h.null (h.mem_nodes ha)

theorem notMem_free (ha : a ∈ L) : a ∉ F :=
  List.disjoint_of_nodup_append h.nodup_nodes ha

/-- A list reads only its own nodes. -/
theorem congr (heq : ∀ a ∈ k.nodes, m'.item a = m.item a ∧
    m'.next a = m.next a ∧ m'.prev a = m.prev a) : KListOk m' k L F xs where
  chain := h.chain.congr fun y hy => (heq y (h.mem_nodes (List.mem_append_left _ hy))).2.1
  back := h.back.congr fun y hy =>
    (heq y (h.mem_nodes (List.mem_append_left _ (List.mem_of_mem_tail hy)))).2.2
  last := h.last
  free := h.free.congr fun y hy => (heq y (h.mem_nodes (List.mem_append_right _ hy))).2.1
  perm := h.perm
  nodup := h.nodup
  null := h.null
  items := by
    rw [← h.items]
    exact List.map_congr_left fun y hy => (heq y (h.mem_nodes (List.mem_append_left _ hy))).1
  size := h.size

end

/-- The elements of a list split where its nodes do. -/
theorem items_append (h : KListOk m k (l₁ ++ c :: l₂) F xs) : ∃ ys x zs, xs = ys ++ x :: zs ∧
    ys.length = l₁.length ∧ m.item c = some x ∧ l₁.map m.item = ys.map some ∧
    l₂.map m.item = zs.map some := by
  have hitems := h.items
  rw [List.map_append, eq_comm, List.map_eq_append_iff] at hitems
  obtain ⟨ys, ws, rfl, hys, hws⟩ := hitems
  rw [List.map_cons, List.map_eq_cons_iff] at hws
  obtain ⟨x, zs, rfl, hx, hzs⟩ := hws
  refine ⟨ys, x, zs, rfl, ?_, hx.symm, hys.symm, hzs.symm⟩
  have := congrArg List.length hys
  simpa using this

theorem beginItem_eq (h : KListOk m k (c :: l₂) F xs) : k.beginItem = c := h.chain.1

/-- The node is destroyed and put on the free list. -/
def freed (m : NodeMem T) (k : KList) (c : ℕ) : NodeMem T :=
  (m.setItem c none).setNext c k.freeList

theorem freed_next (hac : a ≠ c) : (freed m k c).next a = m.next a := update_of_ne hac _ _

theorem freed_item (hac : a ≠ c) : (freed m k c).item a = m.item a := update_of_ne hac _ _

theorem links_freed (h : KListOk m k L F xs) (hc : c ∈ L) :
    Links (freed m k c).next 0 c (c :: F) := by
  refine ⟨rfl, h.ne_zero (List.mem_append_left _ hc), ?_⟩
  rw [show (freed m k c).next c = k.freeList from update_self ..]
  exact h.free.congr fun y hy => freed_next (ne_of_mem_of_not_mem hy (h.notMem_free hc))

/-- **The first node is removed.** The cursor of the end stays, unless no
node is left. -/
theorem dropFirst {e' : ℕ} {x : T} (h : KListOk m k (c :: l₂) F (x :: xs))
    (he : l₂ ≠ [] → e' = k.endItem) :
    KListOk (freed m k c) { k with freeList := c, endItem := e', beginItem := m.next c } l₂ (c :: F)
      xs := by
  have hnd := h.nodup_nodes
  rw [List.cons_append, List.nodup_cons, List.mem_append, not_or] at hnd
  have hne : ∀ y ∈ l₂, y ≠ c := fun y hy => ne_of_mem_of_not_mem hy hnd.1.1
  refine ⟨?_, h.back.tail, fun y hy => ?_, h.links_freed (by simp), ?_, h.nodup, h.null, ?_, h.size⟩
  · exact h.chain.2.2.congr fun y hy => freed_next (hne y hy)
  · have hl₂ : l₂ ≠ [] := by
      rintro rfl
      cases hy
    rw [he hl₂]
    exact h.last y (by rw [List.getLast?_cons_of_ne_nil hl₂]; exact hy)
  · exact (List.perm_middle).trans h.perm
  · rw [← (List.cons.inj h.items).2]
    exact List.map_congr_left fun y hy => freed_item (hne y hy)

/-- The node between `p` and `q` is unlinked; `q` is null at the end. -/
def unlinked (m : NodeMem T) (k : KList) (p c : ℕ) : NodeMem T :=
  let m' := (freed m k c).setNext p (m.next c)
  if m.next c ≠ 0 then m'.setPrev (m.next c) p else m'

variable {p : ℕ}

theorem unlinked_item : (unlinked m k p c).item = (freed m k c).item := by
  unfold unlinked
  simp only
  split <;> rfl

theorem unlinked_next :
    (unlinked m k p c).next = update (freed m k c).next p (m.next c) := by
  unfold unlinked
  simp only
  split <;> rfl

theorem unlinked_prev : (unlinked m k p c).prev =
    if m.next c ≠ 0 then update m.prev (m.next c) p else m.prev := by
  unfold unlinked
  simp only
  split <;> rfl

/-- **A node past the first is removed.** -/
theorem dropInner {p e' : ℕ} {ys zs : List T} {x : T}
    (h : KListOk m k (l₁ ++ p :: c :: l₂) F (ys ++ x :: zs)) (hlen : ys.length = l₁.length + 1)
    (he : e' = if l₂ = [] then p else k.endItem) :
    KListOk (unlinked m k p c) { k with freeList := c, endItem := e' } (l₁ ++ p :: l₂) (c :: F)
      (ys ++ zs) := by
  have hnd := h.nodup_nodes
  have hcL : c ∈ l₁ ++ p :: c :: l₂ := by simp
  have hperm : (l₁ ++ p :: c :: l₂).Perm (c :: (l₁ ++ p :: l₂)) := by
    have hmid : ((l₁ ++ [p]) ++ c :: l₂).Perm (c :: ((l₁ ++ [p]) ++ l₂)) := List.perm_middle
    simpa using hmid
  have hndL := (List.nodup_append.mp hnd).1
  obtain ⟨hcn, hndL'⟩ := List.nodup_cons.mp (hperm.nodup_iff.mp hndL)
  have hne : ∀ y ∈ l₁ ++ p :: l₂, y ≠ c := fun y hy => ne_of_mem_of_not_mem hy hcn
  have hnep : ∀ y ∈ l₁ ++ l₂, y ≠ p := by
    have hp : p ∉ l₁ ++ l₂ := (List.nodup_middle.mp hndL').notMem
    exact fun y hy => ne_of_mem_of_not_mem hy hp
  have hpF : p ∉ c :: F := by
    rw [List.mem_cons, not_or]
    exact ⟨hne p (by simp), h.notMem_free (by simp)⟩
  have hlinks : Links m.next 0 k.beginItem ((l₁ ++ [p]) ++ c :: l₂) := by simpa using h.chain
  refine ⟨?_, ?_, ?_, ?_, ?_, h.nodup, h.null, ?_, h.size⟩
  · refine h.chain.splice ?_ fun y hy => ?_
    · rw [unlinked_next, update_self]
      refine hlinks.tail_of_append.congr fun y hy => ?_
      rw [update_of_ne (hnep y (by simp [hy])), freed_next (hne y (by simp [hy]))]
    · rw [unlinked_next, update_of_ne (hnep y (by simp [hy])),
        freed_next (hne y (by simp [hy]))]
  · have hback : BackLinks m.prev ((l₁ ++ [p]) ++ c :: l₂) := by simpa using h.back
    have hfront : BackLinks m.prev (l₁ ++ [p]) := (List.isChain_append.mp hback).1
    have hrest := BackLinks.tail (List.isChain_append.mp hback).2.1
    rw [unlinked_prev]
    rcases l₂ with _ | ⟨n, l₃⟩
    · have hnull : m.next c = 0 := hlinks.tail_of_append
      rw [if_neg (not_not.mpr hnull)]
      exact hfront
    · rw [hlinks.tail_of_append.1, if_pos hlinks.tail_of_append.2.1]
      have hnn : n ∉ l₁ ++ [p] ∧ n ∉ l₃ := by
        have hn : ((l₁ ++ [p]) ++ n :: l₃).Nodup := by simpa using hndL'
        have hn' := (List.nodup_middle.mp hn).notMem
        rw [List.mem_append, not_or] at hn'
        exact hn'
      have hchain : BackLinks (update m.prev n p) ((l₁ ++ [p]) ++ n :: l₃) := by
        refine List.isChain_append.mpr ⟨hfront.congr fun y hy => ?_, hrest.congr fun y hy => ?_, ?_⟩
        · exact update_of_ne (ne_of_mem_of_not_mem (List.mem_of_mem_tail hy) hnn.1) _ _
        · exact update_of_ne (ne_of_mem_of_not_mem hy hnn.2) _ _
        · intro y hy z hz
          obtain rfl : p = y := by simpa using hy
          obtain rfl : n = z := by simpa using hz
          exact update_self ..
      simpa using hchain
  · intro y hy
    rw [he]
    rcases l₂ with _ | ⟨n, l₃⟩
    · simpa using hy
    · rw [if_neg (by simp)]
      refine h.last y ?_
      simpa using hy
  · rw [unlinked_next]
    exact (h.links_freed hcL).congr fun y hy =>
      update_of_ne (ne_of_mem_of_not_mem hy hpF) _ _
  · refine List.Perm.trans ?_ h.perm
    exact List.perm_middle.trans (hperm.symm.append_right F)
  · have hitems : (l₁ ++ [p]).map m.item ++ m.item c :: l₂.map m.item =
        ys.map some ++ some x :: zs.map some := by simpa using h.items
    obtain ⟨hfst, hsnd⟩ := List.append_inj hitems (by simp [hlen])
    have hsame : (l₁ ++ p :: l₂).map (unlinked m k p c).item =
        (l₁ ++ [p]).map m.item ++ l₂.map m.item := by
      rw [unlinked_item, ← List.map_append, List.append_assoc, List.singleton_append]
      exact List.map_congr_left fun y hy => freed_item (hne y hy)
    rw [hsame, hfst, (List.cons.inj hsnd).2, List.map_append]

/-! ## `erase` and `pop_front` -/

theorem item_isNone (h : KListOk m k L F xs) (hc : c ∈ L) : ¬ (m.item c).isNone := by
  obtain ⟨l₁, l₂, rfl⟩ := List.append_of_mem hc
  obtain ⟨ys, x, zs, -, -, hx, -⟩ := h.items_append
  simp [hx]

/-- The end of a list that goes on after `c` is past `c`. -/
theorem endItem_mem (h : KListOk m k (l₁ ++ l₂) F xs) (hl₂ : l₂ ≠ []) : k.endItem ∈ l₂ := by
  have hlast : l₂.getLast hl₂ ∈ (l₁ ++ l₂).getLast? := by
    rw [List.getLast?_append_of_ne_nil _ hl₂, List.getLast?_eq_some_getLast hl₂]
    rfl
  rw [h.last _ hlast]
  exact List.getLast_mem hl₂

theorem endItem_ne (h : KListOk m k (l₁ ++ c :: l₂) F xs) (hl₂ : l₂ ≠ []) : k.endItem ≠ c := by
  have hnd := (List.nodup_append.mp h.nodup_nodes).1
  have hc : c ∉ l₂ := (List.nodup_cons.mp (List.nodup_append.mp hnd).2.1).1
  have h' : KListOk m k ((l₁ ++ [c]) ++ l₂) F xs := by simpa using h
  exact ne_of_mem_of_not_mem (h'.endItem_mem hl₂) hc

theorem beginItem_mem (h : KListOk m k (l₁ ++ l₂) F xs) (hl₁ : l₁ ≠ []) : k.beginItem ∈ l₁ := by
  obtain ⟨b, l, rfl⟩ := List.exists_cons_of_ne_nil hl₁
  rw [h.chain.1]
  exact List.mem_cons_self ..

/-- The first node is removed, and the end cursor is set to `e` if it was
there. -/
theorem dropHead (h : KListOk m k (c :: l₂) F xs) (e : ℕ) :
    KListOk (freed m k c) { k with
      freeList := c
      endItem := if k.endItem = c then e else k.endItem
      beginItem := m.next c } l₂ (c :: F) xs.tail := by
  have h' : KListOk m k ([] ++ c :: l₂) F xs := h
  obtain ⟨ys, x, zs, rfl, hys, -⟩ := h'.items_append
  obtain rfl := List.eq_nil_of_length_eq_zero hys
  exact h.dropFirst fun hl₂ => if_neg (h'.endItem_ne hl₂)

/-- `erase` of the first node, through an iterator of its own. -/
theorem erase_first (h : KListOk m k (c :: l₂) F xs) :
    ∃ k', k.erase m c false = some (m.next c, freed m k c, k') ∧
      KListOk (freed m k c) k' l₂ (c :: F) xs.tail ∧ k'.nodes = k.nodes := by
  have hnone := h.item_isNone (List.mem_cons_self ..)
  obtain rfl : c = k.beginItem := h.beginItem_eq.symm
  refine ⟨_, ?_, h.dropHead (m.prev k.beginItem), rfl⟩
  unfold erase
  rw [if_neg hnone]
  by_cases he : k.endItem = k.beginItem <;>
    simp [he, freed, NodeMem.setNext, NodeMem.setItem]

/-- `pop_front`. -/
theorem popFront_ok (h : KListOk m k (c :: l₂) F xs) : ∃ k', k.popFront m = some (freed m k c, k') ∧
      KListOk (freed m k c) k' l₂ (c :: F) xs.tail ∧ k'.nodes = k.nodes := by
  have hnone := h.item_isNone (List.mem_cons_self ..)
  obtain rfl : c = k.beginItem := h.beginItem_eq.symm
  refine ⟨_, ?_, h.dropHead 0, rfl⟩
  unfold popFront
  rw [if_neg hnone]
  by_cases he : k.endItem = k.beginItem <;>
    simp [he, freed, NodeMem.setNext, NodeMem.setItem]

/-- `erase` of a node past the first. Through the end cursor itself, only
past the second. -/
theorem erase_inner {atEnd : Bool} (h : KListOk m k (l₁ ++ p :: c :: l₂) F xs)
    (hend : atEnd → k.endItem = c ∧ p ≠ k.beginItem) :
    ∃ k', k.erase m c atEnd = some (m.next c, unlinked m k p c, k') ∧
      KListOk (unlinked m k p c) k' (l₁ ++ p :: l₂) (c :: F) (xs.eraseIdx (l₁.length + 1)) ∧
      k'.nodes = k.nodes := by
  have hl : l₁ ++ p :: c :: l₂ = (l₁ ++ [p]) ++ c :: l₂ := by simp
  have h' := h
  rw [hl] at h'
  obtain ⟨ys, x, zs, rfl, hys, -⟩ := h'.items_append
  rw [List.length_append, List.length_singleton] at hys
  have hnone := h'.item_isNone (List.mem_append_right _ (List.mem_cons_self ..))
  have hprev : m.prev c = p := h.back.prev_eq_of_append
  have hp0 : p ≠ 0 := h.ne_zero (by simp)
  have hcb : c ≠ k.beginItem := by
    have hc : c ∉ l₁ ++ [p] := fun hm =>
      List.disjoint_of_nodup_append (List.nodup_append.mp h'.nodup_nodes).1 hm
        (List.mem_cons_self ..)
    exact (ne_of_mem_of_not_mem (h'.beginItem_mem (by simp)) hc).symm
  -- the end cursor moves back if the node was the last
  have hlast : k.endItem = c ↔ l₂ = [] := by
    constructor
    · intro he
      by_contra hl₂
      exact h'.endItem_ne hl₂ he
    · rintro rfl
      exact List.mem_singleton.mp (h'.endItem_mem (by simp))
  refine ⟨{ k with
    freeList := c
    endItem := if l₂ = [] then p else k.endItem }, ?_, ?_, rfl⟩
  · have hit : (if atEnd then (if l₂ = [] then p else k.endItem) else c) ≠ k.beginItem := by
      cases atEnd with
      | false => simpa using hcb
      | true => simpa [hlast.mp (hend rfl).1] using (hend rfl).2
    unfold erase
    rw [if_neg hnone]
    by_cases hl₂ : l₂ = []
    · have he := hlast.mpr hl₂
      rw [if_pos hl₂] at hit
      simp [he, hl₂, hprev, hp0, hit, freed, unlinked, NodeMem.setNext, NodeMem.setItem,
        NodeMem.setPrev]
    · have he := mt hlast.mp hl₂
      rw [if_neg hl₂] at hit
      simp [he, hl₂, hprev, hp0, hit, freed, unlinked, NodeMem.setNext, NodeMem.setItem,
        NodeMem.setPrev]
  · have herase : (ys ++ x :: zs).eraseIdx (l₁.length + 1) = ys ++ zs := by
      rw [← hys, List.eraseIdx_append_of_length_le (le_refl _)]
      simp
    rw [herase]
    exact h.dropInner hys rfl

theorem getLast_of_mem (h : KListOk m k L F xs) (hL : L ≠ []) : ∃ l, L = l ++ [k.endItem] := by
  obtain ⟨l, e, rfl⟩ := (List.eq_nil_or_concat' L).resolve_left hL
  exact ⟨l, by rw [h.last e (by simp)]⟩

/-- The two memories differ at the nodes of `N` at most. -/
def SameOff (m m' : NodeMem T) (N : List ℕ) : Prop :=
  ∀ a, a ∉ N → m'.item a = m.item a ∧ m'.next a = m.next a ∧ m'.prev a = m.prev a

variable {N : List ℕ}

theorem SameOff.refl : SameOff m m N := fun _ _ => ⟨rfl, rfl, rfl⟩

theorem SameOff.trans {m₁ m₂ m₃ : NodeMem T} (h : SameOff m₁ m₂ N)
    (h' : SameOff m₂ m₃ N) : SameOff m₁ m₃ N := fun a ha =>
  ⟨(h' a ha).1.trans (h a ha).1, (h' a ha).2.1.trans (h a ha).2.1,
    (h' a ha).2.2.trans (h a ha).2.2⟩

theorem sameOff_freed (hc : c ∈ N) : SameOff m (freed m k c) N := by
  intro a ha
  have hac : a ≠ c := fun h => ha (h ▸ hc)
  exact ⟨freed_item hac, freed_next hac, rfl⟩

theorem sameOff_unlinked (hc : c ∈ N) (hp : p ∈ N)
    (hn : m.next c ≠ 0 → m.next c ∈ N) : SameOff m (unlinked m k p c) N := by
  intro a ha
  have hac : a ≠ c := fun h => ha (h ▸ hc)
  have hap : a ≠ p := fun h => ha (h ▸ hp)
  rw [unlinked_item, unlinked_next, unlinked_prev, update_of_ne hap]
  refine ⟨freed_item hac, freed_next hac, ?_⟩
  split
  · rename_i h0
    exact update_of_ne (ne_of_mem_of_not_mem (hn h0) ha).symm _ _
  · rfl

/-- **`erase`** of any node of the list, through an iterator of its own. -/
theorem erase_ok (h : KListOk m k (l₁ ++ c :: l₂) F xs) :
    ∃ m' k', k.erase m c false = some (m.next c, m', k') ∧
      KListOk m' k' (l₁ ++ l₂) (c :: F) (xs.eraseIdx l₁.length) ∧ k'.nodes = k.nodes ∧
      SameOff m m' k.nodes := by
  have hc : c ∈ k.nodes := h.mem_nodes (by simp)
  rcases List.eq_nil_or_concat' l₁ with rfl | ⟨l, p, rfl⟩
  · have h' : KListOk m k (c :: l₂) F xs := h
    obtain ⟨k', heq, hok, hn⟩ := h'.erase_first
    refine ⟨_, k', heq, ?_, hn, sameOff_freed hc⟩
    rw [List.length_nil, List.eraseIdx_zero]
    exact hok
  · have h' : KListOk m k (l ++ p :: c :: l₂) F xs := by simpa using h
    have hend : false = true → k.endItem = c ∧ p ≠ k.beginItem := by simp
    obtain ⟨k', heq, hok, hn⟩ := h'.erase_inner hend
    refine ⟨_, k', heq, ?_, hn, sameOff_unlinked hc (h'.mem_nodes (by simp)) fun h0 => ?_⟩
    · simpa using hok
    · exact h'.mem_nodes (List.mem_append_left _ ((h'.chain.next_mem (by simp)).resolve_left h0))

/-- `erase` through the end cursor, of a list of three nodes or more. -/
theorem eraseEnd_ok (h : KListOk m k L F xs) (hL : L ≠ []) (hone : k.endItem ≠ k.beginItem)
    (htwo : m.prev k.endItem ≠ k.beginItem) :
    ∃ m' k' L', k.erase m k.endItem true = some (m.next k.endItem, m', k') ∧
      KListOk m' k' L' (k.endItem :: F) xs.dropLast ∧ k'.nodes = k.nodes ∧
      SameOff m m' k.nodes := by
  obtain ⟨l, hl⟩ := h.getLast_of_mem hL
  rcases List.eq_nil_or_concat' l with rfl | ⟨l, p, rfl⟩
  · rw [hl] at h
    exact absurd h.beginItem_eq.symm hone
  · have h' : KListOk m k (l ++ p :: k.endItem :: []) F xs := by simpa [hl] using h
    have hprev : m.prev k.endItem = p := h'.back.prev_eq_of_append
    have hend : true = true → k.endItem = k.endItem ∧ p ≠ k.beginItem := fun _ =>
      ⟨rfl, hprev ▸ htwo⟩
    obtain ⟨k', heq, hok, hn⟩ := h'.erase_inner hend
    have hlen : xs.length = l.length + 2 := by
      simpa using (congrArg List.length h'.items).symm
    rw [← List.dropLast_eq_eraseIdx (by omega)] at hok
    refine ⟨_, k', _, heq, hok, hn, sameOff_unlinked (h'.mem_nodes (by simp))
      (h'.mem_nodes (by simp)) fun h0 => ?_⟩
    exact h'.mem_nodes (List.mem_append_left _ ((h'.chain.next_mem (by simp)).resolve_left h0))

end KListOk

/-! ## `push_back` -/

namespace NodeMem

variable {m : NodeMem T} {it a n : ℕ}

theorem linkRegion_item : (m.linkRegion it n).item = m.item := by
  induction n generalizing m it with
  | zero => rfl
  | succ n ih => exact ih

theorem linkRegion_prev : (m.linkRegion it n).prev = m.prev := by
  induction n generalizing m it with
  | zero => rfl
  | succ n ih => exact ih

theorem next_linkRegion : (m.linkRegion it n).next = linkRange m.next it n := by
  induction n generalizing m it with
  | zero => rfl
  | succ n ih => exact ih

theorem linkRegion_next (ha : a < it ∨ it + n < a) : (m.linkRegion it n).next a = m.next a := by
  rw [next_linkRegion, linkRange_of_lt_or_lt ha]

/-- The nodes of a new area, in order. -/
theorem links_linkRegion (hit : it ≠ 0) :
    Links (m.linkRegion it n).next 0 it (List.range' it (n + 1)) := by
  rw [next_linkRegion]
  exact links_linkRange hit

end NodeMem

namespace KListOk

variable {m m' : NodeMem T} {k : KList} {L F : List ℕ} {xs : List T} {a c ar : ℕ}

/-- The size of the areas is all that grows. -/
theorem exists_grow (h : 0 < k.curArSize ∧ 0 < k.maxSize) :
    ∃ n, 0 < n ∧ k.grow = { k with curArSize := n } := by
  unfold grow
  split
  · refine ⟨_, ?_, rfl⟩
    split <;> omega
  · exact ⟨_, h.1, rfl⟩

/-- A new area, when the free list is empty. -/
theorem refill (h : KListOk m k L [] xs) (har : ar ≠ 0)
    (hfresh : ∀ a ∈ k.nodes, a < ar ∨ ar + k.curArSize ≤ a) :
    ∃ k', (k.addFreeRegion m ar k.curArSize).2.grow = k' ∧
      KListOk (m.linkRegion ar (k.curArSize - 1)) k' L (List.range' ar k.curArSize) xs ∧
      k'.nodes = k.nodes ++ List.range' ar k.curArSize ∧ k'.freeList = ar ∧
      k'.beginItem = k.beginItem ∧ k'.endItem = k.endItem := by
  obtain ⟨n, hn, hgrow⟩ := exists_grow (k := (k.addFreeRegion m ar k.curArSize).2) h.size
  have hsize := h.size.1
  have hsub : k.curArSize - 1 + 1 = k.curArSize := by omega
  have hout : ∀ a ∈ k.nodes, (m.linkRegion ar (k.curArSize - 1)).next a = m.next a := by
    intro a ha
    have := hfresh a ha
    exact NodeMem.linkRegion_next (by omega)
  have hnodes : ∀ n, ({ k.addFreeRegion m ar k.curArSize |>.2 with curArSize := n } : KList).nodes =
      k.nodes ++ List.range' ar k.curArSize := by
    intro n
    simp [nodes, addFreeRegion]
  refine ⟨_, hgrow, ⟨?_, ?_, h.last, ?_, ?_, ?_, ?_, ?_, hn, h.size.2⟩, hnodes n, rfl, rfl, rfl⟩
  · exact h.chain.congr fun y hy => hout y (h.mem_nodes (List.mem_append_left _ hy))
  · rw [NodeMem.linkRegion_prev]
    exact h.back
  · have hlinks : Links (m.linkRegion ar (k.curArSize - 1)).next 0 ar
        (List.range' ar (k.curArSize - 1 + 1)) := NodeMem.links_linkRegion har
    rw [hsub] at hlinks
    exact hlinks
  · rw [hnodes]
    have hperm := h.perm
    rw [List.append_nil] at hperm
    exact hperm.append_right _
  · rw [hnodes]
    refine List.nodup_append.mpr ⟨h.nodup, List.nodup_range', fun a ha b hb => ?_⟩
    have := hfresh a ha
    have := List.mem_range'_1.mp hb
    omega
  · rw [hnodes, List.mem_append, not_or]
    refine ⟨h.null, fun h0 => ?_⟩
    have := List.mem_range'_1.mp h0
    omega
  · rw [NodeMem.linkRegion_item]
    exact h.items

section

variable (h : KListOk m k L (c :: F) xs) (hcur : ¬ (k.beginItem = 0 ∧ k.endItem ≠ 0))

include h hcur

/-- **A free node is appended**, unless the end cursor of an empty list
was left on a dead node. -/
theorem append {x : T} :
    KListOk ({ k with freeList := m.next c }.appendNode (m.setItem c (some x)) c).1
      ({ k with freeList := m.next c }.appendNode (m.setItem c (some x)) c).2 (L ++ [c]) F
      (xs ++ [x]) := by
  have hnd := h.nodup_nodes
  have hcL : c ∉ L := fun hm => List.disjoint_of_nodup_append hnd hm (List.mem_cons_self ..)
  have hcF : c ∉ F := (List.nodup_cons.mp (List.nodup_append.mp hnd).2.1).1
  have hc0 : c ≠ 0 := h.ne_zero (by simp)
  have hperm : ((L ++ [c]) ++ F).Perm k.nodes := by simpa using h.perm
  have hitems : (L ++ [c]).map (update m.item c (some x)) = (xs ++ [x]).map some := by
    rw [List.map_append, List.map_append, ← h.items]
    refine congrArg₂ _ (List.map_congr_left fun y hy => ?_) (by simp)
    exact update_of_ne (ne_of_mem_of_not_mem hy hcL) _ _
  unfold appendNode
  by_cases he : k.endItem = 0
  · -- the list is empty
    have hL : L = [] := by
      by_contra hL
      obtain ⟨l, hl⟩ := h.getLast_of_mem hL
      exact h.ne_zero (a := k.endItem) (by rw [hl]; simp) he
    subst hL
    rw [if_pos he]
    refine ⟨⟨rfl, hc0, update_self ..⟩, .singleton _, by simp, ?_, hperm, h.nodup, h.null,
      hitems, h.size⟩
    exact h.free.2.2.congr fun y hy => update_of_ne (ne_of_mem_of_not_mem hy hcF) _ _
  · have hL : L ≠ [] := by
      rintro rfl
      exact hcur ⟨h.chain, he⟩
    obtain ⟨l, hl⟩ := h.getLast_of_mem hL
    have heL : k.endItem ∈ L := by rw [hl]; simp
    have hce : c ≠ k.endItem := ne_of_mem_of_not_mem heL hcL |>.symm
    have hne : ∀ y ∈ l, y ≠ k.endItem := by
      have hndL := (List.nodup_append.mp hnd).1
      rw [hl] at hndL
      intro y hy hye
      exact List.disjoint_of_nodup_append hndL hy (by simp [hye])
    rw [if_neg he]
    refine ⟨?_, ?_, by simp, ?_, hperm, h.nodup, h.null, hitems, h.size⟩
    · have hchain := h.chain
      rw [hl] at hchain ⊢
      rw [List.append_assoc, List.singleton_append]
      refine hchain.splice ?_ fun y hy => ?_
      · simp only [NodeMem.setNext, NodeMem.setPrev, NodeMem.setItem, update_self]
        exact ⟨rfl, hc0, by simp [hce]⟩
      · have hyc : y ≠ c := ne_of_mem_of_not_mem (by rw [hl]; simp [hy]) hcL
        simp [NodeMem.setNext, NodeMem.setPrev, NodeMem.setItem, hne y hy, hyc]
    · refine List.isChain_append.mpr ⟨BackLinks.congr h.back fun y hy => ?_, .singleton _, ?_⟩
      · exact update_of_ne (ne_of_mem_of_not_mem (List.mem_of_mem_tail hy) hcL) _ _
      · intro y hy z hz
        obtain rfl : c = z := by simpa using hz
        rw [← h.last y hy]
        exact update_self ..
    · refine h.free.2.2.congr fun y hy => ?_
      have hyc : y ≠ c := ne_of_mem_of_not_mem hy hcF
      have hye : y ≠ k.endItem := by
        rintro rfl
        exact h.notMem_free heL (by simp [hy])
      simp [NodeMem.setNext, NodeMem.setPrev, NodeMem.setItem, hye, hyc]

theorem append_same {x : T} :
    SameOff m ({ k with freeList := m.next c }.appendNode (m.setItem c (some x)) c).1 k.nodes := by
  intro a ha
  have hac : a ≠ c := (ne_of_mem_of_not_mem (h.mem_nodes (by simp)) ha).symm
  unfold appendNode
  by_cases he : k.endItem = 0
  · rw [if_pos he]
    simp [NodeMem.setNext, NodeMem.setPrev, NodeMem.setItem, hac]
  · have hL : L ≠ [] := by
      rintro rfl
      exact hcur ⟨h.chain, he⟩
    obtain ⟨l, hl⟩ := h.getLast_of_mem hL
    have heL : k.endItem ∈ L := by rw [hl]; simp
    have hae : a ≠ k.endItem :=
      (ne_of_mem_of_not_mem (h.mem_nodes (List.mem_append_left _ heL)) ha).symm
    rw [if_neg he]
    simp [NodeMem.setNext, NodeMem.setPrev, NodeMem.setItem, hac, hae]

end

/-- **`push_back`** appends its element. -/
theorem pushBack_ok {x : T} (h : KListOk m k L F xs) (hcur : ¬ (k.beginItem = 0 ∧ k.endItem ≠ 0))
    (hfresh : k.freeList = 0 → ar ≠ 0 ∧ ∀ a ∈ k.nodes, a < ar ∨ ar + k.curArSize ≤ a) :
    ∃ L' F', KListOk (k.pushBack m x ar).1 (k.pushBack m x ar).2 L' F' (xs ++ [x]) ∧
      (k.pushBack m x ar).2.nodes =
        (if k.freeList = 0 then k.nodes ++ List.range' ar k.curArSize else k.nodes) ∧
      SameOff m (k.pushBack m x ar).1 (k.pushBack m x ar).2.nodes := by
  have hnodes : ∀ (m : NodeMem T) (k : KList) (p : ℕ), (k.appendNode m p).2.nodes = k.nodes := by
    intro m k p
    unfold appendNode
    split <;> rfl
  unfold pushBack allocItem
  by_cases hf : k.freeList = 0
  · obtain ⟨har, hfresh⟩ := hfresh hf
    have hF : F = [] := (h.free.head_eq_end_iff).mp hf
    subst hF
    obtain ⟨k', hk', hok, hn, hfl, hb, he⟩ := h.refill har hfresh
    simp only [if_pos hf, hk', hnodes]
    obtain ⟨n, hsize⟩ : ∃ n, k.curArSize = n + 1 := ⟨k.curArSize - 1, by have := h.size.1; omega⟩
    rw [hsize, List.range'_succ] at hok
    rw [← hsize] at hok
    have hcur' : ¬ (k'.beginItem = 0 ∧ k'.endItem ≠ 0) := by
      rw [hb, he]
      exact hcur
    rw [hfl]
    refine ⟨_, _, hok.append hcur', hn, SameOff.trans (fun a ha => ?_) (hok.append_same hcur')⟩
    have ha' : a ∉ k.nodes ++ List.range' ar k.curArSize := hn ▸ ha
    rw [List.mem_append, not_or, List.mem_range'_1] at ha'
    rw [NodeMem.linkRegion_item, NodeMem.linkRegion_prev]
    exact ⟨rfl, NodeMem.linkRegion_next (by omega), rfl⟩
  · simp only [if_neg hf, hnodes]
    obtain ⟨c, F', rfl⟩ := List.exists_cons_of_ne_nil (mt (h.free.head_eq_end_iff).mpr hf)
    rw [h.free.1]
    exact ⟨_, _, h.append hcur, rfl, h.append_same hcur⟩

end KListOk

end ShmDos64
