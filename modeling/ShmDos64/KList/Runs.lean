import ShmDos64.KList.Refine
/-!
# `klist` over whole runs

The loops are runs of `erase`; the calls on several lists touch the nodes
of one list each. As long as no call falls into one of the three traps the
source has (an end cursor left on a dead node, a free list left in
released memory, `erase` through the end cursor of a short list), the
lists stand for their sequences in every state of every run.
-/

namespace ShmDos64

open Function (update update_of_ne update_self)
open KList

variable {T : Type*}

namespace KListOk

variable {m m' : NodeMem T} {k : KList} {L F l₁ l₂ : List ℕ} {xs : List T} {n : ℕ}

/-- **`clear_no_free`** erases every node. -/
theorem clearNoFree_ok (h : KListOk m k L F xs) (hn : L.length ≤ n) :
    ∃ m' k' F', KList.clearNoFree n k.beginItem m k = some (m', k') ∧
      KListOk m' k' [] F' [] ∧ k'.nodes = k.nodes ∧ SameOff m m' k.nodes := by
  induction L generalizing m k F xs n with
  | nil =>
    have hxs : xs = [] := by simpa using h.items.symm
    subst hxs
    have hbegin : k.beginItem = 0 := h.chain
    refine ⟨m, k, F, ?_, h, rfl, .refl⟩
    cases n <;> simp [KList.clearNoFree, hbegin]
  | cons c L ih =>
    rcases n with _ | n
    · simp at hn
    have h' : KListOk m k ([] ++ c :: L) F xs := h
    obtain ⟨m₁, k₁, heq, hok, hnodes, hsame⟩ := h'.erase_ok
    have hbegin : k.beginItem = c := h.beginItem_eq
    have hnext : m.next c = k₁.beginItem := h.chain.2.2.head_unique hok.chain
    obtain ⟨m', k', F', hrun, hok', hnodes', hsame'⟩ :=
      ih hok (Nat.le_of_succ_le_succ (by simpa using hn))
    refine ⟨m', k', F', ?_, hok', hnodes'.trans hnodes, hsame.trans (hnodes ▸ hsame')⟩
    rw [KList.clearNoFree, hbegin, if_neg (h.ne_zero (by simp)), heq, Option.bind_some, hnext]
    exact hrun

/-- **`remove_first`** erases the first element equal to `x`. -/
theorem removeFirst_ok [BEq T] {x : T} {it : ℕ} (h : KListOk m k (l₁ ++ l₂) F xs)
    (hit : Links m.next 0 it l₂) (hno : ∀ y ∈ xs.take l₁.length, ¬ (y == x)) (hn : l₂.length ≤ n) :
    ∃ b m' k' L' F', KList.removeFirst x m k n it = some (b, m', k') ∧
      KListOk m' k' L' F' (xs.eraseP (· == x)) ∧ k'.nodes = k.nodes ∧ SameOff m m' k.nodes := by
  induction l₂ generalizing l₁ it n with
  | nil =>
    have hlen : xs.length = l₁.length := by simpa using (congrArg List.length h.items).symm
    rw [List.take_of_length_le hlen.le] at hno
    refine ⟨false, m, k, l₁ ++ [], F, ?_, ?_, rfl, .refl⟩
    · have hit0 : it = 0 := hit
      cases n <;> simp [KList.removeFirst, hit0]
    · rw [List.eraseP_of_forall_not hno]
      exact h
  | cons c l₂ ih =>
    rcases n with _ | n
    · simp at hn
    obtain ⟨rfl, hit0, hrest⟩ := hit
    obtain ⟨ys, y, zs, rfl, hys, hy, -⟩ := h.items_append
    rw [← hys, List.take_left'  rfl] at hno
    rw [KList.removeFirst, if_neg hit0, hy, Option.bind_some]
    by_cases heq : y == x
    · obtain ⟨m', k', herase, hok, hnodes, hsame⟩ := h.erase_ok
      refine ⟨true, m', k', l₁ ++ l₂, it :: F, by rw [if_pos heq, herase]; rfl, ?_, hnodes, hsame⟩
      have hE : (ys ++ y :: zs).eraseP (· == x) = (ys ++ y :: zs).eraseIdx l₁.length := by
        rw [List.eraseP_append_right _ hno, ← hys, List.eraseIdx_append_of_length_le (le_refl _)]
        simp [heq]
      rw [hE]
      exact hok
    · rw [if_neg heq]
      have h' : KListOk m k ((l₁ ++ [it]) ++ l₂) F (ys ++ y :: zs) := by simpa using h
      refine ih h' hrest ?_ (Nat.le_of_succ_le_succ (by simpa using hn))
      have htake : (ys ++ y :: zs).take (l₁ ++ [it]).length = ys ++ [y] := by
        rw [List.length_append, ← hys, List.length_singleton, List.take_length_add_append]
        rfl
      rw [htake]
      intro z hz
      rcases List.mem_append.mp hz with hz | hz
      · exact hno z hz
      · rwa [List.mem_singleton.mp hz]

/-- The loop from `begin()` to `end()` visits the elements in order. -/
theorem iterate_ok (h : KListOk m k L F xs) (hn : L.length ≤ n) :
    iterate m n k.beginItem = some xs := by
  have hlinks : ∀ {n it : ℕ} {L : List ℕ} {xs : List T}, Links m.next 0 it L →
      L.map m.item = xs.map some → L.length ≤ n → iterate m n it = some xs := by
    intro n it L
    induction L generalizing n it with
    | nil =>
      intro xs hl hitems _
      have hxs : xs = [] := by simpa using hitems.symm
      have hit : it = 0 := hl
      cases n <;> simp [iterate, hit, hxs]
    | cons c L ih =>
      intro xs hl hitems hlen
      rcases n with _ | n
      · simp at hlen
      obtain ⟨rfl, hit0, hrest⟩ := hl
      rw [eq_comm, List.map_cons, List.map_eq_cons_iff] at hitems
      obtain ⟨y, ys, rfl, hy, hys⟩ := hitems
      rw [iterate, if_neg hit0, ← hy, Option.bind_some,
        ih hrest hys.symm (Nat.le_of_succ_le_succ (by simpa using hlen))]
      rfl
  exact hlinks h.chain h.items hn

theorem length_le (h : KListOk m k L F xs) : L.length ≤ k.nodes.length := by
  rw [← h.perm.length_eq, List.length_append]
  omega

/-- **`clear`** of a list whose free list is empty. -/
theorem clear_ok {junk : NodeMem T} (hfree : k.freeList = 0) :
    KListOk (k.clear m junk).1 (k.clear m junk).2 [] [] [] where
  chain := rfl
  back := .nil
  last := by simp
  free := hfree
  perm := .refl _
  nodup := .nil
  null := by simp [KList.clear, nodes, KList.init]
  items := rfl
  size := ⟨Nat.succ_pos 15, Nat.pos_of_neZero klistMaxSize⟩

theorem clear_same {junk : NodeMem T} : SameOff m (k.clear m junk).1 k.nodes := by
  intro a ha
  have hout : (k.allocAreas.any fun ar => decide (ar.1 ≤ a ∧ a < ar.1 + ar.2)) = false := by
    rw [List.any_eq_false]
    intro ar har hin
    refine ha (List.mem_flatMap.mpr ⟨ar, har, List.mem_range'_1.mpr ?_⟩)
    simpa using hin
  simp only [KList.clear, NodeMem.release, hout, Bool.false_eq_true, if_false, and_self]

end KListOk

/-! ## Runs -/

variable {ι : Type*}

/-- Every list stands for its sequence, and no node is of two lists. -/
structure KListInv (s : KListState ι T) (xs : ι → List T) : Prop where
  ok : ∀ i, ∃ L F, KListOk s.mem (s.lists i) L F (xs i)
  apart : ∀ i j, i ≠ j → ∀ a ∈ (s.lists i).nodes, a ∉ (s.lists j).nodes

/-- The calls that fall into no trap: `push_back` on an empty list whose
end cursor is not null, `clear` while there are free nodes, and `erase`
through the end cursor of a list of one or two nodes. -/
def KListState.Sound (s : KListState ι T) : KListCall ι T → Prop
  | .pushBack i _ _ => ¬ ((s.lists i).beginItem = 0 ∧ (s.lists i).endItem ≠ 0)
  | .clear i _ => (s.lists i).freeList = 0
  | .eraseEnd i => (s.lists i).endItem ≠ (s.lists i).beginItem ∧
    s.mem.prev (s.lists i).endItem ≠ (s.lists i).beginItem
  | _ => True

instance (s : KListState ι T) (c : KListCall ι T) : Decidable (s.Sound c) :=
  match c with
  | .pushBack _ _ _ => inferInstanceAs (Decidable (¬ (_ ∧ _)))
  | .clear _ _ => inferInstanceAs (Decidable (_ = _))
  | .eraseEnd _ => inferInstanceAs (Decidable (_ ∧ _))
  | .erase _ _ | .popFront _ | .removeFirst _ _ | .clearNoFree _ | .swap _ _ => .isTrue trivial

namespace KListInv

variable [DecidableEq ι] {s : KListState ι T} {xs : ι → List T} {i : ι}

/-- **One list changes**, and writes to its own nodes. -/
theorem set {r : NodeMem T × KList} {L F N : List ℕ} {ys : List T} (h : KListInv s xs)
    (hok : KListOk r.1 r.2 L F ys) (hsame : KListOk.SameOff s.mem r.1 N) (hsub : r.2.nodes ⊆ N)
    (hN : ∀ j, j ≠ i → ∀ a ∈ N, a ∉ (s.lists j).nodes) : KListInv (s.set i r) (update xs i ys) where
  ok j := by
    by_cases hj : j = i
    · subst hj
      simpa [KListState.set] using ⟨L, F, hok⟩
    · obtain ⟨L', F', hok'⟩ := h.ok j
      simp only [KListState.set, update_of_ne hj]
      exact ⟨L', F', hok'.congr fun a ha => hsame a fun hm => hN j hj a hm ha⟩
  apart j j' hne a ha := by
    by_cases hj : j = i
    · subst hj
      simp only [KListState.set, update_self] at ha
      simp only [KListState.set, update_of_ne hne.symm]
      exact hN j' hne.symm a (hsub ha)
    · simp only [KListState.set, update_of_ne hj] at ha
      by_cases hj' : j' = i
      · subst hj'
        simp only [KListState.set, update_self]
        exact fun hm => hN j hj a (hsub hm) ha
      · simp only [KListState.set, update_of_ne hj']
        exact h.apart j j' hne a ha

/-- The list keeps its areas. -/
theorem set_same {r : NodeMem T × KList} {L F : List ℕ} {ys : List T} (h : KListInv s xs)
    (hok : KListOk r.1 r.2 L F ys) (hnodes : r.2.nodes = (s.lists i).nodes)
    (hsame : KListOk.SameOff s.mem r.1 (s.lists i).nodes) : KListInv (s.set i r) (update xs i ys) :=
  h.set hok hsame (by rw [hnodes]; exact fun _ => id) fun j hj => h.apart i j hj.symm

theorem pushBack {x : T} {ar : ℕ} (h : KListInv s xs) (ha : s.Allowed xs (.pushBack i x ar))
    (hc : s.Sound (.pushBack i x ar)) :
    KListInv (s.set i ((s.lists i).pushBack s.mem x ar)) (update xs i (xs i ++ [x])) := by
  obtain ⟨L, F, hok⟩ := h.ok i
  obtain ⟨L', F', hok', hnodes, hsame⟩ := hok.pushBack_ok hc fun hf => ⟨(ha hf).1, (ha hf).2 i⟩
  refine h.set hok' hsame (fun _ => id) fun j hj a hm => ?_
  rw [hnodes] at hm
  split at hm
  · rename_i hf
    rcases List.mem_append.mp hm with hm | hm
    · exact h.apart i j hj.symm a hm
    · intro hmj
      have hfresh := (ha hf).2 j a hmj
      have hrange := List.mem_range'_1.mp hm
      omega
  · exact h.apart i j hj.symm a hm

/-- **Every sound call returns and keeps the invariant.** -/
theorem call [BEq T] {c : KListCall ι T} (h : KListInv s xs) (ha : s.Allowed xs c)
    (hc : s.Sound c) : ∃ t, s.call c = some t ∧ KListInv t (klistModel xs c) := by
  cases c with
  | pushBack i x ar => exact ⟨_, rfl, h.pushBack ha hc⟩
  | erase i n =>
    obtain ⟨L, F, hok⟩ := h.ok i
    have hlen : n < L.length := by
      have := congrArg List.length hok.items
      have hn : n < (xs i).length := ha
      simp only [List.length_map] at this
      omega
    have hL : L = L.take n ++ L[n] :: L.drop (n + 1) := by simp
    rw [hL] at hok
    have hpos := hok.chain.iterate_eq
    obtain ⟨m', k', heq, hok', hnodes, hsame⟩ := hok.erase_ok
    rw [List.length_take_of_le hlen.le] at hpos hok'
    refine ⟨_, ?_, h.set_same (r := (m', k')) hok' hnodes hsame⟩
    rw [KListState.call, hpos, heq]
    rfl
  | eraseEnd i =>
    obtain ⟨L, F, hok⟩ := h.ok i
    have hL : L ≠ [] := by
      rintro rfl
      exact ha (by simpa using hok.items.symm)
    obtain ⟨m', k', L', heq, hok', hnodes, hsame⟩ := hok.eraseEnd_ok hL hc.1 hc.2
    refine ⟨_, ?_, h.set_same (r := (m', k')) hok' hnodes hsame⟩
    rw [KListState.call, heq]
    rfl
  | popFront i =>
    obtain ⟨L, F, hok⟩ := h.ok i
    obtain ⟨c, L, rfl⟩ : ∃ c L', L = c :: L' := by
      refine List.exists_cons_of_ne_nil ?_
      rintro rfl
      exact ha (by simpa using hok.items.symm)
    obtain ⟨k', heq, hok', hnodes⟩ := hok.popFront_ok
    refine ⟨_, ?_, h.set_same (r := (_, k')) hok' hnodes
      (KListOk.sameOff_freed (hok.mem_nodes (by simp)))⟩
    rw [KListState.call, heq]
    rfl
  | removeFirst i x =>
    obtain ⟨L, F, hok⟩ := h.ok i
    have hok₀ : KListOk s.mem (s.lists i) ([] ++ L) F (xs i) := hok
    obtain ⟨b, m', k', L', F', heq, hok', hnodes, hsame⟩ :=
      hok₀.removeFirst_ok (x := x) hok.chain (by simp) hok.length_le
    refine ⟨_, ?_, h.set_same (r := (m', k')) hok' hnodes hsame⟩
    rw [KListState.call, heq]
    rfl
  | clearNoFree i =>
    obtain ⟨L, F, hok⟩ := h.ok i
    obtain ⟨m', k', F', heq, hok', hnodes, hsame⟩ := hok.clearNoFree_ok hok.length_le
    refine ⟨_, ?_, h.set_same (r := (m', k')) hok' hnodes hsame⟩
    rw [KListState.call, heq]
    rfl
  | clear i junk =>
    have hnil : ((s.lists i).clear s.mem junk).2.nodes ⊆ (s.lists i).nodes := by
      simp [KList.clear, nodes, KList.init]
    exact ⟨_, rfl, h.set (KListOk.clear_ok hc) KListOk.clear_same hnil
      fun j hj => h.apart i j hj.symm⟩
  | swap i j =>
    refine ⟨_, rfl, fun l => h.ok (Equiv.swap i j l), fun l l' hne => ?_⟩
    exact h.apart _ _ fun heq => hne ((Equiv.swap i j).injective heq)

end KListInv

/-- **`klist` refines a sequence** in every run whose calls fall into no
trap. A loop from `begin()` to `end()` visits the sequence, `empty()` says
whether there is one, no node of the list is free, all nodes are in areas
the list still has; and the next sound call returns. -/
theorem klist_refines [DecidableEq ι] [BEq T] {s : KListState ι T × (ι → List T)}
    (h : ((klistMachine ι T).guard fun s c => s.1.Sound c).Reachable s) (i : ι) :
    (∃ n₀, ∀ n ≥ n₀, KList.iterate s.1.mem n (s.1.lists i).beginItem = some (s.2 i)) ∧
    ((s.1.lists i).empty = true ↔ s.2 i = []) ∧
    (∃ L F, Links s.1.mem.next 0 (s.1.lists i).beginItem L ∧
      Links s.1.mem.next 0 (s.1.lists i).freeList F ∧ (∀ a ∈ L, a ∉ F) ∧
      ∀ a ∈ L ++ F, ∃ ar ∈ (s.1.lists i).allocAreas, ar.1 ≤ a ∧ a < ar.1 + ar.2) ∧
    ∀ c, s.1.Allowed s.2 c → s.1.Sound c → (s.1.call c).isSome := by
  have hinv : KListInv s.1 s.2 := by
    refine h.invariant (I := fun s => KListInv s.1 s.2) ?_ ?_
    · rintro s ⟨hl, hx⟩
      refine ⟨fun i => ⟨[], [], ?_⟩, fun i j _ a ha => ?_⟩
      · rw [hl, hx]
        exact ⟨rfl, .nil, by simp, rfl, .refl _, .nil, by decide, rfl, by decide⟩
      · rw [hl] at ha
        cases ha
    · rintro s c t hinv ⟨hc, ha, hcall, hmodel⟩
      obtain ⟨t', hcall', hinv'⟩ := hinv.call ha hc
      rw [hcall] at hcall'
      obtain ⟨⟩ := hcall'
      rwa [hmodel]
  obtain ⟨L, F, hok⟩ := hinv.ok i
  refine ⟨⟨L.length, fun n hn => hok.iterate_ok hn⟩, ?_, ⟨L, F, hok.chain, hok.free, ?_, ?_⟩, ?_⟩
  · have hlen := congrArg List.length hok.items
    simp only [List.length_map] at hlen
    rw [KList.empty, decide_eq_true_iff, hok.chain.head_eq_end_iff, ← List.length_eq_zero_iff, hlen,
      List.length_eq_zero_iff]
  · exact fun a ha => hok.notMem_free ha
  · intro a ha
    obtain ⟨ar, har, hm⟩ := List.mem_flatMap.mp (hok.mem_nodes ha)
    exact ⟨ar, har, List.mem_range'_1.mp hm⟩
  · intro c ha hc
    obtain ⟨t, ht, -⟩ := hinv.call ha hc
    rw [ht]
    rfl

/-- A list that has had no call yet. -/
def newList : KListState Unit ℕ := ⟨⟨fun _ => none, fun _ => 0, fun _ => 0⟩, fun _ => .constructed⟩

/-- The list after a call. -/
def KListState.next (s : KListState Unit ℕ) (c : KListCall Unit ℕ) : KListState Unit ℕ :=
  (s.call c).getD s

variable {c : KListCall Unit ℕ}

theorem call_next {s : KListState Unit ℕ} (hc : (s.call c).isSome) :
    s.call c = some (s.next c) := by
  obtain ⟨t, ht⟩ := Option.isSome_iff_exists.mp hc
  rw [KListState.next, ht, Option.getD_some]

theorem reachable_next {s : KListState Unit ℕ} {xs ys : Unit → List ℕ}
    (h : (klistMachine Unit ℕ).Reachable (s, xs)) (ha : s.Allowed xs c) (hc : (s.call c).isSome)
    (hy : ys = klistModel xs c) : (klistMachine Unit ℕ).Reachable (s.next c, ys) :=
  h.step ⟨ha, call_next hc, hy⟩

theorem guard_next {s : KListState Unit ℕ} {xs ys : Unit → List ℕ}
    (h : ((klistMachine Unit ℕ).guard fun s c => s.1.Sound c).Reachable (s, xs)) (hs : s.Sound c)
    (ha : s.Allowed xs c) (hc : (s.call c).isSome) (hy : ys = klistModel xs c) :
    ((klistMachine Unit ℕ).guard fun s c => s.1.Sound c).Reachable (s.next c, ys) :=
  h.step ⟨hs, ha, call_next hc, hy⟩

/-- The elements 1 and 2. -/
def twoElements : KListState Unit ℕ :=
  (newList.next (.pushBack () 1 1)).next (.pushBack () 2 0)

theorem twoElements_reachable : ((klistMachine Unit ℕ).guard fun s c => s.1.Sound c).Reachable
    (twoElements, fun _ => [1, 2]) := by
  have h₀ : ((klistMachine Unit ℕ).guard fun s c => s.1.Sound c).Reachable
      (newList, fun _ => []) := .init ⟨fun _ => rfl, fun _ => rfl⟩
  have h₁ : ((klistMachine Unit ℕ).guard fun s c => s.1.Sound c).Reachable
      (newList.next (.pushBack () 1 1), fun _ => [1]) :=
    guard_next h₀ (by decide +kernel) (fun _ => ⟨by decide, by decide⟩) rfl rfl
  exact guard_next h₁ (by decide +kernel) (fun hf => absurd hf (by decide +kernel)) rfl rfl

/-- The first of two elements is erased. -/
theorem klist_refines_twoElements :
    ((klistMachine Unit ℕ).guard fun s c => s.1.Sound c).Reachable
      (twoElements.next (.erase () 0), fun _ => [2]) ∧
    ∃ n₀, ∀ n ≥ n₀, KList.iterate (twoElements.next (.erase () 0)).mem n
      ((twoElements.next (.erase () 0)).lists ()).beginItem = some [2] := by
  have h : ((klistMachine Unit ℕ).guard fun s c => s.1.Sound c).Reachable
      (twoElements.next (.erase () 0), fun _ => [2]) :=
    guard_next twoElements_reachable trivial Nat.zero_lt_two (by decide +kernel) rfl
  exact ⟨h, (klist_refines h ()).1⟩

/-- Both elements erased from the front, and 3 pushed. -/
def lostElement : KListState Unit ℕ :=
  ((twoElements.next (.erase () 0)).next (.erase () 0)).next (.pushBack () 3 0)

/-- **An element that is pushed is not in the list.** The two elements are
erased from the front; the end cursor is left on the first node, which is
free, and what is pushed next is linked behind it. -/
theorem klist_loses_element :
    (klistMachine Unit ℕ).Reachable (lostElement, fun _ => [3]) ∧
    ∀ n, KList.iterate lostElement.mem n (lostElement.lists ()).beginItem = some [] := by
  have h₁ : (klistMachine Unit ℕ).Reachable (twoElements.next (.erase () 0), fun _ => [2]) :=
    reachable_next twoElements_reachable.of_guard Nat.zero_lt_two (by decide +kernel) rfl
  have h₂ : (klistMachine Unit ℕ).Reachable
      ((twoElements.next (.erase () 0)).next (.erase () 0), fun _ => []) :=
    reachable_next h₁ Nat.one_pos (by decide +kernel) rfl
  have h₃ : (klistMachine Unit ℕ).Reachable (lostElement, fun _ => [3]) :=
    reachable_next h₂ (fun hf => absurd hf (by decide +kernel)) rfl rfl
  refine ⟨h₃, fun n => ?_⟩
  have hbegin : (lostElement.lists ()).beginItem = 0 := by decide +kernel
  cases n <;> simp [KList.iterate, hbegin]

end ShmDos64
