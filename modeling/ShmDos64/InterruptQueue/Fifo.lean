import ShmDos64.InterruptQueue.Model
/-!
# The interrupt queue is a bounded queue

The nodes in use are the queue and the free chain: `push` moves a node from
the chain, or the next node of the array, to the tail of the queue, and `pop`
moves the head of the queue to the chain. So the queue holds the items of
`fifo`, and is full when all nodes of the array are queued.
-/

namespace ShmDos64

open Function (update update_of_ne update_self)

namespace InterruptQueue

variable {ι : Type*} {q q' : InterruptQueue ι} {queued free : List ℕ} {items : List ι} {node : ℕ}

/-! ## `push` -/

/-- The node is in use, but neither queued nor free. -/
structure Taken (q : InterruptQueue ι) (node : ℕ) (queued free : List ℕ) (items : List ι) :
    Prop where
  queue : LinkedQueue q.next q.prev q.head q.tail queued
  chain : Chain q.next q.free free
  nodup : (queued ++ node :: free).Nodup
  lt : ∀ n ∈ queued ++ node :: free, n < q.used
  length : queued.length + (free.length + 1) = q.used
  used_le : q.used ≤ q.size
  items : queued.map q.item = items

/-- There is no node exactly if all of the array are queued. -/
theorem newNode_eq_none (h : q.Spells queued free items) :
    q.newNode = none ↔ items.length = q.size := by
  have hlen : items.length = queued.length := by rw [← h.items, List.length_map]
  have hused := h.length
  have hle := h.used_le
  cases free with
  | nil =>
    have hfree : q.free = none := h.chain
    rw [newNode, hfree]
    simp only [ite_eq_left_iff, reduceCtorEq, imp_false, not_not]
    rw [List.length_nil] at hused
    omega
  | cons node free =>
    have hfree : q.free = some node := h.chain.1
    rw [newNode, hfree]
    rw [List.length_cons] at hused
    exact iff_of_false nofun (by omega)

/-- A node is taken from the chain, or from the array. -/
theorem newNode_taken (h : q.Spells queued free items) (hnew : q.newNode = some (node, q')) :
    q'.size = q.size ∧ ∃ free', q'.Taken node queued free' items := by
  cases free with
  | nil =>
    have hfree : q.free = none := h.chain
    simp only [newNode, hfree, Option.ite_none_left_eq_some, Option.some.injEq, Prod.mk.injEq]
      at hnew
    obtain ⟨hne, rfl, rfl⟩ := hnew
    have hlt : ∀ n ∈ queued, n < q.used := fun n hn => h.lt n (by simp [hn])
    have hlen := h.length
    have hle := h.used_le
    refine ⟨rfl, [], h.queue, .nil, ?_, ?_, ?_, ?_, h.items⟩
    · rw [List.nodup_append]
      refine ⟨h.queue.nodup, List.nodup_singleton _, fun n hn m hm => ?_⟩
      rw [List.mem_singleton.mp hm]
      exact (hlt n hn).ne
    · intro n hn
      rcases List.mem_append.mp hn with hn | hn
      · exact (hlt n hn).trans (Nat.lt_succ_self _)
      · rw [List.mem_singleton.mp hn]
        exact Nat.lt_succ_self _
    · rw [List.length_nil] at hlen ⊢
      exact congrArg (· + 1) hlen
    · exact Nat.lt_of_le_of_ne hle hne
  | cons first free =>
    have hfree : q.free = some first := h.chain.1
    simp only [newNode, hfree, Option.some.injEq, Prod.mk.injEq] at hnew
    obtain ⟨rfl, rfl⟩ := hnew
    exact ⟨rfl, free, h.queue, h.chain.2, h.nodup, h.lt, h.length, h.used_le, h.items⟩

theorem append_next (q : InterruptQueue ι) (node : ℕ) (item : ι) :
    (q.append node item).next = Chain.linkTail q.next q.tail node := by
  unfold append Chain.linkTail
  cases q.tail <;> rfl

theorem append_head (q : InterruptQueue ι) (node : ℕ) (item : ι) :
    (q.append node item).head = if q.tail = none then some node else q.head := by
  unfold append
  cases q.tail <;> rfl

theorem append_same (q : InterruptQueue ι) (node : ℕ) (item : ι) :
    (q.append node item).free = q.free ∧ (q.append node item).used = q.used ∧
    (q.append node item).size = q.size ∧ (q.append node item).tail = some node ∧
    (q.append node item).prev = update q.prev node q.tail ∧
    (q.append node item).item = update q.item node item := by
  unfold append
  cases q.tail <;> exact ⟨rfl, rfl, rfl, rfl, rfl, rfl⟩

/-- The node comes to the tail. -/
theorem append_spells (h : q.Taken node queued free items) (item : ι) :
    (q.append node item).Spells (queued ++ [node]) free (items ++ [item]) := by
  obtain ⟨hfree, hused, hsize, htail, hprev, hitem⟩ := append_same q node item
  obtain ⟨-, hfreeNd, hapart⟩ := List.nodup_append.mp h.nodup
  obtain ⟨hnodeFree, -⟩ := List.nodup_cons.mp hfreeNd
  have hnode : node ∉ queued := fun hm => hapart node hm node List.mem_cons_self rfl
  have hnext : ∀ n, n ≠ node →
      (q.append node item).next n = if q.tail = some n then some node else q.next n := by
    intro n hn
    rw [append_next]
    exact Chain.linkTail_of_ne hn
  have hself : (q.append node item).next node = none := by
    rw [append_next]
    exact Chain.linkTail_self fun hc => hnode (h.queue.tail_mem hc)
  refine ⟨?_, ?_, ?_, ?_, ?_, ?_, ?_⟩
  · rw [append_head, htail]
    refine h.queue.append hnode hself ?_ (fun n hn => hnext n (ne_of_mem_of_not_mem hn hnode)) ?_
    · rw [hprev]
      exact update_self ..
    · intro n hn
      rw [hprev]
      exact update_of_ne (ne_of_mem_of_not_mem hn hnode) ..
  · rw [hfree]
    refine h.chain.congr fun n hn => ?_
    have htn : q.tail ≠ some n := fun hc =>
      hapart n (h.queue.tail_mem hc) n (List.mem_cons_of_mem node hn) rfl
    rw [hnext n (ne_of_mem_of_not_mem hn hnodeFree), if_neg htn]
  · simpa using h.nodup
  · rw [hused]
    simpa using h.lt
  · rw [hused, List.length_append, List.length_singleton]
    have := h.length
    omega
  · rw [hused, hsize]
    exact h.used_le
  · rw [List.map_append, hitem, ← h.items]
    congr 1
    · exact List.map_congr_left fun n hn =>
        update_of_ne (ne_of_mem_of_not_mem hn hnode) ..
    · simp

/-- **`push`** fails exactly if the queue is full, and puts the item at the
end otherwise. -/
theorem push_holds (h : q.Holds items) (item : ι) : (q.push item = none ↔ items.length = q.size) ∧
    ∀ q', q.push item = some q' → q'.Holds (items ++ [item]) ∧ q'.size = q.size := by
  obtain ⟨queued, free, h⟩ := h
  refine ⟨by rw [push, Option.map_eq_none_iff, newNode_eq_none h], fun q' hpush => ?_⟩
  obtain ⟨⟨node, q₁⟩, hnew, rfl⟩ := Option.map_eq_some_iff.mp hpush
  obtain ⟨hsize, free', htaken⟩ := newNode_taken h hnew
  refine ⟨⟨_, _, append_spells htaken item⟩, ?_⟩
  rw [(append_same q₁ node item).2.2.1]
  exact hsize

/-! ## `pop` -/

/-- The queue after its head `node` was popped. -/
def dropHead (q : InterruptQueue ι) (node : ℕ) : InterruptQueue ι :=
  { q with
    head := q.next node
    tail := if q.next node = none then none else q.tail
    prev := fun n => if q.next node = some n then none else q.prev n
    next := update q.next node q.free
    free := some node }

theorem pop_eq (hhead : q.head = some node) : q.pop = some (q.item node, q.dropHead node) := by
  unfold pop dropHead
  rw [hhead, Option.map_some]
  cases hnext : q.next node with
  | none => simp
  | some head =>
    have hprev : update q.prev head none = fun n => if head = n then none else q.prev n := by
      funext n
      by_cases hn : n = head
      · rw [hn, if_pos rfl, update_self]
      · rw [if_neg (Ne.symm hn), update_of_ne hn]
    simp [hprev]

/-- The head of the queue comes to the free chain. -/
theorem dropHead_spells {item : ι} (h : q.Spells (node :: queued) free (item :: items)) :
    q.item node = item ∧ (q.dropHead node).Spells queued (node :: free) items := by
  obtain ⟨hitem, hitems⟩ := List.cons.inj h.items
  have hnd : (node :: (queued ++ free)).Nodup := h.nodup
  have hnode := (List.nodup_cons.mp hnd).1
  have hprev : q.prev node = none := h.queue.prev_head
  refine ⟨hitem, ?_, ?_, ?_, ?_, ?_, h.used_le, hitems⟩
  · have hnext : ∀ n ∈ node :: queued, n ≠ node → (q.dropHead node).next n =
        if q.prev node = some n then q.next node else q.next n := fun n _ hn => by
      rw [hprev, if_neg nofun]
      exact update_of_ne hn ..
    have hprev' : ∀ n ∈ node :: queued, n ≠ node → (q.dropHead node).prev n =
        if q.next node = some n then q.prev node else q.prev n := fun n _ _ => by
      rw [hprev]
      rfl
    have hremove := h.queue.remove List.mem_cons_self hnext hprev'
    rw [if_pos hprev, hprev, List.erase_cons_head] at hremove
    exact hremove
  · refine h.chain.push ?_ fun n hn => ?_
    · exact update_self ..
    · exact update_of_ne (ne_of_mem_of_not_mem hn (by simp_all)) ..
  · exact List.nodup_middle.mpr hnd
  · intro n hn
    refine h.lt n ?_
    simp only [List.mem_append, List.mem_cons] at hn ⊢
    tauto
  · have hlen := h.length
    simp only [List.length_cons] at hlen ⊢
    exact (by omega : queued.length + (free.length + 1) = q.used)

/-- **`pop`** returns the first item, if there is one. -/
theorem pop_holds (h : q.Holds items) : match items with
    | [] => q.pop = none
    | item :: items => ∃ q', q.pop = some (item, q') ∧ q'.Holds items ∧ q'.size = q.size := by
  obtain ⟨queued, free, h⟩ := h
  cases items with
  | nil =>
    have hqueued : queued = [] := List.map_eq_nil_iff.mp h.items
    have hhead : q.head = none := by rw [h.queue.head_eq, hqueued]; rfl
    rw [pop, hhead]
    rfl
  | cons item items =>
    cases queued with
    | nil => cases h.items
    | cons node queued =>
      obtain ⟨hitem, hspells⟩ := dropHead_spells h
      have hpop : q.pop = some (q.item node, q.dropHead node) := pop_eq h.queue.head_eq
      rw [hitem] at hpop
      exact ⟨_, hpop, ⟨_, _, hspells⟩, rfl⟩

/-! ## Runs -/

/-- A critical section does what it does in a bounded queue. -/
theorem apply_holds (h : q.Holds items) (op : QueueOp ι) :
    (q.apply op).1 = (fifo q.size items op).1 ∧
    (q.apply op).2.Holds (fifo q.size items op).2 ∧ (q.apply op).2.size = q.size := by
  cases op with
  | push item =>
    obtain ⟨hfull, hpush⟩ := push_holds h item
    simp only [apply, fifo]
    cases hq : q.push item with
    | none =>
      rw [if_pos (hfull.mp hq)]
      exact ⟨rfl, h, rfl⟩
    | some q' =>
      have hne : ¬ items.length = q.size := fun hc => by
        rw [hfull.mpr hc] at hq
        cases hq
      rw [if_neg hne]
      exact ⟨rfl, hpush q' hq⟩
  | pop =>
    have hpop := pop_holds h
    simp only [apply, fifo]
    cases items with
    | nil =>
      rw [hpop]
      exact ⟨rfl, h, rfl⟩
    | cons item items =>
      obtain ⟨q', hpop, hholds, hsize⟩ := hpop
      rw [hpop]
      exact ⟨rfl, hholds, hsize⟩

theorem run_holds (ops : List (QueueOp ι)) (h : q.Holds items) :
    (run ops q).1 = (fifoRun q.size ops items).1 ∧
    (run ops q).2.Holds (fifoRun q.size ops items).2 ∧ (run ops q).2.size = q.size := by
  induction ops generalizing q items with
  | nil => exact ⟨rfl, h, rfl⟩
  | cons op ops ih =>
    obtain ⟨hresult, hholds, hsize⟩ := apply_holds h op
    obtain ⟨hresults, hholds', hsize'⟩ := ih hholds
    rw [hsize] at hresults hholds' hsize'
    exact ⟨congrArg₂ List.cons hresult hresults, hholds', hsize'⟩

end InterruptQueue

/-! ## What goes in and what comes out -/

/-- The items a run has pushed, and popped. -/
def pushedItems {ι : Type*} : List (QueueOp ι) → List (QueueResult ι) → List ι
  | .push item :: ops, .pushed true :: results => item :: pushedItems ops results
  | _ :: ops, _ :: results => pushedItems ops results
  | _, _ => []

@[inherit_doc pushedItems]
def poppedItems {ι : Type*} (results : List (QueueResult ι)) : List ι :=
  results.filterMap fun r =>
    match r with
    | .popped item => item
    | .pushed _ => none

/-- A bounded queue gives out what it was given, in order. -/
theorem fifoRun_items {ι : Type*} (n : ℕ) (ops : List (QueueOp ι)) (items : List ι) :
    poppedItems (fifoRun n ops items).1 ++ (fifoRun n ops items).2 =
      items ++ pushedItems ops (fifoRun n ops items).1 := by
  induction ops generalizing items with
  | nil => exact (List.append_nil items).symm
  | cons op ops ih =>
    have hops := ih (fifo n items op).2
    cases op with
    | push item =>
      by_cases hfull : items.length = n
      · simp only [fifoRun, fifo, if_pos hfull] at hops ⊢
        exact hops
      · simp only [fifoRun, fifo, if_neg hfull, List.append_assoc] at hops ⊢
        exact hops
    | pop =>
      cases items with
      | nil => exact hops
      | cons item items => exact congrArg (item :: ·) hops

/-- **The interrupt queue is a bounded queue.** For every capacity and every
sequence of critical sections: they return what they return in a bounded queue;
the items popped, and after them those queued, are the items pushed; the next
`push` fails exactly when `n` items are queued, and then it changes nothing;
and the nodes queued and those of the free chain are different ones, all within
the array. -/
theorem interruptQueue_fifo {ι : Type*} (n : ℕ) (item : ℕ → ι) (ops : List (QueueOp ι)) :
    let r := InterruptQueue.run ops (.new n item)
    r.1 = (fifoRun n ops []).1 ∧
    ∃ queued free, LinkedQueue r.2.next r.2.prev r.2.head r.2.tail queued ∧
      Chain r.2.next r.2.free free ∧
      (queued ++ free).Nodup ∧ (∀ node ∈ queued ++ free, node < n) ∧
      queued.map r.2.item = (fifoRun n ops []).2 ∧
      poppedItems r.1 ++ queued.map r.2.item = pushedItems ops r.1 ∧
      ∀ x, ((r.2.apply (.push x)).1 = .pushed false ↔ queued.length = n) ∧
        (queued.length = n → (r.2.apply (.push x)).2 = r.2) := by
  intro r
  obtain ⟨hresults, hholds, hsize⟩ :
      r.1 = (fifoRun n ops []).1 ∧ r.2.Holds (fifoRun n ops []).2 ∧ r.2.size = n :=
    InterruptQueue.run_holds ops (InterruptQueue.new_holds n item)
  obtain ⟨queued, free, h⟩ := id hholds
  have hlen : queued.length = (fifoRun n ops []).2.length :=
    (List.length_map ..).symm.trans (congrArg List.length h.items)
  refine ⟨hresults, queued, free, h.queue, h.chain, h.nodup, fun node hn => ?_, h.items, ?_,
    fun x => ?_⟩
  · exact hsize ▸ (h.lt node hn).trans_le h.used_le
  · rw [h.items, hresults]
    exact fifoRun_items n ops []
  · have hfull := (InterruptQueue.push_holds hholds x).1
    rw [hsize, ← hlen] at hfull
    rw [← hfull]
    simp only [InterruptQueue.apply]
    cases hpush : r.2.push x with
    | none => exact ⟨⟨fun _ => rfl, fun _ => rfl⟩, fun _ => rfl⟩
    | some q' => exact ⟨⟨nofun, nofun⟩, nofun⟩

end ShmDos64
