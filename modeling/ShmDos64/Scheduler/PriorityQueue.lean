import ShmDos64.Common.BinaryHeap
/-!
# The task priority queue

`TaskPriorityQueue` is a binary heap of task pointers. Its keys are the
`m_wakeTime` fields of the tasks, read at each comparison, so that the
order of the heap is relative to the wake times of the moment. The queue
also writes each task's place into `m_priorityQueueIndex`.
-/

namespace ShmDos64

open Function (update update_of_ne update_self)
open HeapOrdered

variable {τ : Type*} [DecidableEq τ]

/-- A queue of at most `maxSize` tasks, in the first `curSize` places of an
array. -/
structure TaskPriorityQueue (τ : Type*) where
  /-- `m_pointersArray`. -/
  pointersArray : ℕ → τ
  /-- `m_maxSize`. -/
  maxSize : ℕ
  /-- `m_curSize`. -/
  curSize : ℕ

namespace TaskPriorityQueue

section

variable (wakeTime : τ → ℕ) (q : TaskPriorityQueue τ)

/-- `compare`: the first task wakes before the second. -/
def compare (a b : τ) : Bool := wakeTime a < wakeTime b

/-- The loop of `push`, from `idx` up. -/
def pushLoop (wakeTime : τ → ℕ) : ℕ → ℕ → (ℕ → τ) → (τ → ℕ) → (ℕ → τ) × (τ → ℕ)
  | 0, idx, a, index => (a, update index (a idx) idx)
  | fuel + 1, idx, a, index =>
    if 0 < idx then
      let newIdx := (idx - 1) / 2
      if compare wakeTime (a newIdx) (a idx) then
        (a, update index (a idx) idx)
      else
        let a' := a ∘ Equiv.swap newIdx idx
        pushLoop wakeTime fuel newIdx a' (update index (a' idx) idx)
    else (a, update index (a idx) idx)

/-- `push`; `none` where it returns false. -/
def push (index : τ → ℕ) (task : τ) :
    Option (TaskPriorityQueue τ × (τ → ℕ)) :=
  if q.curSize = q.maxSize then none
  else
    let r := pushLoop wakeTime q.curSize q.curSize
      (update q.pointersArray q.curSize task) index
    some ({ q with pointersArray := r.1, curSize := q.curSize + 1 }, r.2)

/-- `empty`. -/
def empty (q : TaskPriorityQueue τ) : Bool := q.curSize = 0

/-- `minWakeTimeTask`. -/
def minWakeTimeTask (q : TaskPriorityQueue τ) : τ := q.pointersArray 0

/-- The choice a round of `restore` makes among `minIdx` and the places below
`idx`. -/
def least (curSize idx minIdx : ℕ) (a : ℕ → τ) : ℕ :=
  let left := 2 * idx + 1
  let right := left + 1
  let minIdx := if left < curSize ∧ compare wakeTime (a left) (a minIdx) then left else minIdx
  if right < curSize ∧ compare wakeTime (a right) (a minIdx) then right else minIdx

/-- The loop of `restore`. The source starts it with `minIdx` 0, whatever
`idx` is; from the second round on `minIdx` is `idx`. -/
def restoreLoop (wakeTime : τ → ℕ) (curSize : ℕ) :
    ℕ → ℕ → ℕ → (ℕ → τ) → (τ → ℕ) → (ℕ → τ) × (τ → ℕ)
  | 0, _, _, a, index => (a, index)
  | fuel + 1, idx, minIdx, a, index =>
    let minIdx := least wakeTime curSize idx minIdx a
    if minIdx = idx then (a, index)
    else
      let a' := a ∘ Equiv.swap idx minIdx
      restoreLoop wakeTime curSize fuel minIdx minIdx a'
        (update (update index (a' idx) idx) (a' minIdx) minIdx)

/-- `restore`. -/
def restore (index : τ → ℕ) (idx : ℕ) :
    TaskPriorityQueue τ × (τ → ℕ) :=
  let r := restoreLoop wakeTime q.curSize (q.curSize + 1) idx 0 q.pointersArray index
  ({ q with pointersArray := r.1 }, r.2)

/-- `pop`, of a queue that is not empty. -/
def pop (index : τ → ℕ) :
    TaskPriorityQueue τ × (τ → ℕ) :=
  let last := q.curSize - 1
  restore wakeTime { q with
    pointersArray := update q.pointersArray 0 (q.pointersArray last)
    curSize := last } index 0

/-- `remove`, of a task in the queue. -/
def remove (index : τ → ℕ) (task : τ) :
    TaskPriorityQueue τ × (τ → ℕ) :=
  let idx := index task
  let last := q.curSize - 1
  let lastTask := q.pointersArray last
  restore wakeTime { q with
    pointersArray := update q.pointersArray idx lastTask
    curSize := last } (update index lastTask idx) idx

end

/-- The tasks queued, with repetition. -/
def entries (q : TaskPriorityQueue τ) : List τ := entriesUpto q.pointersArray q.curSize

/-- The heap order, by the wake times as they are. -/
def Ordered (q : TaskPriorityQueue τ) (wakeTime : τ → ℕ) : Prop :=
  HeapOrdered (wakeTime ∘ q.pointersArray) q.curSize

variable {wakeTime : τ → ℕ} {q : TaskPriorityQueue τ} {index : τ → ℕ} {task : τ}

omit [DecidableEq τ] in
/-- **The top of an ordered queue wakes first.** -/
theorem Ordered.min_le (h : q.Ordered wakeTime) (hT : task ∈ q.entries) :
    wakeTime q.minWakeTimeTask ≤ wakeTime task := by
  obtain ⟨i, hi, rfl⟩ := mem_entriesUpto.mp hT
  exact h.root_le hi

/-! ## push -/

/-- The loop of `push` permutes the entries and repairs their order. -/
theorem pushLoop_spec (n : ℕ) : ∀ fuel idx (a : ℕ → τ) (index : τ → ℕ), idx < n → idx ≤ fuel →
    (entriesUpto (pushLoop wakeTime fuel idx a index).1 n).Perm (entriesUpto a n) ∧
    (UpOrdered (wakeTime ∘ a) n idx →
      HeapOrdered (wakeTime ∘ (pushLoop wakeTime fuel idx a index).1) n) := by
  intro fuel
  induction fuel with
  | zero =>
    intro idx a index hn hf
    have : idx = 0 := by omega
    exact ⟨.refl _, fun h => h.heapOrdered fun hpos => by omega⟩
  | succ fuel ih =>
    intro idx a index hn hf
    by_cases hpos : 0 < idx
    · have hlt : heapParent idx < idx := heapParent_lt hpos
      by_cases hc : compare wakeTime (a (heapParent idx)) (a idx) = true
      · have hstop : pushLoop wakeTime (fuel + 1) idx a index =
            (a, update index (a idx) idx) := by
          rw [pushLoop, if_pos hpos]
          exact if_pos hc
        have hle : wakeTime (a (heapParent idx)) < wakeTime (a idx) := of_decide_eq_true hc
        rw [hstop]
        exact ⟨.refl _, fun h => h.heapOrdered fun _ => hle.le⟩
      · have hgo : pushLoop wakeTime (fuel + 1) idx a index =
            pushLoop wakeTime fuel (heapParent idx) (a ∘ Equiv.swap (heapParent idx) idx)
              (update index ((a ∘ Equiv.swap (heapParent idx) idx) idx) idx) := by
          rw [pushLoop, if_pos hpos]
          exact if_neg hc
        have hle : ¬ wakeTime (a (heapParent idx)) < wakeTime (a idx) :=
          fun h => hc (decide_eq_true h)
        obtain ⟨hperm, hord⟩ := ih (heapParent idx) (a ∘ Equiv.swap (heapParent idx) idx)
          (update index ((a ∘ Equiv.swap (heapParent idx) idx) idx) idx)
          (by omega) (by omega)
        rw [hgo]
        refine ⟨hperm.trans (entriesUpto_swap a (by omega) hn), fun h => hord ?_⟩
        exact h.swap hpos hn (not_lt.mp hle)
    · have hstop : pushLoop wakeTime (fuel + 1) idx a index =
          (a, update index (a idx) idx) := by
        rw [pushLoop, if_neg hpos]
      rw [hstop]
      exact ⟨.refl _, fun h => h.heapOrdered fun h0 => absurd h0 hpos⟩

/-- **A push adds one entry and keeps the order.** -/
theorem push_spec {q' : TaskPriorityQueue τ} {index' : τ → ℕ}
    (h : q.push wakeTime index task = some (q', index')) :
    q'.entries.Perm (task :: q.entries) ∧ (q.Ordered wakeTime → q'.Ordered wakeTime) := by
  unfold push at h
  split_ifs at h with hfull
  obtain ⟨⟩ := h
  have hsame : ∀ i, i < q.curSize →
      update q.pointersArray q.curSize task i = q.pointersArray i :=
    fun i hi => update_of_ne hi.ne _ _
  obtain ⟨hperm, hord⟩ := @pushLoop_spec _ _ wakeTime (q.curSize + 1) q.curSize q.curSize
    (update q.pointersArray q.curSize task) index (Nat.lt_succ_self _) le_rfl
  constructor
  · refine hperm.trans ?_
    rw [entriesUpto_succ, entriesUpto_congr hsame, update_self]
    exact List.perm_append_singleton _ _
  · intro ho
    refine hord (upOrdered ?_)
    exact congr ho fun i hi => congrArg wakeTime (hsame i hi)

/-! ## pop -/

omit [DecidableEq τ] in
/-- From the second round on the choice is the least of the three. -/
theorem least_spec {n idx : ℕ} {a : ℕ → τ} : (least wakeTime n idx idx a = idx ∨
      least wakeTime n idx idx a < n ∧ heapParent (least wakeTime n idx idx a) = idx ∧
        idx < least wakeTime n idx idx a) ∧
    wakeTime (a (least wakeTime n idx idx a)) ≤ wakeTime (a idx) ∧
    ∀ j, 0 < j → j < n → heapParent j = idx →
      wakeTime (a (least wakeTime n idx idx a)) ≤ wakeTime (a j) := by
  have hj : ∀ j, 0 < j → heapParent j = idx → j = 2 * idx + 1 ∨ j = 2 * idx + 1 + 1 :=
    fun j hj0 hp => (heapParent_eq_iff hj0).mp hp
  have hl : heapParent (2 * idx + 1) = idx := (heapParent_eq_iff (by omega)).mpr (.inl rfl)
  have hr : heapParent (2 * idx + 1 + 1) = idx := (heapParent_eq_iff (by omega)).mpr (.inr rfl)
  simp only [least, compare, decide_eq_true_eq]
  refine ⟨?_, ?_, ?_⟩
  · split_ifs <;> omega
  · split_ifs <;> omega
  · intro j hj0 hjn hp
    rcases hj j hj0 hp with rfl | rfl <;> split_ifs <;> omega

/-- From the second round on the loop of `restore` sifts down. -/
theorem restoreLoop_spec (n : ℕ) : ∀ fuel idx (a : ℕ → τ) (index : τ → ℕ), n ≤ idx + fuel →
    (entriesUpto (restoreLoop wakeTime n fuel idx idx a index).1 n).Perm (entriesUpto a n) ∧
    (DownOrdered (wakeTime ∘ a) n idx →
      HeapOrdered (wakeTime ∘ (restoreLoop wakeTime n fuel idx idx a index).1) n) := by
  intro fuel
  induction fuel with
  | zero =>
    intro idx a index hn
    refine ⟨.refl _, fun h => h.heapOrdered fun j hj0 hj hp => ?_⟩
    have := heapParent_lt hj0
    omega
  | succ fuel ih =>
    intro idx a index hn
    obtain ⟨hcases, hself, hbelow⟩ := @least_spec τ wakeTime n idx a
    rw [restoreLoop]
    generalize least wakeTime n idx idx a = m at hcases hself hbelow
    by_cases hmi : m = idx
    · subst hmi
      rw [if_pos rfl]
      exact ⟨.refl _, fun h => h.heapOrdered hbelow⟩
    · rw [if_neg hmi]
      obtain ⟨hmn, hchild, hlt⟩ := hcases.resolve_left hmi
      obtain ⟨hperm, hord⟩ := ih m (a ∘ Equiv.swap idx m)
        (update (update index ((a ∘ Equiv.swap idx m) idx) idx)
          ((a ∘ Equiv.swap idx m) m) m) (by omega)
      refine ⟨hperm.trans (entriesUpto_swap a (by omega) hmn), fun h => hord ?_⟩
      exact h.swap (by omega) hmn hchild hself hbelow

/-- **A pop takes the top entry and keeps the order.** -/
theorem pop_spec (hq : q.curSize ≠ 0) :
    (q.minWakeTimeTask :: (q.pop wakeTime index).1.entries).Perm q.entries ∧
    (q.Ordered wakeTime → (q.pop wakeTime index).1.Ordered wakeTime) := by
  obtain ⟨n, hn⟩ := Nat.exists_eq_succ_of_ne_zero hq
  set a := update q.pointersArray 0 (q.pointersArray n) with ha
  have hpop : (q.pop wakeTime index).1 = { q with
      pointersArray := (restoreLoop wakeTime n (n + 1) 0 0 a index).1, curSize := n } := by
    simp only [pop, restore, hn, Nat.succ_sub_one, ha]
  have hsame : ∀ i, 0 < i → a i = q.pointersArray i :=
    fun i hi => update_of_ne hi.ne' _ _
  obtain ⟨hperm, hord⟩ := @restoreLoop_spec _ _ wakeTime n (n + 1) 0 a index (by omega)
  rw [hpop]
  constructor
  · refine (hperm.cons _).trans ?_
    rw [entries, hn]
    exact entriesUpto_replace q.pointersArray (Nat.zero_le n)
  · intro ho
    refine hord (downOrdered (f := wakeTime ∘ q.pointersArray) (n := n) ?_ ?_)
    · exact mono ho (by omega)
    · exact fun i hi _ => congrArg wakeTime (hsame i hi)

end TaskPriorityQueue

end ShmDos64
