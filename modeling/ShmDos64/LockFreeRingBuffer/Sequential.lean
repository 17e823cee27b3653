import Mathlib.Tactic.IntervalCases
import ShmDos64.LockFreeRingBuffer.Delivery
/-!
# The ring buffer in one thread

`push` and `pop` one after the other, with indices and counters of 64 bits,
which is what the steps of a thread come to when nobody interrupts it.
The buffer is a queue of at most `m_size` items until its indices wrap, unless
it has one slot: there the counter of a full slot is the next write index, and
an unread item is overwritten.
-/

namespace ShmDos64

open Function (update update_of_ne update_self)

/-- The fields of a `LockFreeRingBuffer`. -/
structure RingBuffer (α : Type*) where
  counter : ℕ → ℕ
  data : ℕ → α
  writeIndex : ℕ
  readIndex : ℕ

namespace RingBuffer

variable {α : Type*} (size : ℕ) (s : RingBuffer α)

/-- `push`; `none` is a loop that does not end. -/
def push (x : α) : Option (RingBuffer α × Bool) :=
  let index := s.writeIndex
  let nextIndex := (index + 1) % 2 ^ 64
  let slot := index % size
  if s.counter slot = index then
    some ({ s with
      writeIndex := nextIndex
      data := update s.data slot x
      counter := update s.counter slot nextIndex }, true)
  else if s.counter slot < index then some (s, false) else none

/-- `pop`, with the item where it returns true. -/
def pop : Option (RingBuffer α × Option α) :=
  let index := s.readIndex
  let nextIndex := (index + 1) % 2 ^ 64
  let slot := index % size
  if s.counter slot = nextIndex then
    some ({ s with
      readIndex := nextIndex
      counter := update s.counter slot ((index + size) % 2 ^ 64) }, some (s.data slot))
  else if s.counter slot < nextIndex then some (s, none) else none

/-- The calls one after the other, a push of an item or a pop, with the items
that are stored. -/
def machine : Machine (RingBuffer α × List α) (Option α) where
  init s := (∀ i < size, s.1.counter i = i) ∧ s.1.writeIndex = 0 ∧ s.1.readIndex = 0 ∧ s.2 = []
  step s a t := match a with
    | some x => ∃ ok, s.1.push size x = some (t.1, ok) ∧ t.2 = if ok then s.2 ++ [x] else s.2
    | none => ∃ y, s.1.pop size = some (t.1, y) ∧ t.2 = if y.isSome then s.2.tail else s.2

end RingBuffer

/-! ## The steps of a thread that is left alone -/

/-- The fields of the buffer. -/
def RingState.buffer {α τ : Type*} (s : RingState α τ) : RingBuffer α :=
  ⟨s.counter, s.data, s.writeIndex, s.readIndex⟩

section

variable {α τ : Type*} [DecidableEq τ] {size : ℕ} {s : RingState α τ} {t : τ} {b : RingBuffer α}

/-- The call of a thread that nobody interrupts comes to its end, with the buffer `b`
and the data that has gone through. -/
def RingState.EndsAt (size : ℕ) (s : RingState α τ) (t : τ) (call : RingAct α)
    (b : RingBuffer α) (pushed : List α) (popped : List (ℕ × α)) : Prop :=
  ∃ n s', (call :: List.replicate n (.run false)).foldlM (fun s a => s.apply size (t, a)) s =
    some s' ∧ s'.pc t = .idle ∧ s'.buffer = b ∧ s'.pushed = pushed ∧ s'.popped = popped

/-- **`push` is what the steps of the thread come to.** -/
theorem RingState.endsAt_push {x : α} {ok : Bool} (hpc : s.pc t = .idle)
    (hlt : s.writeIndex + 1 < 2 ^ 64) (h : s.buffer.push size x = some (b, ok)) :
    s.EndsAt size t (.push x) b (if ok then s.pushed ++ [x] else s.pushed) s.popped := by
  simp only [RingBuffer.push, buffer, Nat.mod_eq_of_lt hlt] at h
  split at h
  · next heq =>
    -- load, test, exchange, copy and store
    cases h
    exact ⟨5, by simp [List.replicate, apply, exec, goto, buffer, hpc, heq]⟩
  · next hne =>
    obtain ⟨hlt, h⟩ := Option.ite_none_right_eq_some.mp h
    cases h
    exact ⟨2, by simp [List.replicate, apply, exec, goto, buffer, hpc, hne, hlt]⟩

/-- **And so is `pop`.** -/
theorem RingState.endsAt_pop {y : Option α} (hpc : s.pc t = .idle)
    (hlt : s.readIndex + size < 2 ^ 64) (hsize : 1 ≤ size)
    (h : s.buffer.pop size = some (b, y)) : s.EndsAt size t .pop b s.pushed
      (s.popped ++ y.toList.map (s.readIndex, ·)) := by
  simp only [RingBuffer.pop, buffer, Nat.mod_eq_of_lt hlt,
    Nat.mod_eq_of_lt (show s.readIndex + 1 < 2 ^ 64 by omega)] at h
  split at h
  · next heq =>
    cases h
    exact ⟨5, by simp [List.replicate, apply, exec, goto, buffer, hpc, heq]⟩
  · next hne =>
    obtain ⟨hlt, h⟩ := Option.ite_none_right_eq_some.mp h
    cases h
    exact ⟨2, by simp [List.replicate, apply, exec, goto, buffer, hpc, hne, Nat.le_of_lt_succ hlt]⟩

end

namespace RingBuffer

variable {α : Type*} {size : ℕ} {s : RingBuffer α} {q : List α} {i j : ℕ}

/-- The slots from the read index on: the stored items, then the free ones. -/
structure Holds (size : ℕ) (s : RingBuffer α) (q : List α) : Prop where
  write : s.writeIndex = s.readIndex + q.length
  le : q.length ≤ size
  stored : ∀ i < q.length, s.counter ((s.readIndex + i) % size) = s.readIndex + i + 1 ∧
    some (s.data ((s.readIndex + i) % size)) = q[i]?
  free : ∀ i, q.length ≤ i → i < size →
    s.counter ((s.readIndex + i) % size) = (s.readIndex + i) % 2 ^ 64

theorem slot_ne (hi : i < size) (hj : j < size) (h : i ≠ j) (r : ℕ) :
    (r + i) % size ≠ (r + j) % size := by
  intro heq
  have := Nat.ModEq.add_left_cancel' r heq
  rw [Nat.ModEq, Nat.mod_eq_of_lt hi, Nat.mod_eq_of_lt hj] at this
  exact h this

section

variable (hsize : 2 ≤ size) (h : s.Holds size q) (hlt : s.writeIndex + 1 < 2 ^ 64)

include hsize h hlt

theorem Holds.push (x : α) : ∃ t, s.push size x = some (t, decide (q.length < size)) ∧
    t.Holds size (if q.length < size then q ++ [x] else q) := by
  have hw := h.write
  have hmod : (s.writeIndex + 1) % 2 ^ 64 = s.writeIndex + 1 := Nat.mod_eq_of_lt hlt
  unfold RingBuffer.push
  by_cases hfull : q.length < size
  · have hcnt := h.free q.length le_rfl hfull
    rw [← hw, Nat.mod_eq_of_lt (Nat.lt_of_succ_lt hlt)] at hcnt
    simp only [hcnt, hmod, if_true, hfull, decide_true]
    refine ⟨_, rfl, ?_, ?_, fun i hi => ?_, fun i hi hi' => ?_⟩
    · simp [hw, Nat.add_assoc]
    · simpa using hfull
    · rw [List.length_append, List.length_singleton] at hi
      by_cases hq : i = q.length
      · simp [hq, ← hw]
      · have hne := slot_ne (by omega) hfull hq s.readIndex
        rw [← hw] at hne
        simpa [update_of_ne hne, List.getElem?_append_left (show i < q.length by omega)] using
          h.stored i (by omega)
    · rw [List.length_append, List.length_singleton] at hi
      have hne := slot_ne hi' hfull (by omega) s.readIndex
      rw [← hw] at hne
      simpa [update_of_ne hne] using h.free i (by omega) hi'
  · -- the slot of the write index is that of the first item
    have hcnt := (h.stored 0 (by omega)).1
    have hslot : s.writeIndex % size = (s.readIndex + 0) % size := by
      rw [hw, show q.length = size by have := h.le; omega, Nat.add_mod_right, Nat.add_zero]
    simp only [hslot, hcnt, hfull, decide_false, if_false]
    rw [if_neg (by omega), if_pos (by omega)]
    exact ⟨s, rfl, h⟩

theorem Holds.pop : ∃ t, s.pop size = some (t, q.head?) ∧ t.Holds size q.tail := by
  have hw := h.write
  have hmod : (s.readIndex + 1) % 2 ^ 64 = s.readIndex + 1 := Nat.mod_eq_of_lt (by omega)
  unfold RingBuffer.pop
  cases q with
  | nil =>
    have hcnt := h.free 0 le_rfl (by omega)
    have hread : s.readIndex % 2 ^ 64 = s.readIndex := Nat.mod_eq_of_lt (by omega)
    rw [Nat.add_zero, hread] at hcnt
    simp only [hcnt, hmod]
    rw [if_neg (by omega), if_pos (by omega)]
    exact ⟨s, rfl, h⟩
  | cons y q =>
    obtain ⟨hcnt, hdata⟩ := h.stored 0 (by simp)
    have hle := h.le
    simp only [Nat.add_zero, List.getElem?_cons_zero, Option.some.injEq] at hcnt hdata
    rw [List.length_cons] at hw hle
    simp only [hcnt, hmod, hdata, if_true]
    refine ⟨_, rfl, by simp only [hw, List.tail_cons]; omega, by simp only [List.tail_cons]; omega,
      fun i hi => ?_, fun i hi hi' => ?_⟩
    all_goals
      have hnext : s.readIndex + 1 + i = s.readIndex + (i + 1) := by omega
      have hne : i + 1 < size → (s.readIndex + (i + 1)) % size ≠ s.readIndex % size := fun hs =>
        slot_ne hs (by omega) (Nat.succ_ne_zero i) s.readIndex
      rw [List.tail_cons] at hi
      simp only [hnext]
    · rw [update_of_ne (hne (by omega))]
      exact h.stored (i + 1) (Nat.succ_lt_succ hi)
    · rcases Nat.lt_or_ge (i + 1) size with hs | hs
      · rw [update_of_ne (hne hs)]
        exact h.free (i + 1) (Nat.succ_le_succ hi) hs
      · obtain rfl : size = i + 1 := by omega
        rw [Nat.add_mod_right, update_self]

end

/-- **The buffer is a queue of `m_size` items**: in a run whose indices do not wrap, the next
call that does not wrap them is refused when the queue is full or empty, and a pop
returns the oldest item. -/
theorem ring_sequential {s : RingBuffer α × List α} (hsize : 2 ≤ size) (hmax : size ≤ 2 ^ 64)
    (h : ((machine size).guard fun s _ => s.1.writeIndex + 1 < 2 ^ 64).Reachable s)
    (hlt : s.1.writeIndex + 1 < 2 ^ 64) :
    (∀ x, ∃ t, s.1.push size x = some (t, decide (s.2.length < size))) ∧
      ∃ t, s.1.pop size = some (t, s.2.head?) := by
  have hinv : s.1.Holds size s.2 := h.invariant (I := fun s => s.1.Holds size s.2)
    (fun s hs => ?_) fun s a t hs hst => ?_
  · exact ⟨fun x => (hinv.push hsize hlt x).imp fun _ => And.left,
      (hinv.pop hsize hlt).imp fun _ => And.left⟩
  · obtain ⟨hcounter, hw, hr, hq⟩ := hs
    refine ⟨by simp [hw, hr, hq], by simp [hq], fun i hi => ?_, fun i _ hi => ?_⟩
    · simp [hq] at hi
    · rw [hr, Nat.zero_add, Nat.mod_eq_of_lt hi, hcounter i hi,
        Nat.mod_eq_of_lt (hi.trans_le hmax)]
  · obtain ⟨hlt, hst⟩ := hst
    cases a with
    | some x =>
      obtain ⟨ok, hpush, ht⟩ := hst
      obtain ⟨u, hu, hok⟩ := hs.push hsize hlt x
      obtain ⟨rfl, rfl⟩ := Prod.mk.inj (Option.some.inj (hpush.symm.trans hu))
      simpa [ht] using hok
    | none =>
      obtain ⟨y, hpop, ht⟩ := hst
      obtain ⟨u, hu, hok⟩ := hs.pop hsize hlt
      obtain ⟨rfl, rfl⟩ := Prod.mk.inj (Option.some.inj (hpop.symm.trans hu))
      cases hq : s.2 <;> simp_all

/-- After two pushes to two slots a third is refused, and the first item is next. -/
theorem ring_sequential_two : ∃ s : RingBuffer ℕ, s.writeIndex = 2 ∧
    (∃ t, s.push 2 9 = some (t, false)) ∧ ∃ t, s.pop 2 = some (t, some 7) := by
  have h₁ : ((machine 2).guard fun s _ => s.1.writeIndex + 1 < 2 ^ 64).Reachable (_, [7]) :=
    .step (a := some 7) (.init (s := (⟨id, id, 0, 0⟩, [])) ⟨fun _ _ => rfl, rfl, rfl, rfl⟩)
      ⟨by decide, true, rfl, rfl⟩
  have h₂ := @ring_sequential ℕ 2 (_, [7, 8]) le_rfl (by decide)
    (h₁.step (a := some 8) ⟨by decide, true, rfl, rfl⟩) (by decide)
  exact ⟨_, rfl, h₂.1 9, h₂.2⟩

/-- One slot takes a second item over the first, and then a pop does not end; nor does
it where the read index is to wrap and two slots are empty. -/
theorem ring_one_slot : (∃ s t : RingBuffer ℕ,
    (⟨id, id, 0, 0⟩ : RingBuffer ℕ).push 1 7 = some (s, true) ∧ s.push 1 8 = some (t, true) ∧
      t.pop 1 = none) ∧
    ∃ s : RingBuffer ℕ, s.Holds 2 [] ∧ s.writeIndex = 2 ^ 64 - 1 ∧ s.pop 2 = none := by
  refine ⟨⟨_, _, rfl, rfl, rfl⟩,
    ⟨fun i => if i = 0 then 0 else 2 ^ 64 - 1, id, 2 ^ 64 - 1, 2 ^ 64 - 1⟩, ?_, rfl, rfl⟩
  refine ⟨rfl, by decide, by simp, fun i _ hi => ?_⟩
  interval_cases i <;> rfl

end RingBuffer

end ShmDos64
