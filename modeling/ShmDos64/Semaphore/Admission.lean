import ShmDos64.Common.Run
import ShmDos64.Common.Total
/-!
# The semaphore

`Semaphore` is an event with a value and a count of the threads that wait.
`wait` takes what there is of the value, and for the rest goes to wait for the
event; `onWaitBegin` takes again, under `m_spin`. `signal` adds to the value,
and then calls `set` as long as it sees both a value and a thread that waits;
`set` takes on behalf of the first task of the wait list, and wakes it when its
rest is paid.

A compare-exchange loop on `m_state` is one step, the one in which it succeeds,
and so is a critical section under `m_spin`. Threads wait without a timeout and
are not terminated.
-/

namespace ShmDos64

open Function (update)

/-- What a thread is about to do. A thread that waits has `taken` of its count,
and `rest` is in its `LOCAL_THREAD_STORAGE_SEM_VALUE`. -/
inductive SemPc where
  | idle
  /-- `wait`, in `waitUpdate<false>`. -/
  | take (count : ℕ)
  /-- `waitExStatus`. -/
  | waitEnter (taken rest : ℕ)
  | asleep (taken rest : ℕ)
  /-- `wait`, to return true. -/
  | returns (count : ℕ)
  /-- `signal`, in its first loop. -/
  | add (count : ℕ)
  /-- `signal`, to call `set`. -/
  | set
  /-- `signal`, to load `m_state` after `set`. -/
  | reload
  deriving DecidableEq

/-- The thread sleeps. -/
def SemPc.isAsleep : SemPc → Bool
  | asleep _ _ => true
  | _ => false

/-- The semaphore, where the threads are, and the counts of the calls. -/
structure SemState (τ : Type*) where
  value : ℕ
  waitCount : ℕ
  /-- `m_set` of the event. -/
  set : Bool
  /-- The tasks of the wait list. -/
  waitTasks : List τ
  pc : τ → SemPc
  /-- The sum of the counts of the calls of `wait` that have returned true. -/
  admitted : ℕ
  /-- The sum of the counts of the calls of `signal`. -/
  signalled : ℕ

/-- What a thread does. -/
inductive SemAct where
  | wait (count : Fin (2 ^ 32))
  | signal (count : Fin (2 ^ 32))
  /-- The next step of the routine it is in. -/
  | run

namespace SemState

variable {τ : Type*} [DecidableEq τ]

section

variable (s : SemState τ)

def goto (t : τ) (pc : SemPc) : SemState τ :=
  { s with pc := update s.pc t pc }

/-- `onWaitBegin`, and the rest of `waitExStatus`. -/
def waitBegin (t : τ) (taken rest : ℕ) : SemState τ :=
  if s.value < rest then
    { s.goto t (.asleep (taken + s.value) (rest - s.value)) with
      value := 0
      waitCount := (s.waitCount + 1) % 2 ^ 32
      waitTasks := s.waitTasks ++ [t] }
  else { s.goto t (.returns (taken + rest)) with value := s.value - rest }

/-- `set` for a task that sleeps at the head of the list, with
`onWakeSingleThread`; a task that is not paid stays where it is. -/
def wakeSingle (task : τ) (rest : List τ) : SemState τ :=
  match s.pc task with
  | .asleep taken count =>
    if s.value = 0 then { s with waitTasks := task :: rest }
    else if s.value < count then
      { s.goto task (.asleep (taken + s.value) (count - s.value)) with
        value := 0
        waitTasks := task :: rest }
    else
      { s.goto task (.returns (taken + count)) with
        value := s.value - count
        waitCount := (s.waitCount + (2 ^ 32 - 1)) % 2 ^ 32
        waitTasks := rest }
  | _ => s

/-- `EventObject::set`. -/
def eventSet : SemState τ :=
  if s.set then s
  else
    -- the tasks of the list that do not sleep are passed over
    match s.waitTasks.dropWhile fun task => !(s.pc task).isAsleep with
    | [] => { s with set := true, waitTasks := [] }
    | task :: rest => s.wakeSingle task rest

/-- What `signal` does when it has seen the state. -/
def signalNext : SemPc :=
  if s.waitCount ≠ 0 ∧ 0 < s.value then .set else .idle

/-- The next step of the routine `t` is in; `none` when it cannot go on. -/
def exec (max : ℕ) (s : SemState τ) (t : τ) : Option (SemState τ) :=
  match s.pc t with
  | .idle | .asleep _ _ => none
  | .take count =>
    if s.value < count then
      some { s.goto t (.waitEnter s.value (count - s.value)) with value := 0 }
    else some { s.goto t (.returns count) with value := s.value - count }
  | .waitEnter taken rest =>
    if s.set then some { s.goto t (.returns (taken + rest)) with set := false }
    else some (s.waitBegin t taken rest)
  | .returns count => some { s.goto t .idle with admitted := s.admitted + count }
  | .add count =>
    let s' := { s with value := min ((s.value + count) % 2 ^ 32) max }
    some (s'.goto t s'.signalNext)
  | .set => some (s.goto t .reload).eventSet
  | .reload => some (s.goto t s.signalNext)

/-- A step of `t`. -/
def apply (max : ℕ) (s : SemState τ) : τ × SemAct → Option (SemState τ)
  | (t, .wait count) =>
    if s.pc t = .idle then
      -- true is returned for nothing, and false for more than there can be
      if count.val = 0 ∨ max < count then some s else some (s.goto t (.take count))
    else none
  | (t, .signal count) =>
    if s.pc t = .idle then
      let s' := { s with signalled := s.signalled + count }
      if count.val = 0 then some s' else some (s'.goto t (.add count))
    else none
  | (t, .run) => s.exec max t

/-- A new semaphore. -/
def initial (initialValue : ℕ) : SemState τ where
  value := initialValue
  waitCount := 0
  set := false
  waitTasks := []
  pc _ := .idle
  admitted := 0
  signalled := 0

/-- A thread does not come to wait while `m_set` is left set. -/
def NotSet : τ × SemAct → Prop
  | (t, .run) => s.set = true → ∀ taken rest, s.pc t ≠ .waitEnter taken rest
  | _ => True

end

end SemState

/-- The interleavings of any number of threads on one semaphore. -/
def semMachine (τ : Type*) [DecidableEq τ] (initialValue max : ℕ) :
    Machine (SemState τ) (τ × SemAct) where
  init s := s = .initial initialValue
  step s a s' := s.apply max a = some s'

/-! ## Where the counts are

What is signalled goes to the value, from there to the threads, and is admitted
when they return. A thread in `signal` has what it is about to add. -/

/-- What a thread has of the counts. -/
def SemPc.has : SemPc → ℕ
  | idle | take _ | set | reload => 0
  | waitEnter taken _ | asleep taken _ => taken
  | returns count | add count => count

namespace SemState

variable {τ : Type*} [Fintype τ] {s s' : SemState τ} {t : τ} {initialValue max : ℕ}

/-- **The invariant.** No count comes from nothing. -/
def Covered (initialValue : ℕ) (s : SemState τ) : Prop :=
  s.admitted + total SemPc.has s.pc + s.value ≤ initialValue + s.signalled

/-- The counts that the threads and the value have, with those that are through. -/
def weight (s : SemState τ) : ℕ := s.admitted + total SemPc.has s.pc + s.value

/-- What `signal` loses: the sum may wrap around, and is cut at the maximum. -/
def lost (max : ℕ) (s : SemState τ) : τ × SemAct → ℕ
  | (t, .run) =>
    match s.pc t with
    | .add count => s.value + count - min ((s.value + count) % 2 ^ 32) max
    | _ => 0
  | _ => 0

variable [DecidableEq τ]

/-- A step of one thread keeps the sum, up to what changes in its part of it. -/
theorem weight_moved {q : SemPc} {d : ℕ} (hpc : s'.pc = update s.pc t q)
    (h : s'.admitted + q.has + s'.value + d = s.admitted + (s.pc t).has + s.value) :
    s'.weight + d = s.weight := by
  have hsum := total_update SemPc.has s.pc t q
  rw [weight, weight, hpc]
  omega

theorem weight_kept {q : SemPc} (hpc : s'.pc = update s.pc t q)
    (h : s'.admitted + q.has + s'.value = s.admitted + (s.pc t).has + s.value) :
    s'.weight = s.weight :=
  weight_moved (d := 0) hpc h

theorem weight_waitBegin {taken rest : ℕ} (hpc : s.pc t = .waitEnter taken rest) :
    (s.waitBegin t taken rest).weight = s.weight := by
  rw [SemState.waitBegin]
  split
  all_goals
    refine weight_kept rfl ?_
    simp only [goto, hpc, SemPc.has]
    omega

/-- What `set` takes of the value is the task's. -/
theorem weight_wakeSingle {task : τ} {rest : List τ} :
    (s.wakeSingle task rest).weight = s.weight := by
  rw [SemState.wakeSingle]
  split
  next taken count hpc =>
    split
    · rfl
    split
    all_goals
      refine weight_kept rfl ?_
      simp only [goto, hpc, SemPc.has]
      omega
  next => rfl

theorem weight_eventSet : s.eventSet.weight = s.weight := by
  rw [SemState.eventSet]
  split
  · rfl
  split
  · rfl
  · exact weight_wakeSingle

omit [Fintype τ] [DecidableEq τ] in
theorem has_signalNext : s.signalNext.has = 0 := by
  rw [signalNext]
  split <;> rfl

omit [Fintype τ] in
theorem signalled_eventSet : s.eventSet.signalled = s.signalled := by
  rw [SemState.eventSet]
  split
  · rfl
  split
  · rfl
  · rw [SemState.wakeSingle]
    repeat' split
    all_goals rfl

/-- What a step of a routine does to the sum. -/
theorem weight_exec (hset : s.NotSet (t, .run)) (hst : s.exec max t = some s') :
    s'.weight + s.lost max (t, .run) = s.weight ∧ s'.signalled = s.signalled := by
  simp only [SemState.exec] at hst
  simp only [lost]
  split at hst
  case h_1 | h_2 => cases hst
  case h_3 count hpc =>
    split at hst <;> obtain ⟨⟩ := hst <;>
      refine ⟨weight_moved rfl ?_, rfl⟩ <;> simp only [goto, hpc, SemPc.has] <;> omega
  case h_4 taken rest hpc =>
    split at hst
    next hs => exact absurd hpc (hset hs taken rest)
    next =>
      obtain ⟨⟩ := hst
      refine ⟨by rw [hpc]; exact weight_waitBegin hpc, ?_⟩
      rw [SemState.waitBegin]
      split <;> rfl
  case h_5 count hpc =>
    obtain ⟨⟩ := hst
    refine ⟨weight_moved rfl ?_, rfl⟩
    simp only [goto, hpc, SemPc.has]
    omega
  case h_6 count hpc =>
    obtain ⟨⟩ := hst
    refine ⟨weight_moved rfl ?_, rfl⟩
    have hwrap := Nat.mod_le (s.value + count) (2 ^ 32)
    have hcut := Nat.min_le_left ((s.value + count) % 2 ^ 32) max
    rw [has_signalNext, hpc]
    simp only [goto, SemPc.has]
    omega
  case h_7 hpc =>
    obtain ⟨⟩ := hst
    refine ⟨?_, signalled_eventSet⟩
    rw [weight_eventSet, hpc]
    refine weight_moved (q := .reload) rfl ?_
    simp only [goto, hpc, SemPc.has]
    omega
  case h_8 hpc =>
    obtain ⟨⟩ := hst
    refine ⟨weight_moved rfl ?_, rfl⟩
    rw [has_signalNext, hpc]
    simp only [goto, SemPc.has]
    omega

/-- **The step lemma**: a step keeps the sum, but for what is signalled and what
that loses. -/
theorem weight_apply {a : τ × SemAct} (hset : s.NotSet a) (hst : s.apply max a = some s') :
    s'.weight + s.lost max a + s.signalled = s.weight + s'.signalled := by
  obtain ⟨t, a⟩ := a
  cases a with
  | wait count =>
    simp only [SemState.apply] at hst
    split at hst
    next hpc =>
      split at hst <;> obtain ⟨⟩ := hst
      · rfl
      · refine congrArg (· + s.signalled) (weight_kept rfl ?_)
        simp only [goto, hpc, SemPc.has]
    next => cases hst
  | signal count =>
    simp only [SemState.apply] at hst
    split at hst
    next hpc =>
      split at hst
      next hzero =>
        obtain ⟨⟩ := hst
        rw [hzero]
        rfl
      next =>
        obtain ⟨⟩ := hst
        have hsum := total_update SemPc.has s.pc t (.add count)
        simp only [hpc, SemPc.has] at hsum
        simp only [weight, goto, lost]
        omega
    next => cases hst
  | run =>
    obtain ⟨hweight, hsignalled⟩ := weight_exec hset hst
    rw [hweight, hsignalled]

theorem Covered.apply {a : τ × SemAct} (h : Covered initialValue s) (hset : s.NotSet a)
    (hst : s.apply max a = some s') : Covered initialValue s' := by
  have hstep := weight_apply hset hst
  rw [Covered] at h ⊢
  rw [weight, weight] at hstep
  omega

/-- **The semaphore admits no more than it was given.** In every run in which no
thread comes to wait while `m_set` is left set, the calls of `wait` that have
returned true have been paid for. -/
theorem semaphore_admits (hs : ((semMachine τ initialValue max).guard NotSet).Reachable s) :
    s.admitted ≤ initialValue + s.signalled := by
  have h : Covered initialValue s := hs.invariant
    (fun s h => by
      obtain rfl : s = initial initialValue := h
      have hidle : total SemPc.has (initial initialValue : SemState τ).pc = 0 :=
        total_eq_zero fun _ => rfl
      rw [Covered, hidle]
      simp [initial])
    fun _ _ _ h hst => h.apply hst.1 hst.2
  rw [Covered] at h
  omega

/-- A thread waits for three, and two threads signal in parts. -/
theorem semaphore_admits_inParts : ∃ s : SemState (Fin 3),
    (s.admitted = 3 ∧ s.signalled = 2) ∧ s.admitted ≤ 1 + s.signalled := by
  obtain ⟨s, hs, hend⟩ := Machine.Reachable.exists_of_foldlM
    (M := (semMachine (Fin 3) 1 5).guard NotSet)
    (f := fun s a => if s.set then none else s.apply 5 a)
    (P := fun s => decide (s.admitted = 3 ∧ s.signalled = 2))
    (fun s a t h => by
      split_ifs at h with hset
      refine ⟨?_, h⟩
      obtain ⟨t, a⟩ := a
      cases a <;> first | exact fun hs => absurd hs hset | trivial)
    [(0, .wait 3), (0, .run), (0, .run), (1, .signal 1), (1, .run), (1, .run), (1, .run),
      (2, .signal 1), (2, .run), (2, .run), (2, .run), (0, .run)]
    (.init rfl) (by decide +kernel)
  exact ⟨s, of_decide_eq_true hend, semaphore_admits hs⟩

/-- **A thread is admitted for nothing.** A thread waits for one, and two others
signal one each; both see the thread that waits. The `set` of the first wakes it,
and that of the second finds the list empty and leaves `m_set` set. The thread
waits again, for two: it takes the one that there is, and `m_set` pays the
rest. -/
theorem semaphore_overAdmits : ∃ s : SemState (Fin 3),
    (semMachine (Fin 3) 0 5).Reachable s ∧ 0 + s.signalled < s.admitted := by
  obtain ⟨s, hs, hend⟩ := Machine.Reachable.exists_of_foldlM
    (M := semMachine (Fin 3) 0 5) (f := apply 5)
    (P := fun s => decide (0 + s.signalled < s.admitted))
    (fun _ _ _ h => h)
    [(0, .wait 1), (0, .run), (0, .run), (1, .signal 1), (2, .signal 1), (1, .run), (2, .run),
      (1, .run), (2, .run), (0, .run), (0, .wait 2), (0, .run), (0, .run), (0, .run)]
    (.init rfl) (by decide +kernel)
  exact ⟨s, hs, of_decide_eq_true hend⟩

end SemState

end ShmDos64
