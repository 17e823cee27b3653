import ShmDos64.Common.Run
import ShmDos64.Cpu
/-!
# The mutex

`MutexPrivate` is an event with one more word, `m_lockCpu`: free, the processor
of the owner, or from `MAX_CPU` on a count of the threads that wait. `lock`
spins for the word and then waits for the event, whose hook `onWaitBegin` takes
the word when it has become free and counts the thread otherwise. `unlock`
frees the word, or signals the event when threads are counted; the thread that
is woken goes on in `onWake`, which counts it out.

A compare-exchange loop is one step, the one in which it succeeds, and may run
on any processor. `m_spin` of the event is a field of the state, since the word
changes while it is held. Threads wait without a timeout and are not
terminated, so `wait` returns true, and the branch of `lock` for a wait that
has failed is not there.
-/

namespace ShmDos64

open Function (update update_of_ne update_self)

/-- `g_freeSpinValue`. -/
abbrev freeSpinValue : ℕ := 2 ^ 32 - 1

/-- `g_waitCountStartValue`. -/
abbrev waitCountStartValue : ℕ := maxCpu

/-- What a thread is about to do. -/
inductive MutexPc where
  /-- It is in no routine of the mutex. -/
  | idle
  /-- `lock`, to compare and exchange, with the rounds left. -/
  | spinning (rounds : ℕ)
  /-- `waitExStatus`, to lock `m_spin`. -/
  | waitEnter
  /-- `onWaitBegin`, under `m_spin`. -/
  | waitBegin
  /-- `insertTask`, under `m_spin`. -/
  | waitInsert
  | asleep
  /-- `lock`, with the wait behind it. -/
  | onWake
  /-- `unlock`, to call `set`. -/
  | signal
  deriving DecidableEq

/-- The mutex, and where the threads are. -/
structure MutexState (τ : Type*) where
  lockCpu : ℕ
  set : Bool
  /-- The thread that holds `m_spin`, when that is for more than a step. -/
  spin : Option τ
  /-- The tasks of the wait list. -/
  waitTasks : List τ
  pc : τ → MutexPc
  /-- What `lock` or a successful `try_lock` has returned to a thread that has
  not called `unlock` since. -/
  returned : τ → Option Bool

/-- What a thread does. -/
inductive MutexAct where
  | lock
  | tryLock
  | unlock
  /-- The next step of the routine it is in. -/
  | run

namespace MutexState

variable {τ : Type*} [DecidableEq τ]

section

variable (s : MutexState τ) (t : τ)

def goto (pc : MutexPc) : MutexState τ :=
  { s with pc := update s.pc t pc }

/-- `lock` or `try_lock` returns. -/
def ret (result : Bool) : MutexState τ :=
  { s.goto t .idle with returned := update s.returned t (some result) }

/-- `unlock` is called. -/
def giveUp : MutexState τ :=
  { s with returned := update s.returned t none }

/-- The word that `onWake` writes. -/
def wakeLock (cpu lock : ℕ) : ℕ :=
  if lock = waitCountStartValue then cpu else (lock + (2 ^ 32 - 1)) % 2 ^ 32

/-- The word that `onWaitBegin` writes when it counts the thread. -/
def countLock (lock : ℕ) : ℕ :=
  if lock < waitCountStartValue then waitCountStartValue else (lock + 1) % 2 ^ 32

/-- `EventObject::set` of an event that resets itself, whose waiters wait for
nothing else. -/
def eventSet : MutexState τ :=
  if s.set then s
  else
    -- the tasks of the list that do not sleep are passed over
    match s.waitTasks.dropWhile (s.pc · ≠ .asleep) with
    | [] => { s with set := true, waitTasks := [] }
    | task :: rest => { s.goto task .onWake with waitTasks := rest }

/-- The next step of the routine `t` is in; `none` when it cannot go on. -/
def exec (cpu : ℕ) : Option (MutexState τ) :=
  match s.pc t with
  | .idle | .asleep => none
  | .spinning 0 => some (s.goto t .waitEnter)
  | .spinning (rounds + 1) =>
    if s.lockCpu = freeSpinValue then some { s.ret t true with lockCpu := cpu }
    else if waitCountStartValue ≤ s.lockCpu ∨ s.lockCpu = cpu then some (s.goto t .waitEnter)
    else some (s.goto t (.spinning rounds))
  | .waitEnter =>
    if s.spin ≠ none then none
    else if s.set then some { s.goto t .onWake with set := false }
    else some { s.goto t .waitBegin with spin := some t }
  | .waitBegin =>
    if s.lockCpu = freeSpinValue then some { s.goto t .onWake with lockCpu := cpu, spin := none }
    else some { s.goto t .waitInsert with lockCpu := countLock s.lockCpu }
  | .waitInsert => some { s.goto t .asleep with waitTasks := s.waitTasks ++ [t], spin := none }
  | .onWake =>
    let newLock := wakeLock cpu s.lockCpu
    some { s.ret t (newLock < waitCountStartValue) with lockCpu := newLock }
  | .signal => if s.spin ≠ none then none else some (s.goto t .idle).eventSet

/-- A step of `t` on the processor `cpu`; `unlock` is called by a thread that
`lock` or `try_lock` has returned to. -/
def apply (spinCount : ℕ) (s : MutexState τ) :
    τ × Fin maxCpu × MutexAct → Option (MutexState τ)
  | (t, _, .lock) => if s.pc t = .idle then some (s.goto t (.spinning spinCount)) else none
  | (t, cpu, .tryLock) =>
    if s.pc t = .idle then
      if s.lockCpu = freeSpinValue then some { s.ret t true with lockCpu := cpu } else some s
    else none
  | (t, _, .unlock) =>
    if s.pc t = .idle ∧ s.returned t ≠ none then
      if s.lockCpu < waitCountStartValue then some { s.giveUp t with lockCpu := freeSpinValue }
      else some ((s.giveUp t).goto t .signal)
    else none
  | (t, cpu, .run) => s.exec t cpu

/-- A new mutex. -/
def initial : MutexState τ where
  lockCpu := freeSpinValue
  set := false
  spin := none
  waitTasks := []
  pc _ := .idle
  returned _ := none

/-- The word has room for what a step does to it: `onWake` does not take one
from zero, and the count of `onWaitBegin` does not reach the free value. -/
def Room : τ × Fin maxCpu × MutexAct → Prop
  | (t, _, .run) =>
    (s.pc t = .onWake → s.lockCpu ≠ 0) ∧ (s.pc t = .waitBegin → s.lockCpu ≠ 2 ^ 32 - 2)
  | _ => True

instance (a : τ × Fin maxCpu × MutexAct) : Decidable (s.Room a) :=
  match a with
  | (t, _, .run) =>
    inferInstanceAs (Decidable ((s.pc t = .onWake → s.lockCpu ≠ 0) ∧
      (s.pc t = .waitBegin → s.lockCpu ≠ 2 ^ 32 - 2)))
  | (_, _, .lock) | (_, _, .tryLock) | (_, _, .unlock) => inferInstanceAs (Decidable True)

end

end MutexState

/-- The interleavings of any number of threads on one mutex. -/
def mutexMachine (τ : Type*) [DecidableEq τ] (spinCount : ℕ) :
    Machine (MutexState τ) (τ × Fin maxCpu × MutexAct) where
  init s := s = .initial
  step s a s' := s.apply spinCount a = some s'

namespace MutexState

variable {τ : Type*} [DecidableEq τ] {s s' : MutexState τ} {t : τ} {spinCount : ℕ}

/-! ## The token

Ownership is a token. A thread has it from the step that takes the word, or
that wakes the thread, to the end of its `unlock`; in between it may be left in
`m_set`. -/

/-- The thread, or for `none` the event, has the token. -/
def Token (s : MutexState τ) : Option τ → Prop
  | none => s.set = true
  | some t => s.returned t ≠ none ∨ s.pc t = .onWake ∨ s.pc t = .signal

/-- **The invariant.** There is one token at most, and none while the word is
free. -/
structure Single (s : MutexState τ) : Prop where
  unique : ∀ x y, s.Token x → s.Token y → x = y
  busy : ∀ x, s.Token x → s.lockCpu ≠ freeSpinValue
  /-- A thread in `set` has given the mutex up. -/
  signal : ∀ t, s.pc t = .signal → s.returned t = none
  bound : s.lockCpu < 2 ^ 32

omit [DecidableEq τ] in
/-- The mutex is in one place. -/
theorem Single.of_only (x : Option τ) (h : ∀ y, s.Token y → y = x)
    (hfree : s.lockCpu ≠ freeSpinValue) (hsig : ∀ t, s.pc t = .signal → s.returned t = none)
    (hb : s.lockCpu < 2 ^ 32) : Single s where
  unique y z hy hz := (h y hy).trans (h z hz).symm
  busy _ _ := hfree
  signal := hsig
  bound := hb

omit [DecidableEq τ] in
/-- No token appears, and the word becomes free only when there is none. -/
theorem Single.of_subset (hs : Single s) (h : ∀ y, s'.Token y → s.Token y)
    (hfree : ∀ y, s'.Token y → s'.lockCpu ≠ freeSpinValue)
    (hsig : ∀ t, s'.pc t = .signal → s'.returned t = none) (hb : s'.lockCpu < 2 ^ 32) :
    Single s' where
  unique y z hy hz := hs.unique y z (h y hy) (h z hz)
  busy := hfree
  signal := hsig
  bound := hb

/-! ### Where a step of `t` can leave the token -/

variable {q : MutexPc} {y : Option τ}

theorem token_goto (hw : q ≠ .onWake) (hg : q ≠ .signal)
    (h : (s.goto t q).Token y) : s.Token y := by
  rcases y with - | u
  · exact h
  · rcases h with h | h | h
    · exact .inl h
    all_goals
      by_cases hu : u = t
      · subst hu
        simp only [goto, update_self] at h
        contradiction
      · simp only [goto, update_of_ne hu] at h
        simp [Token, h]

/-- The thread that goes to `onWake` or `signal` has the token, and whoever had
it else. -/
theorem token_goto_or (h : (s.goto t q).Token y) :
    y = some t ∨ s.Token y := by
  rcases y with - | u
  · exact .inr h
  · by_cases hu : u = t
    · exact .inl (congrArg some hu)
    · simp only [Token, goto, update_of_ne hu] at h
      exact .inr h

theorem token_ret {result : Bool} (h : (s.ret t result).Token y) :
    y = some t ∨ s.Token y := by
  rcases y with - | u
  · exact .inr h
  · by_cases hu : u = t
    · exact .inl (congrArg some hu)
    · simp only [Token, ret, goto, update_of_ne hu] at h
      exact .inr h

theorem signal_goto (hs : Single s) (hg : q ≠ .signal) (u : τ)
    (h : (s.goto t q).pc u = .signal) : s.returned u = none := by
  by_cases hu : u = t
  · subst hu
    simp only [goto, update_self] at h
    contradiction
  · simp only [goto, update_of_ne hu] at h
    exact hs.signal u h

theorem signal_ret (hs : Single s) {result : Bool} (u : τ) (h : (s.ret t result).pc u = .signal) :
    (s.ret t result).returned u = none := by
  by_cases hu : u = t
  · subst hu
    simp [ret, goto] at h
  · simp only [ret, goto, update_of_ne hu] at h ⊢
    exact hs.signal u h

theorem cpu_lt (cpu : Fin maxCpu) : (cpu : ℕ) ≠ freeSpinValue ∧ (cpu : ℕ) < 2 ^ 32 := by
  have := cpu.isLt
  simp only [maxCpu] at this
  simp only [freeSpinValue]
  omega

theorem countLock_lt {lock : ℕ} (h : lock < 2 ^ 32) (hr : lock ≠ 2 ^ 32 - 2) :
    countLock lock ≠ freeSpinValue ∧ countLock lock < 2 ^ 32 := by
  simp only [countLock, waitCountStartValue, maxCpu, freeSpinValue]
  split <;> omega

theorem wakeLock_lt (cpu : Fin maxCpu) {lock : ℕ} (h : lock < 2 ^ 32) (hr : lock ≠ 0) :
    wakeLock cpu lock ≠ freeSpinValue ∧ wakeLock cpu lock < 2 ^ 32 := by
  have := cpu.isLt
  simp only [wakeLock, waitCountStartValue, maxCpu, freeSpinValue] at this ⊢
  split <;> omega

/-! ## The steps -/

/-- A thread takes the free word, and returns. -/
theorem Single.ret_free (hs : Single s) (hfree : s.lockCpu = freeSpinValue) (cpu : Fin maxCpu) :
    Single { s.ret t true with lockCpu := cpu } := by
  refine .of_only (some t) (fun y hy => ?_) (cpu_lt cpu).1 (signal_ret hs) (cpu_lt cpu).2
  rcases token_ret (s := s) (t := t) (y := y) hy with rfl | hy
  · rfl
  · exact absurd hfree (hs.busy y hy)

/-- A step that leaves the word, and brings `t` nowhere where it has the
token. -/
theorem Single.goto (hs : Single s) (hw : q ≠ .onWake) (hg : q ≠ .signal) :
    Single (s.goto t q) :=
  hs.of_subset (fun _ hy => token_goto hw hg hy) (fun y hy => hs.busy y (token_goto hw hg hy))
    (signal_goto hs hg) hs.bound

/-- `set` hands the token on: to the first task that sleeps, or to the event. -/
theorem Single.eventSet (hs : Single s) (ht : s.pc t = .signal) :
    Single (s.goto t .idle).eventSet := by
  -- the token is with `t`, so it is nowhere else
  have htok : s.Token (some t) := .inr (.inr ht)
  have hset : s.set = false := by
    by_contra h
    have hset : s.Token none := by simpa [Token] using h
    cases hs.unique none (some t) hset htok
  have hnone : ∀ y, ¬ (s.goto t .idle).Token y := by
    intro y hy
    obtain rfl := hs.unique y (some t) (token_goto (q := .idle) nofun nofun hy) htok
    simp [Token, MutexState.goto, hs.signal t ht] at hy
  have hidle : Single (s.goto t .idle) := hs.goto nofun nofun
  have hbusy := hs.busy _ htok
  rw [MutexState.eventSet, if_neg (by simp [MutexState.goto, hset])]
  split
  · refine .of_only none (fun y hy => ?_) hbusy hidle.signal hs.bound
    rcases y with - | u
    · rfl
    · exact absurd hy (hnone (some u))
  · rename_i task rest _
    refine .of_only (some task) (fun y hy => ?_) hbusy
      (signal_goto (t := task) hidle (q := .onWake) nofun) hs.bound
    rcases token_goto_or (s := s.goto t .idle) (t := task) (q := .onWake) (y := y) hy
      with rfl | hy
    · rfl
    · exact absurd hy (hnone y)

section

variable (hs : Single s) (hret : s.returned t ≠ none) (hpc : s.pc t = .idle)

include hs hret hpc

/-- Once `t` has called `unlock` it has the token only for `set`. -/
theorem Single.not_token_giveUp (y : Option τ) : ¬ (s.giveUp t).Token y := by
  have htok : s.Token (some t) := .inl hret
  intro hy
  rcases y with - | u
  · cases hs.unique none (some t) hy htok
  · by_cases hu : u = t
    · subst hu
      simp [Token, giveUp, hpc] at hy
    · simp only [Token, giveUp, update_of_ne hu] at hy
      exact hu (Option.some.inj (hs.unique (some u) (some t) hy htok))

theorem Single.unlock_free :
    Single { s.giveUp t with lockCpu := freeSpinValue } := by
  have hnone := hs.not_token_giveUp hret hpc
  refine hs.of_subset (fun y hy => absurd hy (hnone y)) (fun y hy => absurd hy (hnone y))
    (fun u hu => ?_) (by simp only [freeSpinValue]; omega)
  by_cases hut : u = t
  · simp [giveUp, hut]
  · simpa only [giveUp, update_of_ne hut] using hs.signal u hu

theorem Single.unlock_signal : Single ((s.giveUp t).goto t .signal) := by
  refine .of_only (some t) (fun y hy => ?_) (hs.busy (some t) (.inl hret)) (fun u hu => ?_)
    hs.bound
  · rcases token_goto_or hy with rfl | hy
    · rfl
    · exact absurd hy (hs.not_token_giveUp hret hpc y)
  · by_cases hut : u = t
    · simp [MutexState.goto, giveUp, hut]
    · simp only [MutexState.goto, giveUp, update_of_ne hut] at hu ⊢
      exact hs.signal u hu

end

/-- **The step lemma** for a thread inside a routine. -/
theorem Single.exec (hs : Single s) {cpu : Fin maxCpu} (hroom : s.Room (t, cpu, .run))
    (h : s.exec t cpu = some s') : Single s' := by
  simp only [MutexState.exec] at h
  split at h
  case h_1 | h_2 => cases h
  case h_3 =>
    obtain ⟨⟩ := h
    exact hs.goto nofun nofun
  case h_4 =>
    split at h
    next hfree =>
      obtain ⟨⟩ := h
      exact hs.ret_free hfree cpu
    next =>
      split at h <;> obtain ⟨⟩ := h <;> exact hs.goto nofun nofun
  case h_5 =>
    split at h
    · cases h
    split at h
    next hset =>
      -- the token goes from the event to `t`
      obtain ⟨⟩ := h
      refine .of_only (some t) (fun y hy => ?_) (hs.busy none hset)
        (signal_goto hs (q := .onWake) nofun) hs.bound
      rcases y with - | u
      · cases hy
      · rcases token_goto_or (s := s) (t := t) (q := .onWake) (y := some u) hy with h | h
        · exact h
        · cases hs.unique none (some u) hset h
    next =>
      obtain ⟨⟩ := h
      exact (hs.goto (t := t) (q := .waitBegin) nofun nofun).of_subset (fun _ h => h)
        (hs.goto (t := t) (q := .waitBegin) nofun nofun).busy
        (signal_goto hs (q := .waitBegin) nofun) hs.bound
  case h_6 hpc =>
    split at h
    next hfree =>
      obtain ⟨⟩ := h
      refine .of_only (some t) (fun y hy => ?_) (cpu_lt cpu).1
        (signal_goto hs (q := .onWake) nofun) (cpu_lt cpu).2
      rcases token_goto_or (s := s) (t := t) (q := .onWake) (y := y) hy with rfl | hy
      · rfl
      · exact absurd hfree (hs.busy y hy)
    next =>
      obtain ⟨⟩ := h
      have hc := countLock_lt hs.bound (hroom.2 hpc)
      exact hs.of_subset (fun y hy => token_goto (q := .waitInsert) (y := y) nofun nofun hy)
        (fun _ _ => hc.1) (signal_goto hs (q := .waitInsert) nofun) hc.2
  case h_7 =>
    obtain ⟨⟩ := h
    exact hs.of_subset (fun y hy => token_goto (q := .asleep) (y := y) nofun nofun hy)
      (fun y hy => hs.busy y (token_goto (q := .asleep) (y := y) nofun nofun hy))
      (signal_goto hs (q := .asleep) nofun) hs.bound
  case h_8 hpc =>
    obtain ⟨⟩ := h
    have htok : s.Token (some t) := .inr (.inl hpc)
    have hc := wakeLock_lt cpu hs.bound (hroom.1 hpc)
    refine .of_only (some t) (fun y hy => ?_) hc.1 (signal_ret hs) hc.2
    rcases token_ret (s := s) (t := t) (y := y) hy with rfl | hy
    · rfl
    · exact hs.unique y (some t) hy htok
  case h_9 hpc =>
    split at h
    · cases h
    · obtain ⟨⟩ := h
      exact hs.eventSet hpc

theorem Single.apply (hs : Single s) {a : τ × Fin maxCpu × MutexAct} (hroom : s.Room a)
    (h : s.apply spinCount a = some s') : Single s' := by
  obtain ⟨t, cpu, a⟩ := a
  cases a with
  | lock =>
    simp only [MutexState.apply] at h
    split at h
    · obtain ⟨⟩ := h
      exact hs.goto nofun nofun
    · cases h
  | tryLock =>
    simp only [MutexState.apply] at h
    split at h
    · split at h
      next hfree =>
        obtain ⟨⟩ := h
        exact hs.ret_free hfree cpu
      next =>
        obtain ⟨⟩ := h
        exact hs
    · cases h
  | unlock =>
    simp only [MutexState.apply] at h
    split at h
    next hcan =>
      split at h <;> obtain ⟨⟩ := h
      · exact hs.unlock_free hcan.2 hcan.1
      · exact hs.unlock_signal hcan.2 hcan.1
    next => cases h
  | run => exact hs.exec hroom h

omit [DecidableEq τ] in
theorem single_initial : Single (initial : MutexState τ) where
  unique x _ hx := by cases x <;> simp [Token, initial] at hx
  busy x hx := by cases x <;> simp [Token, initial] at hx
  signal _ _ := rfl
  bound := by simp only [initial, freeSpinValue]; omega

/-- **Mutual exclusion.** In every run whose steps leave the word room, at most
one thread has had `lock` or `try_lock` return to it and has not called
`unlock`. -/
theorem kmutex_excludes (hs : ((mutexMachine τ spinCount).guard Room).Reachable s) {t u : τ}
    (ht : s.returned t ≠ none) (hu : s.returned u ≠ none) : t = u := by
  have hsingle : Single s := hs.invariant
    (fun s h => by
      obtain rfl : s = initial := h
      exact single_initial)
    fun _ _ _ hs h => hs.apply h.1 h.2
  exact Option.some.inj (hsingle.unique (some t) (some u) (.inl ht) (.inl hu))

/-- The mutex is handed over: one thread owns it when the other goes to sleep,
and wakes it in `unlock`. -/
theorem kmutex_excludes_handOver : ∃ s : MutexState Bool,
    s.returned true = some true ∧ ∀ t, s.returned t ≠ none → t = true := by
  obtain ⟨s, hs, hend⟩ := Machine.Reachable.exists_of_guard (M := mutexMachine Bool 512) Room
    (P := fun s => decide (s.returned true = some true)) (fun _ _ _ h => h)
    [(false, 3, .tryLock), (true, 3, .lock), (true, 3, .run), (true, 3, .run), (true, 3, .run),
      (true, 3, .run), (false, 3, .unlock), (false, 3, .run), (true, 3, .run)]
    (.init rfl) (by decide +kernel)
  have hret := of_decide_eq_true hend
  refine ⟨s, hret, fun t ht => kmutex_excludes hs ht ?_⟩
  rw [hret]
  nofun

/-- **Two threads own the mutex.** Both run on processor 0. The second finds the
first to own the mutex and stops to spin; before it is in `onWaitBegin` the first
calls `unlock`, so that `onWaitBegin` takes the word and writes 0. `lock` still
goes on in `onWake`, which takes one from it: the word is free, and `try_lock` of
the first thread succeeds. -/
theorem kmutex_two_owners : ∃ s : MutexState Bool,
    (mutexMachine Bool 512).Reachable s ∧ s.returned true ≠ none ∧
      s.returned false = some true := by
  obtain ⟨s, hs, hend⟩ := Machine.Reachable.exists_of_foldlM (M := mutexMachine Bool 512)
    (P := fun s => decide (s.returned true ≠ none ∧ s.returned false = some true))
    (fun _ _ _ h => h)
    [(false, 0, .tryLock), (true, 0, .lock), (true, 0, .run), (false, 0, .unlock), (true, 0, .run),
      (true, 0, .run), (true, 0, .run), (false, 0, .tryLock)]
    (.init rfl) (by decide +kernel)
  exact ⟨s, hs, of_decide_eq_true hend⟩

end MutexState

end ShmDos64
