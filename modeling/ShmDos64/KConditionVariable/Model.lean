import ShmDos64.Common.Run
import ShmDos64.Scheduler.Model
/-!
# Condition variables

`ConditionVariablePrivate` is an event with two counters. `wait` is called with
the mutex held: the event's hook `onWaitBegin` counts the thread in
`m_waitCount` and unlocks the mutex, all under `m_spin` of the event. A notifier
counts a thread out and calls `set`, whose hook `onWakeSingleThread` locks the
mutex on behalf of the thread, or moves the thread to the wait list of the
mutex. The highest bit of `m_waitCount` keeps notifiers away while a thread
compares `m_notifyCount`.

The mutex is a correct one: it is free, owned, or granted to a thread that an
`unlock` has taken off its wait list and whose `onWake` is still to come. Each
access to a counter, each operation of the mutex, and each critical section
that consists of nothing else, is a step. Threads are not terminated.
-/

namespace ShmDos64

open Function (update)

/-- What a thread is about to do. -/
inductive CvPc (τ : Type*) where
  /-- It is in no routine, and may own the mutex. -/
  | idle
  /-- `lock` of the mutex, in its wait list or granted. -/
  | locking
  /-- `wait`, to load `m_notifyCount`. -/
  | load (timeout : ℕ)
  /-- `waitExStatus`, to lock `m_spin`. -/
  | enter (timeout notifyCount : ℕ)
  /-- `onWaitBegin`, to set the test flag. -/
  | setFlag (timeout notifyCount : ℕ)
  /-- To compare `m_notifyCount`. -/
  | test (timeout notifyCount : ℕ)
  /-- To clear the flag. -/
  | clearFlag
  /-- To count the thread, and clear the flag with it. -/
  | count (timeout : ℕ)
  /-- To unlock the mutex. -/
  | release (timeout : ℕ)
  /-- `waitExStatus`, to go to sleep. -/
  | insert (timeout : ℕ)
  | asleep (timed : Bool)
  /-- `wait`, when the event's wait has returned true. -/
  | woken
  /-- `wait`, to return. -/
  | returns (result : Bool)
  /-- `notify_one`, called by `notify_all` or not, to count in `m_notifyCount`. -/
  | notify (all : Bool)
  /-- To count a thread out. -/
  | claim (all : Bool)
  /-- To call `set`. -/
  | set (all : Bool)
  /-- `set`, where `try_lock` has failed. -/
  | move (all : Bool) (task : τ)
  /-- `notify_all`, to load `m_waitCount`. -/
  | again
  deriving DecidableEq

/-- The thread sleeps. -/
def CvPc.isAsleep {τ : Type*} : CvPc τ → Bool
  | asleep _ => true
  | _ => false

/-- Where `notify_one` returns to. -/
def CvPc.notified {τ : Type*} (all : Bool) : CvPc τ := if all then again else idle

/-- Who has the mutex. -/
inductive CvMutex (τ : Type*) where
  | free
  | owned (thread : τ)
  | granted (thread : τ)
  deriving DecidableEq

/-- The condition variable, its mutex, and where the threads are. -/
structure CvState (τ : Type*) where
  /-- `m_waitCount`. -/
  waitCount : ℕ
  /-- `m_notifyCount`. -/
  notifyCount : ℕ
  /-- `m_set` of the event. -/
  set : Bool
  /-- The thread that holds `m_spin`, when that is for more than a step. -/
  spin : Option τ
  /-- The tasks of the wait list. -/
  waitTasks : List τ
  mutex : CvMutex τ
  /-- The wait list of the mutex. -/
  mutexTasks : List τ
  pc : τ → CvPc τ
  /-- `LOCAL_THREAD_STORAGE_CV_MUTEX_LOCK`. -/
  mutexLock : τ → Bool

/-- What a thread does, or the scheduler with it. -/
inductive CvAct where
  | lock
  | unlock
  | wait (timeout : ℕ)
  | notifyOne
  | notifyAll
  /-- The next step of the routine it is in. -/
  | run
  /-- `shedule` finds that the time of its sleep is over. -/
  | timeout

namespace CvState

variable {τ : Type*} [DecidableEq τ]

/-- `m_testFlag`. -/
abbrev testFlag : ℕ := 2 ^ 31

section

variable (s : CvState τ)

def goto (t : τ) (pc : CvPc τ) : CvState τ :=
  { s with pc := update s.pc t pc }

/-- `unlock` of the mutex: the first of its waiters is woken. -/
def mutexUnlock : CvState τ :=
  match s.mutexTasks with
  | [] => { s with mutex := .free }
  | task :: rest =>
    let s' := { s with mutex := .granted task, mutexTasks := rest }
    if (s.pc task).isAsleep then s'.goto task .woken else s'

/-- The mutex is locked on behalf of a task, and the task is woken. -/
def wakeOwner (task : τ) : CvState τ :=
  { s.goto task .woken with
    mutex := .owned task
    mutexLock := update s.mutexLock task true
    waitTasks := s.waitTasks.erase task }

/-- The task waits for the mutex instead. -/
def moveTask (task : τ) : CvState τ :=
  { s with
    mutexTasks := s.mutexTasks ++ [task]
    mutexLock := update s.mutexLock task false
    waitTasks := s.waitTasks.erase task }

/-- `EventObject::set` in `notify_one` of `t`, up to `try_lock`. -/
def eventSet (t : τ) (all : Bool) : CvState τ :=
  if s.set then s.goto t (.notified all)
  else
    -- the tasks of the list that do not sleep are passed over
    match s.waitTasks.dropWhile fun task => !(s.pc task).isAsleep with
    | [] => { s.goto t (.notified all) with set := true, waitTasks := [] }
    | task :: rest =>
      if s.mutex = .free then
        { s.goto t (.notified all) with waitTasks := task :: rest }.wakeOwner task
      else { s.goto t (.move all task) with waitTasks := task :: rest, spin := some t }

/-- The next step of the routine `t` is in; `none` when it cannot go on. -/
def exec (t : τ) : Option (CvState τ) :=
  match s.pc t with
  | .idle | .asleep _ => none
  | .locking =>
    if s.mutex = .granted t then some { s.goto t .idle with mutex := .owned t } else none
  | .load timeout => some (s.goto t (.enter timeout s.notifyCount))
  | .enter timeout notifyCount =>
    if s.spin ≠ none then none
    else if s.set then some { s.goto t .woken with set := false }
    else some { s.goto t (.setFlag timeout notifyCount) with spin := some t }
  | .setFlag timeout notifyCount =>
    some { s.goto t (.test timeout notifyCount) with waitCount := s.waitCount ||| testFlag }
  | .test timeout notifyCount =>
    some (s.goto t (if s.notifyCount ≠ notifyCount then .clearFlag else .count timeout))
  | .clearFlag =>
    some { s.goto t .woken with
      waitCount := s.waitCount &&& (testFlag - 1)
      mutexLock := update s.mutexLock t true
      spin := none }
  | .count timeout =>
    some { s.goto t (.release timeout) with
      waitCount := (s.waitCount + (testFlag + 1)) % 2 ^ 32 }
  | .release timeout => some (s.goto t (.insert timeout)).mutexUnlock
  | .insert timeout =>
    if timeout = 0 then some { s.goto t (.returns false) with spin := none }
    else some { s.goto t (.asleep (timeout ≠ waitInfinite)) with
      waitTasks := s.waitTasks ++ [t]
      spin := none }
  | .woken =>
    if s.mutexLock t then some (s.goto t (.returns true))
    else
      -- `onWake` of the mutex is for the thread it was granted to
      let mutex := if s.mutex = .granted t then .owned t else s.mutex
      some { s.goto t (.returns true) with mutex }
  | .returns _ => some (s.goto t .idle)
  | .notify all =>
    some { s.goto t (.claim all) with notifyCount := (s.notifyCount + 1) % 2 ^ 64 }
  | .claim all =>
    if s.waitCount = 0 then some (s.goto t (.notified all))
    else if s.waitCount.testBit 31 then some s
    else some { s.goto t (.set all) with waitCount := s.waitCount - 1 }
  | .set all => if s.spin ≠ none then none else some (s.eventSet t all)
  | .move all task =>
    let s' := { s.goto t (.notified all) with spin := none }
    some (if s.mutex = .free then s'.wakeOwner task else s'.moveTask task)
  | .again => some (s.goto t (if s.waitCount = 0 then .idle else .notify true))

/-- A step of `t`; `wait` and `unlock` are called with the mutex held, `lock`
without. -/
def apply : τ × CvAct → Option (CvState τ)
  | (t, .lock) =>
    if s.pc t = .idle ∧ s.mutex ≠ .owned t then
      if s.mutex = .free then some { s with mutex := .owned t }
      else some { s.goto t .locking with mutexTasks := s.mutexTasks ++ [t] }
    else none
  | (t, .unlock) =>
    if s.pc t = .idle ∧ s.mutex = .owned t then some s.mutexUnlock else none
  | (t, .wait timeout) =>
    if s.pc t = .idle ∧ s.mutex = .owned t then some (s.goto t (.load timeout)) else none
  | (t, .notifyOne) => if s.pc t = .idle then some (s.goto t (.notify false)) else none
  | (t, .notifyAll) => if s.pc t = .idle then some (s.goto t .again) else none
  | (t, .run) => s.exec t
  | (t, .timeout) =>
    -- `excludeTaskFromWaiting`, which locks `m_spin` of the event
    if s.pc t = .asleep true ∧ (t ∈ s.waitTasks → s.spin = none) then
      some { s.goto t (.returns false) with
        waitTasks := s.waitTasks.erase t
        mutexTasks := s.mutexTasks.erase t }
    else none

/-- A condition variable that is not used, and a free mutex. -/
def initial (notifyCount : ℕ) (mutexLock : τ → Bool) : CvState τ where
  waitCount := 0
  notifyCount := notifyCount
  set := false
  spin := none
  waitTasks := []
  mutex := .free
  mutexTasks := []
  pc _ := .idle
  mutexLock := mutexLock

/-- No wait runs out of time: `shedule` ends none, and one that is called with
no time at all has been notified when it comes to `onWaitBegin`. -/
def Untimed : τ × CvAct → Prop
  | (t, .run) => s.pc t ≠ .test 0 s.notifyCount
  | (_, .timeout) => False
  | _ => True

instance (a : τ × CvAct) : Decidable (s.Untimed a) :=
  match a with
  | (t, .run) => inferInstanceAs (Decidable (s.pc t ≠ .test 0 s.notifyCount))
  | (_, .timeout) => inferInstanceAs (Decidable False)
  | (_, .lock) | (_, .unlock) | (_, .wait _) | (_, .notifyOne) | (_, .notifyAll) =>
    inferInstanceAs (Decidable True)

end

end CvState

/-- The interleavings of any number of threads on one condition variable and its
mutex. -/
def cvMachine (τ : Type*) [DecidableEq τ] : Machine (CvState τ) (τ × CvAct) where
  init s := ∃ notifyCount mutexLock, s = .initial notifyCount mutexLock
  step s a s' := s.apply a = some s'

end ShmDos64
