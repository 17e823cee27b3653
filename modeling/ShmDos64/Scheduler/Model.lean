import ShmDos64.Common.Run
import ShmDos64.Scheduler.PriorityQueue
/-!
# The task scheduler

`TaskManager` on any number of processors. A processor executes a task
until `beginTaskSwitch` takes the task's `m_spin` and `shedule` looks for
another one: first in the queue of timed sleeps, then in the queue of
waiting tasks, and the processor's idle task at last. A candidate is
popped from its queue before its `m_spin` is taken, and its state is read
again under the lock; both locks are held over the switch, the old task's
until `endTaskSwitch` has queued it, the new one's until it is active.

Tasks sleep on `EventObject`s. A wait takes the task's own `m_spin` in
`prepareToSleep` and leaves it to `beginTaskSwitch`. A call of
`EventObject::set`, or of the constructor of a thread, is an agent of its
own: it may run in any task or interrupt handler. In which order a wait
list holds its tasks is left open here, so that `set` may come to any task
of the list.
-/

namespace ShmDos64

open Function (update)

/-- `Task::State`. -/
inductive TaskState where
  | none
  | active
  | priorityWait
  | wait
  | sleep
  | timedSleep
  | terminated
  deriving DecidableEq

/-- The values of a `TimePoint`. -/
abbrev timeRange : ℕ := 2 ^ 64

/-- `kevent::WaitInfinite`. -/
abbrev waitInfinite : ℕ := timeRange - 1

/-- `Task::InvalidIndex`. -/
abbrev invalidIndex : ℕ := 2 ^ 64 - 1

/-- Where a processor is. -/
inductive CpuPc (τ : Type*) where
  /-- In the code of its current task. -/
  | run
  /-- After `prepareToSleep`, to put the task into wait lists. -/
  | insert
  /-- At the start of `shedule`. -/
  | shedule
  /-- At the loop over `m_timedSleepTaskQueue`. -/
  | timed (timepoint : ℕ)
  /-- To lock the task it popped there. -/
  | timedPopped (timepoint : ℕ) (newTask : τ)
  /-- At the loop over `m_waitTaskQueue`. -/
  | waits
  /-- To lock the task it popped there. -/
  | waitPopped (newTask : τ)
  /-- After both loops. -/
  | fallback
  /-- `shedule` has returned another task. -/
  | chosen (newTask : τ)
  /-- In `endTaskSwitch`, done with the old task. -/
  | activate (newTask : τ)
  deriving DecidableEq

/-- Where a call of `set`, or of a thread's constructor, is. -/
inductive CallPc (τ ε : Type*) where
  | idle
  /-- `set`, to lock the head of the wait list. -/
  | lock (event : ε) (task : τ)
  /-- `set`, with the lock. -/
  | locked (event : ε) (task : τ)
  /-- `addWaitTask` under the lock, to push. -/
  | push (task : τ)
  /-- `addWaitTask` of a new thread, to push. -/
  | enqueue (task : τ)
  deriving DecidableEq

/-- The tasks' fields, the processors' local data and the queues. -/
structure SchedState (κ ω τ ε : Type*) where
  pc : κ → CpuPc τ
  call : ω → CallPc τ ε
  /-- `LOCAL_THREAD_STORAGE_CURRENT_TASK`. -/
  current : κ → τ
  /-- `LOCAL_CPU_IDLE_TASK`. -/
  idleTask : κ → τ
  /-- `LOCAL_CPU_SHED_TIME`. -/
  shedTime : κ → ℕ
  /-- What `fastTimepoint` reads. -/
  now : ℕ
  /-- `m_forcedTaskSwitchTimeInterval`. -/
  interval : ℕ
  /-- `m_idle`. -/
  idle : τ → Bool
  /-- `m_desiredMaxWait`. -/
  desiredMaxWait : τ → ℕ
  /-- `m_state`. -/
  state : τ → TaskState
  /-- `m_wakeTime`. -/
  wakeTime : τ → ℕ
  /-- Who holds `m_spin`. -/
  spin : τ → Option (κ ⊕ ω)
  /-- `m_readyForSleep`. -/
  readyForSleep : τ → Bool
  /-- The events in whose wait lists the task is. -/
  waitEvents : τ → List ε
  /-- `m_needWaitEvents`. -/
  needWaitEvents : τ → ℕ
  /-- `m_priorityQueueIndex`. -/
  priorityQueueIndex : τ → ℕ
  /-- `m_timedSleepTaskQueue`. -/
  timedSleepTaskQueue : TaskPriorityQueue τ
  /-- `m_waitTaskQueue`. -/
  waitTaskQueue : TaskPriorityQueue τ

/-- The steps of a run. -/
inductive SchedAct (κ ω τ ε : Type*) where
  /-- Time goes by. -/
  | tick (d : ℕ)
  /-- The current task calls `prepareToSleep`. -/
  | sleep (cpu : κ) (timeout : ℕ)
  /-- It enters wait lists; `waitMultiple` sets `m_needWaitEvents`. -/
  | insert (cpu : κ) (events : List ε) (need : Option ℕ)
  /-- The current task calls `terminateCurrentTask`. -/
  | terminate (cpu : κ)
  /-- `beginTaskSwitch`. -/
  | switch (cpu : κ)
  /-- The next step of the switch the processor is in. -/
  | cpu (cpu : κ)
  /-- A thread is constructed. -/
  | create (call : ω) (task : τ)
  /-- `set` finds the task in the event's wait list. -/
  | set (call : ω) (event : ε) (task : τ)
  /-- The next step of a call. -/
  | call (call : ω)

namespace SchedState

variable {κ ω τ ε : Type*} [DecidableEq κ] [DecidableEq ω] [DecidableEq τ] [DecidableEq ε]

section

variable (s : SchedState κ ω τ ε)

def goto (c : κ) (q : CpuPc τ) : SchedState κ ω τ ε :=
  { s with pc := update s.pc c q }

def gotoCall (w : ω) (q : CallPc τ ε) : SchedState κ ω τ ε :=
  { s with call := update s.call w q }

/-- `m_spin.lock()`, once the lock is free. -/
def lock (task : τ) (a : κ ⊕ ω) : Option (SchedState κ ω τ ε) :=
  if s.spin task = none then some { s with spin := update s.spin task (some a) } else none

end

omit [DecidableEq κ] [DecidableEq ω] [DecidableEq ε] in
theorem lock_eq_some {s t : SchedState κ ω τ ε} {task : τ} {a : κ ⊕ ω}
    (h : s.lock task a = some t) :
    s.spin task = none ∧ t = { s with spin := update s.spin task (some a) } := by
  unfold lock at h
  split_ifs at h with hfree
  exact ⟨hfree, (Option.some.inj h).symm⟩

omit [DecidableEq κ] [DecidableEq ω] [DecidableEq ε] in
theorem map_lock_eq_some {s t : SchedState κ ω τ ε} {task : τ} {a : κ ⊕ ω}
    {f : SchedState κ ω τ ε → SchedState κ ω τ ε} (h : (s.lock task a).map f = some t) :
    s.spin task = none ∧ t = f { s with spin := update s.spin task (some a) } := by
  obtain ⟨s', hl, rfl⟩ := Option.map_eq_some_iff.mp h
  obtain ⟨hfree, rfl⟩ := lock_eq_some hl
  exact ⟨hfree, rfl⟩

section

variable (s : SchedState κ ω τ ε) (c : κ)

/-- `m_spin.unlock()`. -/
def unlock (task : τ) : SchedState κ ω τ ε :=
  { s with spin := update s.spin task none }

/-- A push to `m_waitTaskQueue`; what it returns is not looked at. -/
def pushWait (task : τ) : SchedState κ ω τ ε :=
  let r := (s.waitTaskQueue.push s.wakeTime s.priorityQueueIndex task).getD
    (s.waitTaskQueue, s.priorityQueueIndex)
  { s with waitTaskQueue := r.1, priorityQueueIndex := r.2 }

/-- A push to `m_timedSleepTaskQueue`; what it returns is not looked at. -/
def pushTimed (task : τ) : SchedState κ ω τ ε :=
  let r := (s.timedSleepTaskQueue.push s.wakeTime s.priorityQueueIndex task).getD
    (s.timedSleepTaskQueue, s.priorityQueueIndex)
  { s with timedSleepTaskQueue := r.1, priorityQueueIndex := r.2 }

/-- A pop of `m_waitTaskQueue`. -/
def popWait : SchedState κ ω τ ε :=
  let r := s.waitTaskQueue.pop s.wakeTime s.priorityQueueIndex
  { s with waitTaskQueue := r.1, priorityQueueIndex := r.2 }

/-- A pop of `m_timedSleepTaskQueue`. -/
def popTimed : SchedState κ ω τ ε :=
  let r := s.timedSleepTaskQueue.pop s.wakeTime s.priorityQueueIndex
  { s with timedSleepTaskQueue := r.1, priorityQueueIndex := r.2 }

/-- The state and the wake time `addWaitTask` and the preemption write. -/
def setWait (task : τ) (wakeTime : ℕ) : SchedState κ ω τ ε :=
  { s with
    state := update s.state task .wait
    wakeTime := update s.wakeTime task wakeTime }

/-- The wake time `addWaitTask` writes. -/
def waitTime (task : τ) : ℕ :=
  (s.now + s.desiredMaxWait task) % timeRange

/-- `prepareToSleep` of the processor's current task. An idle task does not
wait. -/
def prepareToSleep (timeout : ℕ) :
    Option (SchedState κ ω τ ε) :=
  let task := s.current c
  if s.pc c = .run ∧ s.idle task = false then
    (s.lock task (.inl c)).bind fun s' =>
      if s.state task = .terminated then some s
      else if timeout ≠ waitInfinite then
        some { s'.goto c .insert with
          readyForSleep := update s.readyForSleep task true
          state := update s.state task .timedSleep
          wakeTime := update s.wakeTime task ((s.now + timeout) % timeRange) }
      else
        some { s'.goto c .insert with
          readyForSleep := update s.readyForSleep task true
          state := update s.state task .sleep }
  else none

/-- `insertTask` of each event, before the events are unlocked. -/
def insertTask (events : List ε) (need : Option ℕ) :
    Option (SchedState κ ω τ ε) :=
  let task := s.current c
  if s.pc c = .insert then
    some { s.goto c .run with
      waitEvents := update s.waitEvents task (s.waitEvents task ++ events)
      needWaitEvents := update s.needWaitEvents task (need.getD (s.needWaitEvents task)) }
  else none

/-- `terminateCurrentTask`, up to the switch it asks for. -/
def terminateCurrentTask : Option (SchedState κ ω τ ε) :=
  let task := s.current c
  if s.pc c = .run ∧ s.idle task = false ∧ s.spin task = none ∧ s.state task = .active then
    some { s with state := update s.state task .terminated }
  else none

/-- `beginTaskSwitch`, up to `shedule`. -/
def beginTaskSwitch : Option (SchedState κ ω τ ε) :=
  let task := s.current c
  if s.pc c = .run then
    if s.readyForSleep task then
      some { s.goto c .shedule with readyForSleep := update s.readyForSleep task false }
    else (s.lock task (.inl c)).map fun s' => s'.goto c .shedule
  else none

/-- `shedule` up to the queues. The new `LOCAL_CPU_SHED_TIME` is written when
`shedule` returns; nothing reads it before. -/
def sheduleBegin : SchedState κ ω τ ε :=
  let task := s.current c
  if s.idle task = false ∧ s.state task = .active ∧ s.now < s.shedTime c then
    (s.unlock task).goto c .run
  else
    { s.goto c (.timed s.now) with
      shedTime := update s.shedTime c ((s.now + s.interval) % timeRange) }

/-- A round of the loop over `m_timedSleepTaskQueue`. -/
def sheduleTimed (timepoint : ℕ) : SchedState κ ω τ ε :=
  let newTask := s.timedSleepTaskQueue.minWakeTimeTask
  if s.timedSleepTaskQueue.empty then s.goto c .waits
  else if timepoint ≤ s.wakeTime newTask then s.goto c .waits
  else s.popTimed.goto c (.timedPopped timepoint newTask)

/-- The task popped is locked and its state read; a task that still sleeps
leaves its events' lists in `excludeTaskFromWaiting`. -/
def sheduleTimedPopped (timepoint : ℕ) (newTask : τ) :
    Option (SchedState κ ω τ ε) :=
  (s.lock newTask (.inl c)).map fun s' =>
    let index := update s.priorityQueueIndex newTask invalidIndex
    if s.state newTask = .timedSleep then
      { s'.goto c (.chosen newTask) with
        priorityQueueIndex := index
        waitEvents := update s.waitEvents newTask [] }
    else { s.goto c (.timed timepoint) with priorityQueueIndex := index }

/-- A round of the loop over `m_waitTaskQueue`. -/
def sheduleWaits : SchedState κ ω τ ε :=
  if s.waitTaskQueue.empty then s.goto c .fallback
  else s.popWait.goto c (.waitPopped s.waitTaskQueue.minWakeTimeTask)

/-- The task popped is locked and its state read. -/
def sheduleWaitPopped (newTask : τ) :
    Option (SchedState κ ω τ ε) :=
  (s.lock newTask (.inl c)).map fun s' =>
    let index := update s.priorityQueueIndex newTask invalidIndex
    if s.state newTask = .wait then
      { s'.goto c (.chosen newTask) with priorityQueueIndex := index }
    else { s.goto c .waits with priorityQueueIndex := index }

/-- The end of `shedule`: the current task goes on, or the idle task. -/
def sheduleFallback : Option (SchedState κ ω τ ε) :=
  let task := s.current c
  if s.state task = .active then some ((s.unlock task).goto c .run)
  else (s.lock (s.idleTask c) (.inl c)).map fun s' => s'.goto c (.chosen (s.idleTask c))

/-- The old task's part of `endTaskSwitch`. -/
def endTaskSwitchOld (newTask : τ) : SchedState κ ω τ ε :=
  let oldTask := s.current c
  let queued :=
    if s.idle oldTask then s
    else if s.state oldTask = .active then
      (s.setWait oldTask
        (if s.state newTask ≠ .priorityWait then s.waitTime oldTask else s.now)).pushWait oldTask
    else if s.state oldTask = .timedSleep then s.pushTimed oldTask
    else s
  (queued.unlock oldTask).goto c (.activate newTask)

/-- The new task's part of `endTaskSwitch`. -/
def endTaskSwitchNew (newTask : τ) : SchedState κ ω τ ε :=
  { (s.unlock newTask).goto c .run with
    state := update s.state newTask .active
    current := update s.current c newTask }

/-- The next step of a switch. -/
def execCpu : Option (SchedState κ ω τ ε) :=
  match s.pc c with
  | .run => none
  | .insert => none
  | .shedule => some (s.sheduleBegin c)
  | .timed timepoint => some (s.sheduleTimed c timepoint)
  | .timedPopped timepoint newTask => s.sheduleTimedPopped c timepoint newTask
  | .waits => some (s.sheduleWaits c)
  | .waitPopped newTask => s.sheduleWaitPopped c newTask
  | .fallback => s.sheduleFallback c
  | .chosen newTask => some (s.endTaskSwitchOld c newTask)
  | .activate newTask => some (s.endTaskSwitchNew c newTask)

/-- A thread's constructor calls `addWaitTask`. -/
def create (w : ω) (task : τ) : Option (SchedState κ ω τ ε) :=
  if s.call w = .idle ∧ s.state task = .none ∧ s.idle task = false then
    some ((s.setWait task (s.waitTime task)).gotoCall w (.enqueue task))
  else none

/-- A round of the loop of `set`, under the task's lock. -/
def wake (w : ω) (event : ε) (task : τ) : SchedState κ ω τ ε :=
  if s.state task ≠ .sleep ∧ s.state task ≠ .timedSleep then (s.unlock task).gotoCall w .idle
  else if 1 < s.needWaitEvents task then
    { (s.unlock task).gotoCall w .idle with
      needWaitEvents := update s.needWaitEvents task (s.needWaitEvents task - 1)
      waitEvents := update s.waitEvents task ((s.waitEvents task).erase event) }
  else
    { (s.setWait task (s.waitTime task)).gotoCall w (.push task) with
      waitEvents := update s.waitEvents task [] }

/-- The next step of a call. -/
def execCall (w : ω) : Option (SchedState κ ω τ ε) :=
  match s.call w with
  | .idle => none
  | .lock event task => (s.lock task (.inr w)).map fun s' => s'.gotoCall w (.locked event task)
  | .locked event task => some (s.wake w event task)
  | .push task => some (((s.pushWait task).unlock task).gotoCall w .idle)
  | .enqueue task => some ((s.pushWait task).gotoCall w .idle)

/-- One step. `none` is a step that is not enabled. -/
def apply : SchedAct κ ω τ ε → Option (SchedState κ ω τ ε)
  | .tick d => some { s with now := (s.now + d) % timeRange }
  | .sleep c timeout => s.prepareToSleep c timeout
  | .insert c events need => s.insertTask c events need
  | .terminate c => s.terminateCurrentTask c
  | .switch c => s.beginTaskSwitch c
  | .cpu c => s.execCpu c
  | .create w task => s.create w task
  | .set w event task =>
    if s.call w = .idle ∧ event ∈ s.waitEvents task then some (s.gotoCall w (.lock event task))
    else none
  | .call w => s.execCall w

end

/-- Every processor is in its first task. -/
structure Initial (s : SchedState κ ω τ ε) : Prop where
  pc : ∀ c, s.pc c = .run
  call : ∀ w, s.call w = .idle
  current : Function.Injective s.current
  current_idle : ∀ c, s.idle (s.current c) = false
  idleTask : Function.Injective s.idleTask
  idleTask_idle : ∀ c, s.idle (s.idleTask c) = true
  state : ∀ T, s.state T = .active ∧ (∃ c, s.current c = T) ∨
    s.state T = .none ∧ ∀ c, s.current c ≠ T
  spin : ∀ T, s.spin T = none
  readyForSleep : ∀ T, s.readyForSleep T = false
  waitEvents : ∀ T, s.waitEvents T = []
  timedSleepTaskQueue : s.timedSleepTaskQueue.curSize = 0
  waitTaskQueue : s.waitTaskQueue.curSize = 0

end SchedState

/-- The interleavings of any number of processors, tasks and calls. -/
def schedMachine (κ ω τ ε : Type*) [DecidableEq κ] [DecidableEq ω] [DecidableEq τ]
    [DecidableEq ε] : Machine (SchedState κ ω τ ε) (SchedAct κ ω τ ε) where
  init := SchedState.Initial
  step s a t := s.apply a = some t

/-- Five processors, each in a task of its own and with an idle task. -/
def fiveTasks : SchedState (Fin 5) Unit ℕ ℕ where
  pc _ := .run
  call _ := .idle
  current c := c
  idleTask c := c + 5
  shedTime _ := 0
  now := 0
  interval := 10
  idle T := 5 ≤ T
  desiredMaxWait _ := 10
  state T := if T < 5 then .active else .none
  wakeTime _ := 0
  spin _ := none
  readyForSleep _ := false
  waitEvents _ := []
  needWaitEvents _ := 0
  priorityQueueIndex _ := 0
  timedSleepTaskQueue := { pointersArray := fun _ => 0, maxSize := 0x10000, curSize := 0 }
  waitTaskQueue := { pointersArray := fun _ => 0, maxSize := 0x10000, curSize := 0 }

theorem fiveTasks_initial : fiveTasks.Initial where
  pc _ := rfl
  call _ := rfl
  current := Fin.val_injective
  current_idle c := decide_eq_false (by have := c.isLt; simp only [fiveTasks]; omega)
  idleTask c c' h := Fin.ext (by simp only [fiveTasks] at h; omega)
  idleTask_idle c := decide_eq_true (Nat.le_add_left 5 c)
  state T := by
    by_cases hT : T < 5
    · exact .inl ⟨if_pos hT, ⟨T, hT⟩, rfl⟩
    · exact .inr ⟨if_neg hT, fun c hc => hT (hc ▸ c.isLt)⟩
  spin _ := rfl
  readyForSleep _ := rfl
  waitEvents _ := rfl
  timedSleepTaskQueue := rfl
  waitTaskQueue := rfl

/-- A processor's task sleeps on an event, and the processor switches. -/
def sleepOn (c : Fin 5) (timeout event : ℕ) : List (SchedAct (Fin 5) Unit ℕ ℕ) :=
  [.sleep c timeout, .insert c [event] none, .switch c] ++ List.replicate 6 (.cpu c)

end ShmDos64
