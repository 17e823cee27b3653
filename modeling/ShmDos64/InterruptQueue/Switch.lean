import ShmDos64.InterruptQueue.Places
/-!
# Consumers and the switch of tasks

The processors of `consumerMachine` with their tasks and the tasks' `m_spin`.
A task that goes to sleep in `pop` takes its own `m_spin`, and its processor
keeps it in `beginTaskSwitch` and over `shedule(currentTask)`, until
`endTaskSwitch` releases the old task. `shedule` looks for another task in the
realtime list, and in the queue of waiting tasks, and takes the `m_spin` of
what it finds. All consumers wait without timeout here, so that the queue of
timed sleeps is empty. In which order `m_waitTaskQueue` gives its tasks, and
when the time slice of a task is over, is left open.
-/

namespace ShmDos64

open Function (update)

/-- Where a processor is. -/
inductive SwitchPc (τ : Type*) where
  /-- In the code of its current task. -/
  | run
  /-- In the realtime branch of `shedule`. -/
  | realtime
  /-- Past it, to see whether the time slice is over. -/
  | slice
  /-- At the loop over `m_waitTaskQueue`. -/
  | waits
  /-- To lock the task it popped there. -/
  | waitPopped (newTask : τ)
  /-- After the loop. -/
  | fallback
  /-- `shedule` has returned another task. -/
  | chosen (newTask : τ)
  /-- In `endTaskSwitch`, done with the old task. -/
  | activate (newTask : τ)
  deriving DecidableEq

namespace SwitchPc

variable {τ : Type*}

/-- The processor executes its current task, and has not released it. -/
def executing : SwitchPc τ → Bool
  | activate _ => false
  | _ => true

/-- The task that `shedule` has returned. -/
def next : SwitchPc τ → Option τ
  | chosen task => some task
  | activate task => some task
  | _ => none

/-- The task a processor has popped from `m_waitTaskQueue` or chosen. -/
def task : SwitchPc τ → Option τ
  | waitPopped task | chosen task | activate task => some task
  | run | realtime | slice | waits | fallback => none

theorem task_of_next {pc : SwitchPc τ} {task : τ} (h : pc.next = some task) :
    pc.task = some task := by
  cases pc <;> first | exact h | cases h

theorem executing_of_task {pc : SwitchPc τ} (h : pc.task = none) : pc.executing = true := by
  cases pc <;> first | rfl | cases h

/-- The processor is in `shedule`. -/
def inShedule : SwitchPc τ → Bool
  | run | chosen _ | activate _ => false
  | realtime | slice | waits | waitPopped _ | fallback => true

end SwitchPc

/-- The consumers, and the processors' tasks. -/
structure SwitchState (κ ω τ ε ι : Type*) where
  base : ConsumerState κ ω τ ε ι
  pc : κ → SwitchPc τ
  /-- `LOCAL_THREAD_STORAGE_CURRENT_TASK`. -/
  current : κ → τ
  /-- `LOCAL_CPU_IDLE_TASK`. -/
  idleTask : κ → τ
  /-- `m_idle`. -/
  idle : τ → Bool
  /-- Who holds `m_spin`. -/
  spin : τ → Option κ
  /-- `m_readyForSleep`. -/
  readyForSleep : τ → Bool
  /-- `m_waitTaskQueue`. -/
  waitTaskQueue : List τ

/-- The steps of a run. -/
inductive SwitchAct (κ ω τ ε ι : Type*) where
  /-- The current task calls `pop`. -/
  | pop (cpu : κ) (queue : ε)
  /-- The current task runs again in `pop`. -/
  | resume (cpu : κ)
  /-- `push` is called, in any task or interrupt handler. -/
  | push (call : ω) (queue : ε) (item : ι)
  /-- The next step of a call of `push`. -/
  | call (call : ω)
  /-- `beginTaskSwitch`. -/
  | switch (cpu : κ)
  /-- The next step of the switch the processor is in. -/
  | cpu (cpu : κ)
  /-- The time slice of the current task is not over. -/
  | keep (cpu : κ)
  /-- The task is popped from `m_waitTaskQueue`. -/
  | take (cpu : κ) (task : τ)

namespace SwitchState

variable {κ ω τ ε ι : Type*} [DecidableEq κ] [DecidableEq ω] [DecidableEq τ] [DecidableEq ε]

section

variable (s : SwitchState κ ω τ ε ι) (c : κ)

def goto (pc : SwitchPc τ) : SwitchState κ ω τ ε ι :=
  { s with pc := update s.pc c pc }

/-- `m_spin.lock()`, once the lock is free. -/
def lock (task : τ) (c : κ) : Option (SwitchState κ ω τ ε ι) :=
  if s.spin task = none then some { s with spin := update s.spin task (some c) } else none

/-- `m_spin.unlock()`. -/
def unlock (task : τ) : SwitchState κ ω τ ε ι :=
  { s with spin := update s.spin task none }

/-- A round of `pop` of the current task. When there is no item,
`prepareToSleep` takes the task's lock and leaves it to the switch. -/
def popRound (a : ConsumerAct κ ω τ ε ι) :
    Option (SwitchState κ ω τ ε ι) :=
  let task := s.current c
  if s.pc c = .run ∧ s.idle task = false ∧ s.readyForSleep task = false then
    (s.base.apply a).bind fun base =>
      if (base.pc task).queue = none then some { s with base := base }
      else (s.lock task c).map fun s' => { s' with
        base := base
        readyForSleep := update s.readyForSleep task true }
  else none

/-- `beginTaskSwitch`, up to `shedule`. -/
def beginTaskSwitch : Option (SwitchState κ ω τ ε ι) :=
  let task := s.current c
  if s.pc c = .run then
    if s.readyForSleep task then
      some { s.goto c .realtime with readyForSleep := update s.readyForSleep task false }
    else (s.lock task c).map fun s' => s'.goto c .realtime
  else none

/-- The realtime branch of `shedule`: the head of the list is popped, or locked
and looked at when it is popped. -/
def sheduleRealtime : Option (SwitchState κ ω τ ε ι) :=
  match s.base.cpu c with
  | some (.popped, task) =>
    (s.lock task c).bind fun s' => (s.base.execCpu c).map fun base =>
      if s.base.state task = .priorityWait then { s'.goto c (.chosen task) with base := base }
      else { s with base := base }
  | some (.chosen, _) => none
  | none =>
    match s.base.realtimeListHead with
    | some _ => (s.base.execCpu c).map fun base => { s with base := base }
    | none => some (s.goto c .slice)

/-- The task popped from `m_waitTaskQueue` is locked and its state read. -/
def sheduleWaitPopped (newTask : τ) :
    Option (SwitchState κ ω τ ε ι) :=
  (s.lock newTask c).map fun s' =>
    if s.base.state newTask = .wait then s'.goto c (.chosen newTask) else s.goto c .waits

/-- The end of `shedule`: the current task goes on, or the idle task. -/
def sheduleFallback : Option (SwitchState κ ω τ ε ι) :=
  let task := s.current c
  if s.base.state task = .active then some ((s.unlock task).goto c .run)
  else (s.lock (s.idleTask c) c).map fun s' => s'.goto c (.chosen (s.idleTask c))

/-- The old task's part of `endTaskSwitch`. -/
def endTaskSwitchOld (newTask : τ) : SwitchState κ ω τ ε ι :=
  let oldTask := s.current c
  let queued :=
    if s.idle oldTask = false ∧ s.base.state oldTask = .active then
      { s with
        base := { s.base with state := update s.base.state oldTask .wait }
        waitTaskQueue := oldTask :: s.waitTaskQueue }
    else s
  (queued.unlock oldTask).goto c (.activate newTask)

/-- The new task's part of `endTaskSwitch`. -/
def endTaskSwitchNew (newTask : τ) : SwitchState κ ω τ ε ι :=
  { (s.unlock newTask).goto c .run with
    base := { s.base with
      state := update s.base.state newTask .active
      cpu := update s.base.cpu c none }
    current := update s.current c newTask }

/-- The next step of a switch. -/
def execCpu : Option (SwitchState κ ω τ ε ι) :=
  match s.pc c with
  | .run => none
  | .realtime => s.sheduleRealtime c
  | .slice => some (s.goto c .waits)
  | .waits => if s.waitTaskQueue = [] then some (s.goto c .fallback) else none
  | .waitPopped newTask => s.sheduleWaitPopped c newTask
  | .fallback => s.sheduleFallback c
  | .chosen newTask => some (s.endTaskSwitchOld c newTask)
  | .activate newTask => some (s.endTaskSwitchNew c newTask)

/-- A step. -/
def apply (s : SwitchState κ ω τ ε ι) : SwitchAct κ ω τ ε ι → Option (SwitchState κ ω τ ε ι)
  | .pop c queue => s.popRound c (.pop (s.current c) queue waitInfinite)
  | .resume c => s.popRound c (.resume (s.current c))
  | .push w queue item =>
    (s.base.apply (.push w queue item)).map fun base => { s with base := base }
  | .call w => (s.base.apply (.call w)).map fun base => { s with base := base }
  | .switch c => s.beginTaskSwitch c
  | .cpu c => s.execCpu c
  | .keep c =>
    let task := s.current c
    if s.pc c = .slice ∧ s.idle task = false ∧ s.base.state task = .active then
      some ((s.unlock task).goto c .run)
    else none
  | .take c task =>
    if s.pc c = .waits ∧ task ∈ s.waitTaskQueue then
      some { s.goto c (.waitPopped task) with waitTaskQueue := s.waitTaskQueue.erase task }
    else none

/-- The processor executes the task: from the `endTaskSwitch` that makes it
active to the one that releases it as the old task. -/
def Executes (task : τ) : Prop :=
  s.current c = task ∧ (s.pc c).executing = true

end

end SwitchState

/-- The runs of processors that execute consumers, from tasks that run or wait
for a processor. -/
def switchMachine (κ ω τ ε ι : Type*) [DecidableEq κ] [DecidableEq ω] [DecidableEq τ]
    [DecidableEq ε] : Machine (SwitchState κ ω τ ε ι) (SwitchAct κ ω τ ε ι) where
  init s := (consumerMachine κ ω τ ε ι).init s.base ∧ (∀ c, s.pc c = .run) ∧
    (∀ c, s.base.state (s.current c) = .active) ∧
    Function.Injective s.current ∧ Function.Injective s.idleTask ∧
    (∀ c, s.idle (s.idleTask c) = true) ∧
    (∀ t, s.idle t = true → s.base.state t = .active ∧ ∀ c, s.current c = t → t = s.idleTask c) ∧
    s.waitTaskQueue.Nodup ∧ (∀ t ∈ s.waitTaskQueue, s.base.state t = .wait ∧
      s.idle t = false ∧ ∀ c, s.current c ≠ t) ∧
    (∀ t, s.spin t = none) ∧ ∀ t, s.readyForSleep t = false
  step s a t := s.apply a = some t

namespace SwitchState

variable {κ ω τ ε ι : Type*} {s s' : SwitchState κ ω τ ε ι}

/-- The task whose `m_spin` the processor is about to take in `shedule`. -/
def acquires (s : SwitchState κ ω τ ε ι) (c : κ) : Option τ :=
  match s.pc c with
  | .realtime => (s.base.cpu c).map Prod.snd
  | .waitPopped task => some task
  | .fallback => if s.base.state (s.current c) = .active then none else some (s.idleTask c)
  | .run | .slice | .waits | .chosen _ | .activate _ => none

/-- A processor in `shedule` is about to take the `m_spin` of its current
task, which it holds. -/
def SelfLocks (s : SwitchState κ ω τ ε ι) (c : κ) : Prop :=
  (s.pc c).inShedule = true ∧ s.spin (s.current c) = some c ∧
    s.acquires c = some (s.current c)

end SwitchState

end ShmDos64
