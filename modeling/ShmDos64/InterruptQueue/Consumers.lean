import ShmDos64.EventObject.Model
import ShmDos64.InterruptQueue.Model
/-!
# The consumers of interrupt queues

A task that finds no item in `pop` goes to sleep at the end of the queue's
wait list, which runs through `m_realtimeNext`. `push` takes the first task off
the list under `m_spin` of the queue, and wakes it when it has left the lock:
it writes `m_waitEventResult`, and `addWaitTaskRealtime` writes the state and
puts the task into the realtime list of the scheduler, which runs through
`m_realtimeNext` as well. `shedule` takes tasks out of that list. A task with
a timeout is also in the queue of timed sleeps, and comes out of it when its
time is over; nothing of that touches the wait list.

A critical section is one step. A call of `push` is an agent of its own, as
it may run in any task or interrupt handler. The `m_spin` of a task only
delays the steps of the processors and is left out here, and so is the order
in which timeouts fire: a task in a timed sleep may be timed out at any time.
-/

namespace ShmDos64

open Function (update)

/-- Where a task is in `pop`. -/
inductive PopPc (ε : Type*) where
  | outside
  /-- Past the critical section that has put it into the wait list, and before
  the next one. -/
  | waiting (queue : ε) (timeout : ℕ)
  deriving DecidableEq

/-- The queue a task is in `pop` of. -/
def PopPc.queue {ε : Type*} : PopPc ε → Option ε
  | outside => none
  | waiting queue _ => some queue

/-- What a call of `push` does next for the task it has taken. -/
inductive PushStage where
  /-- It writes `m_waitEventResult`. -/
  | result
  /-- `addWaitTaskRealtime` writes `m_state`. -/
  | state
  /-- `addWaitTaskRealtime` puts the task into the realtime list. -/
  | insert
  deriving DecidableEq

/-- Where a processor is with the task that `shedule` has found. -/
inductive SheduleStage where
  /-- To lock the task that was in the realtime list, and look at its state. -/
  | popped
  /-- The task is returned, to be made active in `endTaskSwitch`. -/
  | chosen
  deriving DecidableEq

/-- The queues, the tasks' fields, and who is about to do what. -/
structure ConsumerState (κ ω τ ε ι : Type*) where
  queue : ε → InterruptQueue ι
  /-- `m_waitHead`. -/
  waitHead : ε → Option τ
  /-- `m_waitTail`. -/
  waitTail : ε → Option τ
  /-- `m_state`. -/
  state : τ → TaskState
  /-- `m_waitEventResult`. -/
  waitEventResult : τ → ℕ
  /-- `m_realtimeNext`. -/
  realtimeNext : τ → Option τ
  /-- `m_realtimeListHead`. -/
  realtimeListHead : Option τ
  pc : τ → PopPc ε
  /-- The task each call of `push` has taken. -/
  call : ω → Option (PushStage × τ)
  /-- The task each processor has found. -/
  cpu : κ → Option (SheduleStage × τ)

/-- The steps of a run. -/
inductive ConsumerAct (κ ω τ ε ι : Type*) where
  /-- A task calls `pop`: the first round of its loop. -/
  | pop (task : τ) (queue : ε) (timeout : ℕ)
  /-- A task that runs again in `pop`: the end of a round, and the next. -/
  | resume (task : τ)
  /-- `push` is called: its critical section. -/
  | push (call : ω) (queue : ε) (item : ι)
  /-- The next step of a call of `push`. -/
  | call (call : ω)
  /-- The next step of a processor with the realtime list. -/
  | cpu (cpu : κ)
  /-- `shedule` finds that the time of a task is over. -/
  | timeout (cpu : κ) (task : τ)
  /-- The task loses its processor. -/
  | preempt (task : τ)
  /-- It has one again. -/
  | dispatch (task : τ)

namespace ConsumerState

variable {κ ω τ ε ι : Type*} [DecidableEq κ] [DecidableEq ω] [DecidableEq τ] [DecidableEq ε]

section

variable (s : ConsumerState κ ω τ ε ι)

/-- `prepareToSleep`; a terminated task does not run. -/
def prepareToSleep (task : τ) (timeout : ℕ) :
    ConsumerState κ ω τ ε ι :=
  { s with
    state := update s.state task (if timeout ≠ waitInfinite then .timedSleep else .sleep)
    waitEventResult := update s.waitEventResult task waitError }

/-- `pop`: the task at the end of the wait list. -/
def enqueue (queue : ε) (task : τ) : ConsumerState κ ω τ ε ι :=
  let next := update s.realtimeNext task none
  let s' :=
    match s.waitTail queue with
    | some tail => { s with realtimeNext := update next tail (some task) }
    | none => { s with realtimeNext := next, waitHead := update s.waitHead queue (some task) }
  { s' with waitTail := update s.waitTail queue (some task) }

/-- `pop`, when there is no item: up to the end of the critical section. -/
def sleepOn (task : τ) (queue : ε) (timeout : ℕ) :
    ConsumerState κ ω τ ε ι :=
  { (s.prepareToSleep task timeout).enqueue queue task with
    pc := update s.pc task (.waiting queue timeout) }

/-- The critical section of `pop`. -/
def popRound (task : τ) (queue : ε) (timeout : ℕ) :
    ConsumerState κ ω τ ε ι :=
  match (s.queue queue).pop with
  | some (_, rest) =>
    { s with queue := update s.queue queue rest, pc := update s.pc task .outside }
  | none => s.sleepOn task queue timeout

/-- The critical section of `push`; `push` returns false when there is no node
for the item. -/
def pushItem (call : ω) (queue : ε) (item : ι) :
    ConsumerState κ ω τ ε ι :=
  match (s.queue queue).push item with
  | none => s
  | some longer =>
    let s' := { s with queue := update s.queue queue longer }
    match s.waitHead queue with
    | none => s'
    | some task =>
      let head := s.realtimeNext task
      { s' with
        waitHead := update s.waitHead queue head
        waitTail := if head = none then update s.waitTail queue none else s.waitTail
        call := update s.call call (some (.result, task)) }

/-- The rest of `push`. -/
def execCall (call : ω) : Option (ConsumerState κ ω τ ε ι) :=
  match s.call call with
  | none => none
  | some (.result, task) => some { s with
      waitEventResult := update s.waitEventResult task 0
      call := update s.call call (some (.state, task)) }
  | some (.state, task) => some { s with
      state := update s.state task .priorityWait
      call := update s.call call (some (.insert, task)) }
  | some (.insert, task) => some { s with
      realtimeNext := update s.realtimeNext task s.realtimeListHead
      realtimeListHead := some task
      call := update s.call call none }

/-- The realtime branch of `shedule`, and the new task's part of
`endTaskSwitch`. -/
def execCpu (cpu : κ) : Option (ConsumerState κ ω τ ε ι) :=
  match s.cpu cpu with
  | none => s.realtimeListHead.map fun head => { s with
      realtimeListHead := s.realtimeNext head
      cpu := update s.cpu cpu (some (.popped, head)) }
  | some (.popped, task) => some { s with
      cpu := update s.cpu cpu
        (if s.state task = .priorityWait then some (.chosen, task) else none) }
  | some (.chosen, task) => some { s with
      state := update s.state task .active
      cpu := update s.cpu cpu none }

/-- A step. -/
def apply :
    ConsumerAct κ ω τ ε ι → Option (ConsumerState κ ω τ ε ι)
  | .pop task queue timeout =>
    if s.pc task = .outside ∧ s.state task = .active then some (s.popRound task queue timeout)
    else none
  | .resume task =>
    match s.pc task with
    | .outside => none
    | .waiting queue timeout =>
      if s.state task = .active then
        if s.waitEventResult task ≠ 0 then some { s with pc := update s.pc task .outside }
        else some (s.popRound task queue timeout)
      else none
  | .push call queue item =>
    if s.call call = none then some (s.pushItem call queue item) else none
  | .call call => s.execCall call
  | .cpu cpu => s.execCpu cpu
  | .timeout cpu task =>
    if s.cpu cpu = none ∧ s.state task = .timedSleep then
      some { s with
        waitEventResult := update s.waitEventResult task waitTimeout
        cpu := update s.cpu cpu (some (.chosen, task)) }
    else none
  | .preempt task =>
    if s.state task = .active then some { s with state := update s.state task .wait } else none
  | .dispatch task =>
    if s.state task = .wait then some { s with state := update s.state task .active } else none

end

end ConsumerState

/-- The runs of consumers and producers, from new queues and tasks outside
`pop`. -/
def consumerMachine (κ ω τ ε ι : Type*) [DecidableEq κ] [DecidableEq ω] [DecidableEq τ]
    [DecidableEq ε] : Machine (ConsumerState κ ω τ ε ι) (ConsumerAct κ ω τ ε ι) where
  init s := (∀ q, (∃ size item, s.queue q = .new size item) ∧ s.waitHead q = none ∧
      s.waitTail q = none) ∧ s.realtimeListHead = none ∧
    (∀ t, s.pc t = .outside ∧ (s.state t = .active ∨ s.state t = .wait)) ∧
    (∀ w, s.call w = none) ∧ ∀ c, s.cpu c = none
  step s a t := s.apply a = some t

end ShmDos64
