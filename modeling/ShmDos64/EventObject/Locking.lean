import ShmDos64.Common.LockOrder
import ShmDos64.EventObject.Model
/-!
# The locks of events and tasks

`set`, the two waits and a task switch take the `m_spin` of events and of
tasks, one inside the other. Here they run on any number of processors, one
lock at a time: a processor that has asked for a lock goes on once it has
it. A panic, and the `unlock` of a lock that nobody has, do not return.

`LOCAL_CPU_MT_LOCK_COUNT` counts the events a processor has locked, and the
processor switches tasks only when it is zero. Which tasks of the two queues
of the scheduler are due, and in which order they come, is left open, and
no task terminates.
-/

namespace ShmDos64

open Function (update)

/-- Where a processor is. The places named after a lock are those in its
`lock`, with what the routine needs after it. -/
inductive EventLockPc (τ ε : Type*) where
  /-- In the code of its current task. -/
  | run
  /-- `set`, to lock the event. -/
  | set (event : ε)
  /-- At the loop over the wait list. -/
  | setLoop (event : ε)
  /-- To lock the head of the list. -/
  | setTask (event : ε) (task : τ)
  /-- In the loop of `excludeEventsFromTask`. -/
  | setOthers (event : ε) (task : τ) (idx : ℕ)
  /-- To lock another event of the task. -/
  | setOther (event : ε) (task : τ) (idx : ℕ) (other : ε)
  /-- After the task is unlocked, to read the slot's `m_next`. -/
  | setNext (event : ε) (task : τ) (idx : ℕ)
  /-- After the loop over the wait list. -/
  | setEnd (event : ε)
  /-- `waitExStatus`, to lock the event. -/
  | wait (event : ε) (timeout : ℕ)
  /-- In `prepareToSleep`, to lock the task. -/
  | waitOwn (event : ε) (timeout : ℕ) (task : τ)
  /-- `prepareToSleep` has returned false. -/
  | waitFail (event : ε)
  /-- `waitMultiple`, at its first loop. -/
  | multi (call : WaitCall ε) (timeout idx setCount : ℕ) (needWait : List Bool)
  /-- To lock an object. -/
  | multiObject (call : WaitCall ε) (timeout idx setCount : ℕ) (needWait : List Bool) (obj : ε)
  /-- To unlock the object some more times and to return. -/
  | multiReturn (obj : ε) (times : ℕ)
  /-- In `prepareToSleep`, to lock the task. -/
  | multiOwn (call : WaitCall ε) (timeout : ℕ) (needWait : List Bool) (task : τ)
  /-- In `unlockAll`. -/
  | multiUnlock (call : WaitCall ε) (held : List (ε × Bool)) (insert : Bool)
  /-- `beginTaskSwitch`, to lock the current task. -/
  | switch (task : τ)
  /-- At the start of `shedule`. -/
  | shedule
  /-- At the loop over `m_timedSleepTaskQueue`. -/
  | timedLoop
  /-- To lock the task popped there. -/
  | timed (newTask : τ)
  /-- In the loop of `excludeTaskFromWaiting`. -/
  | timedOthers (newTask : τ) (idx : ℕ)
  /-- To lock an event of the task. -/
  | timedOther (newTask : τ) (idx : ℕ) (event : ε)
  /-- At the loop over `m_waitTaskQueue`. -/
  | waits
  /-- To lock the task popped there. -/
  | ready (newTask : τ)
  /-- To lock the idle task. -/
  | idle (newTask : τ)
  /-- `shedule` has returned. -/
  | chosen (newTask : τ)
  /-- In `endTaskSwitch`, done with the old task. -/
  | activate (newTask : τ)
  deriving DecidableEq

/-- The lock the processor has asked for. -/
def EventLockPc.asked {τ ε : Type*} : EventLockPc τ ε → Option (ε ⊕ τ)
  | .set e | .setOther _ _ _ e | .wait e _ | .multiObject _ _ _ _ _ e | .timedOther _ _ e =>
    some (.inl e)
  | .setTask _ T | .waitOwn _ _ T | .multiOwn _ _ _ T | .switch T | .timed T | .ready T
  | .idle T => some (.inr T)
  | _ => none

/-- The locks, the processors' local data, the tasks and the events, and the
two queues of the scheduler. -/
structure EventLockState (κ τ ε : Type*) where
  spin : LockQueues (ε ⊕ τ) κ
  pc : κ → EventLockPc τ ε
  /-- `LOCAL_CPU_MT_LOCK_COUNT`. -/
  mtLockCount : κ → ℕ
  /-- `LOCAL_THREAD_STORAGE_CURRENT_TASK`. -/
  current : κ → τ
  /-- `LOCAL_CPU_IDLE_TASK`. -/
  idleTask : κ → τ
  /-- `m_idle`. -/
  idle : τ → Bool
  /-- `m_readyForSleep`. -/
  readyForSleep : τ → Bool
  events : EventState τ ε
  timedSleepTaskQueue : List τ
  waitTaskQueue : List τ

/-- The steps of a run. -/
inductive EventLockAct (κ τ ε : Type*) where
  | set (cpu : κ) (event : ε)
  /-- `waitExStatus`. -/
  | wait (cpu : κ) (event : ε) (timeout : ℕ)
  /-- `kevent::waitMultiple`. -/
  | waitMultiple (cpu : κ) (call : WaitCall ε) (timeout : ℕ)
  /-- `beginTaskSwitch`. -/
  | switch (cpu : κ)
  /-- The current task has time left. -/
  | keep (cpu : κ)
  /-- A task of the timed sleeps is due. -/
  | popTimed (cpu : κ) (newTask : τ)
  /-- No task of the timed sleeps is due. -/
  | endTimed (cpu : κ)
  /-- A task of the waiting ones. -/
  | popWait (cpu : κ) (newTask : τ)
  /-- The next step of the routine the processor is in. -/
  | step (cpu : κ)

def EventLockAct.cpu {κ τ ε : Type*} : EventLockAct κ τ ε → κ
  | .set c _ | .wait c _ _ | .waitMultiple c _ _ | .switch c | .keep c | .popTimed c _
  | .endTimed c | .popWait c _ | .step c => c

namespace EventLockState

variable {κ τ ε : Type*} [DecidableEq κ] [DecidableEq τ] [DecidableEq ε]

section

variable (s : EventLockState κ τ ε) (c : κ)

/-- The processor waits for the lock it has asked for. -/
def Blocked : Prop :=
  ∃ l, (s.pc c).asked = some l ∧ s.spin.Waits c l

instance : Decidable (s.Blocked c) :=
  match h : (s.pc c).asked with
  | none => .isFalse fun ⟨_, hl, _⟩ => Option.some_ne_none _ (hl.symm.trans h)
  | some l =>
    decidable_of_iff (s.spin.Waits c l)
      ⟨fun hc => ⟨l, h, hc⟩, fun ⟨_, hm, hc⟩ => Option.some.inj (h.symm.trans hm) ▸ hc⟩

def goto (q : EventLockPc τ ε) : EventLockState κ τ ε :=
  { s with pc := update s.pc c q }

/-- `m_spin.lock()`, up to the loop in it. -/
def lock (l : ε ⊕ τ) (q : EventLockPc τ ε) : EventLockState κ τ ε :=
  { s.goto c q with
    spin := s.spin.request c l
    mtLockCount := if l.isLeft then update s.mtLockCount c (s.mtLockCount c + 1)
      else s.mtLockCount }

/-- `m_spin.unlock()`: it gives up the lock of whoever has it. -/
def unlock (l : ε ⊕ τ) (q : EventLockPc τ ε) :
    Option (EventLockState κ τ ε) :=
  if s.spin l = [] then none
  else
    some { s.goto c q with
      spin := s.spin.release l
      mtLockCount := if l.isLeft then update s.mtLockCount c (s.mtLockCount c - 1)
        else s.mtLockCount }

def withEvents (events : EventState τ ε) : EventLockState κ τ ε :=
  { s with events := events }

/-! ## `set` -/

/-- `set`, with the event locked. -/
def setBegin (e : ε) : Option (EventLockState κ τ ε) :=
  if (s.events.event e).set then s.unlock c (.inl e) .run
  else
    some ((s.withEvents (s.events.updateEvent e fun o => { o with set := true })).goto c
      (.setLoop e))

def setLoop (e : ε) : EventLockState κ τ ε :=
  match (s.events.event e).head with
  | none => s.goto c (.setEnd e)
  | some T => s.lock c (.inr T) (.setTask e T)

/-- The head of the list is locked. -/
def setTask (e : ε) (T : τ) : Option (EventLockState κ τ ε) :=
  if ¬ (s.events.task T).Asleep then
    (s.events.taskEventInfo e T).bind fun idx =>
      (s.withEvents (s.events.updateEvent e fun o =>
        { o with head := ((s.events.task T).infos idx).next })).unlock c (.inr T) (.setLoop e)
  else if 1 < (s.events.task T).needWaitEvents then
    (s.events.taskEventInfo e T).bind fun idx =>
      (s.withEvents (s.events.updateTask T fun t =>
        { t with
          needWaitEvents := t.needWaitEvents - 1
          infos := update t.infos idx { t.infos idx with object := none } })).unlock c (.inr T)
        (.setNext e T idx)
  else some (s.goto c (.setOthers e T 0))

/-- `addWaitTask` of a task that is woken with the slot `idx`. -/
def wake (T : τ) (idx : ℕ) : EventLockState κ τ ε :=
  { s with
    events := s.events.updateTask T fun t =>
      { t with waitEventCount := 0, state := .wait, waitEventResult := idx }
    waitTaskQueue := s.waitTaskQueue ++ [T] }

/-- A round of the loop of `excludeEventsFromTask`, or what follows it. -/
def setOthers (e : ε) (T : τ) (idx : ℕ) :
    Option (EventLockState κ τ ε) :=
  if idx < (s.events.task T).waitEventCount then
    match ((s.events.task T).infos idx).object with
    | none => some (s.goto c (.setOthers e T (idx + 1)))
    | some other =>
      if other = e then some (s.goto c (.setOthers e T (idx + 1)))
      else some (s.lock c (.inl other) (.setOther e T idx other))
  else
    (((List.range (s.events.task T).waitEventCount).filter fun idx =>
      ((s.events.task T).infos idx).object = some e).getLast?).bind fun idx =>
        (s.wake T idx).unlock c (.inr T) (.setNext e T idx)

/-- The other event is locked. -/
def setOther (e : ε) (T : τ) (idx : ℕ) (other : ε) :
    Option (EventLockState κ τ ε) :=
  (s.events.excludeEventFromTask T idx).bind fun events =>
    (s.withEvents events).unlock c (.inl other) (.setOthers e T (idx + 1))

/-- The head is moved on. -/
def setNext (e : ε) (T : τ) (idx : ℕ) : EventLockState κ τ ε :=
  let next := ((s.events.task T).infos idx).next
  if (s.events.event e).manualReset then
    (s.withEvents (s.events.updateEvent e fun o => { o with head := next })).goto c (.setLoop e)
  else
    (s.withEvents (s.events.updateEvent e fun o => { o with set := false, head := next })).goto c
      (.setEnd e)

def setEnd (e : ε) : Option (EventLockState κ τ ε) :=
  (EventState.closeHead e s.events).bind fun events =>
    (s.withEvents events).unlock c (.inl e) .run

/-! ## Waits -/

/-- What a wait does to an event that is set. -/
def consume (e : ε) : EventLockState κ τ ε :=
  if (s.events.event e).manualReset then s
  else s.withEvents (s.events.updateEvent e fun o => { o with set := false })

/-- `waitExStatus`, with the event locked. -/
def waitExStatus (e : ε) (timeout : ℕ) :
    Option (EventLockState κ τ ε) :=
  if (s.events.event e).set then (s.consume e).unlock c (.inl e) .run
  else if timeout = 0 then s.unlock c (.inl e) .run
  else some (s.lock c (.inr (s.current c)) (.waitOwn e timeout (s.current c)))

/-- `prepareToSleep` has locked the task. -/
def waitOwn (e : ε) (timeout : ℕ) (T : τ) :
    Option (EventLockState κ τ ε) :=
  match s.events.prepareToSleep T timeout with
  | none => s.unlock c (.inr T) (.waitFail e)
  | some events =>
    (events.insertTask e T).bind fun events =>
      ({ s with
        events := events
        readyForSleep := update s.readyForSleep T true } : EventLockState κ τ ε).unlock
          c (.inl e) .run

/-- A round of the first loop of `waitMultiple`, or what follows it. -/
def multi (call : WaitCall ε) (timeout idx setCount : ℕ)
    (needWait : List Bool) : EventLockState κ τ ε :=
  match call.objects[idx]? with
  | some obj => s.lock c (.inl obj) (.multiObject call timeout idx setCount needWait obj)
  | none =>
    if setCount = call.objects.length ∨ timeout = 0 then
      s.goto c (.multiUnlock call (call.objects.zip needWait) false)
    else s.lock c (.inr (s.current c)) (.multiOwn call timeout needWait (s.current c))

/-- The object is locked. -/
def multiObject (call : WaitCall ε) (timeout idx setCount : ℕ)
    (needWait : List Bool) (obj : ε) : Option (EventLockState κ τ ε) :=
  if (s.events.event obj).set then
    if call.waitAll then
      s.unlock c (.inl obj) (.multi call timeout (idx + 1) (setCount + 1) (needWait ++ [false]))
    else some ((s.consume obj).goto c (.multiReturn obj idx))
  else some (s.goto c (.multi call timeout (idx + 1) setCount (needWait ++ [true])))

/-- The current object is unlocked, once for each object before it. -/
def multiReturn (obj : ε) : ℕ → Option (EventLockState κ τ ε)
  | 0 => some (s.goto c .run)
  | times + 1 => s.unlock c (.inl obj) (.multiReturn obj times)

/-- `prepareToSleep` has locked the task. -/
def multiOwn (call : WaitCall ε) (timeout : ℕ)
    (needWait : List Bool) (T : τ) : Option (EventLockState κ τ ε) :=
  match s.events.prepareToSleep T timeout with
  | none => s.unlock c (.inr T) (.multiUnlock call (call.objects.zip needWait) false)
  | some events =>
    some (({ s with
      events := events
      readyForSleep := update s.readyForSleep T true } : EventLockState κ τ ε).goto c
        (.multiUnlock call (call.objects.zip needWait) true))

/-- A round of `unlockAll`, or what follows it. -/
def multiUnlock (call : WaitCall ε) (insert : Bool) :
    List (ε × Bool) → Option (EventLockState κ τ ε)
  | [] =>
    if insert then
      some ((s.withEvents (s.events.updateTask (s.current c) fun t =>
        { t with needWaitEvents := if call.waitAll then call.objects.length else 1 })).goto c .run)
    else some (s.goto c .run)
  | (obj, needWait) :: held =>
    if needWait then
      (if insert then s.events.insertTask obj (s.current c) else some s.events).bind fun events =>
        (s.withEvents events).unlock c (.inl obj) (.multiUnlock call held insert)
    else some (s.goto c (.multiUnlock call held insert))

/-! ## Task switches -/

/-- The task popped from the timed sleeps is locked. -/
def timed (newTask : τ) : Option (EventLockState κ τ ε) :=
  if (s.events.task newTask).state = .timedSleep then
    some ((s.withEvents (s.events.updateTask newTask fun t =>
      { t with waitEventResult := waitTimeout })).goto c (.timedOthers newTask 0))
  else s.unlock c (.inr newTask) .timedLoop

/-- A round of the loop of `excludeTaskFromWaiting`, or what follows it. -/
def timedOthers (newTask : τ) (idx : ℕ) : EventLockState κ τ ε :=
  if idx < (s.events.task newTask).waitEventCount then
    match ((s.events.task newTask).infos idx).object with
    | none => s.goto c (.timedOthers newTask (idx + 1))
    | some e => s.lock c (.inl e) (.timedOther newTask idx e)
  else
    (s.withEvents (s.events.updateTask newTask fun t => { t with waitEventCount := 0 })).goto c
      (.chosen newTask)

/-- The event is locked. -/
def timedOther (newTask : τ) (idx : ℕ) (e : ε) :
    Option (EventLockState κ τ ε) :=
  (s.events.excludeEventFromTask newTask idx).bind fun events =>
    (s.withEvents events).unlock c (.inl e) (.timedOthers newTask (idx + 1))

/-- After the loop over the waiting tasks: the current task goes on, or the
idle task. -/
def waits : Option (EventLockState κ τ ε) :=
  if s.waitTaskQueue ≠ [] then none
  else if (s.events.task (s.current c)).state = .active then s.unlock c (.inr (s.current c)) .run
  else some (s.lock c (.inr (s.idleTask c)) (.idle (s.idleTask c)))

/-- The task popped from the waiting ones is locked. -/
def ready (newTask : τ) : Option (EventLockState κ τ ε) :=
  if (s.events.task newTask).state = .wait then some (s.goto c (.chosen newTask))
  else s.unlock c (.inr newTask) .waits

/-- What `endTaskSwitch` does with the old task before it unlocks it. -/
def queueOld (oldTask : τ) : EventLockState κ τ ε :=
  if s.idle oldTask then s
  else if (s.events.task oldTask).state = .active then
    { s with
      events := s.events.updateTask oldTask fun t => { t with state := .wait }
      waitTaskQueue := s.waitTaskQueue ++ [oldTask] }
  else if (s.events.task oldTask).state = .timedSleep then
    { s with timedSleepTaskQueue := s.timedSleepTaskQueue ++ [oldTask] }
  else s

def chosen (newTask : τ) : Option (EventLockState κ τ ε) :=
  if s.current c = newTask then s.unlock c (.inr (s.current c)) .run
  else (s.queueOld (s.current c)).unlock c (.inr (s.current c)) (.activate newTask)

def activate (newTask : τ) : Option (EventLockState κ τ ε) :=
  ({ s with
    events := s.events.updateTask newTask fun t => { t with state := .active }
    current := update s.current c newTask } : EventLockState κ τ ε).unlock c (.inr newTask) .run

/-! ## Runs -/

/-- The next step of the routine the processor is in. -/
def exec : Option (EventLockState κ τ ε) :=
  match s.pc c with
  | .run => none
  | .set e => s.setBegin c e
  | .setLoop e => some (s.setLoop c e)
  | .setTask e T => s.setTask c e T
  | .setOthers e T idx => s.setOthers c e T idx
  | .setOther e T idx other => s.setOther c e T idx other
  | .setNext e T idx => some (s.setNext c e T idx)
  | .setEnd e => s.setEnd c e
  | .wait e timeout => s.waitExStatus c e timeout
  | .waitOwn e timeout T => s.waitOwn c e timeout T
  | .waitFail e => s.unlock c (.inl e) .run
  | .multi call timeout idx setCount needWait =>
    some (s.multi c call timeout idx setCount needWait)
  | .multiObject call timeout idx setCount needWait obj =>
    s.multiObject c call timeout idx setCount needWait obj
  | .multiReturn obj times => s.multiReturn c obj times
  | .multiOwn call timeout needWait T => s.multiOwn c call timeout needWait T
  | .multiUnlock call held insert => s.multiUnlock c call insert held
  | .switch _ => some (s.goto c .shedule)
  | .shedule => some (s.goto c .timedLoop)
  | .timedLoop => none
  | .timed newTask => s.timed c newTask
  | .timedOthers newTask idx => some (s.timedOthers c newTask idx)
  | .timedOther newTask idx e => s.timedOther c newTask idx e
  | .waits => s.waits c
  | .ready newTask => s.ready c newTask
  | .idle newTask => some (s.goto c (.chosen newTask))
  | .chosen newTask => s.chosen c newTask
  | .activate newTask => s.activate c newTask

/-- The current task may call a function. After `prepareToSleep` it does so
only if the switch could not take place. -/
def Callable : Prop :=
  s.pc c = .run ∧ (s.mtLockCount c = 0 → s.readyForSleep (s.current c) = false)

instance : Decidable (s.Callable c) :=
  inferInstanceAs (Decidable (_ ∧ _))

/-- `beginTaskSwitch`, up to `shedule`. -/
def beginTaskSwitch : EventLockState κ τ ε :=
  let task := s.current c
  if s.readyForSleep task then
    { s.goto c .shedule with readyForSleep := update s.readyForSleep task false }
  else s.lock c (.inr task) (.switch task)

/-- One step. `none` is a step that is not enabled. An idle task does not
wait; `kevent::waitMultiple` has checked the number of objects. -/
def apply (a : EventLockAct κ τ ε) : Option (EventLockState κ τ ε) :=
  if s.Blocked a.cpu then none
  else
    match a with
    | .set c e => if s.Callable c then some (s.lock c (.inl e) (.set e)) else none
    | .wait c e timeout =>
      if s.Callable c ∧ s.idle (s.current c) = false then
        some (s.lock c (.inl e) (.wait e timeout))
      else none
    | .waitMultiple c call timeout =>
      if s.Callable c ∧ s.idle (s.current c) = false ∧ call.objects ≠ [] ∧
          call.objects.length ≤ taskWaitEventsMax then
        some (s.goto c (.multi call timeout 0 0 []))
      else none
    | .switch c =>
      if s.pc c = .run ∧ s.mtLockCount c = 0 then some (s.beginTaskSwitch c) else none
    | .keep c =>
      if s.pc c = .shedule ∧ s.idle (s.current c) = false ∧
          (s.events.task (s.current c)).state = .active then
        s.unlock c (.inr (s.current c)) .run
      else none
    | .popTimed c newTask =>
      if s.pc c = .timedLoop ∧ newTask ∈ s.timedSleepTaskQueue then
        some (({ s with timedSleepTaskQueue := s.timedSleepTaskQueue.erase newTask } :
          EventLockState κ τ ε).lock c (.inr newTask) (.timed newTask))
      else none
    | .endTimed c => if s.pc c = .timedLoop then some (s.goto c .waits) else none
    | .popWait c newTask =>
      if s.pc c = .waits ∧ newTask ∈ s.waitTaskQueue then
        some (({ s with waitTaskQueue := s.waitTaskQueue.erase newTask } :
          EventLockState κ τ ε).lock c (.inr newTask) (.ready newTask))
      else none
    | .step c => s.exec c

end

/-- Every processor is in its first task and no task waits for an event;
other tasks may be ready to run. -/
structure Initial (s : EventLockState κ τ ε) : Prop where
  spin : ∀ l, s.spin l = []
  pc : ∀ c, s.pc c = .run
  mtLockCount : ∀ c, s.mtLockCount c = 0
  current : Function.Injective s.current
  current_active : ∀ c, (s.events.task (s.current c)).state = .active
  current_idle : ∀ c, s.idle (s.current c) = false
  idleTask : Function.Injective s.idleTask
  idleTask_idle : ∀ c, s.idle (s.idleTask c) = true
  readyForSleep : ∀ T, s.readyForSleep T = false
  events : s.events.Initial
  timedSleepTaskQueue : s.timedSleepTaskQueue = []
  waitTaskQueue : s.waitTaskQueue.Nodup
  waiting : ∀ T ∈ s.waitTaskQueue, (s.events.task T).state = .wait ∧ s.idle T = false

end EventLockState

/-- The interleavings of any number of processors, tasks and events. -/
def eventLockMachine (κ τ ε : Type*) [DecidableEq κ] [DecidableEq τ] [DecidableEq ε] :
    Machine (EventLockState κ τ ε) (EventLockAct κ τ ε) where
  init := EventLockState.Initial
  step s a t := s.apply a = some t

/-! ## A circle -/

/-- Two processors, each in a task of its own and with an idle task, and
three events. -/
def twoCpus : EventLockState (Fin 2) (Fin 4) (Fin 3) where
  spin _ := []
  pc _ := .run
  mtLockCount _ := 0
  current c := c.castLE (by decide)
  idleTask c := c.natAdd 2
  idle T := 2 ≤ T
  readyForSleep _ := false
  events :=
    { task := fun T =>
        { state := if T < 2 then .active else .none
          infos := fun _ => { next := none, prev := none, object := none }
          waitEventCount := 0
          waitEventResult := 0
          needWaitEvents := 1 }
      event := fun _ =>
        { set := false, manualReset := false, locked := false, tail := none, head := none }
      blocked := fun _ => none
      hung := fun _ => false }
  timedSleepTaskQueue := []
  waitTaskQueue := []

theorem twoCpus_initial : twoCpus.Initial where
  spin _ := rfl
  pc _ := rfl
  mtLockCount _ := rfl
  current := by decide
  current_active := by decide
  current_idle := by decide
  idleTask := by decide
  idleTask_idle := by decide
  readyForSleep _ := rfl
  events :=
    { awake := by decide
      count := fun _ => rfl
      blocked := fun _ => rfl
      head := fun _ => rfl
      tail := fun _ => rfl
      locked := fun _ => rfl }
  timedSleepTaskQueue := rfl
  waitTaskQueue := List.nodup_nil
  waiting T h := by cases h

/-- The first processor's task sleeps on the first event for five ticks. -/
def sleepTimed : List (EventLockAct (Fin 2) (Fin 4) (Fin 3)) :=
  [.wait 0 0 5, .step 0, .step 0, .switch 0, .step 0, .endTimed 0, .step 0, .step 0, .step 0,
    .step 0]

/-- Its time is up, and the processor takes the lock of the task; the other
processor sets the event, takes its lock and asks for that of the task; and
the first asks for that of the event. -/
def timeoutMeetsSet : List (EventLockAct (Fin 2) (Fin 4) (Fin 3)) :=
  sleepTimed ++ [.switch 0, .step 0, .step 0, .popTimed 0 0, .step 0, .set 1 0, .step 1, .step 1,
    .step 0]

/-- **The timeout of a wait and a `set` of the event can wait for each other.** -/
theorem timeout_set_deadlocked : ∃ s, (eventLockMachine (Fin 2) (Fin 4) (Fin 3)).Reachable s ∧
    s.spin.Deadlocked := by
  obtain ⟨s, hs, hwait⟩ := Machine.Reachable.exists_of_foldlM
    (M := eventLockMachine (Fin 2) (Fin 4) (Fin 3))
    (P := fun s => decide (s.spin.Waits 0 (.inl 0) ∧ s.spin.holder (.inl 0) = some 1 ∧
      s.spin.Waits 1 (.inr 0) ∧ s.spin.holder (.inr 0) = some 0))
    (fun _ _ _ h => h) timeoutMeetsSet (.init twoCpus_initial) (by decide +kernel)
  obtain ⟨h0, h1, h2, h3⟩ := of_decide_eq_true hwait
  exact ⟨s, hs, 0, .tail (.single ⟨.inl 0, h0, h1⟩) ⟨.inr 0, h2, h3⟩⟩

end ShmDos64
