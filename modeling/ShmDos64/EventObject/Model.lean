import ShmDos64.Scheduler.Model
/-!
# Events

An `EventObject` is a flag and a queue of tasks that wait for it. A task
waits for up to 64 events at once: for each it has a slot with the event
and the task's links in the event's queue, so that the links of a queue
are found by looking for the event in the slots of its tasks. The critical
sections of `set`, of the two waits and of the timeout are modelled as one
step each, with the events' `m_spin` as a flag, since `waitMultiple` can
return with a lock held. The hooks of the classes derived from
`EventObject` are those of the base class.
-/

namespace ShmDos64

open Function (update update_of_ne update_self)

/-- `TaskWaitEventsMax`. -/
abbrev taskWaitEventsMax : ℕ := 64

/-- `kevent::WaitError`. -/
abbrev waitError : ℕ := 0xFFFFFFFF

/-- `kevent::WaitTimeout`. -/
abbrev waitTimeout : ℕ := 0x102

/-- `Task::EventsInfo`. -/
structure EventsInfo (τ ε : Type*) where
  next : Option τ
  prev : Option τ
  object : Option ε

/-- The fields of `Task` that events use. -/
structure WaitTask (τ ε : Type*) where
  state : TaskState
  /-- `m_waitEventsInfo`. -/
  infos : ℕ → EventsInfo τ ε
  waitEventCount : ℕ
  waitEventResult : ℕ
  needWaitEvents : ℕ

/-- `EventObject`. -/
structure EventObject (τ : Type*) where
  set : Bool
  manualReset : Bool
  /-- `m_spin` is held. -/
  locked : Bool
  /-- `m_waitTaskListTail`. -/
  tail : Option τ
  /-- `m_waitTaskListHead`. -/
  head : Option τ

/-- A call of `waitMultiple`; `waitExStatus` waits for any of one object. -/
structure WaitCall (ε : Type*) where
  objects : List ε
  waitAll : Bool
  deriving DecidableEq

/-- One signal ends the wait. -/
def WaitCall.Single {ε : Type*} (call : WaitCall ε) : Prop :=
  call.waitAll = false ∨ call.objects.length = 1

instance {ε : Type*} (call : WaitCall ε) : Decidable call.Single :=
  inferInstanceAs (Decidable (_ ∨ _))

/-- The tasks and the events. The last two fields are the run's record: the
call a task is blocked in, and the tasks that unlocked a free lock, which
spin for ever in `unlock`. -/
structure EventState (τ ε : Type*) where
  task : τ → WaitTask τ ε
  event : ε → EventObject τ
  blocked : τ → Option (WaitCall ε)
  hung : τ → Bool

/-- The steps of a run. -/
inductive EventAct (τ ε : Type*) where
  | set (event : ε)
  /-- `waitExStatus`. -/
  | wait (task : τ) (event : ε) (timeout : ℕ)
  /-- `kevent::waitMultiple`. -/
  | waitMultiple (task : τ) (objects : List ε) (waitAll : Bool) (timeout : ℕ)
  /-- The scheduler ends a timed sleep. -/
  | timeout (task : τ)
  /-- The scheduler runs a task that was made runnable. -/
  | resume (task : τ)

/-- The task sleeps. -/
def WaitTask.Asleep {τ ε : Type*} (t : WaitTask τ ε) : Prop :=
  t.state = .sleep ∨ t.state = .timedSleep

instance {τ ε : Type*} (t : WaitTask τ ε) : Decidable t.Asleep :=
  inferInstanceAs (Decidable (_ ∨ _))

namespace EventState

variable {τ ε : Type*} [DecidableEq τ] [DecidableEq ε]

def updateTask (s : EventState τ ε) (T : τ) (f : WaitTask τ ε → WaitTask τ ε) :
    EventState τ ε :=
  { s with task := update s.task T (f (s.task T)) }

def updateEvent (s : EventState τ ε) (e : ε) (f : EventObject τ → EventObject τ) :
    EventState τ ε :=
  { s with event := update s.event e (f (s.event e)) }

variable {f : EventObject τ → EventObject τ}

omit [DecidableEq τ] in
theorem updateEvent_self {s : EventState τ ε} {e : ε} :
    (s.updateEvent e f).event e = f (s.event e) :=
  update_self _ _ _

omit [DecidableEq τ] in
theorem updateEvent_of_ne {s : EventState τ ε} {e e' : ε}
    (he : e' ≠ e) : (s.updateEvent e f).event e' = s.event e' :=
  update_of_ne he _ _

omit [DecidableEq ε] in
theorem updateTask_self {s : EventState τ ε} {T : τ} {f : WaitTask τ ε → WaitTask τ ε} :
    (s.updateTask T f).task T = f (s.task T) :=
  update_self _ _ _

omit [DecidableEq ε] in
theorem updateTask_of_ne {s : EventState τ ε} {T T' : τ} {f : WaitTask τ ε → WaitTask τ ε}
    (hT : T' ≠ T) : (s.updateTask T f).task T' = s.task T' :=
  update_of_ne hT _ _

section

variable (s : EventState τ ε) (e : ε)

def updateInfo (T : τ) (idx : ℕ)
    (f : EventsInfo τ ε → EventsInfo τ ε) : EventState τ ε :=
  s.updateTask T fun t => { t with infos := update t.infos idx (f (t.infos idx)) }

/-- `taskEventInfo`, the index of the slot; `none` is its panic. -/
def taskEventInfo (T : τ) : Option ℕ :=
  (List.range (s.task T).waitEventCount).find? fun idx =>
    ((s.task T).infos idx).object = some e

/-- `taskEventInfo(task)->m_next = next`. -/
def setNext (T : τ) (next : Option τ) : Option (EventState τ ε) :=
  (s.taskEventInfo e T).map fun idx => s.updateInfo T idx fun info => { info with next := next }

/-- `taskEventInfo(task)->m_prev = prev`. -/
def setPrev (T : τ) (prev : Option τ) : Option (EventState τ ε) :=
  (s.taskEventInfo e T).map fun idx => s.updateInfo T idx fun info => { info with prev := prev }

/-- `insertTask`. -/
def insertTask (T : τ) : Option (EventState τ ε) :=
  let idx := (s.task T).waitEventCount
  let last := (s.event e).tail
  let s := s.updateTask T fun t =>
    { t with
      infos := update t.infos idx { next := none, prev := last, object := some e }
      waitEventCount := idx + 1 }
  (match last with
  | some last => s.setNext e last (some T)
  | none => some (s.updateEvent e fun o => { o with head := some T })).map
    fun s : EventState τ ε => s.updateEvent e fun o => { o with tail := some T }

/-- `excludeEventFromTask`, of the slot `idx`. -/
def excludeEventFromTask (T : τ) (idx : ℕ) : Option (EventState τ ε) :=
  let info := (s.task T).infos idx
  match info.object, info.next with
  | none, _ => none
  | some e, some next =>
    (s.setPrev e next info.prev).bind fun s =>
      match info.prev with
      | some prev => s.setNext e prev info.next
      | none => some (s.updateEvent e fun o => { o with head := info.next })
  | some e, none =>
    (match info.prev with
    | some prev => s.setNext e prev none
    | none => some (s.updateEvent e fun o => { o with head := none })).map
      fun s : EventState τ ε => s.updateEvent e fun o => { o with tail := info.prev }

/-- A round of the loops that take a task out of the queues: the slot's
event is locked, unless it is `own`, and the task leaves its queue. -/
def excludeSlot (own : Option ε) (T : τ) (s : EventState τ ε) (idx : ℕ) :
    Option (EventState τ ε) :=
  match ((s.task T).infos idx).object with
  | none => some s
  | some e =>
    if some e = own then some s
    else if (s.event e).locked then none
    else s.excludeEventFromTask T idx

/-- `excludeEventsFromTask`: the task leaves the queues of its other events,
and the slot of `e` is returned. -/
def excludeEventsFromTask (T : τ) : Option (EventState τ ε × ℕ) :=
  ((List.range (s.task T).waitEventCount).foldlM (excludeSlot (some e) T) s).bind fun s' =>
    (((List.range (s.task T).waitEventCount).filter fun idx =>
      ((s.task T).infos idx).object = some e).getLast?).map fun idx => (s', idx)

/-- `excludeTaskFromWaiting`. -/
def excludeTaskFromWaiting (T : τ) (reason : ℕ) :
    Option (EventState τ ε) :=
  let s := s.updateTask T fun t => { t with waitEventResult := reason }
  ((List.range (s.task T).waitEventCount).foldlM (excludeSlot none T) s).map fun s =>
    s.updateTask T fun t => { t with waitEventCount := 0 }

/-- What `set` does to a task that sleeps: it counts the event, if the task
needs more than one, and else wakes the task. With the slot of the event. -/
def serve (T : τ) : Option (EventState τ ε × ℕ) :=
  if 1 < (s.task T).needWaitEvents then
    (s.taskEventInfo e T).map fun idx =>
      (s.updateTask T fun t =>
        { t with
          needWaitEvents := t.needWaitEvents - 1
          infos := update t.infos idx { t.infos idx with object := none } }, idx)
  else
    (s.excludeEventsFromTask e T).map fun r =>
      (r.1.updateTask T fun t =>
        { t with waitEventCount := 0, state := .wait, waitEventResult := r.2 }, r.2)

/-- The loop of `set`. -/
def setLoop (e : ε) : ℕ → EventState τ ε → Option (EventState τ ε)
  | 0, _ => none
  | fuel + 1, s =>
    match (s.event e).head with
    | none => some s
    | some T =>
      if ¬ (s.task T).Asleep then
        (s.taskEventInfo e T).bind fun idx =>
          setLoop e fuel (s.updateEvent e fun o => { o with head := ((s.task T).infos idx).next })
      else
        (s.serve e T).bind fun r =>
          let next := ((r.1.task T).infos r.2).next
          if (r.1.event e).manualReset then
            setLoop e fuel (r.1.updateEvent e fun o => { o with head := next })
          else some (r.1.updateEvent e fun o => { o with set := false, head := next })

/-- After the loop of `set`: the head has no task before it, and without a
head there is no tail. -/
def closeHead (e : ε) (s : EventState τ ε) : Option (EventState τ ε) :=
  match (s.event e).head with
  | some head => s.setPrev e head none
  | none => some (s.updateEvent e fun o => { o with tail := none })

/-- `set`. -/
def set (fuel : ℕ) (s : EventState τ ε) (e : ε) : Option (EventState τ ε) :=
  if (s.event e).locked then none
  else if (s.event e).set then some s
  else
    (setLoop e fuel (s.updateEvent e fun o => { o with set := true })).bind (closeHead e)

/-- `prepareToSleep`; `none` where it returns false. -/
def prepareToSleep (T : τ) (timeout : ℕ) : Option (EventState τ ε) :=
  if (s.task T).state = .terminated then none
  else
    some (s.updateTask T fun t =>
      { t with
        state := if timeout ≠ waitInfinite then .timedSleep else .sleep
        waitEventResult := waitError })

/-- `waitExStatus`, up to the sleep. With it the value returned, if the task
does not sleep. -/
def waitExStatus (T : τ) (timeout : ℕ) :
    Option (EventState τ ε × Option ℕ) :=
  if (s.event e).locked then none
  else if (s.event e).set then
    some (if (s.event e).manualReset then s else s.updateEvent e fun o => { o with set := false },
      some 0)
  else if timeout = 0 then some (s, some waitTimeout)
  else
    match s.prepareToSleep T timeout with
    | none => some (s, some waitError)
    | some s =>
      (({ s with blocked := update s.blocked T (some ⟨[e], false⟩) } : EventState τ ε).insertTask
        e T).map fun s => (s, none)

/-- `m_spin.unlock()`. -/
def unlock (T : τ) (s : EventState τ ε) (e : ε) : EventState τ ε :=
  if (s.event e).locked then s.updateEvent e fun o => { o with locked := false }
  else { s with hung := update s.hung T true }

/-- How the first loop of `waitMultiple` ends. -/
inductive LockLoop where
  /-- It returns from the function. -/
  | returned (idx : ℕ)
  | done (setCount : ℕ) (needWait : List Bool)

/-- The first loop of `waitMultiple`, from the object `idx` on. On the return
from it the current object is unlocked, once for each object before it. -/
def lockLoop (T : τ) (waitAll : Bool) :
    List ε → ℕ → ℕ → List Bool → EventState τ ε → Option (EventState τ ε × LockLoop)
  | [], _, setCount, needWait, s => some (s, .done setCount needWait)
  | obj :: objects, idx, setCount, needWait, s =>
    if (s.event obj).locked then none
    else
      let s := s.updateEvent obj fun o => { o with locked := true }
      if (s.event obj).set then
        if waitAll then
          lockLoop T waitAll objects (idx + 1) (setCount + 1) (needWait ++ [false])
            (s.unlock T obj)
        else
          let s := if (s.event obj).manualReset then s
            else s.updateEvent obj fun o => { o with set := false }
          some ((List.range idx).foldl (fun s _ => s.unlock T obj) s, .returned idx)
      else lockLoop T waitAll objects (idx + 1) setCount (needWait ++ [true]) s

/-- `unlockAll`. -/
def unlockAll (T : τ) (insert : Bool) :
    List (ε × Bool) → EventState τ ε → Option (EventState τ ε)
  | [], s => some s
  | (obj, needWait) :: rest, s =>
    if needWait then
      (if insert then s.insertTask obj T else some s).bind fun s =>
        unlockAll T insert rest (s.unlock T obj)
    else unlockAll T insert rest s

/-- `waitMultiple`, up to the sleep. With it the value returned, if the task
does not sleep. -/
def waitMultiple (objects : List ε) (T : τ) (waitAll : Bool)
    (timeout : ℕ) : Option (EventState τ ε × Option ℕ) :=
  (lockLoop T waitAll objects 0 0 [] s).bind fun r =>
    match r.2 with
    | .returned idx => some (r.1, some idx)
    | .done setCount needWait =>
      let held := objects.zip needWait
      if setCount = objects.length then
        (unlockAll T false held r.1).map fun s => (s, some 0)
      else if timeout = 0 then
        (unlockAll T false held r.1).map fun s => (s, some waitTimeout)
      else
        match r.1.prepareToSleep T timeout with
        | none => (unlockAll T false held r.1).map fun s => (s, some waitError)
        | some s =>
          (unlockAll T true held
            { s with blocked := update s.blocked T (some ⟨objects, waitAll⟩) }).map fun s =>
            (s.updateTask T fun t =>
              { t with needWaitEvents := if waitAll then objects.length else 1 }, none)

end

/-- One step, with enough fuel for the loop of `set`. A task that waits is
running; `kevent::waitMultiple` has checked the number of objects. -/
def apply (fuel : ℕ) (s : EventState τ ε) : EventAct τ ε → Option (EventState τ ε)
  | .set e => s.set fuel e
  | .wait T e timeout =>
    if (s.task T).state = .active ∧ s.hung T = false then
      (s.waitExStatus e T timeout).map Prod.fst
    else none
  | .waitMultiple T objects waitAll timeout =>
    if (s.task T).state = .active ∧ s.hung T = false ∧ objects ≠ [] ∧
        objects.length ≤ taskWaitEventsMax then
      (s.waitMultiple objects T waitAll timeout).map Prod.fst
    else none
  | .timeout T =>
    if (s.task T).state = .timedSleep then
      (s.excludeTaskFromWaiting T waitTimeout).map fun s =>
        ({ s with blocked := update s.blocked T none } : EventState τ ε).updateTask T fun t =>
          { t with state := .active }
    else none
  | .resume T =>
    if (s.task T).state = .wait then
      some (({ s with blocked := update s.blocked T none } : EventState τ ε).updateTask T fun t =>
        { t with state := .active })
    else none

/-- No task waits for an event, and every lock is free. -/
structure Initial (s : EventState τ ε) : Prop where
  awake : ∀ T, ¬ (s.task T).Asleep
  count : ∀ T, (s.task T).waitEventCount = 0
  blocked : ∀ T, s.blocked T = none
  head : ∀ e, (s.event e).head = none
  tail : ∀ e, (s.event e).tail = none
  locked : ∀ e, (s.event e).locked = false

end EventState

/-- The runs of any number of tasks and auto-reset events. -/
def eventMachine (τ ε : Type*) [DecidableEq τ] [DecidableEq ε] :
    Machine (EventState τ ε) (EventAct τ ε) where
  init s := s.Initial ∧ ∀ e, (s.event e).manualReset = false
  step s a t := ∃ fuel, s.apply fuel a = some t

end ShmDos64
