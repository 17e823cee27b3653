import ShmDos64.Scheduler.Model
/-!
# The order of the timed-sleep queue

The keys of `m_timedSleepTaskQueue` are the wake times of the tasks in it.
A task that an event wakes early stays in the queue, and its wake time is
written again by `addWaitTask`, by a preemption and by its next sleep. The
queue stays a heap, and its top is the least wake time, as long as each
such write leaves the task's entries between their parents and what is
below them. A write that does not can hide a sleeper whose time has come.
-/

namespace ShmDos64

open Function (update)

namespace TaskPriorityQueue

variable {τ : Type*} {q : TaskPriorityQueue τ} {wakeTime : τ → ℕ} {task : τ} {time : ℕ}

/-- The wake time `time` would fit each entry that `task` has in the queue:
it is not below the entry's parent nor above what is below the entry. -/
def Fits (q : TaskPriorityQueue τ) (wakeTime : τ → ℕ) (task : τ) (time : ℕ) : Prop :=
  ∀ i, 0 < i → i < q.curSize →
    (q.pointersArray i = task → q.pointersArray (heapParent i) ≠ task →
      wakeTime (q.pointersArray (heapParent i)) ≤ time) ∧
    (q.pointersArray (heapParent i) = task → q.pointersArray i ≠ task →
      time ≤ wakeTime (q.pointersArray i))

/-- Every time fits a task that is not in the queue. -/
theorem fits_of_notMem (h : task ∉ q.entries) : q.Fits wakeTime task time := by
  have hne : ∀ i, i < q.curSize → q.pointersArray i ≠ task :=
    fun i hi heq => h (mem_entriesUpto.mpr ⟨i, hi, heq⟩)
  intro i hpos hi
  have hlt := heapParent_lt hpos
  exact ⟨fun heq => absurd heq (hne i hi), fun heq => absurd heq (hne _ (by omega))⟩

/-- A wake time that fits keeps the order. -/
theorem Ordered.update [DecidableEq τ] (h : q.Ordered wakeTime) (hfit : q.Fits wakeTime task time) :
    q.Ordered (update wakeTime task time) := by
  intro i hpos hi
  obtain ⟨hup, hdown⟩ := hfit i hpos hi
  have hle : wakeTime (q.pointersArray (heapParent i)) ≤ wakeTime (q.pointersArray i) :=
    h i hpos hi
  rw [Function.comp, Function.comp, Function.update_apply, Function.update_apply]
  split_ifs with hp hc hc
  · exact le_rfl
  · exact hdown hp hc
  · exact hup hc hp
  · exact hle

end TaskPriorityQueue

namespace SchedState

variable {κ ω τ ε : Type*} [DecidableEq τ] {s t : SchedState κ ω τ ε} {c : κ} {w : ω}

/-- The wake time a step writes, and whose. -/
def writes (s : SchedState κ ω τ ε) : SchedAct κ ω τ ε → Option (τ × ℕ)
  | .sleep c timeout =>
    if s.state (s.current c) ≠ .terminated ∧ timeout ≠ waitInfinite then
      some (s.current c, (s.now + timeout) % timeRange)
    else none
  | .create _ task => some (task, s.waitTime task)
  | .cpu c =>
    match s.pc c with
    | .chosen newTask =>
      if s.idle (s.current c) = false ∧ s.state (s.current c) = .active then
        some (s.current c,
          if s.state newTask ≠ .priorityWait then s.waitTime (s.current c) else s.now)
      else none
    | _ => none
  | .call w =>
    match s.call w with
    | .locked _ task =>
      if (s.state task = .sleep ∨ s.state task = .timedSleep) ∧ s.needWaitEvents task ≤ 1 then
        some (task, s.waitTime task)
      else none
    | _ => none
  | _ => none

/-- The wake time a step writes fits the task's entries in the timed-sleep
queue. -/
def WriteFits (s : SchedState κ ω τ ε) (a : SchedAct κ ω τ ε) : Prop :=
  ∀ task time, s.writes a = some (task, time) →
    s.timedSleepTaskQueue.Fits s.wakeTime task time

/-- So does a step that writes the wake time of no queued task. -/
theorem writeFits_of_notMem {a : SchedAct κ ω τ ε}
    (h : (s.writes a).all fun p => p.1 ∉ s.timedSleepTaskQueue.entries) : s.WriteFits a := by
  intro task time hw
  rw [hw] at h
  exact TaskPriorityQueue.fits_of_notMem (of_decide_eq_true h)

/-- The timed-sleep queue is in order. -/
def TimedOrdered (s : SchedState κ ω τ ε) : Prop := s.timedSleepTaskQueue.Ordered s.wakeTime

theorem timedOrdered_pushTimed {task : τ} (h : s.TimedOrdered) :
    (s.pushTimed task).TimedOrdered := by
  unfold TimedOrdered pushTimed
  cases hp : s.timedSleepTaskQueue.push s.wakeTime s.priorityQueueIndex task with
  | none => exact h
  | some r => exact (TaskPriorityQueue.push_spec hp).2 h

theorem timedOrdered_popTimed (h : s.TimedOrdered) (hq : s.timedSleepTaskQueue.empty ≠ true) :
    s.popTimed.TimedOrdered :=
  (TaskPriorityQueue.pop_spec fun h0 => hq (decide_eq_true h0)).2 h

/-- **What a step does** to the tasks that sleep for a time: to the order of their
queue, to their wake times, and to those that a processor has popped as due. -/
structure TimedStep (s : SchedState κ ω τ ε) (a : SchedAct κ ω τ ε) (t : SchedState κ ω τ ε) :
    Prop where
  ordered : s.WriteFits a → s.TimedOrdered → t.TimedOrdered
  sleeps : ∀ T, t.state T = .timedSleep → (∃ c timeout, a = .sleep c timeout ∧ T = s.current c) ∨
    s.state T = .timedSleep ∧ t.wakeTime T = s.wakeTime T
  popped : ∀ c timepoint T, t.pc c = .timedPopped timepoint T →
    s.pc c = .timedPopped timepoint T ∨ a = .cpu c ∧ s.wakeTime T < timepoint

variable [DecidableEq κ]

theorem prepareToSleep_timedStep {timeout : ℕ} (hst : s.prepareToSleep c timeout = some t) :
    TimedStep s (.sleep c timeout) t := by
  simp only [prepareToSleep] at hst
  obtain ⟨-, hst⟩ := Option.ite_none_right_eq_some.mp hst
  obtain ⟨s', hl, hst⟩ := Option.bind_eq_some_iff.mp hst
  obtain ⟨-, rfl⟩ := lock_eq_some hl
  split_ifs at hst with hterm htimed <;> obtain ⟨⟩ := hst
  · exact ⟨fun _ h => h, fun _ hT => .inr ⟨hT, rfl⟩, fun _ _ _ hp => .inl hp⟩
  all_goals
    refine ⟨fun hfit h => ?_, ?_, ?_⟩
    · first | exact h | exact h.update (hfit _ _ (if_pos ⟨hterm, htimed⟩))
    all_goals
      simp only [goto, Function.update_apply]
      grind

theorem execCpu_timedStep (hst : s.execCpu c = some t) : TimedStep s (.cpu c) t := by
  unfold execCpu sheduleFallback at hst
  split at hst
  case h_8 =>
    dsimp only at hst
    split_ifs at hst
    · cases hst
      refine ⟨fun _ h => h, ?_, ?_⟩ <;> simp only [goto, unlock, Function.update_apply] <;> grind
    · obtain ⟨-, rfl⟩ := map_lock_eq_some hst
      refine ⟨fun _ h => h, ?_, ?_⟩ <;> simp only [goto, Function.update_apply] <;> grind
  all_goals first | cases hst | obtain ⟨-, rfl⟩ := map_lock_eq_some hst
  all_goals
    simp only [sheduleBegin, sheduleTimed, sheduleWaits, endTaskSwitchOld, endTaskSwitchNew]
    try split_ifs
  all_goals
    refine ⟨fun hfit h => ?_, ?_, ?_⟩
    · first
      | exact h
      | exact timedOrdered_pushTimed h
      | exact timedOrdered_popTimed h (by assumption)
      | exact h.update (hfit _ _ (by simp [writes, *]))
    all_goals
      simp only [goto, unlock, pushWait, pushTimed, popWait, popTimed, setWait,
        Function.update_apply]
      grind

variable [DecidableEq ω] [DecidableEq ε]

/-- **The step lemma.** -/
theorem apply_timedStep {a : SchedAct κ ω τ ε} (hst : s.apply a = some t) : TimedStep s a t := by
  cases a with
  | tick d =>
    cases hst
    exact ⟨fun _ h => h, fun _ hT => .inr ⟨hT, rfl⟩, fun _ _ _ hp => .inl hp⟩
  | sleep c timeout => exact prepareToSleep_timedStep hst
  | insert | terminate | create | set =>
    obtain ⟨-, ht⟩ := Option.ite_none_right_eq_some.mp hst
    cases ht
    refine ⟨fun hfit h => ?_, ?_, ?_⟩
    · first | exact h | exact h.update (hfit _ _ rfl)
    all_goals
      simp only [goto, setWait, gotoCall, Function.update_apply]
      grind
  | switch c =>
    obtain ⟨-, ht⟩ := Option.ite_none_right_eq_some.mp hst
    split_ifs at ht
    · cases ht
      refine ⟨fun _ h => h, ?_, ?_⟩ <;> simp only [goto, Function.update_apply] <;> grind
    · obtain ⟨-, rfl⟩ := map_lock_eq_some ht
      refine ⟨fun _ h => h, ?_, ?_⟩ <;> simp only [goto, Function.update_apply] <;> grind
  | cpu c => exact execCpu_timedStep hst
  | call w =>
    simp only [apply, execCall, wake] at hst
    split at hst
    all_goals first | cases hst | obtain ⟨-, rfl⟩ := map_lock_eq_some hst
    all_goals try split_ifs
    all_goals
      refine ⟨fun hfit h => ?_, ?_, ?_⟩
      · first | exact h | exact h.update (hfit _ _ (by simp only [writes, *]; grind))
      all_goals
        simp only [pushWait, setWait, unlock, gotoCall, Function.update_apply]
        grind

/-- In every run whose writes fit the queue is in order. -/
theorem timedOrdered_reachable (h : ((schedMachine κ ω τ ε).guard WriteFits).Reachable s) :
    s.TimedOrdered := by
  refine h.invariant (fun s hinit => ?_) fun s a t hord hst =>
    (apply_timedStep hst.2).ordered hst.1 hord
  intro i _ hi
  have := SchedState.Initial.timedSleepTaskQueue hinit
  omega

end SchedState

/-- **The top of the timed-sleep queue wakes first** in every run whose
writes of wake times fit the queue, so that when `shedule` stops at the top
no queued sleeper's time has come. -/
theorem timed_queue_top_least {κ ω τ ε : Type*} [DecidableEq κ] [DecidableEq ω] [DecidableEq τ]
    [DecidableEq ε] {s : SchedState κ ω τ ε}
    (h : ((schedMachine κ ω τ ε).guard SchedState.WriteFits).Reachable s) :
    (∀ T ∈ s.timedSleepTaskQueue.entries,
      s.wakeTime s.timedSleepTaskQueue.minWakeTimeTask ≤ s.wakeTime T) ∧
    ∀ timepoint, timepoint ≤ s.wakeTime s.timedSleepTaskQueue.minWakeTimeTask →
      ∀ T ∈ s.timedSleepTaskQueue.entries, s.state T = .timedSleep →
        ¬ s.wakeTime T < timepoint := by
  have hmin : ∀ T ∈ s.timedSleepTaskQueue.entries,
      s.wakeTime s.timedSleepTaskQueue.minWakeTimeTask ≤ s.wakeTime T :=
    fun T hT => (SchedState.timedOrdered_reachable h).min_le hT
  refine ⟨hmin, fun timepoint htop T hT _ => ?_⟩
  have := hmin T hT
  omega

/-- Three tasks sleep, for 50, 100 and 60. -/
def threeSleep : List (SchedAct (Fin 5) Unit ℕ ℕ) :=
  sleepOn 0 50 0 ++ sleepOn 1 100 1 ++ sleepOn 2 60 2

/-- Three sleeping tasks: the first to wake is at the top. -/
theorem timed_queue_top_least_threeSleep : ∃ s : SchedState (Fin 5) Unit ℕ ℕ,
    s.timedSleepTaskQueue.entries = [0, 1, 2] ∧
    (∀ T ∈ s.timedSleepTaskQueue.entries,
      s.wakeTime s.timedSleepTaskQueue.minWakeTimeTask ≤ s.wakeTime T) ∧
    ∀ timepoint, timepoint ≤ s.wakeTime s.timedSleepTaskQueue.minWakeTimeTask →
      ∀ T ∈ s.timedSleepTaskQueue.entries, s.state T = .timedSleep →
        ¬ s.wakeTime T < timepoint := by
  obtain ⟨s, hs, hP⟩ := Machine.Reachable.exists_of_foldlM
    (M := (schedMachine (Fin 5) Unit ℕ ℕ).guard SchedState.WriteFits)
    (f := fun s a =>
      if (s.writes a).all fun p => p.1 ∉ s.timedSleepTaskQueue.entries then s.apply a else none)
    (P := fun s => s.timedSleepTaskQueue.entries = [0, 1, 2])
    (fun s a t h => by
      split_ifs at h with hw
      exact ⟨SchedState.writeFits_of_notMem hw, h⟩)
    threeSleep (.init fiveTasks_initial) (by decide +kernel)
  exact ⟨s, of_decide_eq_true hP, timed_queue_top_least hs⟩

/-- **The queue can hide a sleeper whose time has come.** Task 1 is woken
before its time and its stale entry gets a wake time below the top's. Task
3 then goes to sleep until 20, stops below that entry, and is not seen at
30, when `shedule` stops at the top. -/
theorem timed_queue_hides_sleeper : ∃ s : SchedState (Fin 5) Unit ℕ ℕ,
    (schedMachine (Fin 5) Unit ℕ ℕ).Reachable s ∧ s.pc 4 = .timed 30 ∧
    30 ≤ s.wakeTime s.timedSleepTaskQueue.minWakeTimeTask ∧
    3 ∈ s.timedSleepTaskQueue.entries ∧ s.state 3 = .timedSleep ∧ s.wakeTime 3 < 30 := by
  obtain ⟨s, hs, hP⟩ := Machine.Reachable.exists_of_foldlM (M := schedMachine (Fin 5) Unit ℕ ℕ)
    (P := fun s => s.pc 4 = .timed 30 ∧
      30 ≤ s.wakeTime s.timedSleepTaskQueue.minWakeTimeTask ∧
      3 ∈ s.timedSleepTaskQueue.entries ∧ s.state 3 = .timedSleep ∧ s.wakeTime 3 < 30)
    (fun _ _ _ h => h)
    (threeSleep ++ [.set () 1 1, .call (), .call (), .call ()] ++ sleepOn 3 20 3 ++
      [.tick 30, .switch 4, .cpu 4])
    (.init fiveTasks_initial) (by decide +kernel)
  exact ⟨s, hs, of_decide_eq_true hP⟩

end ShmDos64
