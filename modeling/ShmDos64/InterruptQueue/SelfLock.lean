import ShmDos64.InterruptQueue.Switch
/-!
# No processor waits for its own lock

A task is executed by one processor, or waits in `m_waitTaskQueue`, or was
popped from there, or is in none of these places, asleep or about to be woken.
If a task comes into the realtime list only when no processor executes it,
what `shedule` finds there is never the current task. `push` does not wait for
that: a task that has just gone to sleep may come into the list before its own
processor has looked there.
-/

namespace ShmDos64

open Function (update update_of_ne update_self)
open SwitchPc ConsumerState

namespace SwitchState

variable {κ ω τ ε ι : Type*} {s s' : SwitchState κ ω τ ε ι}

/-! ## Places -/

/-- Where a task that may run can be. -/
inductive TaskPlace (κ : Type*) where
  | executes (cpu : κ)
  /-- In `m_waitTaskQueue`. -/
  | queued
  /-- Popped from there. -/
  | taken (cpu : κ)
  | off

/-- The processor has popped the task from `m_waitTaskQueue`. -/
def WaitTaken (s : SwitchState κ ω τ ε ι) (c : κ) (task : τ) : Prop :=
  s.pc c = .waitPopped task ∨
    (s.pc c).next = some task ∧ s.base.cpu c = none ∧ s.idle task = false

/-- A processor has found a task only in the realtime branch, or when it has
chosen it; it has chosen no idle task but its own. -/
structure Choice (s : SwitchState κ ω τ ε ι) (c : κ) : Prop where
  next : ∀ task, (s.pc c).next = some task → s.base.cpu c = some (.chosen, task) ∨
    s.base.cpu c = none ∧ (s.idle task = true → task = s.idleTask c)
  found : ∀ stage task, s.base.cpu c = some (stage, task) →
    s.pc c = .realtime ∧ stage = .popped ∨ (s.pc c).next = some task ∧ stage = .chosen

/-- Each task is in its place; a task that `push` has put into the realtime
list is in none. -/
structure Located (s : SwitchState κ ω τ ε ι) (place : τ → TaskPlace κ) : Prop where
  executes : ∀ c task, s.Executes c task ↔ place task = .executes c
  queued : ∀ task, task ∈ s.waitTaskQueue ↔ place task = .queued
  nodup : s.waitTaskQueue.Nodup
  taken : ∀ c task, s.WaitTaken c task ↔ place task = .taken c
  ready : ∀ task, (place task = .queued ∨ ∃ c, place task = .taken c) →
    s.base.state task = .wait ∧ s.idle task = false
  woken : ∀ task, s.base.state task = .priorityWait →
    (∀ w, s.base.call w ≠ some (.insert, task)) → place task = .off
  idle : ∀ task, s.idle task = true → s.base.state task = .active ∧
    ∀ c, place task = .executes c → task = s.idleTask c
  idleTask : ∀ c, s.idle (s.idleTask c) = true
  idleTask_inj : Function.Injective s.idleTask
  choice : ∀ c, s.Choice c

variable {place : τ → TaskPlace κ} {lists : ε → List τ} {realtime : List τ}
variable {consumer : τ → ConsumerPlace κ ω ε} {c : κ} {task : τ}

theorem Choice.congr (h : s.Choice c) (hpc : s'.pc c = s.pc c)
    (hcpu : s'.base.cpu c = s.base.cpu c) (hidle : s'.idle = s.idle)
    (hidleTask : s'.idleTask = s.idleTask) : s'.Choice c := by
  constructor <;> rw [hpc, hcpu]
  · rw [hidle, hidleTask]
    exact h.next
  · exact h.found

theorem Choice.of_none (hpc : (s.pc c).next = none) (hcpu : s.base.cpu c = none) : s.Choice c := by
  constructor
  · simp [hpc]
  · simp [hcpu]

/-- A task in the realtime list, or found there, is not executed. -/
theorem Located.off_of_found (h : s.Located place) (hp : s.base.Placed lists realtime consumer)
    {stage : SheduleStage} (hcpu : s.base.cpu c = some (stage, task)) : place task = .off := by
  have hfound := (hp.found c stage task).mp hcpu
  refine h.woken task (hp.ok_at hfound).2.1 fun w hw => ?_
  have htaken := (hp.taken w .insert task).mp hw
  rw [hfound] at htaken
  cases htaken

/-- **No processor takes the lock of its own task.** -/
theorem Located.not_selfLocks (h : s.Located place) (hp : s.base.Placed lists realtime consumer)
    (c : κ) : ¬ s.SelfLocks c := by
  rintro ⟨hin, -, hacq⟩
  have hexec : place (s.current c) = .executes c := by
    rw [← h.executes]
    refine ⟨rfl, ?_⟩
    cases hpc : s.pc c with
    | activate => rw [hpc] at hin; cases hin
    | _ => rfl
  unfold acquires at hacq
  split at hacq
  · obtain ⟨⟨stage, task⟩, hcpu, htask⟩ := Option.map_eq_some_iff.mp hacq
    have hoff := h.off_of_found hp hcpu
    rw [show task = s.current c from htask, hexec] at hoff
    cases hoff
  · rename_i task hpc
    obtain ⟨⟩ := hacq
    have htaken := (h.taken c (s.current c)).mp (.inl hpc)
    rw [hexec] at htaken
    cases htaken
  · rename_i hpc
    split at hacq
    · cases hacq
    · rename_i hactive
      have hidle := h.idle _ (Option.some.inj hacq ▸ h.idleTask c)
      exact hactive hidle.1
  all_goals cases hacq

/-- The places stay. -/
theorem Located.stays (h : s.Located place)
    (hexec : ∀ c t, s'.Executes c t ↔ s.Executes c t)
    (htaken : ∀ c t, s'.WaitTaken c t ↔ s.WaitTaken c t)
    (hqueue : s'.waitTaskQueue = s.waitTaskQueue) (hidle : s'.idle = s.idle)
    (hidleTask : s'.idleTask = s.idleTask)
    (hstate : ∀ t, s'.base.state t = s.base.state t ∨ s.base.state t ≠ .wait ∧ s.idle t = false)
    (hwoken : ∀ t, s'.base.state t = .priorityWait →
      (∀ w, s'.base.call w ≠ some (.insert, t)) → place t = .off ∨
        s.base.state t = .priorityWait ∧ ∀ w, s.base.call w ≠ some (.insert, t))
    (hchoice : ∀ c, s'.Choice c) : s'.Located place := by
  refine ⟨fun c t => (hexec c t).trans (h.executes c t), ?_, ?_, fun c t =>
    (htaken c t).trans (h.taken c t), fun t ht => ?_, fun t ht hw => ?_, fun t ht => ?_, ?_, ?_,
    hchoice⟩
  · rw [hqueue]
    exact h.queued
  · rw [hqueue]
    exact h.nodup
  · obtain ⟨hwait, hidle'⟩ := h.ready t ht
    rcases hstate t with heq | ⟨hne, -⟩
    · exact ⟨heq.trans hwait, hidle ▸ hidle'⟩
    · exact absurd hwait hne
  · rcases hwoken t ht hw with hoff | ⟨hprio, hcall⟩
    · exact hoff
    · exact h.woken t hprio hcall
  · rw [hidle] at ht
    rw [hidleTask]
    obtain ⟨hactive, hexec⟩ := h.idle t ht
    rcases hstate t with heq | ⟨-, hne⟩
    · exact ⟨heq.trans hactive, hexec⟩
    · rw [ht] at hne
      cases hne
  · rw [hidle, hidleTask]
    exact h.idleTask
  · rw [hidleTask]
    exact h.idleTask_inj

theorem WaitTaken.pc_task (h : s.WaitTaken c task) : (s.pc c).task = some task := by
  rcases h with hpc | ⟨hnext, -⟩
  · rw [hpc]
    rfl
  · exact task_of_next hnext

/-- Only the processor goes on, with the same task, and the places stay. -/
theorem Located.atCpu (h : s.Located place) (hstate : s'.base.state = s.base.state)
    (hcall : s'.base.call = s.base.call) (hcurrent : s'.current = s.current)
    (hqueue : s'.waitTaskQueue = s.waitTaskQueue) (hidle : s'.idle = s.idle)
    (hidleTask : s'.idleTask = s.idleTask) (hpc : ∀ b, b ≠ c → s'.pc b = s.pc b)
    (hcpu : ∀ b, b ≠ c → s'.base.cpu b = s.base.cpu b)
    (hexec : (s'.pc c).executing = (s.pc c).executing)
    (htaken : ∀ t, s'.WaitTaken c t ↔ s.WaitTaken c t)
    (hchoice : s'.Choice c) : s'.Located place := by
  refine h.stays (fun b t => ?_) (fun b t => ?_) hqueue hidle hidleTask (fun t => .inl ?_)
    (fun t ht hw => .inr ⟨?_, ?_⟩) fun b => ?_
  · unfold Executes
    by_cases hbc : b = c
    · rw [hbc, hcurrent, hexec]
    · rw [hcurrent, hpc b hbc]
  · by_cases hbc : b = c
    · rw [hbc]
      exact htaken t
    · unfold WaitTaken
      rw [hpc b hbc, hcpu b hbc, hidle]
  · rw [hstate]
  · rw [← hstate]
    exact ht
  · rw [← hcall]
    exact hw
  · by_cases hbc : b = c
    · exact hbc ▸ hchoice
    · exact (h.choice b).congr (hpc b hbc) (hcpu b hbc) hidle hidleTask

variable [DecidableEq κ]

section

variable (h : s.Located place)

include h

/-- The processor goes on without another task. -/
theorem Located.goto {pc : SwitchPc τ} (hold : (s.pc c).task = none)
    (hnew : pc.task = none) (hcpu : s.base.cpu c = none) (spin : τ → Option κ) (ready : τ → Bool) :
    Located { s with pc := update s.pc c pc, spin := spin, readyForSleep := ready } place := by
  refine h.atCpu (c := c) rfl rfl rfl rfl rfl rfl (fun b hb => update_of_ne hb ..)
    (fun _ _ => rfl) ?_ (fun t => iff_of_false (fun ht => ?_) fun ht => ?_) (.of_none ?_ hcpu)
  · simp only [update_self, executing_of_task hold,
      executing_of_task hnew]
  · have htask := ht.pc_task
    simp only [update_self, hnew, reduceCtorEq] at htask
  · rw [ht.pc_task] at hold
    cases hold
  · refine Option.eq_none_iff_forall_ne_some.mpr fun t ht => ?_
    simp only [update_self] at ht
    rw [task_of_next ht] at hnew
    cases hnew

omit [DecidableEq κ] in
theorem Located.cpu_none (hpc : s.pc c ≠ .realtime)
    (hnext : (s.pc c).next = none) : s.base.cpu c = none := by
  cases hcpu : s.base.cpu c with
  | none => rfl
  | some r =>
    rcases (h.choice c).found r.1 r.2 hcpu with ⟨hreal, -⟩ | ⟨hchosen, -⟩
    · exact absurd hreal hpc
    · rw [hnext] at hchosen
      cases hchosen

/-- It pops the head of the realtime list. -/
theorem Located.finds (hpc : s.pc c = .realtime) (head : Option τ) :
    Located { s with base := { s.base with
      realtimeListHead := head, cpu := update s.base.cpu c (some (.popped, task)) } } place := by
  refine h.atCpu (c := c) rfl rfl rfl rfl rfl rfl (fun _ _ => rfl)
    (fun b hb => update_of_ne hb ..) rfl (fun t => iff_of_false (fun ht => ?_) fun ht => ?_)
    ⟨fun t ht => ?_, fun stage t ht => .inl ⟨hpc, ?_⟩⟩
  · have htask := ht.pc_task
    rw [show s.pc c = _ from hpc] at htask
    cases htask
  · have htask := ht.pc_task
    rw [hpc] at htask
    cases htask
  · rw [show s.pc c = _ from hpc] at ht
    cases ht
  · simp only [update_self, Option.some.injEq, Prod.mk.injEq] at ht
    exact ht.1.symm

/-- It chooses the task it has popped there. -/
theorem Located.chooses (hpc : s.pc c = .realtime) (spin : τ → Option κ) :
    Located { s with
      base := { s.base with cpu := update s.base.cpu c (some (.chosen, task)) }
      pc := update s.pc c (.chosen task), spin := spin } place := by
  refine h.atCpu (c := c) rfl rfl rfl rfl rfl rfl (fun b hb => update_of_ne hb ..)
    (fun b hb => update_of_ne hb ..) ?_ (fun t => iff_of_false (fun ht => ?_) fun ht => ?_)
    ⟨fun t ht => .inl ?_, fun stage t ht => .inr ?_⟩
  · simp only [update_self, hpc, executing]
  · rcases ht with hw | ⟨-, hnone, -⟩
    · simp at hw
    · simp at hnone
  · have htask := ht.pc_task
    rw [hpc] at htask
    cases htask
  · simp only [update_self, SwitchPc.next, Option.some.injEq] at ht ⊢
    rw [ht]
  · simp only [update_self, SwitchPc.next, Option.some.injEq, Prod.mk.injEq] at ht ⊢
    exact ⟨ht.2, ht.1.symm⟩

/-- It chooses the task popped from `m_waitTaskQueue`. -/
theorem Located.choosesWait (hpc : s.pc c = .waitPopped task)
    (spin : τ → Option κ) :
    Located { s with pc := update s.pc c (.chosen task), spin := spin } place := by
  have hcpu := h.cpu_none (c := c) (by rw [hpc]; exact nofun) (by rw [hpc]; rfl)
  have htaken : place task = .taken c := (h.taken c task).mp (.inl hpc)
  obtain ⟨-, hidle⟩ := h.ready task (.inr ⟨c, htaken⟩)
  refine h.atCpu (c := c) rfl rfl rfl rfl rfl rfl (fun b hb => update_of_ne hb ..)
    (fun _ _ => rfl) ?_ (fun t => ?_)
    ⟨fun t ht => .inr ⟨hcpu, fun hi => ?_⟩, fun stage t ht => ?_⟩
  · simp only [update_self, hpc, executing]
  · simp only [WaitTaken, update_self, hpc, SwitchPc.next, hcpu, reduceCtorEq, false_or,
      Option.some.injEq, waitPopped.injEq, true_and, false_and, or_false]
    exact ⟨fun ht => ht.1, fun ht => ⟨ht, ht ▸ hidle⟩⟩
  · simp only [update_self, SwitchPc.next, Option.some.injEq] at ht
    rw [← ht, hidle] at hi
    cases hi
  · rw [show s.base.cpu c = some (stage, t) from ht] at hcpu
    cases hcpu

/-- It chooses its idle task. -/
theorem Located.choosesIdle (hpc : s.pc c = .fallback) (spin : τ → Option κ) :
    Located { s with pc := update s.pc c (.chosen (s.idleTask c)), spin := spin } place := by
  have hcpu := h.cpu_none (c := c) (by rw [hpc]; exact nofun) (by rw [hpc]; rfl)
  refine h.atCpu (c := c) rfl rfl rfl rfl rfl rfl (fun b hb => update_of_ne hb ..)
    (fun _ _ => rfl) ?_ (fun t => iff_of_false (fun ht => ?_) fun ht => ?_)
    ⟨fun t ht => .inr ⟨hcpu, fun _ => ?_⟩, fun stage t ht => ?_⟩
  · simp only [update_self, hpc, executing]
  · rcases ht with hw | ⟨hnext, -, hidle⟩
    · simp at hw
    · simp only [update_self, SwitchPc.next, Option.some.injEq] at hnext
      rw [← hnext, h.idleTask c] at hidle
      cases hidle
  · have htask := ht.pc_task
    rw [hpc] at htask
    cases htask
  · simp only [update_self, SwitchPc.next, Option.some.injEq] at ht
    exact ht.symm
  · rw [show s.base.cpu c = some (stage, t) from ht] at hcpu
    cases hcpu

end

variable [DecidableEq τ]

section

variable (h : s.Located place)

include h

/-- The processor goes on, and one task moves to or from it: the other
processors, and the other tasks, are where they were. -/
theorem Located.move {p : TaskPlace κ}
    (hstate : ∀ t, t ≠ task → s'.base.state t = s.base.state t)
    (hcall : s'.base.call = s.base.call) (hidle : s'.idle = s.idle)
    (hidleTask : s'.idleTask = s.idleTask) (hpc : ∀ b, b ≠ c → s'.pc b = s.pc b)
    (hcpu : ∀ b, b ≠ c → s'.base.cpu b = s.base.cpu b)
    (hcurrent : ∀ b, b ≠ c → s'.current b = s.current b)
    (hold : ∀ b, b ≠ c → place task ≠ .executes b ∧ place task ≠ .taken b)
    (hnew : ∀ b, b ≠ c → p ≠ .executes b ∧ p ≠ .taken b)
    (hexec : ∀ t, t ≠ task → (s'.Executes c t ↔ s.Executes c t))
    (hexecTask : s'.Executes c task ↔ p = .executes c)
    (htaken : ∀ t, t ≠ task → (s'.WaitTaken c t ↔ s.WaitTaken c t))
    (htakenTask : s'.WaitTaken c task ↔ p = .taken c)
    (hqueue : ∀ t, t ≠ task → (t ∈ s'.waitTaskQueue ↔ t ∈ s.waitTaskQueue))
    (hqueueTask : task ∈ s'.waitTaskQueue ↔ p = .queued) (hnodup : s'.waitTaskQueue.Nodup)
    (hready : (p = .queued ∨ ∃ b, p = .taken b) →
      s'.base.state task = .wait ∧ s.idle task = false)
    (hwoken : s'.base.state task = .priorityWait →
      (∀ w, s.base.call w ≠ some (.insert, task)) → p = .off)
    (hidleTask' : s.idle task = true → s'.base.state task = .active ∧
      ∀ b, p = .executes b → task = s.idleTask b)
    (hchoice : s'.Choice c) : s'.Located (update place task p) := by
  refine ⟨fun b => ?_, moved h.queued hqueue hqueueTask, hnodup, fun b => ?_, fun t ht => ?_,
    fun t ht hw => ?_, fun t ht => ?_, fun b => ?_, ?_, fun b => ?_⟩
  · by_cases hb : b = c
    · subst hb
      exact moved (h.executes b) hexec hexecTask
    · unfold Executes
      rw [hpc b hb, hcurrent b hb]
      exact unmoved (h.executes b) (hold b hb).1 (hnew b hb).1
  · by_cases hb : b = c
    · subst hb
      exact moved (h.taken b) htaken htakenTask
    · unfold WaitTaken
      rw [hpc b hb, hcpu b hb, hidle]
      exact unmoved (h.taken b) (hold b hb).2 (hnew b hb).2
  · rw [hidle]
    by_cases heq : t = task
    · simp only [heq, update_self] at ht ⊢
      exact hready ht
    · simp only [update_of_ne heq] at ht
      rw [hstate t heq]
      exact h.ready t ht
  · rw [hcall] at hw
    by_cases heq : t = task
    · subst heq
      rw [update_self]
      exact hwoken ht hw
    · rw [update_of_ne heq]
      exact h.woken t (hstate t heq ▸ ht) hw
  · rw [hidle] at ht
    rw [hidleTask]
    by_cases heq : t = task
    · subst heq
      rw [update_self]
      exact hidleTask' ht
    · rw [update_of_ne heq, hstate t heq]
      exact h.idle t ht
  · rw [hidle, hidleTask]
    exact h.idleTask b
  · rw [hidleTask]
    exact h.idleTask_inj
  · by_cases hb : b = c
    · exact hb ▸ hchoice
    · exact (h.choice b).congr (hpc b hb) (hcpu b hb) hidle hidleTask

/-- It pops a task from `m_waitTaskQueue`. -/
theorem Located.takes (hpc : s.pc c = .waits)
    (htask : task ∈ s.waitTaskQueue) : Located { s with
      pc := update s.pc c (.waitPopped task), waitTaskQueue := s.waitTaskQueue.erase task }
      (update place task (.taken c)) := by
  have hqueued := (h.queued task).mp htask
  have hcpu := h.cpu_none (c := c) (by rw [hpc]; exact nofun) (by rw [hpc]; rfl)
  obtain ⟨hwait, hidle⟩ := h.ready task (.inl hqueued)
  refine h.move (c := c) (fun _ _ => rfl) rfl rfl rfl (fun b hb => update_of_ne hb ..)
    (fun _ _ => rfl) (fun _ _ => rfl) (fun b _ => ?_) (fun b hb => ⟨nofun, ?_⟩) (fun t _ => ?_)
    (iff_of_false (fun hx => ?_) nofun) (fun t ht => iff_of_false (fun hw => ?_) fun hw => ?_)
    (iff_of_true (.inl (update_self ..)) rfl) (fun t ht => List.mem_erase_of_ne ht)
    (iff_of_false h.nodup.not_mem_erase nofun) (h.nodup.erase task) (fun _ => ⟨hwait, hidle⟩)
    (fun hprio => ?_) (fun hi => ?_) (.of_none (by simp [SwitchPc.next]) hcpu)
  · rw [hqueued]
    exact ⟨nofun, nofun⟩
  · exact fun heq => hb (TaskPlace.taken.inj heq).symm
  · simp only [Executes, update_self, hpc, executing]
  · have hx' : s.Executes c task := ⟨hx.1, by rw [hpc]; rfl⟩
    rw [h.executes, hqueued] at hx'
    cases hx'
  · have := hw.pc_task
    simp only [update_self, SwitchPc.task, Option.some.injEq] at this
    exact ht this.symm
  · have := hw.pc_task
    rw [hpc] at this
    cases this
  · rw [show s.base.state task = _ from hprio] at hwait
    cases hwait
  · rw [hidle] at hi
    cases hi

/-- It releases its current task, which waits for a processor if it is active
and not the idle task. -/
theorem Located.releases (hpc : s.pc c = .chosen task) {old : τ}
    (hcurrent : s.current c = old) {p : TaskPlace κ} {state : τ → TaskState} {queue : List τ}
    (hp : p = .queued ∧ s.idle old = false ∧ state = update s.base.state old .wait ∧
        queue = old :: s.waitTaskQueue ∨
      p = .off ∧ state = s.base.state ∧ queue = s.waitTaskQueue) (spin : τ → Option κ) :
    Located { s with
      base := { s.base with state := state }
      pc := update s.pc c (.activate task), waitTaskQueue := queue, spin := spin }
      (update place old p) := by
  have hexec : place old = .executes c := by
    rw [← h.executes]
    exact ⟨hcurrent, by rw [hpc]; rfl⟩
  have hnotin : old ∉ s.waitTaskQueue := fun hm => by
    rw [h.queued, hexec] at hm
    cases hm
  refine h.move (c := c) (fun t ht => ?_) rfl rfl rfl (fun b hb => update_of_ne hb ..)
    (fun _ _ => rfl) (fun _ _ => rfl) (fun b hb => ?_) (fun b hb => ?_)
    (fun t ht => iff_of_false (fun hx => ?_) fun hx => ht (hx.1.symm.trans hcurrent))
    (iff_of_false (fun hx => ?_) ?_) (fun t ht => ?_) (iff_of_false (fun hw => ?_) ?_)
    (fun t ht => ?_) ?_ ?_ (fun hr => ?_) (fun hprio hcall => ?_) (fun hi => ?_)
    ⟨fun t ht => ?_, fun stage t ht => ?_⟩
  · rcases hp with ⟨-, -, rfl, -⟩ | ⟨-, rfl, -⟩
    · exact update_of_ne ht ..
    · rfl
  · rw [hexec]
    exact ⟨fun heq => hb (TaskPlace.executes.inj heq).symm, nofun⟩
  · rcases hp with ⟨rfl, -⟩ | ⟨rfl, -⟩ <;> exact ⟨nofun, nofun⟩
  · simp [Executes, executing] at hx
  · simp [Executes, executing] at hx
  · rcases hp with ⟨rfl, -⟩ | ⟨rfl, -⟩ <;> exact nofun
  · simp only [WaitTaken, update_self, hpc, SwitchPc.next, reduceCtorEq]
  · have hw' : s.WaitTaken c old := by
      simp only [WaitTaken, update_self, hpc, SwitchPc.next, reduceCtorEq] at hw ⊢
      exact hw
    rw [h.taken, hexec] at hw'
    cases hw'
  · rcases hp with ⟨rfl, -⟩ | ⟨rfl, -⟩ <;> exact nofun
  · rcases hp with ⟨-, -, -, rfl⟩ | ⟨-, -, rfl⟩
    · simp [ht]
    · exact Iff.rfl
  · rcases hp with ⟨rfl, -, -, rfl⟩ | ⟨rfl, -, rfl⟩
    · exact iff_of_true List.mem_cons_self rfl
    · exact iff_of_false hnotin nofun
  · rcases hp with ⟨-, -, -, rfl⟩ | ⟨-, -, rfl⟩
    · exact List.nodup_cons.mpr ⟨hnotin, h.nodup⟩
    · exact h.nodup
  · rcases hp with ⟨-, hidle, rfl, -⟩ | ⟨rfl, -⟩
    · exact ⟨update_self .., hidle⟩
    · rcases hr with hr | ⟨_, hr⟩ <;> cases hr
  · rcases hp with ⟨-, -, rfl, -⟩ | ⟨rfl, -⟩
    · simp at hprio
    · rfl
  · rcases hp with ⟨-, hidle, -⟩ | ⟨rfl, rfl, -⟩
    · rw [hidle] at hi
      cases hi
    · exact ⟨(h.idle old hi).1, nofun⟩
  · simp only [update_self, SwitchPc.next, Option.some.injEq] at ht
    subst ht
    exact (h.choice c).next task (by rw [hpc]; rfl)
  · simp only [update_self]
    rcases (h.choice c).found stage t ht with ⟨hreal, -⟩ | ⟨hnext, hstage⟩
    · rw [hpc] at hreal
      cases hreal
    · rw [hpc] at hnext
      exact .inr ⟨hnext, hstage⟩

omit [DecidableEq κ] [DecidableEq τ] in
/-- The task a processor has chosen: popped from `m_waitTaskQueue`, found in the
realtime list, or the idle task. -/
theorem Located.chosen_cases (hp : s.base.Placed lists realtime consumer)
    (hnext : (s.pc c).next = some task) :
    s.base.cpu c = none ∧ s.idle task = false ∧ place task = .taken c ∨
    s.base.cpu c = some (.chosen, task) ∧ s.idle task = false ∧ place task = .off ∨
    s.base.cpu c = none ∧ s.idle task = true ∧ task = s.idleTask c := by
  rcases (h.choice c).next task hnext with hcpu | ⟨hcpu, hidle⟩
  · have hfound := hp.ok_at ((hp.found c _ task).mp hcpu)
    refine .inr (.inl ⟨hcpu, ?_, h.off_of_found hp hcpu⟩)
    by_contra hne
    have hactive := (h.idle task (Bool.eq_true_of_not_eq_false hne)).1
    rw [hfound.2.1] at hactive
    cases hactive
  · cases hi : s.idle task with
    | true => exact .inr (.inr ⟨hcpu, rfl, hidle hi⟩)
    | false => exact .inl ⟨hcpu, rfl, (h.taken c task).mp (.inr ⟨hnext, hcpu, hi⟩)⟩

/-- It executes the task it has chosen. -/
theorem Located.activates (hp : s.base.Placed lists realtime consumer)
    (hpc : s.pc c = .activate task) (spin : τ → Option κ) : Located { s with
      base := { s.base with
        state := update s.base.state task .active, cpu := update s.base.cpu c none }
      pc := update s.pc c .run, current := update s.current c task, spin := spin }
      (update place task (.executes c)) := by
  have hnext : (s.pc c).next = some task := by rw [hpc]; rfl
  have hnexec : ∀ t, ¬ s.Executes c t := fun t hx => by
    have := hx.2
    rw [hpc] at this
    cases this
  have hchosen := h.chosen_cases hp hnext
  have hplace : ∀ p, p ≠ .taken c → p ≠ .off → place task ≠ p := by
    rintro p htaken hoff rfl
    rcases hchosen with ⟨-, -, heq⟩ | ⟨-, -, heq⟩ | ⟨-, hi, heq⟩
    · exact htaken heq
    · exact hoff heq
    · -- the idle task is executed on no other processor, and waits in no queue
      cases hpl : place task with
      | executes b =>
        have hb := h.idleTask_inj (((h.idle task hi).2 b hpl).symm.trans heq)
        subst hb
        exact hnexec task ((h.executes b task).mpr hpl)
      | queued =>
        have := (h.ready task (.inl hpl)).2
        rw [hi] at this
        cases this
      | taken b =>
        have := (h.ready task (.inr ⟨b, hpl⟩)).2
        rw [hi] at this
        cases this
      | off => exact hoff hpl
  refine h.move (c := c) (fun t ht => update_of_ne ht ..) rfl rfl rfl
    (fun b hb => update_of_ne hb ..) (fun b hb => update_of_ne hb ..)
    (fun b hb => update_of_ne hb ..) (fun b hb => ⟨hplace _ nofun nofun, ?_⟩)
    (fun b hb => ⟨?_, nofun⟩) (fun t ht => iff_of_false (fun hx => ?_) (hnexec t))
    (iff_of_true ⟨update_self .., ?_⟩ rfl)
    (fun t ht => iff_of_false (fun hw => ?_) fun hw => ?_) (iff_of_false (fun hw => ?_) nofun)
    (fun _ _ => Iff.rfl) (iff_of_false (fun hm => ?_) nofun) h.nodup (fun hr => ?_)
    (fun hprio => ?_) (fun hi => ⟨update_self .., fun b hb => ?_⟩)
    (.of_none (by simp [SwitchPc.next]) (update_self ..))
  · exact hplace _ (fun heq => hb (TaskPlace.taken.inj heq)) nofun
  · exact fun heq => hb (TaskPlace.executes.inj heq).symm
  · have := hx.1
    simp only [update_self] at this
    exact ht this.symm
  · simp only [update_self, executing]
  · have := hw.pc_task
    simp only [update_self, SwitchPc.task, reduceCtorEq] at this
  · have := hw.pc_task
    rw [hpc] at this
    exact ht (Option.some.inj this).symm
  · have := hw.pc_task
    simp only [update_self, SwitchPc.task, reduceCtorEq] at this
  · exact hplace .queued nofun nofun ((h.queued task).mp hm)
  · rcases hr with hr | ⟨_, hr⟩ <;> cases hr
  · simp at hprio
  · obtain rfl := TaskPlace.executes.inj hb
    rcases hchosen with ⟨-, hni, -⟩ | ⟨-, hni, -⟩ | ⟨-, -, heq⟩
    · rw [hni] at hi
      cases hi
    · rw [hni] at hi
      cases hi
    · exact heq

end

/-! ## Runs -/

variable [DecidableEq ω] [DecidableEq ε]

/-- `addWaitTaskRealtime` puts a task into the realtime list only when no
processor executes it: its own has released it in `endTaskSwitch`. -/
def InsertsReleased (s : SwitchState κ ω τ ε ι) : SwitchAct κ ω τ ε ι → Prop
  | .call w => ∀ task, s.base.call w = some (.insert, task) → ∀ c, ¬ s.Executes c task
  | _ => True

omit [DecidableEq κ] [DecidableEq ω] [DecidableEq τ] [DecidableEq ε] in
/-- What a round of `pop` leaves. -/
theorem popRound_same [DecidableEq τ] [DecidableEq ε] (b : ConsumerState κ ω τ ε ι) (task : τ)
    (queue : ε) (timeout : ℕ) :
    (b.popRound task queue timeout).cpu = b.cpu ∧ (b.popRound task queue timeout).call = b.call ∧
    ∀ t, (b.popRound task queue timeout).state t = b.state t ∨
      t = task ∧ (b.popRound task queue timeout).state t ≠ .priorityWait := by
  unfold ConsumerState.popRound
  split
  · exact ⟨rfl, rfl, fun _ => .inl rfl⟩
  · have hs := sleepOn_sleeps b task queue timeout
    refine ⟨hs.cpu, hs.call, fun t => ?_⟩
    rw [hs.state]
    by_cases ht : t = task
    · refine .inr ⟨ht, ?_⟩
      rw [ht, update_self]
      split <;> exact nofun
    · exact .inl (update_of_ne ht ..)

omit [DecidableEq κ] [DecidableEq τ] [DecidableEq ε] in
/-- A call of `push` takes a step: a task that was to be put into the realtime
list still is, or the call has done so. -/
theorem call_insert {b b' : ConsumerState κ ω τ ε ι} {w : ω}
    (hcall : ∀ w', w' ≠ w → b'.call w' = b.call w') (hw : ∀ w, b'.call w ≠ some (.insert, task))
    (hne : b.call w ≠ some (.insert, task)) (w' : ω) : b.call w' ≠ some (.insert, task) := by
  by_cases hw' : w' = w
  · rw [hw']
    exact hne
  · rw [← hcall w' hw']
    exact hw w'

variable {b : ConsumerState κ ω τ ε ι}

omit [DecidableEq κ] [DecidableEq ω] [DecidableEq τ] [DecidableEq ε] in
/-- The consumers take a step that leaves the processors alone. -/
theorem Located.base {spin : τ → Option κ} {ready : τ → Bool}
    (h : s.Located place) (hcpu : b.cpu = s.base.cpu)
    (hstate : ∀ t, b.state t = s.base.state t ∨ s.base.state t ≠ .wait ∧ s.idle t = false)
    (hwoken : ∀ t, b.state t = .priorityWait → (∀ w, b.call w ≠ some (.insert, t)) →
      place t = .off ∨ s.base.state t = .priorityWait ∧ ∀ w, s.base.call w ≠ some (.insert, t)) :
    Located { s with base := b, spin := spin, readyForSleep := ready } place := by
  refine h.stays (fun _ _ => Iff.rfl) (fun c t => ?_) rfl rfl rfl hstate hwoken
    fun c => (h.choice c).congr rfl (congrFun hcpu c) rfl rfl
  simp only [WaitTaken, hcpu]

variable {a : ConsumerAct κ ω τ ε ι}

/-- A step of a task in `pop`. -/
theorem pop_same {b b' : ConsumerState κ ω τ ε ι}
    (ha : a = .resume task ∨ ∃ queue timeout, a = .pop task queue timeout)
    (hb : b.apply a = some b') : b.state task = .active ∧ b'.cpu = b.cpu ∧ b'.call = b.call ∧
      ∀ t, b'.state t = b.state t ∨ t = task ∧ b'.state t ≠ .priorityWait := by
  rcases ha with rfl | ⟨queue, timeout, rfl⟩
  · simp only [ConsumerState.apply] at hb
    split at hb
    · cases hb
    · rename_i queue timeout hpc
      simp only [Option.ite_none_right_eq_some] at hb
      obtain ⟨hactive, hb⟩ := hb
      refine ⟨hactive, ?_⟩
      split at hb <;> obtain ⟨⟩ := hb
      · exact ⟨rfl, rfl, fun _ => .inl rfl⟩
      · exact popRound_same b task queue timeout
  · simp only [ConsumerState.apply, Option.ite_some_none_eq_some] at hb
    obtain ⟨⟨-, hactive⟩, rfl⟩ := hb
    exact ⟨hactive, popRound_same b task queue timeout⟩

theorem Located.pops (h : s.Located place) (hidle : s.idle task = false)
    (ha : a = .resume task ∨ ∃ queue timeout, a = .pop task queue timeout)
    (hb : s.base.apply a = some b) (spin : τ → Option κ) (ready : τ → Bool) :
    Located { s with base := b, spin := spin, readyForSleep := ready } place := by
  obtain ⟨hactive, hcpu, hcall, hstate⟩ := pop_same ha hb
  refine h.base hcpu (fun t => ?_) fun t ht hw => .inr ⟨?_, hcall ▸ hw⟩
  · rcases hstate t with heq | ⟨rfl, -⟩
    · exact .inl heq
    · exact .inr ⟨by rw [hactive]; exact nofun, hidle⟩
  · rcases hstate t with heq | ⟨-, hne⟩
    · exact heq ▸ ht
    · exact absurd ht hne

omit [DecidableEq κ] [DecidableEq τ] in
/-- `push` takes a task off a wait list. -/
theorem Located.push (h : s.Located place) {w : ω} (hcall : s.base.call w = none) (queue : ε)
    (item : ι) : Located { s with base := s.base.pushItem w queue item } place := by
  unfold pushItem
  split
  · exact h
  · cases s.base.waitHead queue with
    | none =>
      exact h.base rfl (fun _ => .inl rfl) fun t ht hw => .inr ⟨ht, hw⟩
    | some task =>
      refine h.base rfl (fun _ => .inl rfl) fun t ht hw => .inr ⟨ht, ?_⟩
      exact call_insert (fun w' hw' => update_of_ne hw' ..) hw (by rw [hcall]; exact nofun)

omit [DecidableEq κ] [DecidableEq ε] in
/-- `push` goes on. -/
theorem Located.call (h : s.Located place) (hp : s.base.Placed lists realtime consumer) {w : ω}
    (hok : s.InsertsReleased (.call w))
    (hb : s.base.execCall w = some b) : Located { s with base := b } place := by
  unfold execCall at hb
  split at hb
  · cases hb
  · rename_i task hcall
    obtain ⟨⟩ := hb
    refine h.base rfl (fun _ => .inl rfl) fun t ht hw => .inr ⟨ht, ?_⟩
    exact call_insert (fun w' hw' => update_of_ne hw' ..) hw (by rw [hcall]; exact nofun)
  · rename_i task hcall
    obtain ⟨⟩ := hb
    have hasleep := (hp.ok_at ((hp.taken w _ task).mp hcall)).2.1
    refine h.base rfl (fun t => ?_) fun t ht hw => .inr ?_
    · by_cases heq : t = task
      · subst heq
        refine .inr ⟨fun hwait => ?_, Bool.eq_false_of_not_eq_true fun hi => ?_⟩
        · rw [hwait] at hasleep
          cases hasleep
        · rw [(h.idle t hi).1] at hasleep
          cases hasleep
      · exact .inl (update_of_ne heq ..)
    · have heq : t ≠ task := fun heq => hw w (by rw [heq]; exact update_self ..)
      refine ⟨?_, call_insert (fun w' hw' => update_of_ne hw' ..) hw
        (by rw [hcall]; exact nofun)⟩
      exact (update_of_ne heq ..).symm.trans ht
  · rename_i task hcall
    obtain ⟨⟩ := hb
    have hprio := (hp.ok_at ((hp.taken w _ task).mp hcall)).2.1
    refine h.base rfl (fun _ => .inl rfl) fun t ht hw => ?_
    by_cases heq : t = task
    · -- the task is executed nowhere, and is not ready
      subst heq
      left
      cases hpl : place t with
      | executes c => exact absurd ((h.executes c t).mpr hpl) (hok t hcall c)
      | queued =>
        have := (h.ready t (.inl hpl)).1
        rw [hprio] at this
        cases this
      | taken c =>
        have := (h.ready t (.inr ⟨c, hpl⟩)).1
        rw [hprio] at this
        cases this
      | off => rfl
    · refine .inr ⟨ht, call_insert (fun w' hw' => update_of_ne hw' ..) hw ?_⟩
      rw [hcall]
      simpa using Ne.symm heq

/-- What holds in every state. -/
def Ok (s : SwitchState κ ω τ ε ι) : Prop :=
  (∃ lists realtime consumer, s.base.Placed lists realtime consumer) ∧ ∃ place, s.Located place

omit [DecidableEq κ] [DecidableEq ω] [DecidableEq τ] [DecidableEq ε] in
/-- Only the processors and the locks change. -/
theorem Ok.of_located (hok : s.Ok) (hbase : s'.base = s.base)
    (hlocated : ∀ place, s.Located place → ∃ place', s'.Located place') : s'.Ok := by
  obtain ⟨hp, place, hl⟩ := hok
  exact ⟨hbase ▸ hp, hlocated place hl⟩

/-- The consumers take a step of their own machine. -/
theorem Ok.of_base (hok : s.Ok) (hno : s.base.NoTimeout a)
    (hs : s.base.apply a = some s'.base)
    (hlocated : ∀ lists realtime consumer place, s.base.Placed lists realtime consumer →
      s.Located place → ∃ place', s'.Located place') : s'.Ok := by
  obtain ⟨⟨lists, realtime, consumer, hp⟩, place, hl⟩ := hok
  obtain ⟨lists', realtime', consumer', hp', -⟩ := step_placed hp hno hs
  exact ⟨⟨lists', realtime', consumer', hp'⟩, hlocated lists realtime consumer place hp hl⟩

omit [DecidableEq κ] [DecidableEq ω] [DecidableEq ε] in
theorem lock_eq_some {t : SwitchState κ ω τ ε ι} (h : s.lock task c = some t) :
    s.spin task = none ∧ t = { s with spin := update s.spin task (some c) } := by
  unfold lock at h
  split_ifs at h with hfree
  exact ⟨hfree, (Option.some.inj h).symm⟩

section

variable (hok : s.Ok)

include hok

omit [DecidableEq ω] [DecidableEq τ] [DecidableEq ε] in
theorem Ok.goto {pc : SwitchPc τ} (hold : (s.pc c).task = none)
    (hne : s.pc c ≠ .realtime) (hnew : pc.task = none) (spin : τ → Option κ) :
    Ok { s with pc := update s.pc c pc, spin := spin } := by
  refine hok.of_located rfl fun place hl => ⟨place, hl.goto hold hnew (hl.cpu_none hne ?_) spin _⟩
  cases hpc : s.pc c with
  | chosen | activate => rw [hpc] at hold; cases hold
  | _ => rfl

theorem Ok.popRound {a : ConsumerAct κ ω τ ε ι}
    (ha : a = .resume (s.current c) ∨ ∃ queue timeout, a = .pop (s.current c) queue timeout)
    (hs : s.popRound c a = some s') : s'.Ok := by
  have hno : s.base.NoTimeout a := by
    rcases ha with rfl | ⟨_, _, rfl⟩ <;> exact trivial
  simp only [SwitchState.popRound, Option.ite_none_right_eq_some] at hs
  obtain ⟨⟨-, hidle, -⟩, hs⟩ := hs
  obtain ⟨b, hb, hs⟩ := Option.bind_eq_some_iff.mp hs
  split at hs
  · obtain ⟨⟩ := hs
    exact hok.of_base hno hb fun _ _ _ place _ hl => ⟨place, hl.pops hidle ha hb s.spin _⟩
  · obtain ⟨s₁, hlock, rfl⟩ := Option.map_eq_some_iff.mp hs
    obtain ⟨-, rfl⟩ := lock_eq_some hlock
    exact hok.of_base hno hb fun _ _ _ place _ hl => ⟨place, hl.pops hidle ha hb _ _⟩

omit [DecidableEq ω] [DecidableEq ε] in
theorem Ok.beginTaskSwitch (hs : s.beginTaskSwitch c = some s') : s'.Ok := by
  simp only [SwitchState.beginTaskSwitch, Option.ite_none_right_eq_some] at hs
  obtain ⟨hpc, hs⟩ := hs
  have hold : (s.pc c).task = none := by rw [hpc]; rfl
  have hcpu : ∀ place, s.Located place → s.base.cpu c = none := fun place hl =>
    hl.cpu_none (by rw [hpc]; exact nofun) (by rw [hpc]; rfl)
  split at hs
  · obtain ⟨⟩ := hs
    exact hok.of_located rfl fun place hl => ⟨place, hl.goto hold rfl (hcpu place hl) s.spin _⟩
  · obtain ⟨s₁, hlock, rfl⟩ := Option.map_eq_some_iff.mp hs
    obtain ⟨-, rfl⟩ := lock_eq_some hlock
    exact hok.of_located rfl fun place hl => ⟨place, hl.goto hold rfl (hcpu place hl) _ _⟩

theorem Ok.sheduleRealtime (hpc : s.pc c = .realtime)
    (hs : s.sheduleRealtime c = some s') : s'.Ok := by
  unfold SwitchState.sheduleRealtime at hs
  split at hs
  · rename_i task hcpu
    obtain ⟨s₁, hlock, hs⟩ := Option.bind_eq_some_iff.mp hs
    obtain ⟨-, rfl⟩ := lock_eq_some hlock
    obtain ⟨b, hb, rfl⟩ := Option.map_eq_some_iff.mp hs
    obtain ⟨lists, realtime, consumer, hp⟩ := hok.1
    have hprio := (hp.ok_at ((hp.found c _ task).mp hcpu)).2.1
    rw [if_pos hprio]
    refine hok.of_base (a := .cpu c) trivial hb fun _ _ _ place _ hl => ⟨place, ?_⟩
    simp only [ConsumerState.execCpu, hcpu, hprio, ↓reduceIte, Option.some.injEq] at hb
    subst hb
    exact hl.chooses hpc _
  · cases hs
  · rename_i hcpu
    split at hs
    · rename_i head hhead
      obtain ⟨b, hb, rfl⟩ := Option.map_eq_some_iff.mp hs
      refine hok.of_base (a := .cpu c) trivial hb fun _ _ _ place _ hl => ⟨place, ?_⟩
      simp only [ConsumerState.execCpu, hcpu, hhead, Option.map_some, Option.some.injEq] at hb
      subst hb
      exact hl.finds hpc _
    · obtain ⟨⟩ := hs
      refine hok.of_located rfl fun place hl => ⟨place, hl.goto ?_ rfl hcpu s.spin _⟩
      rw [hpc]
      rfl

omit [DecidableEq ω] [DecidableEq ε] in
theorem Ok.sheduleWaitPopped (hpc : s.pc c = .waitPopped task)
    (hs : s.sheduleWaitPopped c task = some s') : s'.Ok := by
  obtain ⟨s₁, hlock, rfl⟩ := Option.map_eq_some_iff.mp hs
  obtain ⟨-, rfl⟩ := lock_eq_some hlock
  obtain ⟨place, hl⟩ := hok.2
  have htaken : place task = .taken c := (hl.taken c task).mp (.inl hpc)
  rw [if_pos (hl.ready task (.inr ⟨c, htaken⟩)).1]
  exact hok.of_located rfl fun place hl => ⟨place, hl.choosesWait hpc _⟩

omit [DecidableEq ω] [DecidableEq ε] in
theorem Ok.sheduleFallback (hpc : s.pc c = .fallback)
    (hs : s.sheduleFallback c = some s') : s'.Ok := by
  simp only [SwitchState.sheduleFallback] at hs
  split at hs
  · obtain ⟨⟩ := hs
    refine hok.of_located rfl fun place hl => ⟨place, hl.goto ?_ rfl ?_ _ s.readyForSleep⟩
    · rw [hpc]
      rfl
    · exact hl.cpu_none (by rw [hpc]; exact nofun) (by rw [hpc]; rfl)
  · obtain ⟨s₁, hlock, rfl⟩ := Option.map_eq_some_iff.mp hs
    obtain ⟨-, rfl⟩ := lock_eq_some hlock
    exact hok.of_located rfl fun place hl => ⟨place, hl.choosesIdle hpc _⟩

theorem Ok.endTaskSwitchOld (hpc : s.pc c = .chosen task) :
    (s.endTaskSwitchOld c task).Ok := by
  simp only [SwitchState.endTaskSwitchOld]
  split
  · rename_i hactive
    refine hok.of_base (a := .preempt (s.current c)) trivial (if_pos hactive.2)
      fun _ _ _ place _ hl => ⟨_, hl.releases hpc rfl (.inl ⟨rfl, hactive.1, rfl, rfl⟩) _⟩
  · exact hok.of_located rfl fun place hl => ⟨_, hl.releases hpc rfl (.inr ⟨rfl, rfl, rfl⟩) _⟩

theorem Ok.endTaskSwitchNew (hpc : s.pc c = .activate task) :
    (s.endTaskSwitchNew c task).Ok := by
  obtain ⟨⟨lists, realtime, consumer, hp⟩, place, hl⟩ := id hok
  have hnext : (s.pc c).next = some task := by rw [hpc]; rfl
  have hlocated := hl.activates hp hpc
  -- where the task was not found in the realtime list, the processor has found none
  have hself : s.base.cpu c = none → update s.base.cpu c none = s.base.cpu := fun hcpu => by
    rw [← hcpu, Function.update_eq_self]
  rcases hl.chosen_cases hp hnext with ⟨hcpu, -, htaken⟩ | ⟨hcpu, -⟩ | ⟨hcpu, hidle, -⟩
  · have hwait := (hl.ready task (.inr ⟨c, htaken⟩)).1
    refine hok.of_base (a := .dispatch task) trivial ?_ fun _ _ _ _ _ _ => ⟨_, hlocated _⟩
    simp only [ConsumerState.apply, hwait, ↓reduceIte, SwitchState.endTaskSwitchNew, hself hcpu]
  · refine hok.of_base (a := .cpu c) trivial ?_ fun _ _ _ _ _ _ => ⟨_, hlocated _⟩
    simp only [ConsumerState.apply, ConsumerState.execCpu, hcpu]
    rfl
  · refine hok.of_located ?_ fun _ _ => ⟨_, hlocated _⟩
    have hactive : update s.base.state task .active = s.base.state := by
      rw [← (hl.idle task hidle).1, Function.update_eq_self]
    simp only [SwitchState.endTaskSwitchNew, hself hcpu, hactive]

theorem Ok.execCpu (hs : s.execCpu c = some s') : s'.Ok := by
  unfold SwitchState.execCpu at hs
  split at hs
  · cases hs
  · rename_i hpc
    exact hok.sheduleRealtime hpc hs
  · rename_i hpc
    obtain ⟨⟩ := hs
    exact hok.goto (by rw [hpc]; rfl) (by rw [hpc]; exact nofun) rfl _
  · rename_i hpc
    simp only [Option.ite_some_none_eq_some] at hs
    obtain ⟨-, rfl⟩ := hs
    exact hok.goto (by rw [hpc]; rfl) (by rw [hpc]; exact nofun) rfl _
  · rename_i newTask hpc
    exact hok.sheduleWaitPopped hpc hs
  · rename_i hpc
    exact hok.sheduleFallback hpc hs
  · rename_i newTask hpc
    obtain ⟨⟩ := hs
    exact hok.endTaskSwitchOld hpc
  · rename_i newTask hpc
    obtain ⟨⟩ := hs
    exact hok.endTaskSwitchNew hpc

/-- **Each step keeps the places**, if `push` waits for the processor. -/
theorem Ok.step {a : SwitchAct κ ω τ ε ι} (ha : s.InsertsReleased a)
    (hs : s.apply a = some s') : s'.Ok := by
  cases a with
  | pop c queue => exact hok.popRound (.inr ⟨queue, _, rfl⟩) hs
  | resume c => exact hok.popRound (.inl rfl) hs
  | push w queue item =>
    obtain ⟨b, hb, rfl⟩ := Option.map_eq_some_iff.mp hs
    refine hok.of_base (a := .push w queue item) trivial hb fun _ _ _ place _ hl => ⟨place, ?_⟩
    simp only [ConsumerState.apply, Option.ite_some_none_eq_some] at hb
    obtain ⟨hcall, rfl⟩ := hb
    exact hl.push hcall queue item
  | call w =>
    obtain ⟨b, hb, rfl⟩ := Option.map_eq_some_iff.mp hs
    exact hok.of_base (a := .call w) trivial hb fun _ _ _ place hp hl => ⟨place, hl.call hp ha hb⟩
  | switch c => exact hok.beginTaskSwitch hs
  | cpu c => exact hok.execCpu hs
  | keep c =>
    simp only [apply, Option.ite_some_none_eq_some] at hs
    obtain ⟨⟨hpc, -, -⟩, rfl⟩ := hs
    exact hok.goto (by rw [hpc]; rfl) (by simp [hpc]) rfl _
  | take c task =>
    simp only [apply, Option.ite_some_none_eq_some] at hs
    obtain ⟨⟨hpc, htask⟩, rfl⟩ := hs
    exact hok.of_located rfl fun place hl => ⟨_, hl.takes hpc htask⟩

end

/-- At first each processor executes its task, and the queue has its own. -/
theorem init_ok (h : (switchMachine κ ω τ ε ι).init s) : s.Ok := by
  obtain ⟨⟨hqueue, hrealtime, htask, hcall, hcpu⟩, hpc, -, hcurrent, hinj, hidleTask, hidle,
    hnodup, hready, -, -⟩ := h
  refine ⟨⟨_, _, _, init_placed (fun q => (hqueue q).2) hrealtime htask hcall hcpu⟩,
    ?_⟩
  classical
  let place : τ → TaskPlace κ := fun t =>
    if hc : ∃ c, s.current c = t then .executes hc.choose
    else if t ∈ s.waitTaskQueue then .queued else .off
  have hexec : ∀ c t, s.current c = t ↔ place t = .executes c := fun c t => by
    by_cases hc : ∃ c, s.current c = t
    · simp only [place, dif_pos hc, TaskPlace.executes.injEq]
      refine ⟨fun heq => hcurrent (hc.choose_spec.trans heq.symm), fun heq => ?_⟩
      rw [← heq]
      exact hc.choose_spec
    · simp only [place, dif_neg hc]
      refine iff_of_false (fun heq => hc ⟨c, heq⟩) ?_
      split <;> exact nofun
  have hqueued : ∀ t, t ∈ s.waitTaskQueue ↔ place t = .queued := fun t => by
    by_cases hc : ∃ c, s.current c = t
    · simp only [place, dif_pos hc, reduceCtorEq, iff_false]
      exact fun hm => (hready t hm).2.2 _ hc.choose_spec
    · simp only [place, dif_neg hc]
      split <;> simp_all
  have hntaken : ∀ t c, place t ≠ .taken c := fun t c => by
    simp only [place]
    split
    · exact nofun
    · split <;> exact nofun
  refine ⟨place, fun c t => ?_, hqueued, hnodup, fun c t => ?_, fun t ht => ?_, fun t ht => ?_,
    fun t ht => ⟨(hidle t ht).1, fun c hc => ?_⟩, hidleTask, hinj,
    fun c => .of_none (by rw [hpc]; rfl) (hcpu c)⟩
  · rw [← hexec, Executes, hpc]
    exact and_iff_left rfl
  · refine iff_of_false (fun hw => ?_) (hntaken t c)
    have := hw.pc_task
    rw [hpc] at this
    cases this
  · rcases ht with ht | ⟨c, ht⟩
    · obtain ⟨hwait, hni, -⟩ := hready t ((hqueued t).mpr ht)
      exact ⟨hwait, hni⟩
    · exact absurd ht (hntaken t c)
  · rcases (htask t).2 with hs | hs <;> rw [hs] at ht <;> cases ht
  · exact (hidle t ht).2 c ((hexec c t).mpr hc)

/-- **Unless `push` is too early, no processor waits for its own lock.** In
every run in which `addWaitTaskRealtime` puts a task into the realtime list only
when no processor executes it, no processor in `shedule(currentTask)` is about
to take the `m_spin` of the current task, which it holds. -/
theorem shedule_never_selfLocks (h : ((switchMachine κ ω τ ε ι).guard InsertsReleased).Reachable s)
    (c : κ) : ¬ s.SelfLocks c := by
  have hok : s.Ok := h.invariant (I := Ok) (fun _ => init_ok) fun _ _ _ hok hs =>
    hok.step hs.1 hs.2
  obtain ⟨⟨_, _, _, hp⟩, _, hl⟩ := hok
  exact hl.not_selfLocks hp c

instance (s : SwitchState κ ω τ ε ι) (c : κ) (task : τ) : Decidable (s.Executes c task) :=
  inferInstanceAs (Decidable (_ ∧ _))

/-- One processor with a consumer and its idle task, and a queue of two
nodes. -/
def oneConsumer : SwitchState Unit Unit Bool Unit ℕ where
  base := ConsumerState.twoConsumers
  pc _ := .run
  current _ := true
  idleTask _ := false
  idle task := !task
  spin _ := none
  readyForSleep _ := false
  waitTaskQueue := []

theorem oneConsumer_init : (switchMachine Unit Unit Bool Unit ℕ).init oneConsumer := by
  refine ⟨twoConsumers_init, fun _ => rfl, fun _ => rfl, fun _ _ _ => rfl,
    fun _ _ _ => rfl, fun _ => rfl, fun t ht => ⟨rfl, fun _ hc => ?_⟩, List.nodup_nil, nofun,
    fun _ => rfl, fun _ => rfl⟩
  cases t with
  | false => rfl
  | true => cases ht

/-- The consumer sleeps and the processor is idle when an item comes; then it
is about to lock the consumer that it has found. -/
theorem shedule_never_selfLocks_idle : ∃ s : SwitchState Unit Unit Bool Unit ℕ,
    (s.pc () = .realtime ∧ s.base.cpu () = some (.popped, true) ∧ s.current () = false) ∧
      ¬ s.SelfLocks () := by
  obtain ⟨s, hs, hend⟩ := Machine.Reachable.exists_of_foldlM
    (M := (switchMachine Unit Unit Bool Unit ℕ).guard InsertsReleased)
    (f := fun s a => if ∀ task, s.base.call () = some (.insert, task) → ¬ s.Executes () task then
      s.apply a else none)
    (P := fun s => decide (s.pc () = .realtime ∧ s.base.cpu () = some (.popped, true) ∧
      s.current () = false))
    (fun s a t h => by
      split_ifs at h with hok
      refine ⟨?_, h⟩
      cases a <;> first | exact fun task htask _ => hok task htask | trivial)
    [.pop () (), .switch (), .cpu (), .cpu (), .cpu (), .cpu (), .cpu (), .cpu (),
      .push () () 7, .call (), .call (), .call (), .switch (), .cpu ()]
    (.init oneConsumer_init) (by decide +kernel)
  exact ⟨s, of_decide_eq_true hend, shedule_never_selfLocks hs ()⟩

/-- **A processor waits for its own lock.** A consumer has gone to sleep in
`pop`, and holds its `m_spin` for the switch to come. An interrupt handler calls
`push`, which puts the consumer into the realtime list, and `shedule` finds it
there. -/
theorem shedule_selfLocks : ∃ s : SwitchState Unit Unit Bool Unit ℕ,
    (switchMachine Unit Unit Bool Unit ℕ).Reachable s ∧ s.SelfLocks () := by
  obtain ⟨s, hs, hend⟩ := Machine.Reachable.exists_of_foldlM
    (M := switchMachine Unit Unit Bool Unit ℕ)
    (P := fun s => decide (s.pc () = .realtime ∧ s.spin (s.current ()) = some () ∧
      s.base.cpu () = some (.popped, s.current ())))
    (fun _ _ _ hst => hst)
    [.pop () (), .push () () 7, .call (), .call (), .call (), .switch (), .cpu ()]
    (.init oneConsumer_init) (by decide +kernel)
  obtain ⟨hpc, hspin, hcpu⟩ := of_decide_eq_true hend
  refine ⟨s, hs, ?_, hspin, ?_⟩
  · rw [hpc]
    rfl
  · rw [acquires, hpc, hcpu]
    rfl

end SwitchState

end ShmDos64
