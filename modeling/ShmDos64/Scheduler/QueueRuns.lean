import ShmDos64.Scheduler.TimedQueue
/-!
# Runs of the task priority queue

Tasks are pushed, popped and removed, and the wake time of a task changes
only while it is not queued. With pushes and pops alone the queue is a
priority queue.
-/

namespace ShmDos64

open Function (update update_of_ne update_self)
open TaskPriorityQueue

/-- A queue and the fields of the tasks; what was pushed and popped. -/
structure QueueState (τ : Type*) where
  queue : TaskPriorityQueue τ
  /-- `m_priorityQueueIndex`. -/
  index : τ → ℕ
  /-- `m_wakeTime`. -/
  wakeTime : τ → ℕ
  pushed : List τ
  popped : List τ
  /-- The wake times of the tasks popped since the last push, last first. -/
  streak : List ℕ

/-- The calls on a queue, and a write of a wake time. -/
inductive QueueAct (τ : Type*) where
  | push (task : τ)
  | pop
  | remove (task : τ)
  | setWakeTime (task : τ) (time : ℕ)

namespace QueueState

variable {τ : Type*} [DecidableEq τ]

/-- A step; `pop` is of a queue that is not empty, `remove` of a queued task, and
a wake time is written for a task that is not. -/
def apply (s : QueueState τ) : QueueAct τ → Option (QueueState τ)
  | .push task =>
    match s.queue.push s.wakeTime s.index task with
    | none => some s
    | some r => some { s with
        queue := r.1, index := r.2, pushed := task :: s.pushed, streak := [] }
  | .pop =>
    if s.queue.empty then none
    else
      let r := s.queue.pop s.wakeTime s.index
      let task := s.queue.minWakeTimeTask
      some { s with
        queue := r.1, index := r.2, popped := task :: s.popped
        streak := s.wakeTime task :: s.streak }
  | .remove task =>
    if task ∈ s.queue.entries then
      let r := s.queue.remove s.wakeTime s.index task
      some { s with queue := r.1, index := r.2 }
    else none
  | .setWakeTime task time =>
    if task ∈ s.queue.entries then none
    else some { s with wakeTime := update s.wakeTime task time }

/-- A push or a pop, or a write of a wake time. -/
def NoRemove (_ : QueueState τ) : QueueAct τ → Prop
  | .remove _ => False
  | _ => True

instance (s : QueueState τ) : (a : QueueAct τ) → Decidable (s.NoRemove a)
  | .remove _ => .isFalse id
  | .push _ | .pop | .setWakeTime _ _ => .isTrue trivial

end QueueState

/-- The runs of a queue that is empty at first. -/
def queueMachine (τ : Type*) [DecidableEq τ] : Machine (QueueState τ) (QueueAct τ) where
  init s := s.queue.curSize = 0 ∧ s.pushed = [] ∧ s.popped = [] ∧ s.streak = []
  step s a t := s.apply a = some t

namespace QueueState

variable {τ : Type*} [DecidableEq τ] {s t : QueueState τ} {task : τ} {time : ℕ}

/-! ## Pushes and pops -/

/-- **The invariant**: no queued task wakes before one that was popped since the
last push. -/
structure Inv (s : QueueState τ) : Prop where
  ordered : s.queue.Ordered s.wakeTime
  perm : (s.queue.entries ++ s.popped).Perm s.pushed
  streak : s.streak.Pairwise fun later earlier => earlier ≤ later
  after : ∀ time ∈ s.streak, ∀ T ∈ s.queue.entries, time ≤ s.wakeTime T

theorem ordered_setWakeTime (h : s.queue.Ordered s.wakeTime) (hT : task ∉ s.queue.entries) :
    s.queue.Ordered (update s.wakeTime task time) :=
  h.update (fits_of_notMem hT)

omit [DecidableEq τ] in
theorem min_mem (h : s.queue.empty ≠ true) : s.queue.minWakeTimeTask ∈ s.queue.entries := by
  have hpos : s.queue.curSize ≠ 0 := fun h0 => h (decide_eq_true h0)
  exact mem_entriesUpto.mpr ⟨0, by omega, rfl⟩

/-- **The step lemma.** -/
theorem Inv.step {a : QueueAct τ} (h : s.Inv) (ha : s.NoRemove a) (hst : s.apply a = some t) :
    t.Inv := by
  cases a with
  | push task =>
    simp only [apply] at hst
    split at hst
    · obtain ⟨⟩ := hst
      exact h
    · rename_i r hpush
      obtain ⟨⟩ := hst
      obtain ⟨hperm, hord⟩ := push_spec hpush
      refine ⟨hord h.ordered, ?_, List.Pairwise.nil, nofun⟩
      exact (hperm.append_right _).trans (h.perm.cons task)
  | pop =>
    simp only [apply] at hst
    split_ifs at hst with hempty
    obtain ⟨⟩ := hst
    have hmem := min_mem hempty
    obtain ⟨hperm, hord⟩ := @pop_spec _ _ s.wakeTime s.queue s.index
      fun h0 => hempty (decide_eq_true h0)
    have hsub : ∀ T ∈ (s.queue.pop s.wakeTime s.index).1.entries, T ∈ s.queue.entries :=
      fun T hT => hperm.subset (List.mem_cons_of_mem _ hT)
    refine ⟨hord h.ordered, ?_, ?_, ?_⟩
    · exact (List.perm_middle.trans (hperm.append_right _)).trans h.perm
    · exact List.pairwise_cons.mpr ⟨fun time htime => h.after time htime _ hmem, h.streak⟩
    · intro time htime T hT
      rcases List.mem_cons.mp htime with rfl | htime
      · exact h.ordered.min_le (hsub T hT)
      · exact h.after time htime T (hsub T hT)
  | remove task => exact ha.elim
  | setWakeTime task time =>
    simp only [apply] at hst
    split_ifs at hst with hT
    obtain ⟨⟩ := hst
    refine ⟨ordered_setWakeTime h.ordered hT, h.perm, h.streak, fun w hw T hmem => ?_⟩
    have hne : T ≠ task := fun heq => hT (heq ▸ hmem)
    exact (h.after w hw T hmem).trans_eq (update_of_ne hne ..).symm

/-- **`TaskPriorityQueue` is a priority queue.** In every run of pushes and pops
the queued tasks are those pushed and not popped, in heap order; the top wakes
first; tasks popped one after the other wake in that order; and a push on a full
queue returns false and changes nothing. -/
theorem task_queue_sorted (h : ((queueMachine τ).guard NoRemove).Reachable s) :
    s.queue.Ordered s.wakeTime ∧ (s.queue.entries ++ s.popped).Perm s.pushed ∧
    (s.queue.empty = false → s.queue.minWakeTimeTask ∈ s.queue.entries) ∧
    (∀ T ∈ s.queue.entries, s.wakeTime s.queue.minWakeTimeTask ≤ s.wakeTime T) ∧
    (s.streak.Pairwise fun later earlier => earlier ≤ later) ∧
    (s.queue.curSize = s.queue.maxSize → ∀ T,
      s.queue.push s.wakeTime s.index T = none ∧ s.apply (.push T) = some s) := by
  have hinv : s.Inv := by
    refine h.invariant (fun s hs => ?_) fun s a t hinv hst => hinv.step hst.1 hst.2
    obtain ⟨hsize, hpushed, hpopped, hstreak⟩ := hs
    have hnil : s.queue.entries = [] := by rw [TaskPriorityQueue.entries, hsize]; rfl
    refine ⟨fun i _ hi => by omega, ?_, ?_, ?_⟩
    · rw [hnil, hpushed, hpopped]
      exact .refl _
    · rw [hstreak]
      exact List.Pairwise.nil
    · rw [hstreak]
      simp
  refine ⟨hinv.ordered, hinv.perm, fun he => min_mem (by rw [he]; decide),
    fun T hT => hinv.ordered.min_le hT, hinv.streak, fun hfull T => ?_⟩
  have hpush : s.queue.push s.wakeTime s.index T = none := if_pos hfull
  exact ⟨hpush, by rw [apply, hpush]⟩

end QueueState

/-- An empty queue for three tasks that wake at 0, 1 and 2. -/
def threeTasks : QueueState ℕ where
  queue := ⟨fun _ => 0, 3, 0⟩
  index _ := 0
  wakeTime T := T
  pushed := []
  popped := []
  streak := []

namespace QueueState

/-- Two tasks of three are popped in order. -/
theorem task_queue_sorted_threeTasks : ∃ s : QueueState ℕ, s.streak = [1, 0] ∧
    s.queue.Ordered s.wakeTime ∧ s.queue.entries = [2] := by
  obtain ⟨s, hs, hP⟩ := Machine.Reachable.exists_of_guard (M := queueMachine ℕ) NoRemove
    (P := fun s => s.streak = [1, 0] ∧ s.queue.entries = [2]) (fun _ _ _ h => h)
    [.push 2, .push 0, .push 1, .push 7, .pop, .pop]
    (.init (s := threeTasks) ⟨rfl, rfl, rfl, rfl⟩) (by decide +kernel)
  obtain ⟨hstreak, hentries⟩ := of_decide_eq_true hP
  exact ⟨s, hstreak, (task_queue_sorted hs).1, hentries⟩

end QueueState

end ShmDos64
