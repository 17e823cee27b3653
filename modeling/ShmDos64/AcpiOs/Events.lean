import ShmDos64.Common.Run
import ShmDos64.Common.Total
/-!
# `AcpiOsWaitEventsComplete`

`AcpiOsExecute` puts a callback into the queue of the thread pool and returns.
The worker that takes it counts it in `g_asyncCallCount`, runs it, takes it off
the count and notifies; `AcpiOsWaitEventsComplete` waits for the count to be 0.
A callback that no worker has counted yet is not waited for.

The pool, the mutex and the condition variable are taken to be right: the queue
is a queue, a block under `g_asyncCallMutex` is one step that is taken while the
waiting caller does not hold it, and a wait gives the mutex up as it falls asleep.
-/

namespace ShmDos64

open Function (update update_of_ne update_self)

/-- Where a call of `AcpiOsExecute` is. -/
inductive ExecuteStage where
  | none
  /-- The callback is in the hands of the pool. -/
  | pushed
  | returned
  deriving DecidableEq

/-- What a worker of the pool is about to do. -/
inductive WorkerPc (ι : Type*) where
  | idle
  /-- To count the callback it has taken from the queue. -/
  | taken (c : ι)
  /-- To run it. -/
  | running (c : ι)
  /-- To take it off the count. -/
  | ran
  | notify
  deriving DecidableEq

/-- The place of the caller of `AcpiOsWaitEventsComplete`. -/
inductive WaiterPc where
  | away
  /-- To take `g_asyncCallMutex`. -/
  | lock
  /-- To test the count, with the mutex. -/
  | test
  | asleep
  | returned
  deriving DecidableEq

/-- The pool, the count and the threads. A callback goes by the call it was passed to. -/
structure EventsState (ι ω : Type*) where
  queue : List ι
  worker : ω → WorkerPc ι
  /-- `g_asyncCallCount`. -/
  asyncCallCount : ℕ
  waiter : WaiterPc
  stage : ι → ExecuteStage
  /-- The callback has run. -/
  finished : ι → Bool
  /-- The call had returned when the wait began. -/
  before : ι → Bool

/-- The steps. -/
inductive EventsAct (ι ω : Type*) where
  /-- `AcpiOsExecute` pushes its callback. -/
  | push (c : ι)
  | executed (c : ι)
  /-- A worker takes the front of the queue. -/
  | take (w : ω)
  /-- The next step of a callback's wrapper. -/
  | work (w : ω)
  /-- `AcpiOsWaitEventsComplete` is called. -/
  | begin
  /-- Its next step. -/
  | wait

namespace EventsState

variable {ι ω : Type*} [DecidableEq ι] [DecidableEq ω]

section

variable (s : EventsState ι ω)

/-- A step of the function that `AcpiOsExecute` gives to the pool. -/
def work (w : ω) : Option (EventsState ι ω) :=
  match s.worker w with
  | .idle => none
  | .taken c =>
    if s.waiter = .test then none
    else some { s with
      asyncCallCount := s.asyncCallCount + 1, worker := update s.worker w (.running c) }
  | .running c => some { s with
      finished := update s.finished c true, worker := update s.worker w .ran }
  | .ran =>
    if s.waiter = .test then none
    else some { s with
      asyncCallCount := s.asyncCallCount - 1, worker := update s.worker w .notify }
  | .notify => some { s with
      waiter := if s.waiter = .asleep then .lock else s.waiter
      worker := update s.worker w .idle }

/-- A step of `AcpiOsWaitEventsComplete`. -/
def wait : Option (EventsState ι ω) :=
  match s.waiter with
  | .lock => some { s with waiter := .test }
  | .test => some { s with waiter := if 0 < s.asyncCallCount then .asleep else .returned }
  | .away | .asleep | .returned => none

/-- A step. -/
def apply : EventsAct ι ω → Option (EventsState ι ω)
  | .push c =>
    if s.stage c = .none then
      some { s with queue := s.queue ++ [c], stage := update s.stage c .pushed }
    else none
  | .executed c =>
    if s.stage c = .pushed then some { s with stage := update s.stage c .returned } else none
  | .take w =>
    match s.worker w, s.queue with
    | .idle, c :: rest => some { s with queue := rest, worker := update s.worker w (.taken c) }
    | _, _ => none
  | .work w => s.work w
  | .begin =>
    if s.waiter = .away ∨ s.waiter = .returned then
      some { s with waiter := .lock, before := fun c => s.stage c = .returned }
    else none
  | .wait => s.wait

/-- When the wait finds the count 0, no callback from before it is in the queue or
with a worker that has not counted it. -/
def Counted : EventsAct ι ω → Prop
  | .wait => s.waiter = .test → s.asyncCallCount = 0 → ∀ c, s.before c = true →
      c ∉ s.queue ∧ ∀ w, s.worker w ≠ .taken c
  | _ => True

end

instance [Fintype ι] [Fintype ω] (s : EventsState ι ω) (a : EventsAct ι ω) :
    Decidable (s.Counted a) :=
  match a with
  | .wait => inferInstanceAs (Decidable (s.waiter = .test → s.asyncCallCount = 0 → ∀ c,
      s.before c = true → c ∉ s.queue ∧ ∀ w, s.worker w ≠ .taken c))
  | .push _ | .executed _ | .take _ | .work _ | .begin => .isTrue trivial

/-- Nothing has been called. -/
def initial : EventsState ι ω where
  queue := []
  worker := fun _ => .idle
  asyncCallCount := 0
  waiter := .away
  stage := fun _ => .none
  finished := fun _ => false
  before := fun _ => false

end EventsState

/-- The runs of the calls and the workers. -/
def eventsMachine (ι ω : Type*) [DecidableEq ι] [DecidableEq ω] :
    Machine (EventsState ι ω) (EventsAct ι ω) where
  init s := s = .initial
  step s a t := s.apply a = some t

namespace EventsState

variable {ι ω : Type*} [DecidableEq ι] [DecidableEq ω] [Fintype ω]
  {s t : EventsState ι ω} {a : EventsAct ι ω}

/-- What a worker has of the count. -/
def counts : WorkerPc ι → ℕ
  | .running _ | .ran => 1
  | .idle | .taken _ | .notify => 0

/-- A callback the pool has got has run, or is somewhere in the pool. -/
def Placed (s : EventsState ι ω) (c : ι) : Prop :=
  c ∈ s.queue ∨ (∃ w, s.worker w = .taken c ∨ s.worker w = .running c) ∨ s.finished c = true

/-- The count is that of the workers, no callback is lost, and a wait that has
returned has seen the end of those from before. -/
structure Inv (s : EventsState ι ω) : Prop where
  count : s.asyncCallCount = total counts s.worker
  placed : ∀ c, s.stage c ≠ .none → s.Placed c
  before : ∀ c, s.before c = true → s.stage c ≠ .none
  ended : s.waiter = .returned → ∀ c, s.before c = true → s.finished c = true

omit [DecidableEq ι] [Fintype ω] in
/-- A worker moves to `p`; only the callback it had needs looking after. -/
theorem Placed.move {c : ι} {w : ω} {p : WorkerPc ι} (h : s.Placed c)
    (hqueue : c ∈ s.queue → t.Placed c) (hworker : t.worker = update s.worker w p)
    (hfinished : s.finished c = true → t.finished c = true)
    (hown : s.worker w = .taken c ∨ s.worker w = .running c → t.Placed c) : t.Placed c := by
  rcases h with h | ⟨w', h⟩ | h
  · exact hqueue h
  · by_cases hw : w' = w
    · subst hw
      exact hown h
    · refine .inr (.inl ⟨w', ?_⟩)
      rwa [hworker, update_of_ne hw]
  · exact .inr (.inr (hfinished h))

omit [DecidableEq ι] in
/-- The count follows a worker that moves to `p`. -/
theorem Inv.count_move (h : s.Inv) (w : ω) (p : WorkerPc ι) :
    total counts (update s.worker w p) + counts (s.worker w) = s.asyncCallCount + counts p := by
  rw [h.count]
  exact total_update counts s.worker w p

theorem Inv.work (h : s.Inv) {w : ω} (hst : s.work w = some t) : t.Inv := by
  have hmove := h.count_move w
  unfold EventsState.work at hst
  split at hst
  next => cases hst
  next c hpc =>
    split_ifs at hst
    obtain ⟨⟩ := hst
    refine ⟨?_, fun d hd => ?_, h.before, h.ended⟩
    · have := hmove (.running c)
      rw [hpc] at this
      exact this.symm
    · refine (h.placed d hd).move (w := w) (p := .running c) .inl rfl id fun hd => ?_
      refine .inr (.inl ⟨w, .inr ?_⟩)
      rw [hpc] at hd
      rcases hd with hd | hd
      · cases hd
        exact update_self ..
      · cases hd
  next c hpc =>
    obtain ⟨⟩ := hst
    have hfinished : ∀ d, s.finished d = true → update s.finished c true d = true := by
      intro d hd
      by_cases hdc : d = c
      · rw [hdc, update_self]
      · rwa [update_of_ne hdc]
    refine ⟨?_, fun d hd => ?_, h.before, fun hret d hd => hfinished d (h.ended hret d hd)⟩
    · have := hmove .ran
      rw [hpc] at this
      simp only [counts] at this
      exact (Nat.add_right_cancel this).symm
    · refine (h.placed d hd).move (w := w) (p := .ran) .inl rfl (hfinished d) fun hd => ?_
      rw [hpc] at hd
      rcases hd with hd | hd
      · cases hd
      · cases hd
        exact .inr (.inr (update_self ..))
  next hpc =>
    split_ifs at hst
    obtain ⟨⟩ := hst
    refine ⟨?_, fun d hd => ?_, h.before, h.ended⟩
    · have := hmove .notify
      rw [hpc] at this
      simp only [counts] at this
      exact Nat.sub_eq_of_eq_add this.symm
    · refine (h.placed d hd).move (w := w) (p := .notify) .inl rfl id fun hd => ?_
      rw [hpc] at hd
      rcases hd with hd | hd <;> cases hd
  next hpc =>
    obtain ⟨⟩ := hst
    refine ⟨?_, fun d hd => ?_, h.before, fun hret => h.ended ?_⟩
    · have := hmove .idle
      rw [hpc] at this
      exact this.symm
    · refine (h.placed d hd).move (w := w) (p := .idle) .inl rfl id fun hd => ?_
      rw [hpc] at hd
      rcases hd with hd | hd <;> cases hd
    · simp only at hret
      split_ifs at hret
      exact hret

omit [DecidableEq ι] [DecidableEq ω] in
/-- **The wait sees the end of what it waits for.** A callback from before the wait
that is not in the queue or uncounted has run: the count is 0. -/
theorem Inv.wait (h : s.Inv) (hcounted : s.Counted .wait) (hst : s.wait = some t) : t.Inv := by
  unfold EventsState.wait at hst
  split at hst
  next =>
    obtain ⟨⟩ := hst
    exact ⟨h.count, h.placed, h.before, fun hret => by cases hret⟩
  next hwaiter =>
    obtain ⟨⟩ := hst
    refine ⟨h.count, h.placed, h.before, fun hret c hc => ?_⟩
    have hzero : s.asyncCallCount = 0 := by
      by_contra hne
      rw [if_pos (Nat.pos_of_ne_zero hne)] at hret
      cases hret
    obtain ⟨hqueue, htaken⟩ := hcounted hwaiter hzero c hc
    rcases h.placed c (h.before c hc) with hin | ⟨w, hw | hw⟩ | hdone
    · exact absurd hin hqueue
    · exact absurd hw (htaken w)
    · have hle := le_total counts s.worker w
      rw [← h.count, hzero, hw] at hle
      exact absurd hle (Nat.not_succ_le_zero 0)
    · exact hdone
  all_goals cases hst

/-- **The step lemma.** -/
theorem Inv.apply (h : s.Inv) (hcounted : s.Counted a) (hst : s.apply a = some t) : t.Inv := by
  cases a with
  | push c =>
    simp only [EventsState.apply] at hst
    split_ifs at hst with hnone
    obtain ⟨⟩ := hst
    refine ⟨h.count, fun d hd => ?_, fun d hd => ?_, h.ended⟩
    · by_cases hdc : d = c
      · exact .inl (List.mem_append_right _ (List.mem_singleton.mpr hdc))
      · simp only [update_of_ne hdc] at hd
        exact (h.placed d hd).imp_left (List.mem_append_left _)
    · by_cases hdc : d = c
      · simp only [hdc, update_self]
        exact ExecuteStage.noConfusion
      · simp only [update_of_ne hdc]
        exact h.before d hd
  | executed c =>
    simp only [EventsState.apply] at hst
    split_ifs at hst with hpushed
    obtain ⟨⟩ := hst
    have hstage : ∀ d, update s.stage c .returned d ≠ .none ↔ s.stage d ≠ .none := by
      intro d
      by_cases hdc : d = c
      · rw [hdc, update_self, hpushed]
        simp
      · rw [update_of_ne hdc]
    exact ⟨h.count, fun d hd => h.placed d ((hstage d).mp hd),
      fun d hd => (hstage d).mpr (h.before d hd), h.ended⟩
  | take w =>
    simp only [EventsState.apply] at hst
    split at hst
    next c rest hpc hqueue =>
      obtain ⟨⟩ := hst
      refine ⟨?_, fun d hd => ?_, h.before, h.ended⟩
      · have := h.count_move w (.taken c)
        rw [hpc] at this
        exact this.symm
      · refine (h.placed d hd).move (w := w) (p := .taken c) (fun hin => ?_) rfl id fun hd => ?_
        · rw [hqueue] at hin
          rcases List.mem_cons.mp hin with rfl | hin
          · exact .inr (.inl ⟨w, .inl (update_self ..)⟩)
          · exact .inl hin
        · rw [hpc] at hd
          rcases hd with hd | hd <;> cases hd
    next => cases hst
  | work w => exact h.work hst
  | begin =>
    simp only [EventsState.apply] at hst
    split_ifs at hst
    obtain ⟨⟩ := hst
    refine ⟨h.count, h.placed, fun c hc => ?_, fun hret => by cases hret⟩
    rw [of_decide_eq_true hc]
    exact ExecuteStage.noConfusion
  | wait => exact h.wait hcounted hst

omit [DecidableEq ι] [DecidableEq ω] in
theorem inv_initial : (initial : EventsState ι ω).Inv where
  count := (total_eq_zero fun _ => rfl).symm
  placed c hc := absurd rfl hc
  before c hc := by cases hc
  ended hret := by cases hret

/-- When the wait begins, each callback whose call has returned has been counted. -/
def Drained (s : EventsState ι ω) : EventsAct ι ω → Prop
  | .begin => ∀ c, s.stage c = .returned → c ∉ s.queue ∧ ∀ w, s.worker w ≠ .taken c
  | _ => True

omit [Fintype ω] in
/-- The pool does not go back: what is counted when the wait begins is so at its end. -/
theorem counted_of_drained (hs : ((eventsMachine ι ω).guard Drained).Reachable s) :
    ((eventsMachine ι ω).guard Counted).Reachable s := by
  refine (hs.invariant (I := fun s => ((eventsMachine ι ω).guard Counted).Reachable s ∧
    ∀ c, s.before c = true → s.stage c ≠ .none ∧ c ∉ s.queue ∧ ∀ w, s.worker w ≠ .taken c)
    (fun s hs => ⟨.init hs, ?_⟩) ?_).1
  · rw [show s = initial from hs]
    simp [initial]
  · rintro s a t ⟨hr, hb⟩ ⟨ha, hst⟩
    refine ⟨hr.step (a := a) ⟨?_, hst⟩, ?_⟩
    · cases a <;> simp only [Counted]
      exact fun _ _ c hc => (hb c hc).2
    · -- a callback that is pushed is new, and one that is taken was in the queue
      simp only [eventsMachine] at hst
      cases a <;> simp only [apply, work, wait] at hst <;> split at hst <;> try split at hst
      all_goals cases hst
      all_goals
        simp only [ne_eq, Function.update_apply]
        grind [Drained]

/-- **`AcpiOsWaitEventsComplete` is a barrier** in the runs in which it never finds
the count 0 before a worker has counted a callback it is to wait for. -/
theorem waitEventsComplete_barrier (hs : ((eventsMachine ι ω).guard Counted).Reachable s)
    (hreturned : s.waiter = .returned) {c : ι} (hc : s.before c = true) : s.finished c = true := by
  have h : s.Inv := hs.invariant (fun _ h => h ▸ inv_initial)
    fun _ _ _ h hst => h.apply hst.1 hst.2
  exact h.ended hreturned c hc

/-- The wait sleeps until the only worker has run the callback. -/
theorem waitEventsComplete_barrier_slept : ∃ s : EventsState Unit Unit,
    s.waiter = .returned ∧ s.before () = true ∧ s.finished () = true := by
  obtain ⟨s, hs, hend⟩ := Machine.Reachable.exists_of_guard (M := eventsMachine Unit Unit) Counted
    (P := fun s => decide (s.waiter = .returned ∧ s.before () = true)) (fun _ _ _ h => h)
    [.push (), .executed (), .begin, .take (), .work (), .wait, .wait, .work (), .work (),
      .work (), .wait, .wait]
    (.init rfl) (by decide +kernel)
  obtain ⟨hreturned, hbefore⟩ := of_decide_eq_true hend
  exact ⟨s, hreturned, hbefore, waitEventsComplete_barrier hs hreturned hbefore⟩

/-- **The wait does not wait.** The callback is still in the queue, so the count is 0. -/
theorem waitEventsComplete_too_early : ∃ s : EventsState Unit Unit,
    (eventsMachine Unit Unit).Reachable s ∧ s.waiter = .returned ∧ s.before () = true ∧
      s.finished () = false := by
  obtain ⟨s, hs, hend⟩ := Machine.Reachable.exists_of_foldlM (M := eventsMachine Unit Unit)
    (P := fun s => decide (s.waiter = .returned ∧ s.before () = true ∧ s.finished () = false))
    (fun _ _ _ h => h) [.push (), .executed (), .begin, .wait, .wait]
    (.init rfl) (by decide +kernel)
  exact ⟨s, hs, of_decide_eq_true hend⟩

end EventsState

end ShmDos64
