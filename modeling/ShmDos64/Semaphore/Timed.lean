import ShmDos64.Semaphore.Admission
/-!
# The semaphore with timeouts

A wait may have a timeout. Without one it is as before; with the timeout 0 it
takes its count at once or not at all; otherwise the scheduler may end it, by
taking the task off the wait list. It does not look at the semaphore: what the
thread had taken is lost, and it is still counted in `m_waitCount`, so that a
later `signal` goes on calling `set` for a thread that is not there.

As long as no timeout fires, and no thread comes to wait while `m_set` is left
set, `m_waitCount` is the length of the wait list, no count is lost, and the loop
of `signal` comes to an end: each `set` wakes a thread or uses up the value.
-/

namespace ShmDos64

open Function (update update_of_ne update_self)

/-- What a thread in `signal` is about to add. -/
def SemPc.adding : SemPc → Option ℕ
  | add count => some count
  | _ => none

/-- The thread is about to enter `waitExStatus`. -/
def SemPc.isEntering : SemPc → Bool
  | waitEnter _ _ => true
  | _ => false

/-- A `wait` that does not wait, with `m_state` as it has loaded it. -/
structure SemPoll where
  count : ℕ
  value : ℕ
  waitCount : ℕ

/-- A semaphore with timed waits. -/
structure TimedSem (τ : Type*) where
  sem : SemState τ
  /-- The last wait of a thread has a timeout. -/
  timed : τ → Bool
  poll : τ → Option SemPoll

/-- What a thread does, and what the scheduler does to it. -/
inductive TimedSemAct where
  /-- `wait` with an infinite timeout or a finite one. -/
  | wait (count : Fin (2 ^ 32)) (timed : Bool)
  /-- `wait` with the timeout 0. -/
  | poll (count : Fin (2 ^ 32))
  | signal (count : Fin (2 ^ 32))
  /-- The next step of the routine it is in. -/
  | run
  /-- `shedule` finds the time of the thread to have come. -/
  | timeout

namespace TimedSem

variable {τ : Type*} [DecidableEq τ]

section

variable (s : TimedSem τ)

/-- The compare-exchange of a `wait` with the timeout 0. -/
def pollEnd (t : τ) (p : SemPoll) : TimedSem τ :=
  if s.sem.value = p.value ∧ s.sem.waitCount = p.waitCount then
    { s with
      sem := { s.sem.goto t (.returns p.count) with value := p.value - p.count }
      poll := update s.poll t none }
  else { s with poll := update s.poll t none }

/-- `excludeTaskFromWaiting` of a thread that sleeps; its `wait` returns false. -/
def expire (t : τ) : TimedSem τ :=
  { s with sem := { s.sem.goto t .idle with waitTasks := s.sem.waitTasks.erase t } }

/-- A step of `t`. -/
def apply (max : ℕ) (s : TimedSem τ) : τ × TimedSemAct → Option (TimedSem τ)
  | (t, .wait count timed) =>
    if s.poll t = none then
      (s.sem.apply max (t, .wait count)).map fun sem =>
        { s with sem := sem, timed := update s.timed t timed }
    else none
  | (t, .poll count) =>
    if s.sem.pc t = .idle ∧ s.poll t = none then
      if count.val = 0 ∨ max < count ∨ s.sem.value < count then some s
      else some { s with
        poll := update s.poll t (some ⟨count, s.sem.value, s.sem.waitCount⟩) }
    else none
  | (t, .signal count) =>
    if s.poll t = none then
      (s.sem.apply max (t, .signal count)).map fun sem => { s with sem := sem }
    else none
  | (t, .run) =>
    match s.poll t with
    | some p => some (s.pollEnd t p)
    | none => (s.sem.exec max t).map fun sem => { s with sem := sem }
  | (t, .timeout) =>
    if (s.sem.pc t).isAsleep ∧ s.timed t then some (s.expire t) else none

/-- A `signal` does not come to the maximum. -/
def Uncapped (max : ℕ) (s : TimedSem τ) : τ × TimedSemAct → Prop
  | (t, .run) => ∀ count ∈ (s.sem.pc t).adding, s.sem.value + count ≤ max
  | _ => True

instance (max : ℕ) (s : TimedSem τ) : (a : τ × TimedSemAct) → Decidable (s.Uncapped max a)
  | (_, .run) => inferInstanceAs (Decidable (∀ _ ∈ _, _))
  | (_, .wait _ _) | (_, .poll _) | (_, .signal _) | (_, .timeout) => .isTrue trivial

/-- No timeout fires, and a thread that comes to wait finds `m_set` reset and room
in the count. -/
def Kept : τ × TimedSemAct → Prop
  | (_, .timeout) => False
  | (t, .run) => (s.sem.pc t).isEntering = true → s.sem.set = false ∧ s.sem.waitCount + 1 < 2 ^ 32
  | _ => True

instance : (a : τ × TimedSemAct) → Decidable (s.Kept a)
  | (_, .timeout) => .isFalse id
  | (_, .run) => inferInstanceAs (Decidable (_ = true → _ ∧ _))
  | (_, .wait _ _) | (_, .poll _) | (_, .signal _) => .isTrue trivial

/-- No thread is between two steps of a call. -/
def Quiet : Prop :=
  ∀ t, s.poll t = none ∧ (s.sem.pc t = .idle ∨ (s.sem.pc t).isAsleep = true)

instance [Fintype τ] (s : TimedSem τ) : Decidable s.Quiet :=
  inferInstanceAs (Decidable (∀ t, s.poll t = none ∧
    (s.sem.pc t = .idle ∨ (s.sem.pc t).isAsleep = true)))

/-- The thread is in a call of `signal`. -/
def Signals (t : τ) : Prop :=
  (∃ count, s.sem.pc t = .add count) ∨ s.sem.pc t = .set ∨ s.sem.pc t = .reload

end

/-- A new semaphore. -/
def initial (initialValue : ℕ) : TimedSem τ :=
  ⟨.initial initialValue, fun _ => false, fun _ => none⟩

end TimedSem

/-- The interleavings of any number of threads and the scheduler on one semaphore,
with signals below the maximum. -/
def timedSemMachine (τ : Type*) [DecidableEq τ] (initialValue : ℕ) (max : Fin (2 ^ 32)) :
    Machine (TimedSem τ) (τ × TimedSemAct) where
  init s := s = .initial initialValue
  step s a s' := s.Uncapped max a ∧ s.apply max a = some s'

theorem TimedSem.step_of_uncapped {τ : Type*} [DecidableEq τ] {initialValue : ℕ}
    {max : Fin (2 ^ 32)} {s t : TimedSem τ} {a : τ × TimedSemAct}
    (h : (if s.Uncapped max a then s.apply max a else none) = some t) :
    (timedSemMachine τ initialValue max).step s a t := by
  split_ifs at h with hok
  exact ⟨hok, h⟩

/-! ## The wait list -/

namespace SemState

variable {τ : Type*} [DecidableEq τ] {s s' : SemState τ} {t u : τ} {max : ℕ}

/-- The threads that sleep are those of the wait list, and are counted. -/
structure Listed (s : SemState τ) : Prop where
  mem : ∀ t, t ∈ s.waitTasks ↔ (s.pc t).isAsleep = true
  nodup : s.waitTasks.Nodup
  count : s.waitCount = s.waitTasks.length
  lt : s.waitCount < 2 ^ 32
  set : s.set = true → s.waitTasks = []

/-- A thread moves that neither sleeps nor falls asleep. -/
theorem Listed.moved {q : SemPc} (h : s.Listed) (hpc : s'.pc = update s.pc t q)
    (hold : (s.pc t).isAsleep = q.isAsleep)
    (hsame : s'.waitTasks = s.waitTasks ∧ s'.waitCount = s.waitCount ∧ s'.set = s.set) :
    s'.Listed := by
  obtain ⟨htasks, hcount, hset⟩ := hsame
  refine ⟨fun u => ?_, htasks ▸ h.nodup, ?_, hcount ▸ h.lt, ?_⟩
  · rw [htasks, h.mem, hpc]
    by_cases hu : u = t
    · rw [hu, update_self, hold]
    · rw [update_of_ne hu]
  · rw [hcount, htasks, h.count]
  · rw [hset, htasks]
    exact h.set

omit [DecidableEq τ] in
theorem isAsleep_signalNext : s.signalNext.isAsleep = false := by
  rw [signalNext]
  split <;> rfl

section

variable (h : s.Listed)

include h

theorem Listed.waitBegin {taken rest : ℕ} (hpc : s.pc t = .waitEnter taken rest)
    (hset : s.set = false) (hroom : s.waitCount + 1 < 2 ^ 32) :
    (s.waitBegin t taken rest).Listed := by
  have hawake : (s.pc t).isAsleep = false := by rw [hpc]; rfl
  rw [SemState.waitBegin]
  split
  · have hcount : (s.waitCount + 1) % 2 ^ 32 = s.waitCount + 1 := Nat.mod_eq_of_lt hroom
    have hnot : t ∉ s.waitTasks := by
      rw [h.mem, hawake]
      exact Bool.false_ne_true
    refine ⟨fun u => ?_, ?_, ?_, ?_, fun hs => ?_⟩
    · simp only [goto, List.mem_append, List.mem_singleton, h.mem]
      by_cases hu : u = t
      · simp [hu, SemPc.isAsleep]
      · simp [hu]
    · exact List.nodup_append.mpr ⟨h.nodup, List.nodup_singleton t, fun a ha b hb => by
        rw [List.mem_singleton.mp hb]
        rintro rfl
        exact hnot ha⟩
    · simp only [hcount, List.length_append, List.length_singleton]
      rw [h.count]
    · simpa only [hcount] using hroom
    · simp only [goto, hset] at hs
      cases hs
  · exact h.moved (q := .returns (taken + rest)) rfl hawake ⟨rfl, rfl, rfl⟩

/-- `set` finds nobody, or a task that sleeps at the head of the list. -/
theorem Listed.eventSet_cases :
    (s.waitTasks = [] ∧ s.eventSet = { s with set := true }) ∨
      ∃ task rest taken count, s.waitTasks = task :: rest ∧
        s.pc task = .asleep taken count ∧ s.eventSet = s.wakeSingle task rest := by
  rw [SemState.eventSet]
  split
  next hset => exact .inl ⟨h.set hset, by rw [← hset]⟩
  next hset =>
    cases htasks : s.waitTasks with
    | nil => exact .inl ⟨rfl, by simp⟩
    | cons task rest =>
      have hasleep : (s.pc task).isAsleep = true :=
        (h.mem task).mp (htasks ▸ List.mem_cons_self)
      obtain ⟨taken, count, hpc⟩ : ∃ taken count, s.pc task = .asleep taken count := by
        cases hpc : s.pc task <;> rw [hpc] at hasleep <;> first | exact ⟨_, _, rfl⟩ | cases hasleep
      refine .inr ⟨task, rest, taken, count, rfl, hpc, ?_⟩
      simp [List.dropWhile, hasleep]

/-- The task at the head is woken, or the value is used up. -/
theorem Listed.wakeSingle {task : τ} {rest : List τ} {taken count : ℕ}
    (htasks : s.waitTasks = task :: rest) (hpc : s.pc task = .asleep taken count) :
    (s.wakeSingle task rest).Listed ∧
      ((s.wakeSingle task rest).value = 0 ∨
        (s.wakeSingle task rest).waitCount + 1 = s.waitCount) := by
  have hcount := h.count
  rw [htasks, List.length_cons] at hcount
  simp only [SemState.wakeSingle, hpc]
  split
  next hvalue =>
    refine ⟨?_, .inl hvalue⟩
    rw [← htasks]
    exact h
  next =>
    split
    · refine ⟨?_, .inl rfl⟩
      refine h.moved (t := task) (q := .asleep (taken + s.value) (count - s.value)) rfl ?_
        ⟨htasks.symm, rfl, rfl⟩
      rw [hpc]
      rfl
    · have hnodup := htasks ▸ h.nodup
      have hdown : (s.waitCount + (2 ^ 32 - 1)) % 2 ^ 32 = rest.length := by
        have := h.lt
        omega
      refine ⟨⟨fun u => ?_, (List.nodup_cons.mp hnodup).2, hdown, ?_, fun hset => ?_⟩, .inr ?_⟩
      · by_cases hu : u = task
        · simpa [goto, hu, SemPc.isAsleep] using (List.nodup_cons.mp hnodup).1
        · have := h.mem u
          simp only [htasks, List.mem_cons, hu, false_or] at this
          simpa [goto, hu] using this
      · simp only [hdown]
        have := h.lt
        omega
      · have := h.set hset
        rw [htasks] at this
        cases this
      · simp only [hdown]
        omega

/-- What `set` does in a state with a list that is right: a thread that is awake is
left alone, and one is woken or the value or the list is used up. -/
theorem Listed.eventSet : s.eventSet.Listed ∧
    (s.eventSet.value = 0 ∨ s.eventSet.waitCount = 0 ∨
      s.eventSet.waitCount + 1 = s.waitCount) ∧
    ∀ t, (s.pc t).isAsleep = false → s.eventSet.pc t = s.pc t := by
  rcases h.eventSet_cases with ⟨htasks, heq⟩ | ⟨task, rest, taken, count, htasks, hpc, heq⟩
  · rw [heq]
    refine ⟨⟨h.mem, h.nodup, h.count, h.lt, fun _ => htasks⟩, .inr (.inl ?_), fun _ _ => rfl⟩
    simp only [h.count, htasks, List.length_nil]
  · obtain ⟨hlisted, hprogress⟩ := h.wakeSingle htasks hpc
    rw [heq]
    refine ⟨hlisted, hprogress.imp_right .inr, fun t ht => ?_⟩
    have hne : t ≠ task := by
      rintro rfl
      rw [hpc] at ht
      cases ht
    simp only [SemState.wakeSingle, hpc]
    split
    · rfl
    split <;> simp [goto, hne]

/-- **The step lemma** for the wait list. -/
theorem Listed.exec
    (hkept : ∀ taken rest, s.pc t = .waitEnter taken rest →
      s.set = false ∧ s.waitCount + 1 < 2 ^ 32)
    (hst : s.exec max t = some s') :
    s'.Listed ∧ ∀ u, u ≠ t → (s.pc u).isAsleep = false → s'.pc u = s.pc u := by
  have hother : ∀ {q : SemPc} {u : τ}, u ≠ t → update s.pc t q u = s.pc u :=
    fun hu => update_of_ne hu ..
  simp only [SemState.exec] at hst
  split at hst
  case h_1 | h_2 => cases hst
  case h_3 count hpc =>
    split at hst <;> obtain ⟨⟩ := hst <;>
      exact ⟨h.moved rfl (by rw [hpc]; rfl) ⟨rfl, rfl, rfl⟩, fun u hu _ => hother hu⟩
  case h_4 taken rest hpc =>
    obtain ⟨hset, hroom⟩ := hkept taken rest hpc
    rw [hset] at hst
    obtain ⟨⟩ := hst
    refine ⟨h.waitBegin hpc hset hroom, fun u hu _ => ?_⟩
    rw [SemState.waitBegin]
    split <;> exact hother hu
  case h_5 count hpc =>
    obtain ⟨⟩ := hst
    exact ⟨h.moved rfl (by rw [hpc]; rfl) ⟨rfl, rfl, rfl⟩, fun u hu _ => hother hu⟩
  case h_6 count hpc | h_8 hpc =>
    obtain ⟨⟩ := hst
    refine ⟨h.moved rfl ?_ ⟨rfl, rfl, rfl⟩, fun u hu _ => hother hu⟩
    rw [hpc, isAsleep_signalNext]
    rfl
  case h_7 hpc =>
    obtain ⟨⟩ := hst
    have hmoved : (s.goto t .reload).Listed :=
      h.moved rfl (by rw [hpc]; rfl) ⟨rfl, rfl, rfl⟩
    refine ⟨hmoved.eventSet.1, fun u hu hawake => ?_⟩
    have hsame : (s.goto t .reload).pc u = s.pc u := hother hu
    rw [hmoved.eventSet.2.2 u (hsame ▸ hawake), hsame]

/-- A thread comes to call `wait` or `signal`. -/
theorem Listed.call {a : SemAct} (ha : a ≠ .run)
    (hst : s.apply max (t, a) = some s') : s'.Listed ∧ ∀ u, u ≠ t → s'.pc u = s.pc u := by
  cases a with
  | wait count =>
    simp only [SemState.apply] at hst
    split_ifs at hst with hpc
    · obtain ⟨⟩ := hst
      exact ⟨h, fun _ _ => rfl⟩
    · obtain ⟨⟩ := hst
      exact ⟨h.moved rfl (by rw [hpc]; rfl) ⟨rfl, rfl, rfl⟩,
        fun u hu => update_of_ne hu ..⟩
  | signal count =>
    simp only [SemState.apply] at hst
    split_ifs at hst with hpc
    · obtain ⟨⟩ := hst
      exact ⟨⟨h.mem, h.nodup, h.count, h.lt, h.set⟩, fun _ _ => rfl⟩
    · obtain ⟨⟩ := hst
      exact ⟨h.moved rfl (by rw [hpc]; rfl) ⟨rfl, rfl, rfl⟩,
        fun u hu => update_of_ne hu ..⟩
  | run => exact absurd rfl ha

end

/-! ## The loop of `signal` -/

/-- The routine of `t` comes to its end when no other thread runs. -/
def Ends (max : ℕ) (t : τ) (s : SemState τ) : Prop :=
  ∃ n s', (List.replicate n t).foldlM (exec max) s = some s' ∧ s'.pc t = .idle

theorem Ends.step (hst : s.exec max t = some s') (h : Ends max t s') : Ends max t s := by
  obtain ⟨n, u, hrun, hidle⟩ := h
  refine ⟨n + 1, u, ?_, hidle⟩
  rw [List.replicate_succ, List.foldlM_cons, hst]
  exact hrun

theorem ends_of_idle (h : s.pc t = .idle) : Ends max t s := ⟨0, s, rfl, h⟩

omit [DecidableEq τ] in
/-- The end of the loop: nobody waits, or there is no value. -/
theorem signalNext_idle (h : s.waitCount = 0 ∨ s.value = 0) : s.signalNext = .idle := by
  rw [signalNext, if_neg]
  rintro ⟨hcount, hvalue⟩
  rcases h with h | h
  · exact hcount h
  · exact hvalue.ne' h

theorem exec_reload (hpc : s.pc t = .reload) : s.exec max t = some (s.goto t s.signalNext) := by
  rw [SemState.exec, hpc]

theorem exec_set (hpc : s.pc t = .set) : s.exec max t = some (s.goto t .reload).eventSet := by
  rw [SemState.exec, hpc]

theorem ends_of_signalNext (hpc : s.pc t = .reload) (h : s.waitCount = 0 ∨ s.value = 0) :
    Ends max t s := by
  refine .step (exec_reload hpc) (ends_of_idle ?_)
  rw [signalNext_idle h]
  exact update_self ..

/-- `set` is followed by `reload`, in a state with a list that is right. -/
theorem Listed.set_reload (h : s.Listed) (hpc : s.pc t = .set) :
    (s.goto t .reload).eventSet.Listed ∧ (s.goto t .reload).eventSet.pc t = .reload ∧
      ((s.goto t .reload).eventSet.value = 0 ∨ (s.goto t .reload).eventSet.waitCount = 0 ∨
        (s.goto t .reload).eventSet.waitCount + 1 = s.waitCount) := by
  have hmoved : (s.goto t .reload).Listed := h.moved rfl (by rw [hpc]; rfl) ⟨rfl, rfl, rfl⟩
  have hreload : (s.goto t .reload).pc t = .reload := update_self ..
  obtain ⟨hlisted, hprogress, hpcs⟩ := hmoved.eventSet
  refine ⟨hlisted, ?_, hprogress⟩
  rw [hpcs t (by rw [hreload]; rfl), hreload]

/-- **The loop ends**, by induction on the number of threads that wait: every round
wakes one of them or is the last. -/
theorem Listed.reload_ends (h : s.Listed) (hpc : s.pc t = .reload) : Ends max t s := by
  induction hn : s.waitCount using Nat.strong_induction_on generalizing s with
  | _ n ih =>
    by_cases hdone : s.waitCount = 0 ∨ s.value = 0
    · exact ends_of_signalNext hpc hdone
    push Not at hdone
    have hnext : s.signalNext = .set := if_pos ⟨hdone.1, Nat.pos_of_ne_zero hdone.2⟩
    have hset : (s.goto t .set).pc t = .set := update_self ..
    have hlisted : (s.goto t .set).Listed := h.moved rfl (by rw [hpc]; rfl) ⟨rfl, rfl, rfl⟩
    obtain ⟨hround, hreload, hprogress⟩ := hlisted.set_reload hset
    refine .step (exec_reload hpc) ?_
    rw [hnext]
    refine .step (exec_set hset) ?_
    rcases hprogress with hvalue | hcount | hfewer
    · exact ends_of_signalNext hreload (.inr hvalue)
    · exact ends_of_signalNext hreload (.inl hcount)
    · refine ih _ ?_ hround hreload rfl
      have : (s.goto t .set).waitCount = s.waitCount := rfl
      omega

theorem Listed.set_ends (h : s.Listed) (hpc : s.pc t = .set) : Ends max t s := by
  obtain ⟨hround, hreload, -⟩ := h.set_reload hpc
  exact .step (exec_set hpc) (hround.reload_ends hreload)

theorem Listed.add_ends {count : ℕ} (h : s.Listed) (hpc : s.pc t = .add count) : Ends max t s := by
  obtain ⟨u, hst, hnext⟩ : ∃ u, s.exec max t = some u ∧ (u.pc t = .set ∨ u.pc t = .idle) := by
    refine ⟨_, by rw [SemState.exec, hpc], ?_⟩
    simp only [goto, update_self, signalNext]
    split
    · exact .inl rfl
    · exact .inr rfl
  have hlisted : u.Listed := (h.exec (fun _ _ henter => by rw [hpc] at henter; cases henter) hst).1
  rcases hnext with hset | hidle
  · exact .step hst (hlisted.set_ends hset)
  · exact .step hst (ends_of_idle hidle)

end SemState

/-! ## The timed semaphore -/

namespace TimedSem

variable {τ : Type*} [DecidableEq τ] {s s' : TimedSem τ} {t : τ}
  {a : τ × TimedSemAct} {initialValue max : ℕ}

/-- A routine that ends when it runs alone does so in the timed semaphore. -/
theorem exists_run_of_ends (h : s.sem.Ends max t) (hpoll : s.poll t = none) :
    ∃ n s', (List.replicate n (t, TimedSemAct.run)).foldlM (apply max) s = some s' ∧
      s'.sem.pc t = .idle := by
  obtain ⟨n, u, hrun, hidle⟩ := h
  suffices h : (List.replicate n (t, TimedSemAct.run)).foldlM (apply max) s =
      some { s with sem := u } from ⟨n, _, h, hidle⟩
  induction n generalizing s with
  | zero =>
    obtain ⟨⟩ := hrun
    rfl
  | succ n ih =>
    rw [List.replicate_succ, List.foldlM_cons] at hrun
    obtain ⟨v, hv, hrun⟩ := Option.bind_eq_some_iff.mp hrun
    have hstep : s.apply max (t, .run) = some { s with sem := v } := by
      simp only [apply, hpoll, hv, Option.map_some]
    rw [List.replicate_succ, List.foldlM_cons, hstep]
    exact ih (s := { s with sem := v }) hpoll hrun

variable [Fintype τ]

/-- The wait list is right, no count is lost, and a `wait` that does not wait has
found enough. -/
structure Inv (initialValue : ℕ) (s : TimedSem τ) : Prop where
  listed : s.sem.Listed
  weight : s.sem.weight = initialValue + s.sem.signalled
  poll : ∀ t p, s.poll t = some p → s.sem.pc t = .idle ∧ p.count ≤ p.value

omit [DecidableEq τ] [Fintype τ] in
/-- What `signal` loses below the maximum: nothing. -/
theorem lost_eq_zero (hmax : max < 2 ^ 32) (hcap : s.Uncapped max (t, .run)) :
    s.sem.lost max (t, .run) = 0 := by
  simp only [SemState.lost]
  split
  next count hpc =>
    have hle : s.sem.value + count ≤ max := hcap count (by rw [hpc]; rfl)
    rw [Nat.mod_eq_of_lt (by omega), Nat.min_eq_left hle, Nat.sub_self]
  next => rfl

section

variable (h : Inv initialValue s)

include h

/-- **The step lemma** for the routines of the semaphore itself. -/
theorem Inv.exec {sem : SemState τ} (hmax : max < 2 ^ 32)
    (hkept : s.Kept (t, .run)) (hcap : s.Uncapped max (t, .run)) (hpoll : s.poll t = none)
    (hst : s.sem.exec max t = some sem) : Inv initialValue { s with sem := sem } := by
  have henter : ∀ taken rest, s.sem.pc t = .waitEnter taken rest →
      s.sem.set = false ∧ s.sem.waitCount + 1 < 2 ^ 32 := by
    intro taken rest hpc
    exact hkept (by rw [hpc]; rfl)
  have hset : s.sem.NotSet (t, .run) := by
    intro hset taken rest hpc
    rw [(henter taken rest hpc).1] at hset
    cases hset
  obtain ⟨hlisted, hothers⟩ := h.listed.exec henter hst
  obtain ⟨hweight, hsignalled⟩ := SemState.weight_exec hset hst
  refine ⟨hlisted, ?_, fun u p hp => ?_⟩
  · rw [lost_eq_zero hmax hcap] at hweight
    exact hweight.trans (hsignalled ▸ h.weight)
  · obtain ⟨hidle, hle⟩ := h.poll u p hp
    have hne : u ≠ t := by
      rintro rfl
      rw [hpoll] at hp
      cases hp
    exact ⟨(hothers u hne (by rw [hidle]; rfl)).trans hidle, hle⟩

/-- **The step lemma** for the calls. -/
theorem Inv.call {sem : SemState τ} {timed : τ → Bool} {b : SemAct}
    (hb : b ≠ .run) (hpoll : s.poll t = none) (hst : s.sem.apply max (t, b) = some sem) :
    Inv initialValue { s with sem := sem, timed := timed } := by
  obtain ⟨hlisted, hothers⟩ := h.listed.call hb hst
  refine ⟨hlisted, ?_, fun u p hp => ?_⟩
  · have hset : s.sem.NotSet (t, b) := by
      cases b with
      | run => exact absurd rfl hb
      | wait _ | signal _ => trivial
    have hlost : s.sem.lost max (t, b) = 0 := by
      cases b with
      | run => exact absurd rfl hb
      | wait _ | signal _ => rfl
    have hstep := SemState.weight_apply hset hst
    rw [hlost, h.weight] at hstep
    simp only
    omega
  · obtain ⟨hidle, hle⟩ := h.poll u p hp
    have hne : u ≠ t := by
      rintro rfl
      rw [hpoll] at hp
      cases hp
    exact ⟨(hothers u hne).trans hidle, hle⟩

theorem Inv.pollEnd {p : SemPoll} (hp : s.poll t = some p) :
    Inv initialValue (s.pollEnd t p) := by
  obtain ⟨hidle, hle⟩ := h.poll t p hp
  -- what the others have polled is as it was
  have hothers : ∀ u q, update s.poll t none u = some q → u ≠ t ∧ s.poll u = some q := by
    intro u q hq
    by_cases hu : u = t
    · rw [hu, update_self] at hq
      cases hq
    · rw [update_of_ne hu] at hq
      exact ⟨hu, hq⟩
  rw [TimedSem.pollEnd]
  split
  next hsame =>
    refine ⟨h.listed.moved rfl (by rw [hidle]; rfl) ⟨rfl, rfl, rfl⟩, ?_, fun u q hq => ?_⟩
    · refine Eq.trans (SemState.weight_kept rfl ?_) h.weight
      simp only [SemState.goto, hidle, SemPc.has]
      omega
    · obtain ⟨hu, hq⟩ := hothers u q hq
      simp only [SemState.goto, update_of_ne hu]
      exact h.poll u q hq
  next => exact ⟨h.listed, h.weight, fun u q hq => h.poll u q (hothers u q hq).2⟩

theorem Inv.apply (hmax : max < 2 ^ 32) (hkept : s.Kept a)
    (hcap : s.Uncapped max a) (hst : s.apply max a = some s') : Inv initialValue s' := by
  obtain ⟨t, a⟩ := a
  cases a with
  | wait count timed | signal count =>
    simp only [TimedSem.apply] at hst
    split_ifs at hst with hpoll
    obtain ⟨sem, hsem, rfl⟩ := Option.map_eq_some_iff.mp hst
    exact h.call SemAct.noConfusion hpoll hsem
  | poll count =>
    simp only [TimedSem.apply] at hst
    split_ifs at hst with hidle hrefused
    · obtain ⟨⟩ := hst
      exact h
    · obtain ⟨⟩ := hst
      refine ⟨h.listed, h.weight, fun u p hp => ?_⟩
      by_cases hu : u = t
      · subst hu
        simp only [update_self, Option.some.injEq] at hp
        subst hp
        push Not at hrefused
        exact ⟨hidle.1, hrefused.2.2⟩
      · simp only [update_of_ne hu] at hp
        exact h.poll u p hp
  | run =>
    simp only [TimedSem.apply] at hst
    split at hst
    next p hp =>
      obtain ⟨⟩ := hst
      exact h.pollEnd hp
    next hpoll =>
      obtain ⟨sem, hsem, rfl⟩ := Option.map_eq_some_iff.mp hst
      exact h.exec hmax hkept hcap hpoll hsem
  | timeout => exact hkept.elim

end

omit [DecidableEq τ] in
theorem inv_initial : Inv initialValue (initial initialValue : TimedSem τ) where
  listed := ⟨fun t => by simp [initial, SemState.initial, SemPc.isAsleep], List.nodup_nil, rfl,
    Nat.two_pow_pos 32, fun h => by cases h⟩
  weight := by
    have hidle : total SemPc.has (SemState.initial initialValue : SemState τ).pc = 0 :=
      total_eq_zero fun _ => rfl
    rw [SemState.weight, initial, hidle]
    simp [SemState.initial]
  poll t p hp := by cases hp

end TimedSem

/-- What a thread that sleeps has taken. -/
def SemPc.takenAsleep : SemPc → ℕ
  | asleep taken _ => taken
  | _ => 0

namespace TimedSem

variable {τ : Type*} [DecidableEq τ] [Fintype τ] {s : TimedSem τ} {t : τ} {initialValue : ℕ}
  {max : Fin (2 ^ 32)}

/-- **Timed waits leave the semaphore intact** in every run in which no timeout
fires and no thread comes to wait while `m_set` is left set: between the calls
`m_waitCount` is the number of threads that sleep and no count is lost, and a call
of `signal` that runs alone ends. -/
theorem semaphore_intact (hs : ((timedSemMachine τ initialValue max).guard Kept).Reachable s) :
    (s.Quiet →
      s.sem.waitCount = (Finset.univ.filter fun t => (s.sem.pc t).isAsleep = true).card ∧
      s.sem.value + s.sem.admitted + ∑ t, (s.sem.pc t).takenAsleep =
        initialValue + s.sem.signalled) ∧
    ∀ t, s.Signals t → ∃ n s',
      (List.replicate n (t, TimedSemAct.run)).foldlM (apply max) s = some s' ∧
        s'.sem.pc t = .idle := by
  have h : Inv initialValue s := hs.invariant (fun _ h => h ▸ inv_initial)
    fun _ _ _ h hst => h.apply max.isLt hst.1 hst.2.1 hst.2.2
  refine ⟨fun hquiet => ⟨?_, ?_⟩, fun t ht => ?_⟩
  · rw [h.listed.count, ← List.toFinset_card_of_nodup h.listed.nodup]
    congr 1
    ext t
    simp [h.listed.mem]
  · have hhas : total SemPc.has s.sem.pc = ∑ t, (s.sem.pc t).takenAsleep := by
      refine Finset.sum_congr rfl fun t _ => ?_
      rcases (hquiet t).2 with hidle | hasleep
      · rw [hidle]
        rfl
      · cases hpc : s.sem.pc t <;> rw [hpc] at hasleep <;> first | rfl | cases hasleep
    have hweight := h.weight
    rw [SemState.weight, hhas] at hweight
    omega
  · have hpoll : s.poll t = none := by
      by_contra hne
      obtain ⟨p, hp⟩ := Option.ne_none_iff_exists'.mp hne
      have hidle := (h.poll t p hp).1
      rcases ht with ⟨count, hpc⟩ | hpc | hpc <;> rw [hidle] at hpc <;> cases hpc
    refine exists_run_of_ends ?_ hpoll
    rcases ht with ⟨count, hpc⟩ | hpc | hpc
    · exact h.listed.add_ends hpc
    · exact h.listed.set_ends hpc
    · exact h.listed.reload_ends hpc

/-- A thread sleeps with one of its two, and another signals the other. -/
theorem semaphore_intact_signalled :
    (∃ s : TimedSem (Fin 2), s.Quiet ∧ s.sem.waitCount = 1 ∧
      s.sem.waitCount = (Finset.univ.filter fun t => (s.sem.pc t).isAsleep = true).card ∧
      s.sem.value + s.sem.admitted + ∑ t, (s.sem.pc t).takenAsleep = 1 + s.sem.signalled) ∧
    ∃ s : TimedSem (Fin 2), s.Signals 1 ∧ s.sem.waitCount = 1 ∧ ∃ n s',
      (List.replicate n (1, TimedSemAct.run)).foldlM (apply 5) s = some s' ∧
        s'.sem.pc 1 = .idle := by
  obtain ⟨s, hs, hend⟩ := Machine.Reachable.exists_of_guard (M := timedSemMachine (Fin 2) 1 5) Kept
    (P := fun s => decide (s.Quiet ∧ s.sem.waitCount = 1))
    (fun _ _ _ => step_of_uncapped)
    [(0, .wait 2 true), (0, .run), (0, .run)] (.init rfl) (by decide +kernel)
  obtain ⟨u, hu, huend⟩ := Machine.Reachable.exists_of_guard (M := timedSemMachine (Fin 2) 1 5) Kept
    (P := fun s => decide (s.sem.pc 1 = .set ∧ s.sem.waitCount = 1))
    (fun _ _ _ => step_of_uncapped)
    [(0, .wait 2 true), (0, .run), (0, .run), (1, .signal 1), (1, .run)] (.init rfl)
    (by decide +kernel)
  obtain ⟨hquiet, hone⟩ := of_decide_eq_true hend
  obtain ⟨hset, hcount⟩ := of_decide_eq_true huend
  have hsignals : u.Signals 1 := .inr (.inl hset)
  exact ⟨⟨s, hquiet, hone, (semaphore_intact hs).1 hquiet⟩,
    ⟨u, hsignals, hcount, (semaphore_intact hu).2 1 hsignals⟩⟩

omit [Fintype τ] in
/-- When `m_set` is left set and somebody is counted, `signal` goes on for ever. -/
theorem signal_spins {n m : ℕ} {s' : TimedSem τ} (hpoll : s.poll t = none) (hset : s.sem.set = true)
    (hcount : s.sem.waitCount ≠ 0) (hvalue : 0 < s.sem.value)
    (hpc : s.sem.pc t = .set ∨ s.sem.pc t = .reload)
    (hrun : (List.replicate n (t, TimedSemAct.run)).foldlM (apply m) s = some s') :
    s'.sem.pc t ≠ .idle := by
  induction n generalizing s with
  | zero =>
    obtain ⟨⟩ := hrun
    rcases hpc with hpc | hpc <;> rw [hpc] <;> exact SemPc.noConfusion
  | succ n ih =>
    rw [List.replicate_succ, List.foldlM_cons] at hrun
    obtain ⟨u, hu, hrun⟩ := Option.bind_eq_some_iff.mp hrun
    simp only [apply, hpoll] at hu
    obtain ⟨sem, hsem, rfl⟩ := Option.map_eq_some_iff.mp hu
    -- a round of the loop changes nothing but where the thread is
    obtain ⟨q, hq, rfl⟩ : ∃ q, (q = .set ∨ q = .reload) ∧ sem = s.sem.goto t q := by
      rcases hpc with hpc | hpc
      · rw [SemState.exec_set hpc, SemState.eventSet, SemState.goto, if_pos hset] at hsem
        exact ⟨.reload, .inr rfl, (Option.some.inj hsem).symm⟩
      · rw [SemState.exec_reload hpc, SemState.signalNext, if_pos ⟨hcount, hvalue⟩] at hsem
        exact ⟨.set, .inl rfl, (Option.some.inj hsem).symm⟩
    exact ih (s := { s with sem := s.sem.goto t q }) hpoll hset hcount hvalue
      (by simpa only [SemState.goto, update_self] using hq) hrun

/-- **A timeout leaves its mark.** The thread that has timed out is still counted;
the next `signal` sees it, finds nobody to wake, and never returns. -/
theorem semaphore_timeout_counted :
    (∃ s : TimedSem (Fin 2), (timedSemMachine (Fin 2) 0 5).Reachable s ∧ s.Quiet ∧
      s.sem.waitCount = 1 ∧ ∀ t, s.sem.pc t = .idle) ∧
    ∃ s : TimedSem (Fin 2), (timedSemMachine (Fin 2) 0 5).Reachable s ∧ s.Signals 1 ∧
      ∀ n s', (List.replicate n (1, TimedSemAct.run)).foldlM (apply 5) s = some s' →
        s'.sem.pc 1 ≠ .idle := by
  obtain ⟨s, hs, hend⟩ := Machine.Reachable.exists_of_foldlM (M := timedSemMachine (Fin 2) 0 5)
    (P := fun s => decide (s.Quiet ∧ s.sem.waitCount = 1 ∧ ∀ t, s.sem.pc t = .idle))
    (fun _ _ _ => step_of_uncapped)
    [(0, .wait 1 true), (0, .run), (0, .run), (0, .timeout)] (.init rfl) (by decide +kernel)
  obtain ⟨u, hu, huend⟩ := Machine.Reachable.exists_of_foldlM (M := timedSemMachine (Fin 2) 0 5)
    (P := fun s => decide (s.poll 1 = none ∧ s.sem.set = true ∧ s.sem.waitCount ≠ 0 ∧
      0 < s.sem.value ∧ s.sem.pc 1 = .reload))
    (fun _ _ _ => step_of_uncapped)
    [(0, .wait 1 true), (0, .run), (0, .run), (0, .timeout), (1, .signal 1), (1, .run), (1, .run)]
    (.init rfl) (by decide +kernel)
  obtain ⟨hpoll, hset, hcount, hvalue, hpc⟩ := of_decide_eq_true huend
  exact ⟨⟨s, hs, of_decide_eq_true hend⟩, u, hu, .inr (.inr hpc), fun n s' hrun =>
    signal_spins hpoll hset hcount hvalue (.inr hpc) hrun⟩

end TimedSem

end ShmDos64
