import ShmDos64.Scheduler.Places
/-!
# How tasks change place

One rule for each way a step of the scheduler moves a task: the current
task stays, a task is taken, the old task is released, the new one is
executed, a call gets hold of a task or gives it to the queue. The steps
of the code are cases of these.
-/

namespace ShmDos64

open Function (update)
open SchedState

variable {κ ω τ ε : Type*}

namespace CpuPc

theorem executing_of_switching {X : CpuPc τ} (h : X.switching = true) : X.executing = true := by
  cases X <;> first | rfl | cases h

theorem next_eq_none_of_taken {X : CpuPc τ} (h : X.taken = none) : X.next = none := by
  cases X <;> first | rfl | cases h

/-- Two points of the code between which no place and no lock changes. -/
def Like (X Y : CpuPc τ) : Prop :=
  Y.taken = X.taken ∧ Y.next = X.next ∧ Y.switching = X.switching ∧ Y.executing = X.executing

end CpuPc

namespace SchedInv

variable {s t : SchedState κ ω τ ε} {a : κ ⊕ ω} {c : κ} {w : ω} {T T' : τ}

/-- What the invariant reads. -/
theorem congr (h : SchedInv s) (hpc : ∀ c, (s.pc c).Like (t.pc c)) (hcall : t.call = s.call)
    (hcurrent : t.current = s.current) (hidleTask : t.idleTask = s.idleTask)
    (hidle : t.idle = s.idle) (hstate : t.state = s.state)
    (hready : t.readyForSleep = s.readyForSleep) (hspin : t.spin = s.spin)
    (hqueue : t.waitTaskQueue = s.waitTaskQueue) : SchedInv t := by
  have hexec : ∀ c T, t.Executes c T ↔ s.Executes c T := by
    intro c T
    rw [Executes, Executes, hcurrent, (hpc c).2.2.2]
  have hat : ∀ T p, t.At T p ↔ s.At T p := by
    intro T p
    cases p with
    | queue => rw [at_queue, at_queue, hqueue]
    | taken c => rw [at_taken, at_taken, (hpc c).1]
    | pushes w => rw [at_pushes, at_pushes, hcall]
    | executes c => exact hexec c T
  have hholds : ∀ a T, t.Holds a T ↔ s.Holds a T := by
    intro a T
    cases a with
    | inl c =>
      obtain ⟨-, hn, hsw, hex⟩ := hpc c
      rw [holds_cpu, holds_cpu, hcurrent, hready, hn, hsw, hex]
    | inr w => rw [holds_call, holds_call, hcall]
  have hok : ∀ T p, t.TaskOk T p ↔ s.TaskOk T p := by
    intro T p
    cases p with
    | queue => rw [taskOk_queue, taskOk_queue, hstate, hidle]
    | taken c =>
      rw [taskOk_taken, taskOk_taken, hstate, hidle, hidleTask, (hpc c).2.1]
    | pushes w => rw [taskOk_pushes, taskOk_pushes, hstate, hidle]
    | executes c =>
      rw [taskOk_executes, taskOk_executes, hstate, hidle, hidleTask, hholds,
        hready, (hpc c).2.2.1]
  refine ⟨hidleTask ▸ h.idleTask, hidleTask ▸ hidle ▸ h.idle, hidle ▸ hstate ▸ h.awake, ?_,
    hqueue ▸ h.nodup, ?_, ?_, ?_⟩
  · intro T p q hp hq
    exact h.unique T p q ((hat T p).mp hp) ((hat T q).mp hq)
  · intro T p hp
    exact (hok T p).mpr (h.ok T p ((hat T p).mp hp))
  · intro a T ha
    rw [hspin]
    exact h.held a T ((hholds a T).mp ha)
  · intro T hr
    rw [hready] at hr
    obtain ⟨c, hc⟩ := h.ready T hr
    exact ⟨c, (hat T _).mpr hc⟩

/-! ## What a processor holds and executes -/

theorem executes_current (hx : (s.pc c).executing = true) : s.At (s.current c) (.executes c) :=
  ⟨rfl, hx⟩

theorem spin_current (h : SchedInv s) (hsw : (s.pc c).switching = true) :
    s.spin (s.current c) = some (.inl c) :=
  h.held (.inl c) _ (.inl ⟨rfl, .inl hsw⟩)

theorem ready_current (h : SchedInv s) (hsw : (s.pc c).switching = true) :
    s.readyForSleep (s.current c) = false :=
  (h.ok _ _ (executes_current (CpuPc.executing_of_switching hsw))).2.2.2.1 hsw

/-- A task that sleeps is in no place when no processor has its lock. -/
theorem not_at_of_asleep (h : SchedInv s) (hfree : ∀ c, s.spin T ≠ some (.inl c))
    (hstate : s.state T = .sleep ∨ s.state T = .timedSleep) (p : Place κ ω) : ¬ s.At T p := by
  intro hat
  have hok := h.ok T p hat
  have hheld : ∀ c, s.Holds (.inl c) T → False := fun c hc => hfree c (h.held _ _ hc)
  have hwait : s.state T ≠ .wait := by
    intro hw
    rcases hstate with hs | hs <;> rw [hw] at hs <;> cases hs
  cases p with
  | queue | pushes w => exact hwait hok.1
  | taken c =>
    rcases hok with hok | hok | hok
    · exact hwait hok.2
    all_goals exact hheld c (.inr hok.1)
  | executes c => exact hheld c (hok.2.2.1 hstate)

/-- A new task is in no place. -/
theorem not_at_of_none (h : SchedInv s) (hstate : s.state T = .none) (hidle : s.idle T = false)
    (p : Place κ ω) : ¬ s.At T p := by
  intro hat
  have hok := h.ok T p hat
  cases p with
  | queue =>
    rw [taskOk_queue, hstate] at hok
    cases hok.1
  | taken c =>
    rw [taskOk_taken, hstate, hidle] at hok
    rcases hok with hok | hok | hok
    · cases hok.2
    · cases hok.2.2
    · cases hok.2.1
  | pushes w =>
    rw [taskOk_pushes, hstate] at hok
    cases hok.1
  | executes c => exact hok.1 hstate

/-- Nor is an idle task that its processor does not execute. -/
theorem not_at_of_idle (h : SchedInv s) (hx : s.current c ≠ s.idleTask c)
    (hnext : (s.pc c).next = none) (p : Place κ ω) : ¬ s.At (s.idleTask c) p := by
  intro hat
  have hok := h.ok _ p hat
  have hidle := h.idle c
  cases p with
  | queue =>
    rw [taskOk_queue, hidle] at hok
    cases hok.2
  | taken c' =>
    rw [taskOk_taken, hidle] at hok
    rcases hok with hok | hok | hok
    · cases hok.1
    · cases hok.2.1
    · obtain rfl := h.idleTask hok.2.2
      rw [hnext] at hok
      cases hok.1
  | pushes w =>
    rw [taskOk_pushes, hidle] at hok
    cases hok.2
  | executes c' =>
    obtain rfl := h.idleTask (hok.2.2.2.2 hidle).2
    exact hx hat.1

/-! ## Steps of a processor -/

/-- A step that changes the current task only and leaves it in its place. -/
theorem currentStep {Y : CpuPc τ} {st : TaskState} (h : SchedInv s)
    (hsame : SameBut s t (.inl c) (s.current c)) (hcurrent : t.current c = s.current c)
    (hqueue : t.waitTaskQueue = s.waitTaskQueue) (hx : (s.pc c).executing = true)
    (hpc : t.pc c = Y) (htaken : Y.taken = none) (hx' : Y.executing = true)
    (hheld : Y.switching = true ∨ t.readyForSleep (s.current c) = true →
      t.spin (s.current c) = some (.inl c))
    (hready : Y.switching = true → t.readyForSleep (s.current c) = false)
    (hstate : t.state (s.current c) = st) (hst : st ≠ .none ∧ st ≠ .wait)
    (hsleep : st = .sleep ∨ st = .timedSleep →
      Y.switching = true ∨ t.readyForSleep (s.current c) = true)
    (hidle : s.idle (s.current c) = true → st = .active) : SchedInv t := by
  subst hpc hstate
  have hs := executes_current (s := s) hx
  refine h.cpuStep hsame ?_ ?_ ?_ ?_ ⟨.executes c, ?_⟩ (hqueue ▸ h.nodup) ?_
    fun hi => .inr (hidle hi)
  · rintro T' (⟨rfl, hc⟩ | hn)
    · rw [hcurrent] at hc ⊢
      exact hheld (hc.imp id And.left)
    · rw [CpuPc.next_eq_none_of_taken htaken] at hn
      cases hn
  · intro T' _ ht
    rw [htaken] at ht
    cases ht
  · rintro T' hne ⟨rfl, -⟩
    exact absurd hcurrent hne
  · intro T' hne
    constructor
    · rintro ⟨rfl, -⟩
      exact absurd hcurrent hne
    · rintro ⟨rfl, -⟩
      exact absurd rfl hne
  · intro p hp
    rcases at_cpu hsame rfl hp with ⟨rfl, hq⟩ | ⟨-, ht⟩ | ⟨rfl, -⟩ | ⟨hat, -, hag⟩
    · rw [hqueue] at hq
      cases h.unique _ .queue _ hq hs
    · rw [htaken] at ht
      cases ht
    · refine ⟨rfl, hst.1, hst.2, ?_, hready, ?_⟩
      · exact fun hsl => .inl ⟨hcurrent, (hsleep hsl).imp id fun hr => ⟨hr, hx'⟩⟩
      · rw [hsame.idle, hsame.idleTask]
        exact fun hi => ⟨hidle hi, ((h.ok _ _ hs).2.2.2.2 hi).2⟩
    · obtain rfl := h.unique _ _ _ hat hs
      exact absurd rfl hag
  · intro _
    exact .inl ⟨hcurrent, hx'⟩

/-- A switching processor takes another task, from the queue or from
nowhere, or locks it. The current task stays where it is. -/
theorem takeStep (h : SchedInv s) (hsame : SameBut s t (.inl c) T) (hsw : (s.pc c).switching = true)
    (hsw' : (t.pc c).switching = true) (hcurrent : t.current c = s.current c)
    (hne : s.current c ≠ T) (hspin : t.spin (s.current c) = s.spin (s.current c))
    (htaken : (t.pc c).taken = some T) (hnext : (t.pc c).next = some T → t.spin T = some (.inl c))
    (hplace : ∀ p, s.At T p → p = .queue ∨ p = .taken c) (hnodup : t.waitTaskQueue.entries.Nodup)
    (hqueue : T ∉ t.waitTaskQueue.entries) (hready : t.readyForSleep T = s.readyForSleep T)
    (hstate : t.state T = s.state T) (hok : t.TaskOk T (.taken c)) : SchedInv t := by
  have hx := CpuPc.executing_of_switching hsw
  have hx' := CpuPc.executing_of_switching hsw'
  have hcur : ∀ T', t.Executes c T' ↔ s.Executes c T' := by
    intro T'
    rw [Executes, Executes, hcurrent, hx, hx']
  refine h.cpuStep hsame ?_ ?_ ?_ (fun T' _ => hcur T') ⟨.taken c, ?_⟩ hnodup ?_
    (hstate ▸ h.awake T)
  · rintro T' (⟨rfl, -⟩ | hn)
    · rw [hcurrent, hspin]
      exact h.spin_current hsw
    · have : (t.pc c).taken = some T' := by
        cases hp : t.pc c with
        | chosen T'' | activate T'' => rwa [hp] at hn
        | _ =>
          rw [hp] at hn
          cases hn
      obtain rfl := Option.some.inj (htaken.symm.trans this)
      exact hnext hn
  · intro T' hne' ht
    exact absurd (Option.some.inj (htaken.symm.trans ht)).symm hne'
  · rintro T' hne' ⟨rfl, -⟩
    rw [hcurrent] at hne' ⊢
    obtain ⟨h1, h2, -, -, h5⟩ := h.ok _ _ (executes_current hx)
    refine ⟨?_, ?_, ?_, ?_, ?_⟩
    · rwa [hsame.state _ hne']
    · rwa [hsame.state _ hne']
    · exact fun _ => .inl ⟨hcurrent, .inl hsw'⟩
    · rw [hsame.ready _ hne']
      exact fun _ => h.ready_current hsw
    · rwa [hsame.state _ hne', hsame.idle, hsame.idleTask]
  · intro p hp
    rcases at_cpu hsame rfl hp with ⟨rfl, hq⟩ | ⟨rfl, -⟩ | ⟨rfl, hc, -⟩ | ⟨hat, hpq, hag⟩
    · exact absurd hq hqueue
    · exact ⟨rfl, hok⟩
    · exact absurd (hcurrent.symm.trans hc) hne
    · rcases hplace p hat with rfl | rfl
      · exact absurd rfl hpq
      · exact absurd rfl hag
  · intro hr
    rw [hready] at hr
    obtain ⟨c', hc'⟩ := h.ready T hr
    rcases hplace _ hc' with hp | hp <;> cases hp

/-- The old task's part of `endTaskSwitch`: the current task is released,
and may be in the queue then. -/
theorem retireStep (h : SchedInv s) (hsame : SameBut s t (.inl c) (s.current c))
    (hpc : s.pc c = .chosen T) (hpc' : t.pc c = .activate T)
    (hspin : t.spin T = s.spin T) (hready : t.readyForSleep = s.readyForSleep)
    (hqueue : t.waitTaskQueue = s.waitTaskQueue ∨
      t.waitTaskQueue.entries.Perm (s.current c :: s.waitTaskQueue.entries) ∧
      t.state (s.current c) = .wait ∧ s.idle (s.current c) = false)
    (hstate : s.idle (s.current c) = true → t.state (s.current c) = s.state (s.current c)) :
    SchedInv t := by
  have hsw : (s.pc c).switching = true := by
    rw [hpc]
    rfl
  have hs := executes_current (CpuPc.executing_of_switching hsw)
  have htaken : s.At T (.taken c) := by
    rw [at_taken, hpc]
    rfl
  have hne : T ≠ s.current c := by
    intro hT
    rw [hT] at htaken
    cases h.unique _ _ _ htaken hs
  have hnotmem : s.current c ∉ s.waitTaskQueue.entries := by
    intro hm
    cases h.unique _ .queue _ hm hs
  refine h.cpuStep hsame ?_ ?_ ?_ ?_ ⟨.queue, ?_⟩ ?_ ?_
    fun hi => (hstate hi).symm ▸ h.awake _ hi
  · rintro T' (⟨-, hc⟩ | hn)
    · rw [hpc'] at hc
      rcases hc with hc | ⟨-, hc⟩ <;> cases hc
    · rw [hpc'] at hn
      obtain ⟨⟩ := hn
      rw [hspin]
      exact h.held (.inl c) T (.inr (by rw [hpc]; rfl))
  · intro T' hne' ht
    rw [hpc'] at ht
    obtain ⟨⟩ := ht
    refine ⟨htaken, ?_⟩
    have hok := h.ok T _ htaken
    rw [taskOk_taken, hpc] at hok
    rwa [taskOk_taken, hpc', hsame.state _ hne', hsame.idle, hsame.idleTask]
  · rintro T' - ⟨-, hx⟩
    rw [hpc'] at hx
    cases hx
  · intro T' hne'
    constructor
    · rintro ⟨-, hx⟩
      rw [hpc'] at hx
      cases hx
    · rintro ⟨rfl, -⟩
      exact absurd rfl hne'
  · intro p hp
    rcases at_cpu hsame hpc' hp with ⟨rfl, hq⟩ | ⟨-, ht⟩ | ⟨-, -, hx⟩ | ⟨hat, -, hag⟩
    · refine ⟨rfl, ?_⟩
      rcases hqueue with hqueue | ⟨-, hst, hidle⟩
      · rw [hqueue] at hq
        exact absurd hq hnotmem
      · exact ⟨hst, hsame.idle ▸ hidle⟩
    · exact absurd (Option.some.inj ht) hne
    · cases hx
    · obtain rfl := h.unique _ _ _ hat hs
      exact absurd rfl hag
  · rcases hqueue with hqueue | ⟨hperm, -, -⟩
    · exact hqueue ▸ h.nodup
    · exact hperm.symm.nodup (List.nodup_cons.mpr ⟨hnotmem, h.nodup⟩)
  · intro hr
    rw [hready, h.ready_current hsw] at hr
    cases hr

/-- The new task's part of `endTaskSwitch`: the task chosen is executed. -/
theorem activateStep (h : SchedInv s) (hsame : SameBut s t (.inl c) T) (hpc : s.pc c = .activate T)
    (hpc' : t.pc c = .run) (hcurrent : t.current c = T) (hstate : t.state T = .active)
    (hready : t.readyForSleep = s.readyForSleep) (hqueue : t.waitTaskQueue = s.waitTaskQueue) :
    SchedInv t := by
  have htaken : s.At T (.taken c) := by
    rw [at_taken, hpc]
    rfl
  have hr : s.readyForSleep T = false := by
    by_contra hr
    obtain ⟨c', hc'⟩ := h.ready T (Bool.not_eq_false _ ▸ hr)
    cases h.unique _ _ _ htaken hc'
  refine h.cpuStep hsame ?_ ?_ ?_ ?_ ⟨.executes c, ?_⟩ (hqueue ▸ h.nodup) ?_
    fun _ => .inr hstate
  · rintro T' (⟨rfl, hc | ⟨hc, -⟩⟩ | hn)
    · rw [hpc'] at hc
      cases hc
    · rw [hcurrent, hready, hr] at hc
      cases hc
    · rw [hpc'] at hn
      cases hn
  · intro T' _ ht
    rw [hpc'] at ht
    cases ht
  · rintro T' hne ⟨rfl, -⟩
    exact absurd hcurrent hne
  · intro T' hne
    constructor
    · rintro ⟨rfl, -⟩
      exact absurd hcurrent hne
    · rintro ⟨-, hx⟩
      rw [hpc] at hx
      cases hx
  · intro p hp
    rcases at_cpu hsame hpc' hp with ⟨rfl, hq⟩ | ⟨-, ht⟩ | ⟨rfl, -⟩ | ⟨hat, -, hag⟩
    · rw [hqueue] at hq
      cases h.unique _ .queue _ hq htaken
    · cases ht
    · refine ⟨rfl, ?_, ?_, ?_, ?_, ?_⟩
      · rw [hstate]
        exact nofun
      · rw [hstate]
        exact nofun
      · rw [hstate]
        rintro (hc | hc) <;> cases hc
      · rw [hpc']
        intro hc
        cases hc
      · intro hidle
        refine ⟨hstate, ?_⟩
        have hok := h.ok T _ htaken
        rw [hsame.idle] at hidle
        rw [taskOk_taken, hidle] at hok
        rcases hok with hok | hok | hok
        · cases hok.1
        · cases hok.2.1
        · rw [hsame.idleTask]
          exact hok.2.2
    · obtain rfl := h.unique _ _ _ hat htaken
      exact absurd rfl hag
  · intro hr'
    rw [hready, hr] at hr'
    cases hr'

/-! ## Steps of a call -/

section

variable (h : SchedInv s) (hsame : SameBut s t (.inr w) T)
  (hheld : ∀ T', (t.call w).holds = some T' → t.spin T' = some (.inr w))

include h hsame hheld

/-- A call takes a lock or releases one, and pushes nothing. -/
theorem callLockStep (hpushes : (t.call w).pushes = none)
    (hqueue : t.waitTaskQueue = s.waitTaskQueue) (hstate : t.state T = s.state T)
    (hready : t.readyForSleep T = s.readyForSleep T) : SchedInv t := by
  by_cases hT : ∃ p, s.At T p
  · obtain ⟨q, hq⟩ := hT
    refine h.callStep hsame hheld ?_ ⟨q, ?_⟩ (hqueue ▸ h.nodup) hready
      (hstate ▸ h.awake T)
    · intro T' _ hp
      rw [hpushes] at hp
      cases hp
    · intro p hp
      have hat : s.At T p := by
        rcases at_call hsame rfl hp with ⟨rfl, hm⟩ | ⟨-, hn⟩ | ⟨hat, -⟩
        · rwa [hqueue] at hm
        · rw [hpushes] at hn
          cases hn
        · exact hat
      obtain rfl := h.unique _ _ _ hat hq
      refine ⟨rfl, ?_⟩
      have hok := h.ok T p hat
      cases p with
      | queue => rwa [taskOk_queue, hstate, hsame.idle]
      | taken c =>
        rwa [taskOk_taken, hstate, hsame.idle, hsame.idleTask, hsame.pc c nofun]
      | pushes w => rwa [taskOk_pushes, hstate, hsame.idle]
      | executes c =>
        rwa [taskOk_executes, hstate, hsame.idle, hsame.idleTask, holds_cpu,
          hsame.pc c nofun, hsame.current c nofun, hready]
  · refine h.callStep hsame hheld ?_ ⟨.queue, ?_⟩ (hqueue ▸ h.nodup) hready
      (hstate ▸ h.awake T)
    · intro T' _ hp
      rw [hpushes] at hp
      cases hp
    · intro p hp
      rcases at_call hsame rfl hp with ⟨rfl, hm⟩ | ⟨-, hn⟩ | ⟨hat, -⟩
      · rw [hqueue] at hm
        exact absurd ⟨.queue, hm⟩ hT
      · rw [hpushes] at hn
        cases hn
      · exact absurd ⟨p, hat⟩ hT

/-- A call gets a task from nowhere, to push it. -/
theorem callTakeStep (hplace : ∀ p, ¬ s.At T p) (hpushes : (t.call w).pushes = some T)
    (hqueue : t.waitTaskQueue = s.waitTaskQueue) (hstate : t.state T = .wait)
    (hidle : s.idle T = false) (hready : t.readyForSleep T = s.readyForSleep T) : SchedInv t := by
  refine h.callStep hsame hheld ?_ ⟨.pushes w, ?_⟩ (hqueue ▸ h.nodup) hready
    fun hi => absurd (hidle.symm.trans hi) nofun
  · intro T' hne hp
    exact absurd (Option.some.inj (hpushes.symm.trans hp)).symm hne
  · intro p hp
    rcases at_call hsame rfl hp with ⟨rfl, hm⟩ | ⟨rfl, -⟩ | ⟨hat, -⟩
    · rw [hqueue] at hm
      exact absurd hm (hplace .queue)
    · exact ⟨rfl, hstate, hsame.idle ▸ hidle⟩
    · exact absurd hat (hplace p)

end

/-- A call pushes its task. -/
theorem callPushStep (h : SchedInv s) (hsame : SameBut s t (.inr w) T)
    (hpushes : (s.call w).pushes = some T) (hcall : t.call w = .idle)
    (hqueue : t.waitTaskQueue = s.waitTaskQueue ∨
      t.waitTaskQueue.entries.Perm (T :: s.waitTaskQueue.entries))
    (hstate : t.state T = s.state T) (hready : t.readyForSleep T = s.readyForSleep T) :
    SchedInv t := by
  have hs : s.At T (.pushes w) := hpushes
  have hnotmem : T ∉ s.waitTaskQueue.entries := by
    intro hm
    cases h.unique _ .queue _ hm hs
  refine h.callStep hsame ?_ ?_ ⟨.queue, ?_⟩ ?_ hready (hstate ▸ h.awake T)
  · intro T' hh
    rw [hcall] at hh
    cases hh
  · intro T' _ hp
    rw [hcall] at hp
    cases hp
  · intro p hp
    rcases at_call hsame hcall hp with ⟨rfl, -⟩ | ⟨-, hn⟩ | ⟨hat, -, hne⟩
    · have hok := h.ok T _ hs
      refine ⟨rfl, ?_⟩
      rwa [taskOk_queue, hstate, hsame.idle]
    · cases hn
    · exact absurd (h.unique _ _ _ hat hs) hne
  · rcases hqueue with hqueue | hperm
    · exact hqueue ▸ h.nodup
    · exact hperm.symm.nodup (List.nodup_cons.mpr ⟨hnotmem, h.nodup⟩)

end SchedInv

end ShmDos64
