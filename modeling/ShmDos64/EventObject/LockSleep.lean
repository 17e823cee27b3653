import ShmDos64.EventObject.LockCalls
/-!
# Tasks that wake and go to sleep, and the locks

A step may change the state of one task. No other processor runs a task that
sleeps and that this processor has locked, so `set` wakes a task that nobody
runs; and a task that goes to sleep leaves its lock with its processor.
-/

namespace ShmDos64

open Function (update update_of_ne update_self)
open EventState

namespace EventLockState

open EventState (SameStates)

variable {κ τ ε : Type*}

section Changes

variable {s t : EventLockState κ τ ε} {c d : κ} {q : EventLockPc τ ε} {T : τ}

theorem Fits.cpuOk (hf : t.Fits c q) (hpc : t.pc c = q)
    (hstate : q.phase ≠ .activate →
      (t.events.task (t.current c)).state = .active ∨ (t.events.task (t.current c)).Asleep)
    (hready : q.phase ≠ .activate → (t.readyForSleep (t.current c) = true ↔
      q.phase = .run ∧ (t.events.task (t.current c)).Asleep))
    (hcall : q.phase = .call → (t.events.task (t.current c)).state = .active)
    (hidle : q.phase ≠ .activate → t.idle (t.current c) = true → t.current c = t.idleTask c) :
    t.CpuOk c := by
  subst hpc
  exact ⟨hstate, hready, hcall, hidle, hf.waiting, hf.own, hf.waking, hf.target_idle, hf.idlePc,
    hf.target_ne, hf.timed_ne, hf.popped⟩

/-- No processor runs a task that sleeps and that another one has locked. -/
theorem LockInv.not_owns (h : s.LockInv) (hhold : s.spin.holder (.inr T) = some c)
    (hasleep : (s.events.task T).Asleep) (hd : d ≠ c) : ¬ s.Owns d T := by
  have hcpu := h.tasks.cpu d
  have hno : ¬ s.Mine d T := fun hm =>
    hd (Option.some.inj ((h.spin.mine d T hm).symm.trans hhold))
  rintro (⟨rfl, hp⟩ | htarget)
  · cases hphase : (s.pc d).phase with
    | run => exact hno (.inl ⟨rfl, .inr ⟨hphase, (hcpu.ready hp).mpr ⟨hphase, hasleep⟩⟩⟩)
    | call => exact not_asleep_of_active (hcpu.call hphase) hasleep
    | switch => exact hno (.inl ⟨rfl, .inl hphase⟩)
    | activate => exact hp hphase
  · rcases EventLockPc.grip_of_target htarget with hgrip | hpc | hpc
    · exact hno (.inr hgrip)
    · rw [WaitTask.Asleep, hcpu.popped T hpc] at hasleep
      rcases hasleep with h | h <;> cases h
    · -- an idle task does not sleep
      have hidle := h.tasks.asleep T hasleep
      rw [hcpu.idlePc T hpc, h.tasks.idleTask_idle] at hidle
      cases hidle

/-- A step that changes one task, which no other processor runs. -/
theorem LockInv.apart (h : s.LockInv) (hhold : s.spin.holder (.inr T) = some c)
    (hno : ∀ d, d ≠ c → ¬ s.Owns d T) (hpc : ∀ d, d ≠ c → t.pc d = s.pc d)
    (hcurrent : ∀ d, d ≠ c → t.current d = s.current d) (hidle : t.idle = s.idle)
    (hidleTask : t.idleTask = s.idleTask)
    (hstate : ∀ T', T' ≠ T → (t.events.task T').state = (s.events.task T').state)
    (hready : ∀ T', T' ≠ T → t.readyForSleep T' = s.readyForSleep T') : Apart s t c where
  pc := hpc
  current := hcurrent
  idle := hidle
  idleTask := hidleTask
  state d T' hd hT' := by
    refine hstate T' ?_
    rintro rfl
    rcases hT' with howns | hgrip
    · exact hno d hd howns
    · exact hd (Option.some.inj ((h.spin.mine d _ (.inr hgrip)).symm.trans hhold))
  ready d T' hd howns := by
    refine hready T' ?_
    rintro rfl
    exact hno d hd howns

theorem LockInv.current_unique (h : s.LockInv) (hp : (s.pc c).phase ≠ .activate) (hd : d ≠ c) :
    ¬ s.Owns d (s.current c) :=
  fun ho => hd (h.tasks.owns d c _ ho (owns_current hp))

end Changes

/-! ## Tasks that wake and go to sleep -/

section Sleep

variable [DecidableEq κ] [DecidableEq τ] [DecidableEq ε] {s t : EventLockState κ τ ε} {c : κ}
  {q : EventLockPc τ ε} {T : τ} {e : ε} {idx : ℕ} {events : EventState τ ε}

omit [DecidableEq κ] [DecidableEq ε] in
theorem wake_state_of_ne {slot : ℕ} {T' : τ} (h : T' ≠ T) :
    ((s.wake T slot).events.task T').state = (s.events.task T').state := by
  simp only [EventLockState.wake]
  rw [updateTask_of_ne h]

omit [DecidableEq κ] [DecidableEq ε] in
theorem wake_state {slot : ℕ} : ((s.wake T slot).events.task T).state = .wait := by
  simp only [EventLockState.wake]
  rw [updateTask_self]

namespace LockInv

section

variable (h : s.LockInv) (hb : ¬ s.Blocked c)

include h hb

theorem wake {slot : ℕ} (hpc : s.pc c = .setOthers e T idx)
    (ht : (s.wake T slot).unlock c (.inr T) (.setNext e T slot) = some t) : t.LockInv := by
  have hcpu := h.tasks.cpu c
  have hp : (s.pc c).phase = .call := by rw [hpc]; rfl
  have hactive := hcpu.call hp
  have hasleep := hcpu.waking T (by rw [hpc]; rfl)
  have hhold : s.spin.holder (.inr T) = some c := (h.holder_iff hb).mpr (.inr (by rw [hpc]; rfl))
  have hne : s.current c ≠ T := by
    rintro rfl
    exact not_asleep_of_active hactive hasleep
  have hno : ∀ d, ¬ s.Owns d T := by
    intro d
    by_cases hd : d = c
    · subst hd
      rintro (⟨hcur, -⟩ | htarget)
      · exact hne hcur.symm
      · rw [hpc] at htarget
        cases htarget
    · exact h.not_owns hhold hasleep hd
  obtain ⟨hm, hspin⟩ := moved_unlock ht
  have hstate : ∀ T', T' ≠ T → (t.events.task T').state = (s.events.task T').state := by
    intro T' hT'
    rw [hm.events, wake_state_of_ne hT']
  have ha : Apart s t c := h.apart hhold (fun d _ => hno d) hm.other
    (fun d _ => by rw [hm.current]; rfl) hm.idle hm.idleTask hstate
    (fun T' _ => by rw [hm.ready]; rfl)
  have hcurrent : t.current c = s.current c := by rw [hm.current]; rfl
  have hready : t.readyForSleep = s.readyForSleep := hm.ready
  have hactive' : (t.events.task (t.current c)).state = .active := by
    rw [hcurrent, hstate _ hne, hactive]
  have howns : ∀ T', t.Owns c T' → s.Owns c T' := by
    rintro T' (⟨hcur, -⟩ | htarget)
    · exact .inl ⟨hcur.trans hcurrent, by rw [hp]; decide⟩
    · rw [hm.self] at htarget
      cases htarget
  refine ⟨h.tasks.change ha ?_ howns hstate ?_ (fun _ => h.tasks.asleep T hasleep)
    (.inr ⟨?_, ?_, ?_, ?_⟩) ?_, ?_⟩
  · refine Fits.cpuOk (q := .setNext e T slot) ⟨nofun, nofun, nofun, nofun, nofun, nofun, nofun,
      nofun⟩ hm.self (fun _ => .inl hactive') (fun _ => iff_of_false ?_ nofun)
      (fun _ => hactive') ?_
    · rw [hready, hcurrent]
      exact hcpu.not_ready (by rw [hp]; decide) hactive
    · rw [hm.idle, hm.idleTask, hcurrent]
      exact fun _ => hcpu.idle (by rw [hp]; decide)
  · refine h.tasks.not_mem_of_state fun hwait => ?_
    rw [WaitTask.Asleep, hwait] at hasleep
    rcases hasleep with hs | hs <;> cases hs
  · exact hm.queue
  · rw [hm.events, wake_state]
  · exact h.tasks.asleep T hasleep
  · intro d
    by_cases hd : d = c
    · subst hd
      exact fun ho => hno d (howns T ho)
    · rw [ha.owns_iff hd]
      exact hno d
  · intro T' hT'
    rw [hready] at hT'
    exact .inr ⟨hT', fun hc => by rw [hp] at hc; cases hc.2⟩
  · refine h.spin.unlock hb ha hspin (by rw [hm.self]; rfl) (fun _ _ => hhold) fun T' => ?_
    rw [h.holder_iff hb, hpc]
    refine iff_of_false ?_ ?_
    · rintro (⟨-, hs | ⟨hs, -⟩⟩ | hs) <;> rw [hm.self] at hs <;> cases hs
    · rintro ⟨hbase | hhas, hne'⟩
      · exact not_base_of_active hcpu hactive (.inr hp) hbase
      · exact hne' (congrArg Sum.inr (Option.some.inj hhas))

theorem setOthers (hpc : s.pc c = .setOthers e T idx)
    (hfree : ∀ other, idx < (s.events.task T).waitEventCount →
      ((s.events.task T).infos idx).object = some other → other ≠ e →
      s.spin (.inl other) = [] ∨ s.spin.Bare c)
    (ht : s.setOthers c e T idx = some t) : t.LockInv := by
  have hasleep := (h.tasks.cpu c).waking T (by rw [hpc]; rfl)
  have hfits : ∀ idx, s.CallFits c (.setOthers e T idx) := fun idx =>
    ⟨.inr rfl, rfl, nofun, nofun, by rintro _ ⟨⟩; exact hasleep⟩
  unfold EventLockState.setOthers at ht
  split at ht
  · next hidx =>
    split at ht
    · obtain ⟨⟩ := ht
      exact h.callGoto hb hpc rfl (.refl s.events) (hfits (idx + 1)) rfl rfl
    · next other hobj =>
      split at ht
      · obtain ⟨⟩ := ht
        exact h.callGoto hb hpc rfl (.refl s.events) (hfits (idx + 1)) rfl rfl
      · next hne =>
        obtain ⟨⟩ := ht
        refine h.callLockEvent hb hpc rfl ⟨.inr rfl, rfl, nofun, nofun, ?_⟩ rfl rfl
          (hfree other hidx hobj hne)
        rintro _ ⟨⟩
        exact hasleep
  · obtain ⟨slot, -, ht⟩ := Option.bind_eq_some_iff.mp ht
    exact h.wake hb hpc ht

omit [DecidableEq κ] [DecidableEq ε] in
/-- The current task goes to sleep. -/
theorem sleep (hp : (s.pc c).phase = .call)
    (hwaiting : (s.pc c).Waiting) (hown : (s.pc c).own = some T) (hhas : (s.pc c).has = some T)
    (hev : (events.task T).Asleep)
    (hstate : ∀ T', T' ≠ T → (events.task T').state = (s.events.task T').state)
    (hm : Moved { s with events := events, readyForSleep := update s.readyForSleep T true } t c q)
    (hq : q.phase = .run) (hf : t.CallFits c q) (hgrip : q.grip = none) :
    t.TasksOk ∧ Apart s t c ∧ ∀ T', t.Mine c T' ↔ s.spin.holder (.inr T') = some c := by
  have hcpu := h.tasks.cpu c
  have hne : (s.pc c).phase ≠ .activate := by rw [hp]; decide
  have hidle := hcpu.waiting hwaiting
  obtain rfl := hcpu.own T hown
  have hhold : s.spin.holder (.inr (s.current c)) = some c := (h.holder_iff hb).mpr (.inr hhas)
  have hcurrent : t.current = s.current := hm.current
  have hready : t.readyForSleep = update s.readyForSleep (s.current c) true := hm.ready
  have hstate' : ∀ T', T' ≠ s.current c →
      (t.events.task T').state = (s.events.task T').state := by
    intro T' hT'
    rw [hm.events]
    exact hstate T' hT'
  have hasleep : (t.events.task (s.current c)).Asleep := by rw [hm.events]; exact hev
  have ha : Apart s t c := h.apart hhold (fun d hd => h.current_unique hne hd) hm.other
    (fun d _ => by rw [hcurrent]) hm.idle hm.idleTask hstate'
    (fun T' hT' => by rw [hready, update_of_ne hT'])
  have hself : t.readyForSleep (s.current c) = true := by rw [hready, update_self]
  refine ⟨h.tasks.change ha ?_ ?_ hstate' (h.tasks.not_mem_of_owns (owns_current hne))
    (fun _ => hidle) (.inl hm.queue) ?_, ha, ?_⟩
  · refine hf.fits.cpuOk hm.self (fun _ => .inr (by rw [hcurrent]; exact hasleep)) (fun _ => ?_)
      (fun hcall => by rw [hq] at hcall; cases hcall) ?_
    · rw [hcurrent]
      exact iff_of_true hself ⟨hq, hasleep⟩
    · rw [hcurrent, hm.idle]
      intro _ hi
      exact absurd hi (by rw [hidle]; decide)
  · rintro T' (⟨hcur, -⟩ | htarget)
    · exact .inl ⟨by rw [hcur, hcurrent], hne⟩
    · rw [hm.self, hf.target] at htarget
      cases htarget
  · intro T' hT'
    by_cases hcur : T' = s.current c
    · exact .inl ⟨by rw [hcur, hcurrent], by rw [hm.self, hq]⟩
    · rw [hready, update_of_ne hcur] at hT'
      exact .inr ⟨hT', fun hc => hcur hc.1⟩
  · intro T'
    rw [h.holder_iff hb, hhas]
    unfold Mine
    rw [hm.self, hq, hgrip, hcurrent]
    refine ⟨?_, ?_⟩
    · rintro (⟨rfl, -⟩ | hcon)
      · exact .inr rfl
      · cases hcon
    · rintro (hbase | heq)
      · exact absurd hbase (not_base_of_active hcpu (hcpu.call hp) (.inr hp))
      · obtain ⟨⟩ := heq
        exact .inl ⟨rfl, .inr ⟨rfl, hself⟩⟩

end

variable {timeout : ℕ}

omit [DecidableEq κ] [DecidableEq ε] in
theorem prepareToSleep_spec {s events : EventState τ ε}
    (h : s.prepareToSleep T timeout = some events) : (events.task T).Asleep ∧
      ∀ T', T' ≠ T → (events.task T').state = (s.task T').state := by
  unfold prepareToSleep at h
  split at h
  · cases h
  · obtain ⟨⟩ := h
    refine ⟨?_, fun T' hT' => by rw [updateTask_of_ne hT']⟩
    rw [WaitTask.Asleep, updateTask_self]
    by_cases ht : timeout = waitInfinite
    · exact .inl (if_neg (not_not.mpr ht))
    · exact .inr (if_pos ht)

theorem waitOwn (h : s.LockInv) (hb : ¬ s.Blocked c)
    (hpc : s.pc c = .waitOwn e timeout T) (ht : s.waitOwn c e timeout T = some t) : t.LockInv := by
  unfold EventLockState.waitOwn at ht
  split at ht
  · exact h.callUnlockTask hb hpc ht rfl (.refl s.events)
      ⟨.inr rfl, rfl, by rintro ⟨⟩, by rintro _ ⟨⟩, by rintro _ ⟨⟩⟩ rfl
      rfl rfl
  · next events₀ hsleep =>
    obtain ⟨events, hins, ht⟩ := Option.bind_eq_some_iff.mp ht
    obtain ⟨hasleep, hstate⟩ := prepareToSleep_spec hsleep
    have hsame := sameStates_insertTask hins
    obtain ⟨hm, hspin⟩ := moved_unlock ht
    obtain ⟨htasks, ha, hmine⟩ := h.sleep hb (by rw [hpc]; rfl) (by rw [hpc]; trivial)
      (by rw [hpc]; rfl) (by rw [hpc]; rfl) (by rw [WaitTask.Asleep, hsame]; exact hasleep)
      (fun T' hT' => (hsame T').trans (hstate T' hT')) hm rfl
      ⟨.inl rfl, rfl, by rintro ⟨⟩, by rintro _ ⟨⟩, by rintro _ ⟨⟩⟩ rfl
    refine ⟨htasks, h.spin.unlock hb ha hspin (by rw [hm.self]; rfl) (by simp) fun T' => ?_⟩
    rw [hmine]
    exact ⟨fun hT => ⟨hT, by simp⟩, fun hT => hT.1⟩

theorem multiOwn {call : WaitCall ε} {needWait : List Bool} (h : s.LockInv)
    (hb : ¬ s.Blocked c) (hpc : s.pc c = .multiOwn call timeout needWait T)
    (ht : s.multiOwn c call timeout needWait T = some t) : t.LockInv := by
  unfold EventLockState.multiOwn at ht
  split at ht
  · exact h.callUnlockTask hb hpc ht rfl (.refl s.events) ⟨.inl rfl, rfl, nofun, nofun, nofun⟩ rfl
      rfl rfl
  · next events hsleep =>
    obtain ⟨⟩ := ht
    obtain ⟨hasleep, hstate⟩ := prepareToSleep_spec hsleep
    have hm := moved_goto { s with
      events := events, readyForSleep := update s.readyForSleep T true } c
      (.multiUnlock call (call.objects.zip needWait) true)
    obtain ⟨htasks, ha, hmine⟩ := h.sleep hb (by rw [hpc]; rfl) (by rw [hpc]; trivial)
      (by rw [hpc]; rfl) (by rw [hpc]; rfl) hasleep hstate hm rfl
      ⟨.inl rfl, rfl, nofun, nofun, nofun⟩ rfl
    exact ⟨htasks, h.spin.goto hb ha rfl (by rw [hm.self]; rfl) hmine⟩

omit [DecidableEq κ] [DecidableEq τ] [DecidableEq ε] in
/-- A step in `unlockAll` and out of it. -/
theorem runQuiet (h : s.LockInv) (hq : Quiet s t c q) (hp : (s.pc c).phase = .run)
    (hq' : q.phase = .run) (hf : s.CallFits c q) : t.TasksOk ∧ ∀ T, t.Base c T ↔ s.Base c T := by
  have hg : s.Glide c q := ⟨.inl (hp.trans hq'.symm), by rw [hp]; decide, by rw [hq']; decide⟩
  exact ⟨hq.tasksOk h.tasks hg hf.fits (.of_none hf.target), fun T =>
    hq.base_of_eq (hp.trans hq'.symm)⟩

theorem multiUnlock {call : WaitCall ε} {insert : Bool} {held : List (ε × Bool)} (h : s.LockInv)
    (hb : ¬ s.Blocked c) (hpc : s.pc c = .multiUnlock call held insert)
    (ht : s.multiUnlock c call insert held = some t) : t.LockInv := by
  have hp : (s.pc c).phase = .run := by rw [hpc]; rfl
  have hgoto : ∀ {q : EventLockPc τ ε} {events : EventState τ ε}, SameStates s.events events →
      q.phase = .run → s.CallFits c q → q.asked = none → q.grip = none →
      ((s.withEvents events).goto c q).LockInv := by
    intro q events hev hq' hf hasked hgrip
    have hq : Quiet s ((s.withEvents events).goto c q) c q := (moved_goto ..).quiet hev
    obtain ⟨ht, hbase⟩ := h.runQuiet hq hp hq' hf
    exact hq.goto h hb ht hbase rfl hasked (by rw [hgrip, hpc]; rfl)
  have hfits : ∀ held, s.CallFits c (.multiUnlock call held insert) := fun _ =>
    ⟨.inl rfl, rfl, nofun, nofun, nofun⟩
  match held with
  | [] =>
    rw [EventLockState.multiUnlock] at ht
    split at ht
    · obtain ⟨⟩ := ht
      exact hgoto (sameStates_updateTask _ _ fun _ => rfl) rfl
        ⟨.inl rfl, rfl, nofun, nofun, nofun⟩ rfl rfl
    · obtain ⟨⟩ := ht
      exact hgoto (.refl s.events) rfl ⟨.inl rfl, rfl, nofun, nofun, nofun⟩ rfl rfl
  | (obj, needWait) :: held =>
    rw [EventLockState.multiUnlock] at ht
    split at ht
    · obtain ⟨events, hev, ht⟩ := Option.bind_eq_some_iff.mp ht
      have hsame : SameStates s.events events := by
        split at hev
        · exact sameStates_insertTask hev
        · obtain ⟨⟩ := hev
          exact .refl _
      obtain ⟨hm, hspin⟩ := moved_unlock ht
      have hq := hm.quiet hsame
      obtain ⟨ht, hbase⟩ := h.runQuiet hq hp rfl (hfits held)
      exact hq.unlockEvent h hb ht hbase hspin rfl (by rw [hpc]; rfl)
    · obtain ⟨⟩ := ht
      exact hgoto (.refl s.events) rfl (hfits held) rfl rfl

end LockInv

end Sleep

end EventLockState

end ShmDos64
