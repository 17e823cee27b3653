import ShmDos64.EventObject.LockSleep
/-!
# Task switches and the locks

`shedule` has the current task locked and takes one task more: from the
timed sleeps, where its lock has to be free, from the waiting tasks, which
no processor runs, or the idle task, which is the processor's own.
`endTaskSwitch` gives up the old task before it runs the new one.
-/

namespace ShmDos64

open Function (update update_of_ne update_self)
open EventState EventLockPc

namespace EventLockState

open EventState (SameStates)

variable {κ τ ε : Type*}

/-! ## Switches -/

section Switch

variable [DecidableEq κ] [DecidableEq τ] [DecidableEq ε] {s t : EventLockState κ τ ε} {c : κ}
  {p q : EventLockPc τ ε} {T : τ} {e : ε} {idx : ℕ} {events : EventState τ ε}

namespace LockInv

omit [DecidableEq κ] [DecidableEq τ] [DecidableEq ε] in
/-- A step in `shedule`. -/
theorem switchQuiet (h : s.LockInv) (hq : Quiet s t c q) (hp : (s.pc c).phase = .switch)
    (hq' : q.phase = .switch) (hf : s.Fits c q) (hfree : Free s t c q) :
    t.TasksOk ∧ ∀ T, t.Base c T ↔ s.Base c T := by
  have hg : s.Glide c q := ⟨.inl (hp.trans hq'.symm), by rw [hp]; decide, by rw [hq']; decide⟩
  exact ⟨hq.tasksOk h.tasks hg hf hfree, fun T => hq.base_of_eq (hp.trans hq'.symm)⟩

omit [DecidableEq κ] [DecidableEq τ] [DecidableEq ε] in
theorem base_current (hp : (s.pc c).phase = .switch) : s.Base c (s.current c) := ⟨rfl, .inl hp⟩

section

variable (h : s.LockInv)

include h

section

variable (hb : ¬ s.Blocked c)

include hb

omit [DecidableEq τ] [DecidableEq ε] in
theorem switchGoto (hpc : s.pc c = p) (hp : p.phase = .switch)
    (hev : SameStates s.events events) (hq' : q.phase = .switch) (hf : s.Fits c q)
    (hfree : Free s s c q) (hasked : q.asked = none) (hgrip : q.grip = p.has) :
    ((s.withEvents events).goto c q).LockInv := by
  subst hpc
  have hq : Quiet s ((s.withEvents events).goto c q) c q := (moved_goto ..).quiet hev
  obtain ⟨ht, hbase⟩ := h.switchQuiet hq hp hq' hf hfree
  exact hq.goto h hb ht hbase rfl hasked hgrip

/-- The current task goes on. -/
theorem unlockCurrent (hp : (s.pc c).phase = .switch)
    (hhas : (s.pc c).has = none) (hactive : (s.events.task (s.current c)).state = .active)
    (ht : s.unlock c (.inr (s.current c)) .run = some t) : t.LockInv := by
  obtain ⟨hm, hspin⟩ := moved_unlock ht
  have hq : Quiet s t c .run := hm.quiet (.refl s.events)
  have hg : s.Glide c .run := ⟨.inr hactive, by rw [hp]; decide, nofun⟩
  have hf : s.CallFits c .run := ⟨.inl rfl, rfl, nofun, nofun, nofun⟩
  have htasks := hq.tasksOk h.tasks hg hf.fits (.of_none rfl)
  refine ⟨htasks, h.spin.unlock hb hq.apart hspin (by rw [hm.self]; rfl) (fun _ _ =>
    (h.holder_iff hb).mpr (.inl (base_current hp))) fun T' => ?_⟩
  rw [h.holder_iff hb, hhas]
  refine iff_of_false ?_ ?_
  · rintro (hbase | hgrip)
    · exact not_base_of_active (htasks.cpu c) (by rw [hq.current, hq.states, hactive])
        (.inl (by rw [hm.self]; rfl)) hbase
    · rw [hm.self] at hgrip
      cases hgrip
  · rintro ⟨⟨rfl, -⟩ | hcon, hne⟩
    · exact hne rfl
    · cases hcon

omit [DecidableEq τ] [DecidableEq ε] in
theorem switchBegin (hpc : s.pc c = .switch T) :
    (s.goto c .shedule).LockInv := by
  have hcpu := h.tasks.cpu c
  have hp : (s.pc c).phase = .call := by rw [hpc]; rfl
  obtain rfl := hcpu.own T (by rw [hpc]; rfl)
  have hm := moved_goto s c .shedule
  have hq : Quiet s (s.goto c .shedule) c .shedule := hm.quiet (.refl s.events)
  have hg : s.Glide c .shedule := ⟨.inr (hcpu.call hp), by rw [hp]; decide, nofun⟩
  refine ⟨hq.tasksOk h.tasks hg ⟨nofun, nofun, nofun, nofun, nofun, nofun, nofun, nofun⟩
    (.of_none rfl), h.spin.goto hb hq.apart rfl (by rw [hm.self]; rfl) fun T' => ?_⟩
  rw [h.holder_iff hb, hpc]
  unfold Mine
  rw [hm.self]
  refine ⟨?_, ?_⟩
  · rintro (⟨rfl, -⟩ | hcon)
    · exact .inr rfl
    · cases hcon
  · rintro (hbase | heq)
    · exact absurd hbase (not_base_of_active hcpu (hcpu.call hp) (.inr hp))
    · exact .inl ⟨(Option.some.inj heq).symm, .inl rfl⟩

theorem popTimed {u : EventLockState κ τ ε} (hpc : s.pc c = .timedLoop)
    (hfree : s.spin (.inr T) = []) {timedQueue : List τ}
    (hu : u = { s with timedSleepTaskQueue := timedQueue }) :
    (u.lock c (.inr T) (.timed T)).LockInv := by
  subst hu
  have hp : (s.pc c).phase = .switch := by rw [hpc]; rfl
  have hne : T ≠ s.current c := by
    rintro rfl
    have hhold := (h.holder_iff hb).mpr (.inl (base_current hp))
    rw [LockQueues.holder, hfree] at hhold
    cases hhold
  have hm := moved_lock { s with timedSleepTaskQueue := timedQueue } c (.inr T) (.timed T)
  have hq : Quiet s _ c (.timed T) := ⟨hm.self, hm.other, hm.current, hm.idle, hm.idleTask,
    hm.ready, by rw [hm.queue], by rw [hm.events]; exact .refl _⟩
  obtain ⟨ht, hbase⟩ := h.switchQuiet hq hp rfl ⟨by rintro ⟨⟩, by rintro _ ⟨⟩,
    by rintro _ ⟨⟩, by rintro _ ⟨⟩, by simp, by rintro _ _ ⟨⟩, by rintro _ ⟨⟩; exact hne, by simp⟩
    (.of_none rfl)
  refine ⟨ht, h.spin.lock hb hq.apart rfl (by rw [hm.self]; rfl) (by simp [hfree]) (by simp)
    (fun T' hT' => ?_) (fun T' hT' => ?_)⟩
  · rw [hq.mine_iff (hbase T')] at hT'
    rcases hT' with hb' | hgrip
    · exact .inl ((h.holder_iff hb).mpr (.inl hb'))
    · exact .inr ⟨congrArg Sum.inr (Option.some.inj hgrip), hfree⟩
  · rw [hq.mine_iff (hbase T')]
    rcases (h.holder_iff hb).mp hT' with hb' | hhas
    · exact .inl hb'
    · rw [hpc] at hhas
      cases hhas

theorem timed (hpc : s.pc c = .timed T) (ht : s.timed c T = some t) :
    t.LockInv := by
  have hcpu := h.tasks.cpu c
  have hne := hcpu.timed_ne T hpc
  have hp : (s.pc c).phase = .switch := by rw [hpc]; rfl
  have hhold : s.spin.holder (.inr T) = some c := (h.holder_iff hb).mpr (.inr (by rw [hpc]; rfl))
  unfold EventLockState.timed at ht
  split at ht
  · next hstate =>
    obtain ⟨⟩ := ht
    have hasleep : (s.events.task T).Asleep := .inr hstate
    have hidle := h.tasks.asleep T hasleep
    refine h.switchGoto hb hpc rfl (sameStates_updateTask _ _ fun _ => rfl) rfl
      ⟨nofun, nofun, nofun, ?_, nofun, ?_, nofun, nofun⟩ ?_ rfl rfl
    · rintro _ ⟨⟩ hi
      rw [hidle] at hi
      cases hi
    · rintro _ - ⟨⟩
      exact hne
    · rintro _ ⟨⟩
      refine .inr ⟨fun d => ?_, h.tasks.not_mem_of_state (by rw [hstate]; decide)⟩
      by_cases hd : d = c
      · subst hd
        rintro (⟨hcur, -⟩ | htarget)
        · exact hne hcur
        · rw [hpc] at htarget
          cases htarget
      · exact h.not_owns hhold hasleep hd
  · obtain ⟨hm, hspin⟩ := moved_unlock ht
    have hq : Quiet s t c .timedLoop := hm.quiet (.refl s.events)
    obtain ⟨ht, hbase⟩ := h.switchQuiet hq hp rfl
      ⟨nofun, nofun, nofun, nofun, nofun, nofun, nofun, nofun⟩ (.of_none rfl)
    exact hq.unlockTask h hb ht hbase hspin rfl rfl (by rw [hpc]; rfl) fun hb' => hne hb'.1

end

omit [DecidableEq κ] [DecidableEq τ] [DecidableEq ε] in
/-- What is so of the task to run next at one place is so at the next one. -/
theorem fits_target (hp : (s.pc c).phase = .switch) (htarget : (s.pc c).target = some T)
    (hq : q.target = some T) (hq' : q.phase = .switch) (hgrip : q.grip = some T) : s.Fits c q where
  waiting hw := absurd hw (of_switch hq').1
  own T' hT' := by
    rw [(of_switch hq').2.1] at hT'
    cases hT'
  waking T' hT' := by
    rw [(of_switch hq').2.2] at hT'
    cases hT'
  target_idle T' hT' := by
    obtain rfl := Option.some.inj (hq.symm.trans hT')
    exact (h.tasks.cpu c).target_idle _ htarget
  idlePc T' hT' := by
    subst hT'
    cases hgrip
  target_ne T' _ hT' := by
    obtain rfl := Option.some.inj (hq.symm.trans hT')
    exact (h.tasks.cpu c).target_ne _ hp htarget
  timed_ne T' hT' := by
    subst hT'
    cases hq
  popped T' hT' := by
    subst hT'
    cases hgrip

section

variable (hb : ¬ s.Blocked c)

include hb

theorem timedOthers (hpc : s.pc c = .timedOthers T idx)
    (hfree : ∀ e, idx < (s.events.task T).waitEventCount →
      ((s.events.task T).infos idx).object = some e → s.spin (.inl e) = [] ∨ s.spin.Bare c) :
    (s.timedOthers c T idx).LockInv := by
  have hp : (s.pc c).phase = .switch := by rw [hpc]; rfl
  have htarget : (s.pc c).target = some T := by rw [hpc]; rfl
  unfold EventLockState.timedOthers
  split
  · next hidx =>
    split
    · exact h.switchGoto hb hpc rfl (.refl s.events) rfl (h.fits_target hp htarget rfl rfl rfl)
        (.of_eq (by rw [hpc]; rfl)) rfl rfl
    · next e hobj =>
      have hq : Quiet s (s.lock c (.inl e) (.timedOther T idx e)) c (.timedOther T idx e) :=
        (moved_lock s c _ _).quiet (.refl s.events)
      obtain ⟨ht, hbase⟩ := h.switchQuiet hq hp rfl (h.fits_target hp htarget rfl rfl rfl)
        (.of_eq (by rw [hpc]; rfl))
      exact hq.lockEvent h hb ht hbase rfl rfl (by rw [hpc]; rfl) (hfree e hidx hobj)
  · exact h.switchGoto hb hpc rfl (sameStates_updateTask _ _ fun _ => rfl) rfl
      (h.fits_target hp htarget rfl rfl rfl) (.of_eq (by rw [hpc]; rfl)) rfl rfl

theorem timedOther (hpc : s.pc c = .timedOther T idx e)
    (ht : s.timedOther c T idx e = some t) : t.LockInv := by
  have hp : (s.pc c).phase = .switch := by rw [hpc]; rfl
  obtain ⟨events, hev, ht⟩ := Option.bind_eq_some_iff.mp ht
  obtain ⟨hm, hspin⟩ := moved_unlock ht
  have hq := hm.quiet (sameStates_excludeEventFromTask hev)
  obtain ⟨ht, hbase⟩ := h.switchQuiet hq hp rfl
    (h.fits_target hp (by rw [hpc]; rfl) rfl rfl rfl) (.of_eq (by rw [hpc]; rfl))
  exact hq.unlockEvent h hb ht hbase hspin rfl (by rw [hpc]; rfl)

theorem waits (hpc : s.pc c = .waits) (ht : s.waits c = some t) :
    t.LockInv := by
  have hcpu := h.tasks.cpu c
  have hp : (s.pc c).phase = .switch := by rw [hpc]; rfl
  have hact : (s.pc c).phase ≠ .activate := by rw [hp]; decide
  unfold EventLockState.waits at ht
  split at ht
  · cases ht
  · split at ht
    · next hactive => exact h.unlockCurrent hb hp (by rw [hpc]; rfl) hactive ht
    · next hsleep =>
      obtain ⟨⟩ := ht
      have hasleep := (hcpu.state hact).resolve_left hsleep
      -- the idle task is awake, the current one is not
      have hne : s.idleTask c ≠ s.current c := by
        intro heq
        have hidle := h.tasks.asleep _ hasleep
        rw [← heq, h.tasks.idleTask_idle] at hidle
        cases hidle
      have hq : Quiet s (s.lock c (.inr (s.idleTask c)) (.idle (s.idleTask c))) c
          (.idle (s.idleTask c)) := (moved_lock s c _ _).quiet (.refl s.events)
      have hnone : ∀ d, ¬ s.Owns d (s.idleTask c) := by
        intro d ho
        have hd : s.idleTask c = s.idleTask d := by
          rcases ho with ⟨heq, hpd⟩ | htarget
          · rw [heq]
            exact (h.tasks.cpu d).idle hpd (by rw [← heq]; exact h.tasks.idleTask_idle c)
          · exact (h.tasks.cpu d).target_idle _ htarget (h.tasks.idleTask_idle c)
        obtain rfl := h.tasks.idleTask hd
        rcases ho with ⟨heq, -⟩ | htarget
        · exact hne heq
        · rw [hpc] at htarget
          cases htarget
      have hf : s.Fits c (.idle (s.idleTask c)) := by
        refine ⟨nofun, nofun, nofun, ?_, ?_, ?_, nofun, nofun⟩
        · rintro _ ⟨⟩ -
          rfl
        · rintro _ ⟨⟩
          rfl
        · rintro _ - ⟨⟩
          exact hne
      obtain ⟨ht, hbase⟩ := h.switchQuiet hq hp rfl hf (by
        rintro _ ⟨⟩
        refine .inr ⟨hnone, fun hmem => ?_⟩
        have hidle := (h.tasks.queue _ hmem).2.1
        rw [h.tasks.idleTask_idle] at hidle
        cases hidle)
      exact hq.lockTask h hb ht hbase rfl rfl (by rw [hpc]; rfl) (fun hb' => hne hb'.1)
        (by rw [hpc]; exact nofun)

theorem popWait {u : EventLockState κ τ ε} (hpc : s.pc c = .waits)
    (hT : T ∈ s.waitTaskQueue) (hu : u = { s with waitTaskQueue := s.waitTaskQueue.erase T }) :
    (u.lock c (.inr T) (.ready T)).LockInv := by
  subst hu
  have hp : (s.pc c).phase = .switch := by rw [hpc]; rfl
  obtain ⟨hwait, hidle, hnone⟩ := h.tasks.queue T hT
  have hne : T ≠ s.current c := fun heq => hnone c (.inl ⟨heq, by rw [hp]; decide⟩)
  have hm := moved_lock { s with waitTaskQueue := s.waitTaskQueue.erase T } c (.inr T) (.ready T)
  have hq : Quiet s _ c (.ready T) := ⟨hm.self, hm.other, hm.current, hm.idle, hm.idleTask,
    hm.ready, by rw [hm.queue]; exact List.erase_sublist, by rw [hm.events]; exact .refl _⟩
  have hf : s.Fits c (.ready T) := by
    refine ⟨nofun, nofun, nofun, ?_, nofun, ?_, nofun, ?_⟩
    · rintro _ ⟨⟩ hi
      rw [hidle] at hi
      cases hi
    · rintro _ - ⟨⟩
      exact hne
    · rintro _ ⟨⟩
      exact hwait
  obtain ⟨ht, hbase⟩ := h.switchQuiet hq hp rfl hf (by
    rintro _ ⟨⟩
    refine .inr ⟨hnone, ?_⟩
    rw [hm.queue]
    exact fun hmem => (h.tasks.nodup.mem_erase_iff.mp hmem).1 rfl)
  exact hq.lockTask h hb ht hbase rfl rfl (by rw [hpc]; rfl) (fun hb' => hne hb'.1)
    (by rw [hpc]; exact nofun)

theorem ready (hpc : s.pc c = .ready T) (ht : s.ready c T = some t) :
    t.LockInv := by
  have hp : (s.pc c).phase = .switch := by rw [hpc]; rfl
  rw [EventLockState.ready, if_pos ((h.tasks.cpu c).popped T hpc)] at ht
  obtain ⟨⟩ := ht
  exact h.switchGoto hb hpc rfl (.refl s.events) rfl
    (h.fits_target hp (by rw [hpc]; rfl) rfl rfl rfl) (.of_eq (by rw [hpc]; rfl)) rfl rfl

omit [DecidableEq τ] [DecidableEq ε] in
theorem idle (hpc : s.pc c = .idle T) : (s.goto c (.chosen T)).LockInv := by
  have hp : (s.pc c).phase = .switch := by rw [hpc]; rfl
  exact h.switchGoto hb hpc rfl (.refl s.events) rfl
    (h.fits_target hp (by rw [hpc]; rfl) rfl rfl rfl) (.of_eq (by rw [hpc]; rfl)) rfl rfl

end

end

omit [DecidableEq κ] [DecidableEq ε] in
/-- What `endTaskSwitch` does with the old task. -/
theorem queueOld_spec (s : EventLockState κ τ ε) (T : τ) :
    Moved { s with events := (s.queueOld T).events, waitTaskQueue := (s.queueOld T).waitTaskQueue }
      (s.queueOld T) c (s.pc c) ∧ (s.queueOld T).spin = s.spin ∧
    (∀ T', T' ≠ T → ((s.queueOld T).events.task T').state = (s.events.task T').state) ∧
    ((s.idle T = false ∧ ((s.queueOld T).events.task T).state = .wait ∧
      (s.queueOld T).waitTaskQueue = s.waitTaskQueue ++ [T]) ∨
    ((s.queueOld T).events.task T).state = (s.events.task T).state ∧
      (s.queueOld T).waitTaskQueue = s.waitTaskQueue) := by
  unfold queueOld
  split
  · exact ⟨⟨rfl, fun _ _ => rfl, rfl, rfl, rfl, rfl, rfl, rfl⟩, rfl,
      fun _ _ => rfl, .inr ⟨rfl, rfl⟩⟩
  · next hidle =>
    split
    · refine ⟨⟨rfl, fun _ _ => rfl, rfl, rfl, rfl, rfl, rfl, rfl⟩, rfl, fun T' hT' => ?_,
        .inl ⟨Bool.eq_false_iff.mpr hidle, ?_, rfl⟩⟩
      · rw [updateTask_of_ne hT']
      · rw [updateTask_self]
    · split
      all_goals
        exact ⟨⟨rfl, fun _ _ => rfl, rfl, rfl, rfl, rfl, rfl, rfl⟩, rfl, fun _ _ => rfl,
          .inr ⟨rfl, rfl⟩⟩

section

variable (h : s.LockInv) (hb : ¬ s.Blocked c)

include h hb

theorem chosen (hpc : s.pc c = .chosen T)
    (ht : s.chosen c T = some t) : t.LockInv := by
  have hcpu := h.tasks.cpu c
  have hp : (s.pc c).phase = .switch := by rw [hpc]; rfl
  have hact : (s.pc c).phase ≠ .activate := by rw [hp]; decide
  have htarget : (s.pc c).target = some T := by rw [hpc]; rfl
  have hne := hcpu.target_ne T hp htarget
  have hhold : s.spin.holder (.inr (s.current c)) = some c :=
    (h.holder_iff hb).mpr (.inl (base_current hp))
  rw [EventLockState.chosen, if_neg (Ne.symm hne)] at ht
  obtain ⟨hm, hspin⟩ := moved_unlock ht
  obtain ⟨hu, huspin, hustate, hucases⟩ := queueOld_spec (c := c) s (s.current c)
  have hcurrent : t.current = s.current := hm.current.trans hu.current
  have hidle : t.idle = s.idle := hm.idle.trans hu.idle
  have hidleTask : t.idleTask = s.idleTask := hm.idleTask.trans hu.idleTask
  have hready : t.readyForSleep = s.readyForSleep := hm.ready.trans hu.ready
  have hother : ∀ d, d ≠ c → t.pc d = s.pc d := fun d hd => (hm.other d hd).trans (hu.other d hd)
  have hstate : ∀ T', T' ≠ s.current c →
      (t.events.task T').state = (s.events.task T').state := by
    intro T' hT'
    rw [hm.events]
    exact hustate T' hT'
  have ha : Apart s t c := h.apart hhold (fun d hd => h.current_unique hact hd) hother
    (fun d _ => by rw [hcurrent]) hidle hidleTask hstate (fun _ _ => by rw [hready])
  have howns : ∀ T', t.Owns c T' → T' = T := by
    rintro T' (⟨-, hphase⟩ | ht')
    · exact absurd (by rw [hm.self]; rfl) hphase
    · rw [hm.self] at ht'
      exact (Option.some.inj ht').symm
  have hqueue : t.waitTaskQueue = s.waitTaskQueue ∨
      t.waitTaskQueue = s.waitTaskQueue ++ [s.current c] ∧
        (t.events.task (s.current c)).state = .wait ∧ s.idle (s.current c) = false ∧
        ∀ d, ¬ t.Owns d (s.current c) := by
    rcases hucases with ⟨hi, hwait, hq⟩ | ⟨-, hq⟩
    · refine .inr ⟨hm.queue.trans hq, by rw [hm.events]; exact hwait, hi, fun d => ?_⟩
      by_cases hd : d = c
      · subst hd
        exact fun ho => hne (howns _ ho).symm
      · rw [ha.owns_iff hd]
        exact h.current_unique hact hd
    · exact .inl (hm.queue.trans hq)
  refine ⟨h.tasks.change ha ?_ (fun T' hT' => howns T' hT' ▸ owns_target htarget) hstate
    (h.tasks.not_mem_of_owns (owns_current hact)) (fun hs => ?_) hqueue ?_, ?_⟩
  · refine Fits.cpuOk (q := .activate T) ⟨nofun, nofun, nofun, ?_, nofun, nofun, nofun, nofun⟩
      hm.self (fun hq => absurd rfl hq) (fun hq => absurd rfl hq) nofun (fun hq => absurd rfl hq)
    rintro _ ⟨⟩
    rw [hidle, hidleTask]
    exact hcpu.target_idle T htarget
  · rcases hucases with ⟨hi, -, -⟩ | ⟨heq, -⟩
    · exact hi
    · rw [WaitTask.Asleep, hm.events, heq] at hs
      exact h.tasks.asleep _ hs
  · intro T' hT'
    rw [hready] at hT'
    exact .inr ⟨hT', fun hc => by rw [hp] at hc; cases hc.2⟩
  · refine h.spin.unlock hb ha (by rw [hspin, huspin]) (by rw [hm.self]; rfl) (fun _ _ => hhold)
      fun T' => ?_
    rw [h.holder_iff hb, hpc]
    unfold Mine
    rw [hm.self]
    refine ⟨?_, ?_⟩
    · rintro (⟨-, hs | ⟨hs, -⟩⟩ | hgrip)
      · cases hs
      · cases hs
      · refine ⟨.inr hgrip, fun heq => hne ?_⟩
        rw [Option.some.inj hgrip]
        exact (Sum.inr.inj heq).symm
    · rintro ⟨⟨rfl, -⟩ | hhas, hne'⟩
      · exact absurd rfl hne'
      · exact .inr hhas

theorem activate (hpc : s.pc c = .activate T)
    (ht : s.activate c T = some t) : t.LockInv := by
  have hcpu := h.tasks.cpu c
  have hp : (s.pc c).phase = .activate := by rw [hpc]; rfl
  have htarget : (s.pc c).target = some T := by rw [hpc]; rfl
  have hhold : s.spin.holder (.inr T) = some c := (h.holder_iff hb).mpr (.inr (by rw [hpc]; rfl))
  have hunique : ∀ d, d ≠ c → ¬ s.Owns d T := fun d hd ho =>
    hd (h.tasks.owns d c T ho (owns_target htarget))
  obtain ⟨hm, hspin⟩ := moved_unlock ht
  have hcurrent : t.current c = T := by
    rw [hm.current]
    exact update_self ..
  have hready : t.readyForSleep = s.readyForSleep := hm.ready
  have hstate : ∀ T', T' ≠ T → (t.events.task T').state = (s.events.task T').state := by
    intro T' hT'
    rw [hm.events, updateTask_of_ne hT']
  have hactive : (t.events.task T).state = .active := by
    rw [hm.events, updateTask_self]
  -- who is ready for sleep runs on its processor
  have hnot : s.readyForSleep T ≠ true := by
    intro hr
    obtain ⟨d, hcur, hrun⟩ := h.tasks.ready T hr
    obtain rfl := h.tasks.owns d c T (.inl ⟨hcur, by rw [hrun]; decide⟩) (owns_target htarget)
    rw [hp] at hrun
    cases hrun
  have ha : Apart s t c := h.apart hhold hunique hm.other
    (fun d hd => by rw [hm.current]; exact update_of_ne hd ..) hm.idle hm.idleTask hstate
    (fun _ _ => by rw [hready])
  have howns : ∀ T', t.Owns c T' → s.Owns c T' := by
    rintro T' (⟨hcur, -⟩ | ht')
    · rw [hcur, hcurrent]
      exact owns_target htarget
    · rw [hm.self] at ht'
      cases ht'
  refine ⟨h.tasks.change ha ?_ howns hstate (h.tasks.not_mem_of_owns (owns_target htarget))
    (fun hs => absurd hs (not_asleep_of_active hactive)) (.inl hm.queue) ?_, ?_⟩
  · refine Fits.cpuOk (q := .run) ⟨nofun, nofun, nofun, nofun, nofun, nofun, nofun, nofun⟩ hm.self
      (fun _ => ?_) (fun _ => iff_of_false ?_ ?_) nofun ?_
    · rw [hcurrent]
      exact .inl hactive
    · rw [hcurrent, hready]
      exact hnot
    · rw [hcurrent]
      exact fun hs => not_asleep_of_active hactive hs.2
    · rw [hcurrent, hm.idle, hm.idleTask]
      exact fun _ => hcpu.target_idle T htarget
  · intro T' hT'
    rw [hready] at hT'
    exact .inr ⟨hT', fun hc => by rw [hp] at hc; cases hc.2⟩
  · refine h.spin.unlock hb ha hspin (by rw [hm.self]; rfl) (fun _ _ => hhold) fun T' => ?_
    rw [h.holder_iff hb, hpc]
    unfold Mine Base
    rw [hm.self, hcurrent, hready, hpc]
    refine iff_of_false ?_ ?_
    · rintro (⟨rfl, hs | ⟨-, hr⟩⟩ | hgrip)
      · cases hs
      · exact hnot hr
      · cases hgrip
    · rintro ⟨⟨-, hs | ⟨hs, -⟩⟩ | hhas, hne⟩
      · cases hs
      · cases hs
      · exact hne (congrArg Sum.inr (Option.some.inj hhas))

omit [DecidableEq κ] [DecidableEq ε] in
/-- The lock that `prepareToSleep` took goes over to `shedule`. -/
theorem beginReady (hpc : s.pc c = .run)
    (hr : s.readyForSleep (s.current c) = true)
    (hm : Moved { s with readyForSleep := update s.readyForSleep (s.current c) false } t c .shedule)
    (hspin : t.spin = s.spin) : t.LockInv := by
  have hcpu := h.tasks.cpu c
  have hp : (s.pc c).phase = .run := by rw [hpc]; rfl
  have hact : (s.pc c).phase ≠ .activate := by rw [hp]; decide
  have hbase : s.Base c (s.current c) := ⟨rfl, .inr ⟨hp, hr⟩⟩
  have hhold : s.spin.holder (.inr (s.current c)) = some c := (h.holder_iff hb).mpr (.inl hbase)
  obtain ⟨-, hasleep⟩ := (hcpu.ready hact).mp hr
  have hcurrent : t.current = s.current := hm.current
  have hready : t.readyForSleep = update s.readyForSleep (s.current c) false := hm.ready
  have hevents : t.events = s.events := hm.events
  have hself : t.readyForSleep (s.current c) ≠ true := by
    rw [hready, update_self]
    decide
  have ha : Apart s t c := h.apart hhold (fun d hd => h.current_unique hact hd) hm.other
    (fun _ _ => by rw [hcurrent]) hm.idle hm.idleTask (fun _ _ => by rw [hevents])
    (fun T' hT' => by rw [hready, update_of_ne hT'])
  refine ⟨h.tasks.change ha ?_ ?_ (fun _ _ => by rw [hevents])
    (h.tasks.not_mem_of_owns (owns_current hact)) (by rw [hevents]; exact h.tasks.asleep _)
    (.inl hm.queue) ?_, ?_⟩
  · refine Fits.cpuOk (q := .shedule) ⟨nofun, nofun, nofun, nofun, nofun, nofun, nofun, nofun⟩
      hm.self (fun _ => ?_) (fun _ => iff_of_false ?_ nofun) nofun (fun _ => ?_)
    · rw [hevents, hcurrent]
      exact .inr hasleep
    · rw [hcurrent]
      exact hself
    · rw [hcurrent, hm.idle, hm.idleTask]
      exact hcpu.idle hact
  · rintro T' (⟨hcur, -⟩ | htarget)
    · exact .inl ⟨by rw [hcur, hcurrent], hact⟩
    · rw [hm.self] at htarget
      cases htarget
  · intro T' hT'
    by_cases hcur : T' = s.current c
    · exact absurd (hcur ▸ hT') hself
    · rw [hready, update_of_ne hcur] at hT'
      exact .inr ⟨hT', fun hc => hcur hc.1⟩
  · refine h.spin.goto hb ha hspin (by rw [hm.self]; rfl) fun T' => ?_
    rw [h.holder_iff hb, hpc]
    unfold Mine
    rw [hm.self, hcurrent]
    refine ⟨?_, ?_⟩
    · rintro (⟨rfl, -⟩ | hgrip)
      · exact .inl hbase
      · cases hgrip
    · rintro (⟨rfl, -⟩ | hhas)
      · exact .inl ⟨rfl, .inl rfl⟩
      · cases hhas

theorem beginTaskSwitch (hpc : s.pc c = .run) :
    (s.beginTaskSwitch c).LockInv := by
  have hcpu := h.tasks.cpu c
  have hp : (s.pc c).phase = .run := by rw [hpc]; rfl
  have hact : (s.pc c).phase ≠ .activate := by rw [hp]; decide
  simp only [EventLockState.beginTaskSwitch]
  split
  · next hr => exact h.beginReady hb hpc hr (moved_goto _ c .shedule) rfl
  · next hr =>
    have hactive := (hcpu.state hact).resolve_right fun hs => hr ((hcpu.ready hact).mpr ⟨hp, hs⟩)
    have hq : Quiet s (s.lock c (.inr (s.current c)) (.switch (s.current c))) c
        (.switch (s.current c)) := (moved_lock s c _ _).quiet (.refl s.events)
    obtain ⟨ht, hbase⟩ := h.awakeQuiet hq hactive (.inl hp)
      ⟨.inr rfl, rfl, nofun, fun _ hT => (Option.some.inj hT).symm, nofun⟩
    exact hq.lockTask h hb ht hbase rfl rfl (by rw [hpc]; rfl)
      (not_base_of_active hcpu hactive (.inl hp)) (by rw [hpc]; exact nofun)

end

end LockInv

end Switch

end EventLockState

end ShmDos64
