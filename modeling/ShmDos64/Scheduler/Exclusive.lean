import ShmDos64.Scheduler.Moves
/-!
# No task runs on two processors

Each step of the scheduler, of a wait and of a wake-up keeps the places of
the tasks apart, so that in every run a task is executed by one processor
at most and is not queued while it is executed.
-/

namespace ShmDos64

open Function (update update_of_ne update_self)
open SchedState TaskPriorityQueue CpuPc CallPc

variable {κ ω τ ε : Type*}

namespace SchedInv

variable {s t : SchedState κ ω τ ε} {a : κ ⊕ ω} {c : κ} {w : ω} {T : τ}

section Updates

theorem spin_update [DecidableEq τ] (h : s.spin T = none ∨ s.spin T = some a) (x : Option (κ ⊕ ω))
    (T' : τ) : s.spin T' = none ∨ s.spin T' = some a ∨ update s.spin T x T' = s.spin T' := by
  by_cases hT : T' = T
  · subst hT
    exact h.imp id .inl
  · exact .inr (.inr (update_of_ne hT _ _))

theorem pc_update [DecidableEq κ] {X : CpuPc τ} (c' : κ) (hne : (.inl c : κ ⊕ ω) ≠ .inl c') :
    update s.pc c X c' = s.pc c' :=
  update_of_ne (fun hc => hne (congrArg Sum.inl hc.symm)) _ _

theorem call_update [DecidableEq ω] {X : CallPc τ ε} (w' : ω) (hne : (.inr w : κ ⊕ ω) ≠ .inr w') :
    update s.call w X w' = s.call w' :=
  update_of_ne (fun hw => hne (congrArg Sum.inr hw.symm)) _ _

theorem mem_of_push {q q' : TaskPriorityQueue τ}
    (h : q' = q ∨ q'.entries.Perm (T :: q.entries)) (T' : τ) (hne : T' ≠ T)
    (hm : T' ∈ q'.entries) : T' ∈ q.entries := by
  rcases h with hq | hq
  · exact hq ▸ hm
  · exact (List.mem_cons.mp (hq.subset hm)).resolve_left hne

theorem like_update [DecidableEq κ] {X : CpuPc τ} (hX : (s.pc c).Like X) (c' : κ) :
    (s.pc c').Like (update s.pc c X c') := by
  by_cases hc : c' = c
  · subst hc
    rwa [update_self]
  · rw [update_of_ne hc]
    exact ⟨rfl, rfl, rfl, rfl⟩

/-- A push adds one entry or none. -/
theorem pushWait_queue [DecidableEq τ] : (s.pushWait T).waitTaskQueue = s.waitTaskQueue ∨
    (s.pushWait T).waitTaskQueue.entries.Perm (T :: s.waitTaskQueue.entries) := by
  unfold pushWait
  cases hp : s.waitTaskQueue.push s.wakeTime s.priorityQueueIndex T with
  | none => exact .inl rfl
  | some r => exact .inr (push_spec hp).1

end Updates

variable [DecidableEq κ] [DecidableEq τ]

/-! ## The current task -/

/-- `prepareToSleep` makes the current task sleep and keeps its lock. -/
theorem prepareToSleep {timeout : ℕ} (h : SchedInv s) (hst : s.prepareToSleep c timeout = some t) :
    SchedInv t := by
  simp only [SchedState.prepareToSleep] at hst
  obtain ⟨hrun, hst⟩ := Option.ite_none_right_eq_some.mp hst
  obtain ⟨s', hl, hst⟩ := Option.bind_eq_some_iff.mp hst
  obtain ⟨hfree, rfl⟩ := lock_eq_some hl
  have hx : (s.pc c).executing = true := by
    rw [hrun.1]
    rfl
  -- both kinds of sleep
  have hsleep : ∀ st : TaskState, (st = .sleep ∨ st = .timedSleep) → ∀ wt : τ → ℕ,
      SchedInv { s with
        pc := update s.pc c .insert
        spin := update s.spin (s.current c) (some (.inl c))
        readyForSleep := update s.readyForSleep (s.current c) true
        state := update s.state (s.current c) st
        wakeTime := wt } := by
    intro st hst wt
    refine h.currentStep (c := c) ⟨pc_update, fun _ _ => rfl, fun _ _ => rfl, rfl, rfl,
      fun _ hne => update_of_ne hne _ _, fun _ hne => update_of_ne hne _ _,
      fun _ _ hq => hq, spin_update (.inl hfree) _⟩ rfl rfl hx (update_self _ _ _) rfl rfl
      (fun _ => update_self _ _ _) nofun (update_self _ _ _) ?_ ?_ ?_
    · rcases hst with rfl | rfl <;> exact ⟨nofun, nofun⟩
    · exact fun _ => .inr (update_self _ _ _)
    · exact fun hidle => absurd (hrun.2.symm.trans hidle) nofun
  split_ifs at hst
  · obtain ⟨⟩ := hst
    exact h
  · obtain ⟨⟩ := hst
    exact hsleep .timedSleep (.inr rfl) _
  · obtain ⟨⟩ := hst
    exact hsleep .sleep (.inl rfl) _

theorem insertTask {events : List ε} {need : Option ℕ} (h : SchedInv s)
    (hst : s.insertTask c events need = some t) : SchedInv t := by
  simp only [SchedState.insertTask] at hst
  split_ifs at hst with hpc
  obtain ⟨⟩ := hst
  refine h.congr (like_update ?_) rfl rfl rfl rfl rfl rfl rfl rfl
  rw [hpc]
  exact ⟨rfl, rfl, rfl, rfl⟩

omit [DecidableEq κ] in
theorem terminateCurrentTask (h : SchedInv s) (hst : s.terminateCurrentTask c = some t) :
    SchedInv t := by
  simp only [SchedState.terminateCurrentTask] at hst
  split_ifs at hst with hg
  obtain ⟨hpc, hidle, hfree, -⟩ := hg
  obtain ⟨⟩ := hst
  have hx : (s.pc c).executing = true := by
    rw [hpc]
    rfl
  have hr : s.readyForSleep (s.current c) ≠ true := by
    intro hr
    have hspin := h.held (.inl c) _ (.inl ⟨rfl, .inr ⟨hr, hx⟩⟩)
    rw [hfree] at hspin
    cases hspin
  refine h.currentStep (c := c) ⟨fun _ _ => rfl, fun _ _ => rfl, fun _ _ => rfl, rfl, rfl,
    fun _ hne => update_of_ne hne _ _, fun _ _ => rfl, fun _ _ hq => hq,
    fun _ => .inr (.inr rfl)⟩ rfl rfl hx hpc rfl rfl ?_ nofun (update_self _ _ _)
    ⟨nofun, nofun⟩ nofun ?_
  · rintro (hsw | hr')
    · cases hsw
    · exact absurd hr' hr
  · exact fun hidle' => absurd (hidle.symm.trans hidle') nofun

/-- A processor that begins to switch has the lock of its current task. -/
theorem beginTaskSwitch (h : SchedInv s) (hst : s.beginTaskSwitch c = some t) : SchedInv t := by
  simp only [SchedState.beginTaskSwitch] at hst
  obtain ⟨hpc, hst⟩ := Option.ite_none_right_eq_some.mp hst
  have hx : (s.pc c).executing = true := by
    rw [hpc]
    rfl
  obtain ⟨h1, h2, -, -, h5⟩ := h.ok _ _ (executes_current hx)
  split_ifs at hst with hr
  · -- the lock was left by `prepareToSleep`
    obtain ⟨⟩ := hst
    refine h.currentStep (c := c) ⟨pc_update, fun _ _ => rfl, fun _ _ => rfl, rfl, rfl,
      fun _ _ => rfl, fun _ hne => update_of_ne hne _ _, fun _ _ hq => hq,
      fun _ => .inr (.inr rfl)⟩ rfl rfl hx (update_self _ _ _) rfl rfl ?_ ?_ rfl
      ⟨h1, h2⟩ (fun _ => .inl rfl) (fun hi => (h5 hi).1)
    · exact fun _ => h.held (.inl c) _ (.inl ⟨rfl, .inr ⟨hr, hx⟩⟩)
    · exact fun _ => update_self _ _ _
  · obtain ⟨hfree, rfl⟩ := SchedState.map_lock_eq_some hst
    refine h.currentStep (c := c) ⟨pc_update, fun _ _ => rfl, fun _ _ => rfl, rfl, rfl,
      fun _ _ => rfl, fun _ _ => rfl, fun _ _ hq => hq, spin_update (.inl hfree) _⟩
      rfl rfl hx (update_self _ _ _) rfl rfl ?_ ?_ rfl
      ⟨h1, h2⟩ (fun _ => .inl rfl) (fun hi => (h5 hi).1)
    · exact fun _ => update_self _ _ _
    · exact fun _ => Bool.eq_false_iff.mpr hr

/-- `shedule` has returned the current task. -/
theorem keepCurrent (h : SchedInv s) (hsw : (s.pc c).switching = true)
    (hstate : s.state (s.current c) = .active) :
    SchedInv ((s.unlock (s.current c)).goto c .run) := by
  have hx := executing_of_switching hsw
  have hr := h.ready_current hsw
  obtain ⟨h1, h2, -, -, h5⟩ := h.ok _ _ (executes_current hx)
  refine h.currentStep (c := c) ⟨pc_update, fun _ _ => rfl, fun _ _ => rfl, rfl, rfl,
    fun _ _ => rfl, fun _ _ => rfl, fun _ _ hq => hq, spin_update (.inr (h.spin_current hsw)) _⟩
    rfl rfl hx (update_self _ _ _) rfl rfl ?_ nofun hstate ⟨nofun, nofun⟩ nofun
    (fun _ => rfl)
  rintro (hc | hc)
  · cases hc
  · exact absurd (hr.symm.trans hc) nofun

/-! ## The task to switch to -/

section

variable (h : SchedInv s)

include h

theorem sheduleBegin (hpc : s.pc c = .shedule) : SchedInv (s.sheduleBegin c) := by
  unfold SchedState.sheduleBegin
  dsimp only
  split_ifs with hg
  · exact h.keepCurrent (by rw [hpc]; rfl) hg.2.1
  · refine h.congr (like_update ?_) rfl rfl rfl rfl rfl rfl rfl rfl
    rw [hpc]
    exact ⟨rfl, rfl, rfl, rfl⟩

theorem sheduleTimed {timepoint : ℕ} (hpc : s.pc c = .timed timepoint) :
    SchedInv (s.sheduleTimed c timepoint) := by
  have hlike : ∀ X : CpuPc τ, (timed timepoint).Like X →
      ∀ c', (s.pc c').Like (update s.pc c X c') := fun X hX => like_update (hpc ▸ hX)
  unfold SchedState.sheduleTimed
  dsimp only
  split_ifs
  · exact h.congr (hlike .waits ⟨rfl, rfl, rfl, rfl⟩) rfl rfl rfl rfl rfl rfl rfl rfl
  · exact h.congr (hlike .waits ⟨rfl, rfl, rfl, rfl⟩) rfl rfl rfl rfl rfl rfl rfl rfl
  · exact h.congr (hlike (.timedPopped _ _) ⟨rfl, rfl, rfl, rfl⟩) rfl rfl rfl rfl rfl rfl rfl rfl

/-- A task is locked and becomes the one chosen. -/
theorem choose (hsw : (s.pc c).switching = true) (hfree : s.spin T = none)
    (hplace : ∀ p, s.At T p → p = .taken c)
    (hok : s.idle T = false ∧ (s.state T = .wait ∨ s.state T = .timedSleep) ∨
      s.idle T = true ∧ T = s.idleTask c)
    (hpc : t.pc = update s.pc c (.chosen T))
    (hspin : t.spin = update s.spin T (some (.inl c))) (hcall : t.call = s.call)
    (hcurrent : t.current = s.current) (hidleTask : t.idleTask = s.idleTask)
    (hidle : t.idle = s.idle) (hstate : t.state = s.state)
    (hready : t.readyForSleep = s.readyForSleep) (hqueue : t.waitTaskQueue = s.waitTaskQueue) :
    SchedInv t := by
  have hne : s.current c ≠ T := by
    rintro rfl
    have := h.spin_current hsw
    rw [hfree] at this
    cases this
  have hpc' : t.pc c = .chosen T := by
    rw [hpc]
    exact update_self _ _ _
  refine h.takeStep (T := T) ⟨?_, ?_, ?_, hidleTask, hidle, ?_, ?_, ?_, ?_⟩ hsw ?_
    (congrFun hcurrent c) hne ?_ ?_ ?_ (fun p hp => .inr (hplace p hp)) (hqueue ▸ h.nodup) ?_
    (congrFun hready T) (congrFun hstate T) ?_
  · exact fun c' hc => hpc ▸ pc_update c' hc
  · exact fun _ _ => congrFun hcurrent _
  · exact fun _ _ => congrFun hcall _
  · exact fun _ _ => congrFun hstate _
  · exact fun _ _ => congrFun hready _
  · exact fun _ _ hq => hqueue ▸ hq
  · exact fun T' => hspin ▸ spin_update (.inl hfree) _ T'
  · rw [hpc']
    rfl
  · rw [hspin, update_of_ne hne]
  · rw [hpc']
    rfl
  · intro _
    rw [hspin, update_self]
  · rw [hqueue]
    intro hm
    cases hplace .queue hm
  · rw [taskOk_taken, hpc', hidle, hstate, hidleTask]
    rcases hok with ⟨hi, hw | hw⟩ | hi
    · exact .inl ⟨hi, hw⟩
    · exact .inr (.inl ⟨rfl, hi, hw⟩)
    · exact .inr (.inr ⟨rfl, hi⟩)

/-- A sleeper whose time has come is in no place, and is taken. -/
theorem sheduleTimedPopped {timepoint : ℕ}
    (hpc : s.pc c = .timedPopped timepoint T) (hst : s.sheduleTimedPopped c timepoint T = some t) :
    SchedInv t := by
  obtain ⟨hfree, rfl⟩ := SchedState.map_lock_eq_some hst
  have hsw : (s.pc c).switching = true := by
    rw [hpc]
    rfl
  dsimp only
  split_ifs with hstate
  · have hidle : s.idle T = false := by
      by_contra hi
      rcases h.awake T (Bool.not_eq_false _ ▸ hi) with hs | hs <;> rw [hstate] at hs <;> cases hs
    have hno : ∀ p, ¬ s.At T p :=
      h.not_at_of_asleep (fun c hc => by rw [hfree] at hc; cases hc) (.inr hstate)
    exact h.choose hsw hfree (fun p hp => absurd hp (hno p)) (.inl ⟨hidle, .inr hstate⟩)
      rfl rfl rfl rfl rfl rfl rfl rfl rfl
  · refine h.congr (like_update ?_) rfl rfl rfl rfl rfl rfl rfl rfl
    rw [hpc]
    exact ⟨rfl, rfl, rfl, rfl⟩

/-- The top of `m_waitTaskQueue` leaves the queue and is taken. -/
theorem sheduleWaits (hpc : s.pc c = .waits) : SchedInv (s.sheduleWaits c) := by
  have hsw : (s.pc c).switching = true := by
    rw [hpc]
    rfl
  unfold SchedState.sheduleWaits
  split_ifs with hempty
  · refine h.congr (like_update ?_) rfl rfl rfl rfl rfl rfl rfl rfl
    rw [hpc]
    exact ⟨rfl, rfl, rfl, rfl⟩
  · set T := s.waitTaskQueue.minWakeTimeTask with hT
    have hperm : (T :: (s.waitTaskQueue.pop s.wakeTime s.priorityQueueIndex).1.entries).Perm
        s.waitTaskQueue.entries :=
      (pop_spec fun h0 => hempty (decide_eq_true h0)).1
    have hnodup := List.nodup_cons.mp (hperm.symm.nodup h.nodup)
    have hmem : s.At T .queue := hperm.subset (List.mem_cons_self ..)
    have hne : s.current c ≠ T := by
      intro hc
      cases h.unique _ _ _ hmem (hc ▸ executes_current (executing_of_switching hsw))
    have hpc' : update s.pc c (.waitPopped T) c = .waitPopped T := update_self _ _ _
    refine h.takeStep (T := T) (c := c) ⟨pc_update, fun _ _ => rfl, fun _ _ => rfl, rfl, rfl,
      fun _ _ => rfl, fun _ _ => rfl, fun T' _ hq => hperm.subset (List.mem_cons_of_mem _ hq),
      fun _ => .inr (.inr rfl)⟩ hsw (congrArg switching hpc') rfl hne rfl
      (congrArg CpuPc.taken hpc') ?_ ?_ hnodup.2 hnodup.1 rfl rfl ?_
    · intro hn
      cases (congrArg next hpc').symm.trans hn
    · intro p hp
      exact .inl (h.unique _ _ _ hp hmem)
    · obtain ⟨hst, hidle⟩ := h.ok _ _ hmem
      exact .inl ⟨hidle, hst⟩

/-- The task popped waits, and is chosen. -/
theorem sheduleWaitPopped (hpc : s.pc c = .waitPopped T)
    (hst : s.sheduleWaitPopped c T = some t) : SchedInv t := by
  obtain ⟨hfree, rfl⟩ := SchedState.map_lock_eq_some hst
  have hat : s.At T (.taken c) := by
    rw [at_taken, hpc]
    rfl
  have hok : s.idle T = false ∧ s.state T = .wait := by
    have hok := h.ok T _ hat
    rw [taskOk_taken, hpc] at hok
    rcases hok with hok | hok | hok
    · exact hok
    · cases hok.1
    · cases hok.1
  dsimp only
  rw [if_pos hok.2]
  exact h.choose (by rw [hpc]; rfl) hfree (fun p hp => h.unique _ _ _ hp hat)
    (.inl ⟨hok.1, .inl hok.2⟩) rfl rfl rfl rfl rfl rfl rfl rfl rfl

theorem sheduleFallback (hpc : s.pc c = .fallback)
    (hst : s.sheduleFallback c = some t) : SchedInv t := by
  have hsw : (s.pc c).switching = true := by
    rw [hpc]
    rfl
  unfold SchedState.sheduleFallback at hst
  dsimp only at hst
  split_ifs at hst with hactive
  · obtain ⟨⟩ := hst
    exact h.keepCurrent hsw hactive
  · obtain ⟨hfree, rfl⟩ := SchedState.map_lock_eq_some hst
    have hx := executes_current (executing_of_switching hsw)
    have hne : s.current c ≠ s.idleTask c := by
      intro hc
      exact hactive ((h.ok _ _ hx).2.2.2.2 (hc ▸ h.idle c)).1
    have hno := h.not_at_of_idle hne (by rw [hpc]; rfl)
    exact h.choose hsw hfree (fun p hp => absurd hp (hno p)) (.inr ⟨h.idle c, rfl⟩)
      rfl rfl rfl rfl rfl rfl rfl rfl rfl

end

/-! ## The switch -/

theorem endTaskSwitchOld (h : SchedInv s) (hpc : s.pc c = .chosen T) :
    SchedInv (s.endTaskSwitchOld c T) := by
  have hsw : (s.pc c).switching = true := by
    rw [hpc]
    rfl
  have hspin := h.spin_current hsw
  have hne : T ≠ s.current c := by
    rintro rfl
    have htaken : s.At (s.current c) (.taken c) := by
      rw [at_taken, hpc]
      rfl
    cases h.unique _ _ _ htaken (executes_current (executing_of_switching hsw))
  -- the lock of the task chosen is not touched
  have hspinT : update s.spin (s.current c) none T = s.spin T := update_of_ne hne _ _
  unfold SchedState.endTaskSwitchOld
  dsimp only
  generalize (if s.state T ≠ .priorityWait then s.waitTime (s.current c) else s.now) = wt
  split_ifs with hidle hactive htimed
  rotate_left
  · -- a preempted task is queued
    have hidle' : s.idle (s.current c) = false := Bool.eq_false_iff.mpr hidle
    have hqueue := pushWait_queue (s := s.setWait (s.current c) wt) (T := s.current c)
    have hstate : ((s.setWait (s.current c) wt).pushWait (s.current c)).state (s.current c) =
        .wait := update_self _ _ _
    refine h.retireStep (c := c) ⟨pc_update, fun _ _ => rfl, fun _ _ => rfl, rfl, rfl,
      fun _ hne => update_of_ne hne _ _, fun _ _ => rfl, mem_of_push hqueue,
      spin_update (.inr hspin) _⟩ hpc (update_self _ _ _) hspinT rfl ?_
      fun hi => absurd hi hidle
    · exact hqueue.imp id fun hq => ⟨hq, hstate, hidle'⟩
  all_goals
    exact h.retireStep (c := c) ⟨pc_update, fun _ _ => rfl, fun _ _ => rfl, rfl, rfl,
      fun _ _ => rfl, fun _ _ => rfl, fun _ _ hq => hq, spin_update (.inr hspin) _⟩ hpc
      (update_self _ _ _) hspinT rfl (.inl rfl) fun _ => rfl

theorem endTaskSwitchNew (h : SchedInv s) (hpc : s.pc c = .activate T) :
    SchedInv (s.endTaskSwitchNew c T) := by
  have hspin : s.spin T = some (.inl c) := h.held (.inl c) T (.inr (by rw [hpc]; rfl))
  refine h.activateStep (c := c) (T := T) ⟨pc_update, ?_, fun _ _ => rfl, rfl, rfl,
    fun _ hne => update_of_ne hne _ _, fun _ _ => rfl, fun _ _ hq => hq,
    spin_update (.inr hspin) _⟩ hpc (update_self _ _ _) (update_self _ _ _)
    (update_self _ _ _) rfl rfl
  exact fun c' hne => update_of_ne (fun hc => hne (congrArg Sum.inl hc.symm)) _ _

/-- Every step of a switch keeps the invariant. -/
theorem execCpu (h : SchedInv s) (hst : s.execCpu c = some t) : SchedInv t := by
  unfold SchedState.execCpu at hst
  split at hst
  · cases hst
  · cases hst
  · exact Option.some.inj hst ▸ h.sheduleBegin ‹_›
  · exact Option.some.inj hst ▸ h.sheduleTimed ‹_›
  · exact h.sheduleTimedPopped ‹_› hst
  · exact Option.some.inj hst ▸ h.sheduleWaits ‹_›
  · exact h.sheduleWaitPopped ‹_› hst
  · exact h.sheduleFallback ‹_› hst
  · exact Option.some.inj hst ▸ h.endTaskSwitchOld ‹_›
  · exact Option.some.inj hst ▸ h.endTaskSwitchNew ‹_›

/-! ## Calls -/

variable [DecidableEq ω] [DecidableEq ε]

omit [DecidableEq κ] in
theorem create (h : SchedInv s) (hst : s.create w T = some t) : SchedInv t := by
  unfold SchedState.create at hst
  split_ifs at hst with hg
  obtain ⟨-, hstate, hidle⟩ := hg
  obtain ⟨⟩ := hst
  have hcall : update s.call w (.enqueue T) w = .enqueue T := update_self _ _ _
  refine h.callTakeStep (w := w) (T := T) ⟨fun _ _ => rfl, fun _ _ => rfl, call_update, rfl, rfl,
    fun _ hne => update_of_ne hne _ _, fun _ _ => rfl, fun _ _ hq => hq,
    fun _ => .inr (.inr rfl)⟩ ?_ (h.not_at_of_none hstate hidle) (congrArg CallPc.pushes hcall) rfl
    (update_self _ _ _) hidle rfl
  intro T' hh
  cases (congrArg holds hcall).symm.trans hh

omit [DecidableEq κ] in
/-- A round of `set` under the task's lock. -/
theorem wake {event : ε} (h : SchedInv s) (hcall : s.call w = .locked event T) :
    SchedInv (s.wake w event T) := by
  have hspin : s.spin T = some (.inr w) := by
    refine h.held (.inr w) T ?_
    rw [holds_call, hcall]
    rfl
  have hidle : update s.call w .idle w = .idle := update_self _ _ _
  unfold SchedState.wake
  split_ifs with hawake hneed
  rotate_left 2
  · have hsleeps : s.state T = .sleep ∨ s.state T = .timedSleep := by
      by_contra hn
      exact hawake (not_or.mp hn)
    have hnotIdle : s.idle T = false := by
      by_contra hi
      rcases h.awake T (Bool.not_eq_false _ ▸ hi) with hs | hs <;>
        rcases hsleeps with hs' | hs' <;> rw [hs] at hs' <;> cases hs'
    have hpush : update s.call w (.push T) w = .push T := update_self _ _ _
    refine h.callTakeStep (w := w) (T := T) ⟨fun _ _ => rfl, fun _ _ => rfl, call_update, rfl, rfl,
      fun _ hne => update_of_ne hne _ _, fun _ _ => rfl, fun _ _ hq => hq,
      fun _ => .inr (.inr rfl)⟩ ?_ ?_ (congrArg CallPc.pushes hpush) rfl
      (update_self _ _ _) hnotIdle rfl
    · intro T' hh
      obtain rfl := Option.some.inj ((congrArg holds hpush).symm.trans hh)
      exact hspin
    · exact h.not_at_of_asleep (fun c hc => by rw [hspin] at hc; cases hc) hsleeps
  all_goals
    refine h.callLockStep (w := w) (T := T) ⟨fun _ _ => rfl, fun _ _ => rfl, call_update, rfl, rfl,
      fun _ _ => rfl, fun _ _ => rfl, fun _ _ hq => hq, spin_update (.inr hspin) _⟩ ?_
      (congrArg CallPc.pushes hidle) rfl rfl rfl
    intro T' hh
    cases (congrArg holds hidle).symm.trans hh

omit [DecidableEq κ] in
/-- Every step of a call keeps the invariant. -/
theorem execCall (h : SchedInv s) (hst : s.execCall w = some t) : SchedInv t := by
  unfold SchedState.execCall at hst
  split at hst
  · cases hst
  · rename_i event T hcall
    obtain ⟨hfree, rfl⟩ := SchedState.map_lock_eq_some hst
    have hcall' : update s.call w (.locked event T) w = .locked event T :=
      update_self _ _ _
    refine h.callLockStep (w := w) (T := T) ⟨fun _ _ => rfl, fun _ _ => rfl, call_update, rfl, rfl,
      fun _ _ => rfl, fun _ _ => rfl, fun _ _ hq => hq, spin_update (.inl hfree) _⟩ ?_
      (congrArg CallPc.pushes hcall') rfl rfl rfl
    intro T' hh
    obtain rfl := Option.some.inj ((congrArg holds hcall').symm.trans hh)
    exact update_self _ _ _
  · exact Option.some.inj hst ▸ h.wake ‹_›
  · rename_i T hcall
    obtain ⟨⟩ := hst
    have hspin : s.spin T = some (.inr w) := by
      refine h.held (.inr w) T ?_
      rw [holds_call, hcall]
      rfl
    have hqueue := pushWait_queue (s := s) (T := T)
    exact h.callPushStep (w := w) (T := T) ⟨fun _ _ => rfl, fun _ _ => rfl, call_update, rfl, rfl,
      fun _ _ => rfl, fun _ _ => rfl, mem_of_push hqueue, spin_update (.inr hspin) _⟩
      (by rw [hcall]; rfl) (update_self _ _ _) hqueue rfl rfl
  · rename_i T hcall
    obtain ⟨⟩ := hst
    have hqueue := pushWait_queue (s := s) (T := T)
    exact h.callPushStep (w := w) (T := T) ⟨fun _ _ => rfl, fun _ _ => rfl, call_update, rfl, rfl,
      fun _ _ => rfl, fun _ _ => rfl, mem_of_push hqueue, fun _ => .inr (.inr rfl)⟩
      (by rw [hcall]; rfl) (update_self _ _ _) hqueue rfl rfl

/-! ## Runs -/

/-- Every step keeps the invariant. -/
theorem apply {b : SchedAct κ ω τ ε} (h : SchedInv s) (hst : s.apply b = some t) : SchedInv t := by
  cases b with
  | tick d =>
    obtain ⟨⟩ := hst
    exact h.congr (fun _ => ⟨rfl, rfl, rfl, rfl⟩) rfl rfl rfl rfl rfl rfl rfl rfl
  | sleep c timeout => exact h.prepareToSleep hst
  | insert c events need => exact h.insertTask hst
  | terminate c => exact h.terminateCurrentTask hst
  | switch c => exact h.beginTaskSwitch hst
  | cpu c => exact h.execCpu hst
  | create w task => exact h.create hst
  | set w event task =>
    simp only [SchedState.apply] at hst
    split_ifs at hst with hg
    obtain ⟨⟩ := hst
    have hcall : update s.call w (.lock event task) w = .lock event task :=
      update_self _ _ _
    refine h.callLockStep (w := w) (T := task) ⟨fun _ _ => rfl, fun _ _ => rfl, call_update, rfl,
      rfl, fun _ _ => rfl, fun _ _ => rfl, fun _ _ hq => hq, fun _ => .inr (.inr rfl)⟩ ?_
      (congrArg CallPc.pushes hcall) rfl rfl rfl
    intro T' hh
    cases (congrArg holds hcall).symm.trans hh
  | call w => exact h.execCall hst

omit [DecidableEq κ] [DecidableEq τ] [DecidableEq ω] [DecidableEq ε] in
theorem initial (h : s.Initial) : SchedInv s := by
  -- the processors' first tasks are executed, and nothing else is anywhere
  have hat : ∀ T p, s.At T p → ∃ c, p = .executes c ∧ s.current c = T := by
    intro T p hp
    cases p with
    | queue =>
      obtain ⟨i, hi, -⟩ := mem_entriesUpto.mp hp
      have := h.waitTaskQueue
      omega
    | taken c =>
      rw [at_taken, h.pc c] at hp
      cases hp
    | pushes w =>
      rw [at_pushes, h.call w] at hp
      cases hp
    | executes c => exact ⟨c, rfl, hp.1⟩
  have hactive : ∀ c, s.state (s.current c) = .active := by
    intro c
    rcases h.state (s.current c) with ⟨hs, -⟩ | ⟨-, hs⟩
    · exact hs
    · exact absurd rfl (hs c)
  refine ⟨h.idleTask, h.idleTask_idle, ?_, ?_, ?_, ?_, ?_, ?_⟩
  · intro T hi
    rcases h.state T with ⟨hs, -⟩ | ⟨hs, -⟩
    · exact .inr hs
    · exact .inl hs
  · intro T p q hp hq
    obtain ⟨c, rfl, hc⟩ := hat T p hp
    obtain ⟨c', rfl, hc'⟩ := hat T q hq
    rw [h.current (hc.trans hc'.symm)]
  · rw [entries, h.waitTaskQueue]
    exact List.nodup_nil
  · intro T p hp
    obtain ⟨c, rfl, rfl⟩ := hat T p hp
    rw [taskOk_executes, hactive c, h.current_idle c, h.readyForSleep]
    exact ⟨by simp, by simp, by simp, fun _ => rfl, by simp⟩
  · intro a T hh
    cases a with
    | inl c =>
      rw [holds_cpu, h.pc c, h.readyForSleep] at hh
      rcases hh with ⟨-, hh | hh⟩ | hh
      · cases hh
      · cases hh.1
      · cases hh
    | inr w =>
      rw [holds_call, h.call w] at hh
      cases hh
  · intro T hr
    rw [h.readyForSleep] at hr
    cases hr

theorem reachable (h : (schedMachine κ ω τ ε).Reachable s) : SchedInv s :=
  h.invariant (fun _ => initial) fun _ _ _ hinv hst => hinv.apply hst

end SchedInv

/-- Task 0 sleeps, is woken, and is executed by the second processor, whose
task is queued in turn. -/
theorem exists_queued : ∃ s : SchedState (Fin 5) Unit ℕ ℕ,
    (schedMachine (Fin 5) Unit ℕ ℕ).Reachable s ∧ s.Executes 1 0 ∧
      s.waitTaskQueue.entries = [1] := by
  obtain ⟨s, hs, hP⟩ := Machine.Reachable.exists_of_foldlM (M := schedMachine (Fin 5) Unit ℕ ℕ)
    (P := fun s => (s.current 1 = 0 ∧ (s.pc 1).executing = true) ∧ s.waitTaskQueue.entries = [1])
    (fun _ _ _ h => h)
    (sleepOn 0 50 0 ++ [.set () 0 0, .call (), .call (), .call (), .switch 1] ++
      List.replicate 6 (.cpu 1))
    (.init fiveTasks_initial) (by decide +kernel)
  obtain ⟨hx, hq⟩ := of_decide_eq_true hP
  exact ⟨s, hs, hx, hq⟩

/-- **A queued task waits**, has one entry, and is in no other place: nobody
executes it, has popped it from `m_waitTaskQueue` or chosen it, or is about to
push it. -/
theorem queued_task_waits [DecidableEq κ] [DecidableEq ω] [DecidableEq τ] [DecidableEq ε]
    {s : SchedState κ ω τ ε} (h : (schedMachine κ ω τ ε).Reachable s) :
    s.waitTaskQueue.entries.Nodup ∧ ∀ T ∈ s.waitTaskQueue.entries,
      s.state T = .wait ∧ s.idle T = false ∧ ∀ p, s.At T p → p = .queue := by
  have hinv := SchedInv.reachable h
  refine ⟨hinv.nodup, fun T hT => ?_⟩
  obtain ⟨hwait, hidle⟩ := hinv.ok T .queue hT
  exact ⟨hwait, hidle, fun p hp => hinv.unique T p .queue hp hT⟩

theorem queued_task_waits_woken : ∃ s : SchedState (Fin 5) Unit ℕ ℕ,
    s.waitTaskQueue.entries = [1] ∧ s.state 1 = .wait ∧ s.idle 1 = false ∧
      ∀ p, s.At 1 p → p = .queue := by
  obtain ⟨s, hs, -, hq⟩ := exists_queued
  exact ⟨s, hq, (queued_task_waits hs).2 1 (by simp [hq])⟩

/-- **No task runs on two processors.** In every reachable state a task is
executed by one processor at most, and a task that is executed has no entry
in `m_waitTaskQueue`. -/
theorem task_runs_once [DecidableEq κ] [DecidableEq ω] [DecidableEq τ] [DecidableEq ε]
    {s : SchedState κ ω τ ε} (h : (schedMachine κ ω τ ε).Reachable s) :
    (∀ T c c', s.Executes c T → s.Executes c' T → c = c') ∧
    ∀ T c, s.Executes c T → T ∉ s.waitTaskQueue.entries := by
  have hinv := SchedInv.reachable h
  constructor
  · intro T c c' hc hc'
    have hc : s.At T (.executes c) := hc
    exact Place.executes.inj (hinv.unique T _ _ hc hc')
  · intro T c hc hm
    have hc : s.At T (.executes c) := hc
    cases hinv.unique T .queue _ hm hc

theorem task_runs_once_fiveTasks : ∃ s : SchedState (Fin 5) Unit ℕ ℕ,
    (s.Executes 1 0 ∧ s.waitTaskQueue.entries = [1]) ∧
    (∀ T c c', s.Executes c T → s.Executes c' T → c = c') ∧
    ∀ T c, s.Executes c T → T ∉ s.waitTaskQueue.entries := by
  obtain ⟨s, hs, hx⟩ := exists_queued
  exact ⟨s, hx, task_runs_once hs⟩

end ShmDos64
