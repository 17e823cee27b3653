import ShmDos64.EventObject.LockSwitch
/-!
# Processors that wait for each other

The locks are taken in no order. A processor that has the lock of a task and
then asks for that of an event, or that takes a task from the timed sleeps,
may have to wait for a processor that waits for it, and so may one in
`waitMultiple` with several events; and a call on a processor that an earlier
`waitMultiple` left with a lock may wait for the processor itself. Where none
of these has to wait, there is no circle: who waits for the lock of an event
has no lock, who waits for that of a task in `set` or in a wait has locks of
events only, and a processor in `shedule` waits for a task that no other
processor runs.
-/

namespace ShmDos64

namespace EventLockState

variable {κ τ ε : Type*}

/-! ## Runs -/

section Runs

variable [DecidableEq κ] [DecidableEq τ] [DecidableEq ε]

/-- The event that the next step of a routine asks for besides locks it may
have: the next object of `waitMultiple`, or an event of a task that is woken
or whose time is up. -/
def askedEvent (s : EventLockState κ τ ε) (c : κ) : Option ε :=
  match s.pc c with
  | .multi call _ idx _ _ => call.objects[idx]?
  | .setOthers e T idx =>
    if idx < (s.events.task T).waitEventCount then
      ((s.events.task T).infos idx).object.filter (· ≠ e)
    else none
  | .timedOthers T idx =>
    if idx < (s.events.task T).waitEventCount then ((s.events.task T).infos idx).object else none
  | _ => none

/-- Calls begin without locks; who has a lock and asks for that of an event
gets it at once; and so does who takes a task from the timed sleeps. -/
def Calm (s : EventLockState κ τ ε) : EventLockAct κ τ ε → Prop
  | .set c _ | .wait c _ _ | .waitMultiple c _ _ => s.spin.Bare c
  | .popTimed _ T => s.spin (.inr T) = []
  | .step c => ∀ e, s.askedEvent c = some e → s.spin (.inl e) = [] ∨ s.spin.Bare c
  | _ => True

instance [Fintype τ] [Fintype ε] (s : EventLockState κ τ ε) (a : EventLockAct κ τ ε) :
    Decidable (s.Calm a) :=
  match a with
  | .set c _ | .wait c _ _ | .waitMultiple c _ _ => inferInstanceAs (Decidable (s.spin.Bare c))
  | .popTimed _ T => inferInstanceAs (Decidable (s.spin (.inr T) = []))
  | .step c => inferInstanceAs
    (Decidable (∀ e, s.askedEvent c = some e → s.spin (.inl e) = [] ∨ s.spin.Bare c))
  | .switch _ | .keep _ | .endTimed _ | .popWait _ _ => inferInstanceAs (Decidable True)

variable {s t : EventLockState κ τ ε} {c : κ}

namespace LockInv

theorem exec (h : s.LockInv) (hb : ¬ s.Blocked c)
    (hcalm : ∀ e, s.askedEvent c = some e → s.spin (.inl e) = [] ∨ s.spin.Bare c)
    (ht : s.exec c = some t) : t.LockInv := by
  unfold EventLockState.exec at ht
  split at ht
  case h_1 | h_19 => cases ht
  case h_2 e hpc => exact h.setBegin hb hpc ht
  case h_3 e hpc =>
    obtain ⟨⟩ := ht
    exact h.setLoop hb hpc
  case h_4 e T hpc => exact h.setTask hb hpc ht
  case h_5 e T idx hpc =>
    refine h.setOthers hb hpc (fun other hidx hobj hne => hcalm other ?_) ht
    simp [askedEvent, hpc, hidx, hobj, hne]
  case h_6 e T idx other hpc => exact h.setOther hb hpc ht
  case h_7 e T idx hpc =>
    obtain ⟨⟩ := ht
    exact h.setNext hb hpc
  case h_8 e hpc => exact h.setEnd hb hpc ht
  case h_9 e timeout hpc => exact h.waitExStatus hb hpc ht
  case h_10 e timeout T hpc => exact h.waitOwn hb hpc ht
  case h_11 e hpc => exact h.waitFail hb hpc ht
  case h_12 call timeout idx setCount needWait hpc =>
    obtain ⟨⟩ := ht
    refine h.multi hb hpc fun e he => hcalm e ?_
    simp [askedEvent, hpc, he]
  case h_13 call timeout idx setCount needWait obj hpc => exact h.multiObject hb hpc ht
  case h_14 obj times hpc => exact h.multiReturn hb hpc ht
  case h_15 call timeout needWait T hpc => exact h.multiOwn hb hpc ht
  case h_16 call held insert hpc => exact h.multiUnlock hb hpc ht
  case h_17 T hpc =>
    obtain ⟨⟩ := ht
    exact h.switchBegin hb hpc
  case h_18 hpc =>
    obtain ⟨⟩ := ht
    exact h.switchGoto hb hpc rfl (.refl s.events) rfl
      ⟨nofun, nofun, nofun, nofun, nofun, nofun, nofun, nofun⟩ (.of_none rfl) rfl rfl
  case h_20 T hpc => exact h.timed hb hpc ht
  case h_21 T idx hpc =>
    obtain ⟨⟩ := ht
    refine h.timedOthers hb hpc fun e hidx hobj => hcalm e ?_
    simp [askedEvent, hpc, hidx, hobj]
  case h_22 T idx e hpc => exact h.timedOther hb hpc ht
  case h_23 hpc => exact h.waits hb hpc ht
  case h_24 T hpc => exact h.ready hb hpc ht
  case h_25 T hpc =>
    obtain ⟨⟩ := ht
    exact h.idle hb hpc
  case h_26 T hpc => exact h.chosen hb hpc ht
  case h_27 T hpc => exact h.activate hb hpc ht

omit [DecidableEq κ] [DecidableEq τ] [DecidableEq ε] in
/-- A task that calls a function without a lock is awake. -/
theorem active_of_bare (h : s.LockInv) (hpc : s.pc c = .run) (hbare : s.spin.Bare c) :
    (s.events.task (s.current c)).state = .active := by
  have hcpu := h.tasks.cpu c
  have hact : (s.pc c).phase ≠ .activate := by rw [hpc]; exact nofun
  refine (hcpu.state hact).resolve_right fun hs => ?_
  have hp : (s.pc c).phase = .run := by rw [hpc]; rfl
  exact hbare _ (h.spin.mine c _ (.inl ⟨rfl, .inr ⟨hp, (hcpu.ready hact).mpr ⟨hp, hs⟩⟩⟩))

/-- **One step.** -/
theorem apply {a : EventLockAct κ τ ε} (h : s.LockInv) (hcalm : s.Calm a)
    (ht : s.apply a = some t) : t.LockInv := by
  unfold EventLockState.apply at ht
  split at ht
  · cases ht
  next hb =>
  cases a with
  | set c e =>
    obtain ⟨⟨hpc, -⟩, ht⟩ := Option.ite_none_right_eq_some.mp ht
    obtain ⟨⟩ := ht
    have hq : Quiet s (s.lock c (.inl e) (.set e)) c (.set e) :=
      (moved_lock s c _ _).quiet (.refl s.events)
    obtain ⟨ht, hbase⟩ := h.awakeQuiet hq (h.active_of_bare hpc hcalm) (.inl (by rw [hpc]; rfl))
      ⟨.inr rfl, rfl, nofun, nofun, nofun⟩
    exact hq.lockEvent h hb ht hbase rfl rfl (by rw [hpc]; rfl) (.inr hcalm)
  | wait c e timeout =>
    obtain ⟨⟨⟨hpc, -⟩, hidle⟩, ht⟩ := Option.ite_none_right_eq_some.mp ht
    obtain ⟨⟩ := ht
    have hq : Quiet s (s.lock c (.inl e) (.wait e timeout)) c (.wait e timeout) :=
      (moved_lock s c _ _).quiet (.refl s.events)
    obtain ⟨ht, hbase⟩ := h.awakeQuiet hq (h.active_of_bare hpc hcalm) (.inl (by rw [hpc]; rfl))
      ⟨.inr rfl, rfl, fun _ => hidle, nofun, nofun⟩
    exact hq.lockEvent h hb ht hbase rfl rfl (by rw [hpc]; rfl) (.inr hcalm)
  | waitMultiple c call timeout =>
    obtain ⟨⟨⟨hpc, -⟩, hidle, -, -⟩, ht⟩ := Option.ite_none_right_eq_some.mp ht
    obtain ⟨⟩ := ht
    have hq : Quiet s (s.goto c (.multi call timeout 0 0 [])) c (.multi call timeout 0 0 []) :=
      (moved_goto s c _).quiet (.refl s.events)
    obtain ⟨ht, hbase⟩ := h.awakeQuiet hq (h.active_of_bare hpc hcalm) (.inl (by rw [hpc]; rfl))
      ⟨.inr rfl, rfl, fun _ => hidle, nofun, nofun⟩
    exact hq.goto h hb ht hbase rfl rfl (by rw [hpc]; rfl)
  | switch c =>
    obtain ⟨⟨hpc, -⟩, ht⟩ := Option.ite_none_right_eq_some.mp ht
    obtain ⟨⟩ := ht
    exact h.beginTaskSwitch hb hpc
  | keep c =>
    obtain ⟨⟨hpc, -, hactive⟩, ht⟩ := Option.ite_none_right_eq_some.mp ht
    have hp : (s.pc c).phase = .switch := by rw [hpc]; rfl
    have hhas : (s.pc c).has = none := by rw [hpc]; rfl
    exact h.unlockCurrent hb hp hhas hactive ht
  | popTimed c T =>
    obtain ⟨⟨hpc, -⟩, ht⟩ := Option.ite_none_right_eq_some.mp ht
    obtain ⟨⟩ := ht
    exact h.popTimed hb hpc hcalm rfl
  | endTimed c =>
    obtain ⟨hpc, ht⟩ := Option.ite_none_right_eq_some.mp ht
    obtain ⟨⟩ := ht
    exact h.switchGoto hb hpc rfl (.refl s.events) rfl
      ⟨nofun, nofun, nofun, nofun, nofun, nofun, nofun, nofun⟩ (.of_none rfl) rfl rfl
  | popWait c T =>
    obtain ⟨⟨hpc, hT⟩, ht⟩ := Option.ite_none_right_eq_some.mp ht
    obtain ⟨⟩ := ht
    exact h.popWait hb hpc hT rfl
  | step c => exact h.exec hb hcalm ht

end LockInv

omit [DecidableEq κ] [DecidableEq τ] [DecidableEq ε] in
theorem Initial.lockInv (h : s.Initial) : s.LockInv := by
  have hphase : ∀ c, (s.pc c).phase = .run := fun c => by rw [h.pc c]; rfl
  have hasked : ∀ c, (s.pc c).asked = none := fun c => by rw [h.pc c]; rfl
  have howns : ∀ c T, s.Owns c T → T = s.current c := by
    rintro c T (⟨hT, -⟩ | hT)
    · exact hT
    · rw [h.pc c] at hT
      cases hT
  have hmine : ∀ c T, ¬ s.Mine c T := by
    rintro c T (⟨-, hs | ⟨-, hr⟩⟩ | hgrip)
    · rw [hphase c] at hs
      cases hs
    · rw [h.readyForSleep T] at hr
      cases hr
    · rw [h.pc c] at hgrip
      cases hgrip
  refine ⟨⟨h.idleTask, h.idleTask_idle, fun c => ?_, fun c d T hc hd => ?_, fun T hT => ?_,
    h.waitTaskQueue, fun T hT => absurd hT (h.events.awake T), fun T hT => ?_⟩,
    ⟨fun l => ?_, fun c l hw => ?_, fun c e hw => ?_, fun c T hh => ?_, fun c T hm => ?_,
    fun c T ha => ?_⟩⟩
  · refine Fits.cpuOk (q := .run) ⟨nofun, nofun, nofun, nofun, nofun, nofun, nofun, nofun⟩ (h.pc c)
      (fun _ => .inl (h.current_active c)) (fun _ => iff_of_false ?_ ?_) nofun (fun _ hi => ?_)
    · rw [h.readyForSleep]
      exact nofun
    · exact fun hs => not_asleep_of_active (h.current_active c) hs.2
    · rw [h.current_idle c] at hi
      cases hi
  · exact h.current ((howns c T hc).symm.trans (howns d T hd))
  · obtain ⟨hwait, hidle⟩ := h.waiting T hT
    refine ⟨hwait, hidle, fun c hc => ?_⟩
    rw [howns c T hc, h.current_active c] at hwait
    cases hwait
  · rw [h.readyForSleep T] at hT
    cases hT
  · rw [h.spin l]
    exact List.nodup_nil
  · rw [LockQueues.Waits, h.spin l] at hw
    cases hw
  · rw [LockQueues.Waits, h.spin] at hw
    cases hw
  · rw [LockQueues.holder, h.spin] at hh
    cases hh
  · exact absurd hm (hmine c T)
  · rw [hasked c] at ha
    cases ha

open Classical in
/-- Tasks come after events, and those that processors leave before those
that they are to run. -/
noncomputable def lockRank (s : EventLockState κ τ ε) : ε ⊕ τ → ℕ
  | .inl _ => 0
  | .inr T => if ∃ d, T = s.current d ∧ (s.pc d).phase = .switch then 1 else 2

omit [DecidableEq κ] [DecidableEq τ] [DecidableEq ε] in
theorem LockInv.rank_lt (h : s.LockInv) {l m : ε ⊕ τ} (hw : s.spin.Waits c l)
    (hh : s.spin.holder m = some c) : s.lockRank m < s.lockRank l := by
  have hask := h.spin.waits c l hw
  match l, m with
  | .inl e, _ => exact absurd hh (h.spin.bare c e hw _)
  | .inr T, .inl e =>
    simp only [lockRank]
    split <;> decide
  | .inr T, .inr T' =>
    have hno : ¬ s.spin.holder (.inr T) = some c := fun hT =>
      LockQueues.not_waits_of_holder (h.spin.nodup _) hT hw
    rcases h.spin.held c T' hh with (⟨rfl, hs | ⟨hrun, -⟩⟩ | hgrip) | hask'
    · -- in `shedule`, with the current task locked
      have htarget : (s.pc c).target = some T :=
        (EventLockPc.target_of_asked hask hs).resolve_left fun hg =>
          hno (h.spin.mine c T (.inr hg))
      have hone : ∃ d, s.current c = s.current d ∧ (s.pc d).phase = .switch := ⟨c, rfl, hs⟩
      have htwo : ¬ ∃ d, T = s.current d ∧ (s.pc d).phase = .switch := by
        rintro ⟨d, rfl, hd⟩
        obtain rfl := h.tasks.owns d c _ (owns_current (by rw [hd]; decide)) (owns_target htarget)
        exact (h.tasks.cpu d).target_ne _ hs htarget rfl
      rw [lockRank, lockRank, if_pos hone, if_neg htwo]
      decide
    · rw [EventLockPc.asked_of_run hrun] at hask
      cases hask
    · rw [EventLockPc.grip_of_asked hask hgrip] at hh
      exact absurd hh hno
    · obtain rfl := Sum.inr.inj (Option.some.inj (hask.symm.trans hask'))
      exact absurd hh hno

end Runs

end EventLockState

/-- **No circle.** In the runs in which calls begin without locks, and a
processor that has a lock never waits for that of an event or of a task of
the timed sleeps, no processors wait for each other's locks in a circle. -/
theorem locks_not_deadlocked {κ τ ε : Type*} [DecidableEq κ] [DecidableEq τ] [DecidableEq ε]
    {s : EventLockState κ τ ε}
    (h : ((eventLockMachine κ τ ε).guard EventLockState.Calm).Reachable s) :
    ¬ s.spin.Deadlocked := by
  have hinv : s.LockInv := h.invariant (fun _ hi => hi.lockInv) fun _ _ _ hs hst =>
    hs.apply hst.1 hst.2
  exact LockQueues.not_deadlocked s.lockRank fun _ _ _ hw hh => hinv.rank_lt hw hh

/-- A task's time is up and its processor has the locks of the task and of
the event, for which the other processor waits in `set`. -/
theorem locks_not_deadlocked_timeout :
    ∃ s, ((eventLockMachine (Fin 2) (Fin 4) (Fin 3)).guard EventLockState.Calm).Reachable s ∧
      s.spin.Waits 1 (.inl 0) ∧ s.spin.holder (.inl 0) = some 0 ∧
      s.spin.holder (.inr 0) = some 0 ∧ ¬ s.spin.Deadlocked := by
  obtain ⟨s, hs, hwait⟩ := Machine.Reachable.exists_of_guard
    (M := eventLockMachine (Fin 2) (Fin 4) (Fin 3)) EventLockState.Calm
    (P := fun s => decide (s.spin.Waits 1 (.inl 0) ∧ s.spin.holder (.inl 0) = some 0 ∧
      s.spin.holder (.inr 0) = some 0)) (fun _ _ _ h => h)
    (sleepTimed ++ [.switch 0, .step 0, .step 0, .popTimed 0 0, .step 0, .step 0, .set 1 0])
    (.init twoCpus_initial) (by decide +kernel)
  obtain ⟨h0, h1, h2⟩ := of_decide_eq_true hwait
  exact ⟨s, hs, h0, h1, h2, locks_not_deadlocked hs⟩

end ShmDos64
