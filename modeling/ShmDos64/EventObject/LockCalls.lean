import ShmDos64.EventObject.LockInvariant
/-!
# The steps of calls and the locks

A step that moves a processor on and leaves the states of the tasks as they
are keeps the invariant if the next place has the locks that the processor
has. The steps of `set` and of the waits are of this kind, up to the one
that wakes a task and the one that puts the current task to sleep.
-/

namespace ShmDos64

open Function (update update_of_ne update_self)
open WaitTask EventState

namespace EventLockState

variable {κ τ ε : Type*}

/-- **The invariant.** -/
structure LockInv (s : EventLockState κ τ ε) : Prop where
  tasks : s.TasksOk
  spin : s.SpinOk

/-- The current task is locked. -/
def Base (s : EventLockState κ τ ε) (c : κ) (T : τ) : Prop :=
  T = s.current c ∧ ((s.pc c).phase = .switch ∨ (s.pc c).phase = .run ∧ s.readyForSleep T = true)

/-- What a place asks of the tasks. -/
structure Fits (s : EventLockState κ τ ε) (c : κ) (q : EventLockPc τ ε) : Prop where
  waiting : q.Waiting → s.idle (s.current c) = false
  own : ∀ T, q.own = some T → T = s.current c
  waking : ∀ T, q.waking = some T → (s.events.task T).Asleep
  target_idle : ∀ T, q.target = some T → s.idle T = true → T = s.idleTask c
  idlePc : ∀ T, q = .idle T → T = s.idleTask c
  target_ne : ∀ T, q.phase = .switch → q.target = some T → T ≠ s.current c
  timed_ne : ∀ T, q = .timed T → T ≠ s.current c
  popped : ∀ T, q = .ready T → (s.events.task T).state = .wait

/-- The processor stays in its phase, or its task is awake. -/
structure Glide (s : EventLockState κ τ ε) (c : κ) (q : EventLockPc τ ε) : Prop where
  phase : (s.pc c).phase = q.phase ∨ (s.events.task (s.current c)).state = .active
  before : (s.pc c).phase ≠ .activate
  after : q.phase ≠ .activate

section Quiet

variable {s t : EventLockState κ τ ε} {c d : κ} {q : EventLockPc τ ε} {T : τ} {l : ε ⊕ τ}

theorem not_asleep_of_active (h : (s.events.task T).state = .active) :
    ¬ (s.events.task T).Asleep := by
  rw [Asleep, h]
  decide

theorem CpuOk.not_ready (h : s.CpuOk c) (hp : (s.pc c).phase ≠ .activate)
    (ha : (s.events.task (s.current c)).state = .active) : s.readyForSleep (s.current c) ≠ true :=
  fun hr => not_asleep_of_active ha ((h.ready hp).mp hr).2

/-- A step that moves a processor on and leaves the tasks as they are. -/
structure Quiet (s t : EventLockState κ τ ε) (c : κ) (q : EventLockPc τ ε) : Prop where
  self : t.pc c = q
  other : ∀ d, d ≠ c → t.pc d = s.pc d
  current : t.current = s.current
  idle : t.idle = s.idle
  idleTask : t.idleTask = s.idleTask
  ready : t.readyForSleep = s.readyForSleep
  queue : t.waitTaskQueue.Sublist s.waitTaskQueue
  states : EventState.SameStates s.events t.events

/-- What a processor is to run next was nobody's. -/
def Free (s t : EventLockState κ τ ε) (c : κ) (q : EventLockPc τ ε) : Prop :=
  ∀ T, q.target = some T → (s.pc c).target = some T ∨
    (∀ d, ¬ s.Owns d T) ∧ T ∉ t.waitTaskQueue

theorem Free.of_none (h : q.target = none) : Free s t c q := by
  intro T hT
  rw [h] at hT
  cases hT

theorem Free.of_eq (h : q.target = (s.pc c).target) : Free s t c q := fun _ hT => .inl (h ▸ hT)

theorem Quiet.apart (h : Quiet s t c q) : Apart s t c where
  pc := h.other
  current d _ := by rw [h.current]
  idle := h.idle
  idleTask := h.idleTask
  state _ T _ _ := h.states T
  ready _ T _ _ := by rw [h.ready]

theorem Quiet.cpuOk (h : Quiet s t c q) (hc : s.CpuOk c) (hg : s.Glide c q) (hf : s.Fits c q) :
    t.CpuOk c where
  state _ := by
    rw [h.current, Asleep, h.states]
    exact hc.state hg.before
  ready _ := by
    rw [h.self, h.current, Asleep, h.states, h.ready, hc.ready hg.before]
    rcases hg.phase with heq | hactive
    · rw [heq]
      rfl
    · -- a task that is awake is not ready for sleep
      simp [Asleep, hactive]
  call hp := by
    rw [h.self] at hp
    rw [h.current, h.states]
    rcases hg.phase with heq | hactive
    · exact hc.call (heq.trans hp)
    · exact hactive
  idle _ := by
    rw [h.current, h.idle, h.idleTask]
    exact hc.idle hg.before
  waiting := by
    rw [h.self, h.current, h.idle]
    exact hf.waiting
  own := by
    rw [h.self, h.current]
    exact hf.own
  waking T hT := by
    rw [h.self] at hT
    rw [Asleep, h.states]
    exact hf.waking T hT
  target_idle := by
    rw [h.self, h.idle, h.idleTask]
    exact hf.target_idle
  idlePc := by
    rw [h.self, h.idleTask]
    exact hf.idlePc
  target_ne := by
    rw [h.self, h.current]
    exact hf.target_ne
  timed_ne := by
    rw [h.self, h.current]
    exact hf.timed_ne
  popped T hT := by
    rw [h.self] at hT
    rw [h.states]
    exact hf.popped T hT

theorem Quiet.tasksOk (h : Quiet s t c q) (hs : s.TasksOk) (hg : s.Glide c q) (hf : s.Fits c q)
    (hfree : Free s t c q) : t.TasksOk := by
  have howns : ∀ T, t.Owns c T → s.Owns c T ∨ (∀ d, ¬ s.Owns d T) ∧ T ∉ t.waitTaskQueue := by
    intro T hT
    unfold Owns at hT
    rw [h.self, h.current] at hT
    rcases hT with ⟨hcur, -⟩ | ht
    · exact .inl (.inl ⟨hcur, hg.before⟩)
    · exact (hfree T ht).imp_left .inr
  refine hs.step h.apart (h.cpuOk (hs.cpu c) hg hf)
    (fun T hT => (howns T hT).imp_right And.left) ?_ (hs.nodup.sublist h.queue) ?_ ?_
  · intro T hT
    obtain ⟨hstate, hidle, hnone⟩ := hs.queue T (h.queue.subset hT)
    refine ⟨by rw [h.states, hstate], by rw [h.idle, hidle], fun d hd => ?_⟩
    by_cases hdc : d = c
    · subst hdc
      rcases howns T hd with hd | ⟨-, hnot⟩
      · exact hnone d hd
      · exact hnot hT
    · exact hnone d ((h.apart.owns_iff hdc).mp hd)
  · intro T hT
    rw [Asleep, h.states] at hT
    rw [h.idle]
    exact hs.asleep T hT
  · intro T hT
    rw [h.ready] at hT
    rw [h.current, h.self]
    by_cases hcur : T = s.current c
    · subst hcur
      obtain ⟨hrun, hasleep⟩ := ((hs.cpu c).ready hg.before).mp hT
      rcases hg.phase with heq | hactive
      · exact .inl ⟨rfl, heq ▸ hrun⟩
      · exact absurd hasleep (not_asleep_of_active hactive)
    · exact .inr ⟨hT, fun hc => hcur hc.1⟩

theorem Quiet.mine_iff (h : Quiet s t c q) (hbase : t.Base c T ↔ s.Base c T) :
    t.Mine c T ↔ s.Base c T ∨ q.grip = some T := by
  rw [← hbase, ← h.self]
  rfl

theorem LockInv.holder_iff (h : s.LockInv) (hb : ¬ s.Blocked c) :
    s.spin.holder (.inr T) = some c ↔ s.Base c T ∨ (s.pc c).has = some T := by
  rw [h.spin.holder_iff hb, EventLockPc.has_eq_some_iff, Mine, ← or_assoc]
  rfl

/-- In a phase the lock of the current task stays as it is. -/
theorem Quiet.base_of_eq (h : Quiet s t c q) (hp : (s.pc c).phase = q.phase) :
    t.Base c T ↔ s.Base c T := by
  unfold Base
  rw [h.self, h.current, h.ready, hp]

/-- A task that is awake is not locked outside of switches. -/
theorem not_base_of_active (hc : s.CpuOk c) (ha : (s.events.task (s.current c)).state = .active)
    (hp : (s.pc c).phase = .run ∨ (s.pc c).phase = .call) : ¬ s.Base c T := by
  rintro ⟨rfl, hswitch | ⟨hrun, hready⟩⟩
  · rcases hp with hp | hp <;> rw [hp] at hswitch <;> cases hswitch
  · exact hc.not_ready (by rw [hrun]; decide) ha hready

theorem Quiet.base_of_active (h : Quiet s t c q) (hs : s.CpuOk c) (ht : t.CpuOk c)
    (ha : (s.events.task (s.current c)).state = .active)
    (hp : (s.pc c).phase = .run ∨ (s.pc c).phase = .call) (hq : q.phase = .run ∨ q.phase = .call) :
    t.Base c T ↔ s.Base c T := by
  refine iff_of_false (not_base_of_active ht ?_ ?_) (not_base_of_active hs ha hp)
  · rw [h.current, h.states, ha]
  · rwa [h.self]

theorem Quiet.goto (h : Quiet s t c q) (hs : s.LockInv) (hb : ¬ s.Blocked c) (ht : t.TasksOk)
    (hbase : ∀ T, t.Base c T ↔ s.Base c T) (hspin : t.spin = s.spin) (hasked : q.asked = none)
    (hgrip : q.grip = (s.pc c).has) : t.LockInv where
  tasks := ht
  spin := by
    refine hs.spin.goto hb h.apart hspin (by rw [h.self, hasked]) fun T => ?_
    rw [h.mine_iff (hbase T), hs.holder_iff hb, hgrip]

theorem LockInv.not_mem (h : s.LockInv) (hb : ¬ s.Blocked c) (hno : s.spin.holder l ≠ some c) :
    c ∉ s.spin l :=
  fun hc => hno (LockQueues.holder_of_mem hc (h.spin.not_waits hb l))

variable [DecidableEq τ] [DecidableEq ε] {e : ε}

variable (h : Quiet s t c q) (hs : s.LockInv) (hb : ¬ s.Blocked c) (ht : t.TasksOk)
  (hbase : ∀ T, t.Base c T ↔ s.Base c T)

include h hs hb ht hbase

theorem Quiet.lockEvent (hspin : t.spin = s.spin.request c (.inl e))
    (hasked : q.asked = some (.inl e)) (hgrip : q.grip = (s.pc c).has)
    (hfree : s.spin (.inl e) = [] ∨ s.spin.Bare c) : t.LockInv where
  tasks := ht
  spin := by
    have hmine : ∀ T, t.Mine c T ↔ s.spin.holder (.inr T) = some c := fun T => by
      rw [h.mine_iff (hbase T), hs.holder_iff hb, hgrip]
    refine hs.spin.lock hb h.apart hspin (by rw [h.self, hasked]) ?_ (fun e' he' => hfree)
      (fun T hT => .inl ((hmine T).mp hT)) (fun T hT => (hmine T).mpr hT)
    rcases hfree with hnil | hbare
    · rw [hnil]
      exact List.not_mem_nil
    · exact hs.not_mem hb (hbare _)

theorem Quiet.lockTask (hspin : t.spin = s.spin.request c (.inr T))
    (hasked : q.asked = some (.inr T)) (hgrip : q.grip = (s.pc c).has) (hno : ¬ s.Base c T)
    (hhas : (s.pc c).has ≠ some T) : t.LockInv where
  tasks := ht
  spin := by
    have hmine : ∀ T, t.Mine c T ↔ s.spin.holder (.inr T) = some c := fun T => by
      rw [h.mine_iff (hbase T), hs.holder_iff hb, hgrip]
    refine hs.spin.lock hb h.apart hspin (by rw [h.self, hasked]) (hs.not_mem hb ?_) nofun
      (fun T hT => .inl ((hmine T).mp hT)) (fun T hT => (hmine T).mpr hT)
    rw [Ne, hs.holder_iff hb]
    rintro (hbase | hh)
    · exact hno hbase
    · exact hhas hh

theorem Quiet.unlockEvent (hspin : t.spin = s.spin.release (.inl e)) (hasked : q.asked = none)
    (hgrip : q.grip = (s.pc c).has) : t.LockInv where
  tasks := ht
  spin := by
    refine hs.spin.unlock hb h.apart hspin (by rw [h.self, hasked]) nofun fun T => ?_
    rw [h.mine_iff (hbase T), hs.holder_iff hb, hgrip]
    exact ⟨fun hT => ⟨hT, nofun⟩, fun hT => hT.1⟩

theorem Quiet.unlockTask (hspin : t.spin = s.spin.release (.inr T)) (hasked : q.asked = none)
    (hgrip : q.grip = none) (hhas : (s.pc c).has = some T) (hno : ¬ s.Base c T) : t.LockInv where
  tasks := ht
  spin := by
    refine hs.spin.unlock hb h.apart hspin (by rw [h.self, hasked]) (fun T' hT' => ?_) fun T' => ?_
    · exact (hs.holder_iff hb).mpr (.inr hhas)
    · rw [h.mine_iff (hbase T'), hs.holder_iff hb, hgrip, hhas]
      refine ⟨?_, ?_⟩
      · rintro (hbase | hcon)
        · exact ⟨.inl hbase, fun heq => hno (Sum.inr.inj heq ▸ hbase)⟩
        · cases hcon
      · rintro ⟨hbase | heq, hne⟩
        · exact .inl hbase
        · exact absurd (congrArg Sum.inr (Option.some.inj heq)) hne

end Quiet

/-! ## The steps of calls -/

section Calls

open EventState (SameStates)

variable [DecidableEq κ] [DecidableEq τ] [DecidableEq ε] {s t : EventLockState κ τ ε} {c : κ}
  {q : EventLockPc τ ε} {T : τ} {e : ε} {l : ε ⊕ τ} {events : EventState τ ε}

/-- The processor goes to another place; but for that only locks change. -/
structure Moved (s t : EventLockState κ τ ε) (c : κ) (q : EventLockPc τ ε) : Prop where
  self : t.pc c = q
  other : ∀ d, d ≠ c → t.pc d = s.pc d
  current : t.current = s.current
  idle : t.idle = s.idle
  idleTask : t.idleTask = s.idleTask
  ready : t.readyForSleep = s.readyForSleep
  queue : t.waitTaskQueue = s.waitTaskQueue
  events : t.events = s.events

omit [DecidableEq τ] [DecidableEq ε] in
theorem moved_goto (s : EventLockState κ τ ε) (c : κ) (q : EventLockPc τ ε) :
    Moved s (s.goto c q) c q :=
  ⟨update_self .., fun _ hd => update_of_ne hd .., rfl, rfl, rfl, rfl, rfl, rfl⟩

theorem moved_lock (s : EventLockState κ τ ε) (c : κ) (l : ε ⊕ τ) (q : EventLockPc τ ε) :
    Moved s (s.lock c l q) c q :=
  ⟨update_self .., fun _ hd => update_of_ne hd .., rfl, rfl, rfl, rfl, rfl, rfl⟩

theorem moved_unlock (h : s.unlock c l q = some t) : Moved s t c q ∧ t.spin = s.spin.release l := by
  by_cases hl : s.spin l = []
  · rw [unlock, if_pos hl] at h
    cases h
  · rw [unlock, if_neg hl] at h
    obtain ⟨⟩ := h
    exact ⟨⟨update_self .., fun _ hd => update_of_ne hd .., rfl, rfl, rfl, rfl,
      rfl, rfl⟩, rfl⟩

omit [DecidableEq κ] [DecidableEq τ] [DecidableEq ε] in
theorem Moved.quiet (h : Moved (s.withEvents events) t c q) (hev : SameStates s.events events) :
    Quiet s t c q where
  self := h.self
  other := h.other
  current := h.current
  idle := h.idle
  idleTask := h.idleTask
  ready := h.ready
  queue := by
    rw [h.queue]
    exact .refl _
  states := by
    rw [h.events]
    exact hev

/-- A place in the code of a task. -/
structure CallFits (s : EventLockState κ τ ε) (c : κ) (q : EventLockPc τ ε) : Prop where
  outside : q.phase = .run ∨ q.phase = .call
  target : q.target = none
  waiting : q.Waiting → s.idle (s.current c) = false
  own : ∀ T, q.own = some T → T = s.current c
  waking : ∀ T, q.waking = some T → (s.events.task T).Asleep

omit [DecidableEq κ] [DecidableEq τ] [DecidableEq ε] in
theorem CallFits.fits (h : s.CallFits c q) : s.Fits c q where
  waiting := h.waiting
  own := h.own
  waking := h.waking
  target_idle T hT := by
    rw [h.target] at hT
    cases hT
  idlePc T hT := by
    subst hT
    cases h.target
  target_ne T _ hT := by
    rw [h.target] at hT
    cases hT
  timed_ne T hT := by
    subst hT
    rcases h.outside with hq | hq <;> cases hq
  popped T hT := by
    subst hT
    cases h.target

namespace LockInv

variable {p : EventLockPc τ ε}

omit [DecidableEq κ] [DecidableEq τ] in
theorem consume_eq (s : EventLockState κ τ ε) (e : ε) :
    ∃ events, SameStates s.events events ∧ s.consume e = s.withEvents events := by
  unfold consume
  split
  · exact ⟨s.events, .refl _, rfl⟩
  · exact ⟨_, sameStates_updateEvent s.events e _, rfl⟩

variable (h : s.LockInv)

include h

omit [DecidableEq κ] [DecidableEq τ] [DecidableEq ε] in
/-- A step of a task that is awake. -/
theorem awakeQuiet (hq : Quiet s t c q) (hactive : (s.events.task (s.current c)).state = .active)
    (hp : (s.pc c).phase = .run ∨ (s.pc c).phase = .call) (hf : s.CallFits c q) :
    t.TasksOk ∧ ∀ T, t.Base c T ↔ s.Base c T := by
  have hg : s.Glide c q := by
    refine ⟨.inr hactive, ?_, ?_⟩
    · rcases hp with hp | hp <;> rw [hp] <;> decide
    · rcases hf.outside with ho | ho <;> rw [ho] <;> decide
  have ht := hq.tasksOk h.tasks hg hf.fits (.of_none hf.target)
  exact ⟨ht, fun T => hq.base_of_active (h.tasks.cpu c) (ht.cpu c) hactive hp hf.outside⟩

omit [DecidableEq κ] [DecidableEq τ] [DecidableEq ε] in
theorem callQuiet (hq : Quiet s t c q) (hp : (s.pc c).phase = .call) (hf : s.CallFits c q) :
    t.TasksOk ∧ ∀ T, t.Base c T ↔ s.Base c T :=
  h.awakeQuiet hq ((h.tasks.cpu c).call hp) (.inr hp) hf

variable (hb : ¬ s.Blocked c)

include hb

section

variable (hpc : s.pc c = p) (hp : p.phase = .call)

include hpc hp

omit [DecidableEq τ] [DecidableEq ε] in
theorem callGoto (hev : SameStates s.events events)
    (hf : s.CallFits c q) (hasked : q.asked = none) (hgrip : q.grip = p.has) :
    ((s.withEvents events).goto c q).LockInv := by
  subst hpc
  have hq : Quiet s ((s.withEvents events).goto c q) c q := (moved_goto ..).quiet hev
  obtain ⟨ht, hbase⟩ := h.callQuiet hq hp hf
  exact hq.goto h hb ht hbase rfl hasked hgrip

theorem callLockEvent (hf : s.CallFits c q)
    (hasked : q.asked = some (.inl e)) (hgrip : q.grip = p.has)
    (hfree : s.spin (.inl e) = [] ∨ s.spin.Bare c) : (s.lock c (.inl e) q).LockInv := by
  subst hpc
  have hq : Quiet s (s.lock c (.inl e) q) c q := (moved_lock s c _ q).quiet (.refl s.events)
  obtain ⟨ht, hbase⟩ := h.callQuiet hq hp hf
  exact hq.lockEvent h hb ht hbase rfl hasked hgrip hfree

theorem callLockTask (hf : s.CallFits c q)
    (hasked : q.asked = some (.inr T)) (hgrip : q.grip = none) (hhas : p.has = none) :
    (s.lock c (.inr T) q).LockInv := by
  subst hpc
  have hq : Quiet s (s.lock c (.inr T) q) c q := (moved_lock s c _ q).quiet (.refl s.events)
  obtain ⟨ht, hbase⟩ := h.callQuiet hq hp hf
  exact hq.lockTask h hb ht hbase rfl hasked (by rw [hgrip, hhas])
    (not_base_of_active (h.tasks.cpu c) ((h.tasks.cpu c).call hp) (.inr hp))
    (by rw [hhas]; exact nofun)

end

theorem callUnlockEvent (hpc : s.pc c = p) (ht : (s.withEvents events).unlock c (.inl e) q = some t)
    (hp : p.phase = .call) (hev : SameStates s.events events) (hf : s.CallFits c q)
    (hasked : q.asked = none) (hgrip : q.grip = p.has) : t.LockInv := by
  subst hpc
  obtain ⟨hm, hspin⟩ := moved_unlock ht
  have hq := hm.quiet hev
  obtain ⟨ht, hbase⟩ := h.callQuiet hq hp hf
  exact hq.unlockEvent h hb ht hbase hspin hasked hgrip

theorem callUnlockTask (hpc : s.pc c = p) (ht : (s.withEvents events).unlock c (.inr T) q = some t)
    (hp : p.phase = .call) (hev : SameStates s.events events) (hf : s.CallFits c q)
    (hasked : q.asked = none) (hgrip : q.grip = none) (hhas : p.has = some T) : t.LockInv := by
  subst hpc
  obtain ⟨hm, hspin⟩ := moved_unlock ht
  have hq := hm.quiet hev
  obtain ⟨ht, hbase⟩ := h.callQuiet hq hp hf
  exact hq.unlockTask h hb ht hbase hspin hasked hgrip hhas
    (not_base_of_active (h.tasks.cpu c) ((h.tasks.cpu c).call hp) (.inr hp))

theorem setBegin (hpc : s.pc c = .set e) (ht : s.setBegin c e = some t) : t.LockInv := by
  unfold EventLockState.setBegin at ht
  split_ifs at ht with hset
  · exact h.callUnlockEvent hb hpc ht rfl (.refl s.events)
      ⟨.inl rfl, rfl, nofun, nofun, nofun⟩ rfl rfl
  · obtain ⟨⟩ := ht
    exact h.callGoto hb hpc rfl (fun _ => rfl) ⟨.inr rfl, rfl, nofun, nofun, nofun⟩ rfl rfl

theorem setLoop (hpc : s.pc c = .setLoop e) : (s.setLoop c e).LockInv := by
  unfold EventLockState.setLoop
  split
  · exact h.callGoto hb hpc rfl (.refl s.events) ⟨.inr rfl, rfl, nofun, nofun, nofun⟩ rfl rfl
  · exact h.callLockTask hb hpc rfl ⟨.inr rfl, rfl, nofun, nofun, nofun⟩ rfl rfl rfl

theorem setTask (hpc : s.pc c = .setTask e T) (ht : s.setTask c e T = some t) : t.LockInv := by
  unfold EventLockState.setTask at ht
  split at ht
  · obtain ⟨idx, -, ht⟩ := Option.bind_eq_some_iff.mp ht
    exact h.callUnlockTask hb hpc ht rfl (fun _ => rfl)
      ⟨.inr rfl, rfl, nofun, nofun, nofun⟩ rfl rfl rfl
  · next hasleep =>
    split at ht
    · obtain ⟨idx, -, ht⟩ := Option.bind_eq_some_iff.mp ht
      exact h.callUnlockTask hb hpc ht rfl
        (sameStates_updateTask s.events T fun _ => rfl)
        ⟨.inr rfl, rfl, nofun, nofun, nofun⟩ rfl rfl rfl
    · obtain ⟨⟩ := ht
      refine h.callGoto hb hpc rfl (.refl s.events) ⟨.inr rfl, rfl, nofun, nofun, ?_⟩ rfl rfl
      rintro _ ⟨⟩
      exact not_not.mp hasleep

theorem setOther {idx : ℕ} {other : ε} (hpc : s.pc c = .setOther e T idx other)
    (ht : s.setOther c e T idx other = some t) : t.LockInv := by
  have hasleep := (h.tasks.cpu c).waking T (by rw [hpc]; rfl)
  obtain ⟨events, hev, ht⟩ := Option.bind_eq_some_iff.mp ht
  refine h.callUnlockEvent hb hpc ht rfl (sameStates_excludeEventFromTask hev)
    ⟨.inr rfl, rfl, nofun, nofun, ?_⟩ rfl rfl
  rintro _ ⟨⟩
  exact hasleep

omit [DecidableEq τ] in
theorem setNext {idx : ℕ} (hpc : s.pc c = .setNext e T idx) : (s.setNext c e T idx).LockInv := by
  simp only [EventLockState.setNext]
  split
  all_goals exact h.callGoto hb hpc rfl (fun _ => rfl) ⟨.inr rfl, rfl, nofun, nofun, nofun⟩ rfl rfl

theorem setEnd (hpc : s.pc c = .setEnd e) (ht : s.setEnd c e = some t) : t.LockInv := by
  obtain ⟨events, hev, ht⟩ := Option.bind_eq_some_iff.mp ht
  exact h.callUnlockEvent hb hpc ht rfl (sameStates_closeHead hev)
    ⟨.inl rfl, rfl, nofun, nofun, nofun⟩ rfl rfl

theorem waitExStatus {timeout : ℕ} (hpc : s.pc c = .wait e timeout)
    (ht : s.waitExStatus c e timeout = some t) : t.LockInv := by
  have hidle := (h.tasks.cpu c).waiting (by rw [hpc]; trivial)
  unfold EventLockState.waitExStatus at ht
  split_ifs at ht
  · obtain ⟨events, hev, heq⟩ := consume_eq s e
    rw [heq] at ht
    exact h.callUnlockEvent hb hpc ht rfl hev ⟨.inl rfl, rfl, nofun, nofun, nofun⟩ rfl rfl
  · exact h.callUnlockEvent hb hpc ht rfl (.refl s.events)
      ⟨.inl rfl, rfl, nofun, nofun, nofun⟩ rfl rfl
  · obtain ⟨⟩ := ht
    exact h.callLockTask hb hpc rfl ⟨.inr rfl, rfl, fun _ => hidle,
      fun _ hT => (Option.some.inj hT).symm, nofun⟩ rfl rfl rfl

theorem waitFail (hpc : s.pc c = .waitFail e) (ht : s.unlock c (.inl e) .run = some t) :
    t.LockInv :=
  h.callUnlockEvent hb hpc ht rfl (.refl s.events) ⟨.inl rfl, rfl, nofun, nofun, nofun⟩ rfl rfl

theorem multi {call : WaitCall ε} {timeout idx setCount : ℕ} {needWait : List Bool}
    (hpc : s.pc c = .multi call timeout idx setCount needWait)
    (hfree : ∀ e, call.objects[idx]? = some e → s.spin (.inl e) = [] ∨ s.spin.Bare c) :
    (s.multi c call timeout idx setCount needWait).LockInv := by
  have hidle := (h.tasks.cpu c).waiting (by rw [hpc]; trivial)
  unfold EventLockState.multi
  split
  · next obj hobj =>
    exact h.callLockEvent hb hpc rfl ⟨.inr rfl, rfl, fun _ => hidle, nofun, nofun⟩ rfl rfl
      (hfree obj hobj)
  · split
    · exact h.callGoto hb hpc rfl (.refl s.events) ⟨.inl rfl, rfl, nofun, nofun, nofun⟩ rfl rfl
    · exact h.callLockTask hb hpc rfl ⟨.inr rfl, rfl, fun _ => hidle,
        fun _ hT => (Option.some.inj hT).symm, nofun⟩ rfl rfl rfl

theorem multiObject {call : WaitCall ε} {timeout idx setCount : ℕ} {needWait : List Bool} {obj : ε}
    (hpc : s.pc c = .multiObject call timeout idx setCount needWait obj)
    (ht : s.multiObject c call timeout idx setCount needWait obj = some t) : t.LockInv := by
  have hidle := (h.tasks.cpu c).waiting (by rw [hpc]; trivial)
  unfold EventLockState.multiObject at ht
  split_ifs at ht
  · exact h.callUnlockEvent hb hpc ht rfl (.refl s.events)
      ⟨.inr rfl, rfl, fun _ => hidle, nofun, nofun⟩ rfl rfl
  · obtain ⟨⟩ := ht
    obtain ⟨events, hev, heq⟩ := consume_eq s obj
    rw [heq]
    exact h.callGoto hb hpc rfl hev ⟨.inr rfl, rfl, nofun, nofun, nofun⟩ rfl rfl
  · obtain ⟨⟩ := ht
    exact h.callGoto hb hpc rfl (.refl s.events)
      ⟨.inr rfl, rfl, fun _ => hidle, nofun, nofun⟩ rfl rfl

theorem multiReturn {obj : ε} {times : ℕ} (hpc : s.pc c = .multiReturn obj times)
    (ht : s.multiReturn c obj times = some t) : t.LockInv := by
  cases times with
  | zero =>
    obtain ⟨⟩ := ht
    exact h.callGoto hb hpc rfl (.refl s.events) ⟨.inl rfl, rfl, nofun, nofun, nofun⟩ rfl rfl
  | succ times =>
    exact h.callUnlockEvent hb hpc ht rfl (.refl s.events)
      ⟨.inr rfl, rfl, nofun, nofun, nofun⟩ rfl rfl

end LockInv

end Calls

end EventLockState

end ShmDos64
