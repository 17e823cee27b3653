import ShmDos64.EventObject.Locking
/-!
# Which processor has which lock

Where a processor is says which tasks it runs or is to run, and the locks of
which tasks it has; and what a step of one processor leaves to the others.
The locks of the events need less: who waits for one has no lock at all.
-/

namespace ShmDos64

open Function (update)
open LockQueues

/-! ## What the list operations keep -/

namespace EventState

variable {τ ε : Type*} [DecidableEq τ] [DecidableEq ε] {s t : EventState τ ε} {T : τ} {e : ε}

/-- The states of the tasks. -/
def SameStates (s t : EventState τ ε) : Prop := ∀ T, (t.task T).state = (s.task T).state

omit [DecidableEq τ] [DecidableEq ε] in
theorem SameStates.refl (s : EventState τ ε) : SameStates s s := fun _ => rfl

omit [DecidableEq τ] [DecidableEq ε] in
theorem SameStates.trans {u : EventState τ ε} (h : SameStates s t) (h' : SameStates t u) :
    SameStates s u :=
  fun T => (h' T).trans (h T)

omit [DecidableEq τ] in
theorem sameStates_updateEvent (s : EventState τ ε) (e : ε) (f : EventObject τ → EventObject τ) :
    SameStates s (s.updateEvent e f) :=
  fun _ => rfl

omit [DecidableEq ε] in
theorem sameStates_updateTask (s : EventState τ ε) (T : τ) {f : WaitTask τ ε → WaitTask τ ε}
    (hf : ∀ t, (f t).state = t.state) : SameStates s (s.updateTask T f) := by
  intro T'
  by_cases hT : T' = T
  · subst hT
    rw [updateTask_self, hf]
  · rw [updateTask_of_ne hT]

theorem sameStates_setNext {next : Option τ} (h : s.setNext e T next = some t) :
    SameStates s t := by
  obtain ⟨idx, -, rfl⟩ := Option.map_eq_some_iff.mp h
  exact sameStates_updateTask s T fun _ => rfl

theorem sameStates_setPrev {prev : Option τ} (h : s.setPrev e T prev = some t) :
    SameStates s t := by
  obtain ⟨idx, -, rfl⟩ := Option.map_eq_some_iff.mp h
  exact sameStates_updateTask s T fun _ => rfl

theorem sameStates_insertTask (h : s.insertTask e T = some t) : SameStates s t := by
  unfold insertTask at h
  obtain ⟨u, hu, rfl⟩ := Option.map_eq_some_iff.mp h
  refine SameStates.trans ?_ (sameStates_updateEvent u e _)
  refine SameStates.trans (sameStates_updateTask s T (f := fun t =>
    { t with
      infos := update t.infos (s.task T).waitEventCount
        { next := none, prev := (s.event e).tail, object := some e }
      waitEventCount := (s.task T).waitEventCount + 1 }) fun _ => rfl) ?_
  split at hu
  · exact sameStates_setNext hu
  · obtain ⟨⟩ := hu
    exact fun _ => rfl

theorem sameStates_excludeEventFromTask {idx : ℕ} (h : s.excludeEventFromTask T idx = some t) :
    SameStates s t := by
  simp only [excludeEventFromTask] at h
  split at h
  · cases h
  · obtain ⟨u, hu, hut⟩ := Option.bind_eq_some_iff.mp h
    refine (sameStates_setPrev hu).trans ?_
    split at hut
    · exact sameStates_setNext hut
    · obtain ⟨⟩ := hut
      exact fun _ => rfl
  · obtain ⟨u, hu, rfl⟩ := Option.map_eq_some_iff.mp h
    refine SameStates.trans ?_ (sameStates_updateEvent u _ _)
    split at hu
    · exact sameStates_setNext hu
    · obtain ⟨⟩ := hu
      exact fun _ => rfl

theorem sameStates_closeHead (h : closeHead e s = some t) : SameStates s t := by
  unfold closeHead at h
  split at h
  · exact sameStates_setPrev h
  · obtain ⟨⟩ := h
    exact fun _ => rfl

end EventState

/-! ## What a processor has at its place -/

/-- The phases of a processor. -/
inductive EventLockPhase where
  /-- Its task may have gone to sleep. -/
  | run
  /-- In a call, or about to switch: the task is awake. -/
  | call
  /-- In `shedule`, with the task locked. -/
  | switch
  /-- In `endTaskSwitch`, without the old task. -/
  | activate
  deriving DecidableEq

namespace EventLockPc

variable {τ ε : Type*}

def phase : EventLockPc τ ε → EventLockPhase
  | .run | .multiUnlock _ _ _ => .run
  | .shedule | .timedLoop | .timed _ | .timedOthers _ _ | .timedOther _ _ _ | .waits | .ready _
  | .idle _ | .chosen _ => .switch
  | .activate _ => .activate
  | _ => .call

/-- The task that the processor is to run next. -/
def target : EventLockPc τ ε → Option τ
  | .timedOthers T _ | .timedOther T _ _ | .ready T | .idle T | .chosen T | .activate T => some T
  | _ => none

/-- The task it has locked besides its own. -/
def grip : EventLockPc τ ε → Option τ
  | .setOthers _ T _ | .setOther _ T _ _ | .timed T | .timedOthers T _ | .timedOther T _ _
  | .chosen T | .activate T => some T
  | _ => none

/-- That, and the task it has asked for. -/
def has : EventLockPc τ ε → Option τ
  | .setTask _ T | .waitOwn _ _ T | .multiOwn _ _ _ T | .switch T | .ready T | .idle T => some T
  | q => q.grip

variable {q : EventLockPc τ ε}

theorem has_eq_some_iff {T : τ} :
    q.has = some T ↔ q.grip = some T ∨ q.asked = some (.inr T) := by
  cases q <;> simp [has, grip, asked]

theorem grip_of_target {T : τ} (h : q.target = some T) :
    q.grip = some T ∨ q = .ready T ∨ q = .idle T := by
  cases q <;> simp_all [target, grip]

/-- Who asks for a task with another one locked is in `shedule`. -/
theorem grip_of_asked {T T' : τ} (h : q.asked = some (.inr T))
    (hgrip : q.grip = some T') : T' = T := by
  cases q <;> simp_all [asked, grip]

theorem target_of_asked {T : τ} (h : q.asked = some (.inr T))
    (hp : q.phase = .switch) : q.grip = some T ∨ q.target = some T := by
  cases q <;> simp_all [asked, grip, target, phase]

theorem asked_of_run (hp : q.phase = .run) : q.asked = none := by
  cases q <;> first | rfl | cases hp

/-- In a wait, before the task sleeps. -/
def Waiting : EventLockPc τ ε → Prop
  | .wait _ _ | .waitOwn _ _ _ | .multi _ _ _ _ _ | .multiObject _ _ _ _ _ _
  | .multiOwn _ _ _ _ => True
  | _ => False

/-- A task that `set` is about to wake. -/
def waking : EventLockPc τ ε → Option τ
  | .setOthers _ T _ | .setOther _ T _ _ => some T
  | _ => none

theorem grip_of_waking {T : τ} (h : q.waking = some T) : q.grip = some T := by
  cases q <;> first | exact h | cases h

/-- The task that a call or a switch locks is the current one. -/
def own : EventLockPc τ ε → Option τ
  | .waitOwn _ _ T | .multiOwn _ _ _ T | .switch T => some T
  | _ => none

/-- A place in `shedule` is none in a call. -/
theorem of_switch (hp : q.phase = .switch) :
    ¬ q.Waiting ∧ q.own = none ∧ q.waking = none := by
  cases q <;> simp_all [phase, own, waking, Waiting]

end EventLockPc

namespace EventLockState

variable {κ τ ε : Type*}

/-- A task that the processor runs, or is to run. -/
def Owns (s : EventLockState κ τ ε) (c : κ) (T : τ) : Prop :=
  T = s.current c ∧ (s.pc c).phase ≠ .activate ∨ (s.pc c).target = some T

/-- A task that the processor has locked. -/
def Mine (s : EventLockState κ τ ε) (c : κ) (T : τ) : Prop :=
  T = s.current c ∧ ((s.pc c).phase = .switch ∨ (s.pc c).phase = .run ∧ s.readyForSleep T = true) ∨
    (s.pc c).grip = some T

/-- What is so of the tasks a processor deals with. -/
structure CpuOk (s : EventLockState κ τ ε) (c : κ) : Prop where
  state : (s.pc c).phase ≠ .activate →
    (s.events.task (s.current c)).state = .active ∨ (s.events.task (s.current c)).Asleep
  ready : (s.pc c).phase ≠ .activate → (s.readyForSleep (s.current c) = true ↔
    (s.pc c).phase = .run ∧ (s.events.task (s.current c)).Asleep)
  call : (s.pc c).phase = .call → (s.events.task (s.current c)).state = .active
  idle : (s.pc c).phase ≠ .activate → s.idle (s.current c) = true → s.current c = s.idleTask c
  waiting : (s.pc c).Waiting → s.idle (s.current c) = false
  own : ∀ T, (s.pc c).own = some T → T = s.current c
  waking : ∀ T, (s.pc c).waking = some T → (s.events.task T).Asleep
  target_idle : ∀ T, (s.pc c).target = some T → s.idle T = true → T = s.idleTask c
  idlePc : ∀ T, s.pc c = .idle T → T = s.idleTask c
  target_ne : ∀ T, (s.pc c).phase = .switch → (s.pc c).target = some T → T ≠ s.current c
  timed_ne : ∀ T, s.pc c = .timed T → T ≠ s.current c
  popped : ∀ T, s.pc c = .ready T → (s.events.task T).state = .wait

/-- **The tasks.** No two processors run one task, and no processor runs a
task that waits in the queue. -/
structure TasksOk (s : EventLockState κ τ ε) : Prop where
  idleTask : Function.Injective s.idleTask
  idleTask_idle : ∀ c, s.idle (s.idleTask c) = true
  cpu : ∀ c, s.CpuOk c
  owns : ∀ c d T, s.Owns c T → s.Owns d T → c = d
  queue : ∀ T ∈ s.waitTaskQueue, (s.events.task T).state = .wait ∧ s.idle T = false ∧
    ∀ c, ¬ s.Owns c T
  nodup : s.waitTaskQueue.Nodup
  asleep : ∀ T, (s.events.task T).Asleep → s.idle T = false
  ready : ∀ T, s.readyForSleep T = true → ∃ c, T = s.current c ∧ (s.pc c).phase = .run

/-- **The locks.** A processor has the locks of the tasks its place says;
and if it waits for an event, no lock. -/
structure SpinOk (s : EventLockState κ τ ε) : Prop where
  nodup : ∀ l, (s.spin l).Nodup
  waits : ∀ c l, s.spin.Waits c l → (s.pc c).asked = some l
  bare : ∀ c e, s.spin.Waits c (.inl e) → s.spin.Bare c
  held : ∀ c T, s.spin.holder (.inr T) = some c → s.Mine c T ∨ (s.pc c).asked = some (.inr T)
  mine : ∀ c T, s.Mine c T → s.spin.holder (.inr T) = some c
  asked : ∀ c T, (s.pc c).asked = some (.inr T) → c ∈ s.spin (.inr T)

/-- What a step of one processor leaves to the others. -/
structure Apart (s t : EventLockState κ τ ε) (c : κ) : Prop where
  pc : ∀ d, d ≠ c → t.pc d = s.pc d
  current : ∀ d, d ≠ c → t.current d = s.current d
  idle : t.idle = s.idle
  idleTask : t.idleTask = s.idleTask
  state : ∀ d T, d ≠ c → s.Owns d T ∨ (s.pc d).grip = some T →
    (t.events.task T).state = (s.events.task T).state
  ready : ∀ d T, d ≠ c → s.Owns d T → t.readyForSleep T = s.readyForSleep T

section Steps

variable {s t : EventLockState κ τ ε} {c d : κ} {T : τ}

theorem owns_current (h : (s.pc c).phase ≠ .activate) : s.Owns c (s.current c) := .inl ⟨rfl, h⟩

theorem owns_target (h : (s.pc c).target = some T) : s.Owns c T := .inr h

theorem Apart.owns_iff (h : Apart s t c) (hd : d ≠ c) : t.Owns d T ↔ s.Owns d T := by
  unfold Owns
  rw [h.pc d hd, h.current d hd]

theorem Apart.mine_iff (h : Apart s t c) (hd : d ≠ c) : t.Mine d T ↔ s.Mine d T := by
  unfold Mine
  rw [h.pc d hd, h.current d hd]
  refine or_congr_left (and_congr_right fun hT => or_congr_right (and_congr_right fun hp => ?_))
  subst hT
  rw [h.ready d _ hd (owns_current (by rw [hp]; decide))]

theorem CpuOk.apart (hd : s.CpuOk d) (h : Apart s t c) (hne : d ≠ c) : t.CpuOk d where
  state hp := by
    rw [h.pc d hne] at hp
    have hstate := h.state d _ hne (.inl (owns_current hp))
    rw [h.current d hne, WaitTask.Asleep, hstate]
    exact hd.state hp
  ready hp := by
    rw [h.pc d hne] at hp
    have hstate := h.state d _ hne (.inl (owns_current hp))
    rw [h.pc d hne, h.current d hne, WaitTask.Asleep, hstate, h.ready d _ hne (owns_current hp)]
    exact hd.ready hp
  call hp := by
    rw [h.pc d hne] at hp
    rw [h.current d hne, h.state d _ hne (.inl (owns_current (by rw [hp]; decide)))]
    exact hd.call hp
  idle hp := by
    rw [h.pc d hne] at hp
    rw [h.idle, h.idleTask, h.current d hne]
    exact hd.idle hp
  waiting hp := by
    rw [h.pc d hne] at hp
    rw [h.idle, h.current d hne]
    exact hd.waiting hp
  own T hp := by
    rw [h.pc d hne] at hp
    rw [h.current d hne]
    exact hd.own T hp
  waking T hp := by
    rw [h.pc d hne] at hp
    rw [WaitTask.Asleep, h.state d T hne (.inr (EventLockPc.grip_of_waking hp))]
    exact hd.waking T hp
  target_idle T hp := by
    rw [h.pc d hne] at hp
    rw [h.idle, h.idleTask]
    exact hd.target_idle T hp
  idlePc T hp := by
    rw [h.pc d hne] at hp
    rw [h.idleTask]
    exact hd.idlePc T hp
  target_ne T hp ht := by
    rw [h.pc d hne] at hp ht
    rw [h.current d hne]
    exact hd.target_ne T hp ht
  timed_ne T hp := by
    rw [h.pc d hne] at hp
    rw [h.current d hne]
    exact hd.timed_ne T hp
  popped T hp := by
    rw [h.pc d hne] at hp
    rw [h.state d T hne (.inl (owns_target (by rw [hp]; rfl)))]
    exact hd.popped T hp

theorem TasksOk.step (h : s.TasksOk) (ha : Apart s t c) (hcpu : t.CpuOk c)
    (howns : ∀ T, t.Owns c T → s.Owns c T ∨ ∀ d, ¬ s.Owns d T)
    (hqueue : ∀ T ∈ t.waitTaskQueue, (t.events.task T).state = .wait ∧ t.idle T = false ∧
      ∀ d, ¬ t.Owns d T)
    (hnodup : t.waitTaskQueue.Nodup)
    (hasleep : ∀ T, (t.events.task T).Asleep → t.idle T = false)
    (hready : ∀ T, t.readyForSleep T = true → T = t.current c ∧ (t.pc c).phase = .run ∨
      s.readyForSleep T = true ∧ ¬ (T = s.current c ∧ (s.pc c).phase = .run)) : t.TasksOk where
  idleTask := by
    rw [ha.idleTask]
    exact h.idleTask
  idleTask_idle d := by
    rw [ha.idleTask, ha.idle]
    exact h.idleTask_idle d
  cpu d := by
    by_cases hd : d = c
    · exact hd ▸ hcpu
    · exact (h.cpu d).apart ha hd
  owns d f T hdT hfT := by
    -- what the processor has got was nobody's
    have key : ∀ g, g ≠ c → t.Owns c T → t.Owns g T → False := by
      intro g hg hc hgT
      have hgs := (ha.owns_iff hg).mp hgT
      rcases howns T hc with hs | hnone
      · exact hg (h.owns g c T hgs hs)
      · exact hnone g hgs
    by_cases hd : d = c
    · subst hd
      by_contra hne
      exact key f (Ne.symm hne) hdT hfT
    · by_cases hf : f = c
      · subst hf
        exact (key d hd hfT hdT).elim
      · exact h.owns d f T ((ha.owns_iff hd).mp hdT) ((ha.owns_iff hf).mp hfT)
  queue := hqueue
  nodup := hnodup
  asleep := hasleep
  ready T hT := by
    rcases hready T hT with ⟨hcur, hrun⟩ | ⟨hs, hne⟩
    · exact ⟨c, hcur, hrun⟩
    · obtain ⟨d, hcur, hrun⟩ := h.ready T hs
      have hd : d ≠ c := by
        rintro rfl
        exact hne ⟨hcur, hrun⟩
      exact ⟨d, by rw [ha.current d hd]; exact hcur, by rw [ha.pc d hd]; exact hrun⟩

/-- A step that changes one task: it may go to the end of the queue. -/
theorem TasksOk.change {T₀ : τ} (h : s.TasksOk) (ha : Apart s t c) (hcpu : t.CpuOk c)
    (howns : ∀ T, t.Owns c T → s.Owns c T)
    (hstate : ∀ T, T ≠ T₀ → (t.events.task T).state = (s.events.task T).state)
    (hnot : T₀ ∉ s.waitTaskQueue)
    (hasleep : (t.events.task T₀).Asleep → s.idle T₀ = false)
    (hqueue : t.waitTaskQueue = s.waitTaskQueue ∨ t.waitTaskQueue = s.waitTaskQueue ++ [T₀] ∧
      (t.events.task T₀).state = .wait ∧ s.idle T₀ = false ∧ ∀ d, ¬ t.Owns d T₀)
    (hready : ∀ T, t.readyForSleep T = true → T = t.current c ∧ (t.pc c).phase = .run ∨
      s.readyForSleep T = true ∧ ¬ (T = s.current c ∧ (s.pc c).phase = .run)) : t.TasksOk := by
  have hold : ∀ T ∈ s.waitTaskQueue, (t.events.task T).state = .wait ∧ t.idle T = false ∧
      ∀ d, ¬ t.Owns d T := by
    intro T hT
    obtain ⟨hwait, hidle, hnone⟩ := h.queue T hT
    have hne : T ≠ T₀ := by
      rintro rfl
      exact hnot hT
    refine ⟨by rw [hstate T hne, hwait], by rw [ha.idle, hidle], fun d => ?_⟩
    by_cases hd : d = c
    · subst hd
      exact fun ho => hnone d (howns T ho)
    · rw [ha.owns_iff hd]
      exact hnone d
  refine h.step ha hcpu (fun T hT => .inl (howns T hT)) ?_ ?_ ?_ hready
  · rcases hqueue with heq | ⟨heq, hwait, hidle, hnone⟩
    · rw [heq]
      exact hold
    · rw [heq]
      intro T hT
      rcases List.mem_append.mp hT with hT | hT
      · exact hold T hT
      · obtain rfl := List.mem_singleton.mp hT
        exact ⟨hwait, by rw [ha.idle, hidle], hnone⟩
  · rcases hqueue with heq | ⟨heq, -, -, -⟩
    · rw [heq]
      exact h.nodup
    · rw [heq]
      refine List.nodup_append.mpr ⟨h.nodup, List.nodup_singleton T₀, ?_⟩
      rintro T hT _ hT' rfl
      exact hnot (List.mem_singleton.mp hT' ▸ hT)
  · intro T hT
    rw [ha.idle]
    by_cases hne : T = T₀
    · subst hne
      exact hasleep hT
    · rw [WaitTask.Asleep, hstate T hne] at hT
      exact h.asleep T hT

theorem TasksOk.not_mem_of_owns (h : s.TasksOk) (ho : s.Owns c T) : T ∉ s.waitTaskQueue :=
  fun hT => (h.queue T hT).2.2 c ho

theorem TasksOk.not_mem_of_state (h : s.TasksOk) (hT : (s.events.task T).state ≠ .wait) :
    T ∉ s.waitTaskQueue :=
  fun hq => hT (h.queue T hq).1

namespace SpinOk

section

variable (h : s.SpinOk) (hc : ¬ s.Blocked c)

include h hc

theorem holder_iff :
    s.spin.holder (.inr T) = some c ↔ s.Mine c T ∨ (s.pc c).asked = some (.inr T) := by
  refine ⟨h.held c T, ?_⟩
  rintro (hm | hask)
  · exact h.mine c T hm
  · exact holder_of_mem (h.asked c T hask) fun hw => hc ⟨_, hask, hw⟩

theorem not_waits (l : ε ⊕ τ) : ¬ s.spin.Waits c l :=
  fun hw => hc ⟨l, h.waits c l hw, hw⟩

/-- A step that takes and gives no lock. -/
theorem goto (ha : Apart s t c) (hspin : t.spin = s.spin)
    (hasked : (t.pc c).asked = none) (hmine : ∀ T, t.Mine c T ↔ s.spin.holder (.inr T) = some c) :
    t.SpinOk where
  nodup l := by
    rw [hspin]
    exact h.nodup l
  waits d l hw := by
    rw [hspin] at hw
    have hd : d ≠ c := by
      rintro rfl
      exact h.not_waits hc l hw
    rw [ha.pc d hd]
    exact h.waits d l hw
  bare d e hw := by
    rw [hspin] at hw ⊢
    exact h.bare d e hw
  held d T hh := by
    rw [hspin] at hh
    by_cases hd : d = c
    · subst hd
      exact .inl ((hmine T).mpr hh)
    · rw [ha.mine_iff hd, ha.pc d hd]
      exact h.held d T hh
  mine d T hm := by
    rw [hspin]
    by_cases hd : d = c
    · subst hd
      exact (hmine T).mp hm
    · exact h.mine d T ((ha.mine_iff hd).mp hm)
  asked d T hask := by
    rw [hspin]
    by_cases hd : d = c
    · subst hd
      rw [hasked] at hask
      cases hask
    · rw [ha.pc d hd] at hask
      exact h.asked d T hask

end

variable [DecidableEq τ] [DecidableEq ε] {l : ε ⊕ τ}

/-- A step that asks for a lock. -/
theorem lock (h : s.SpinOk) (hc : ¬ s.Blocked c) (ha : Apart s t c)
    (hspin : t.spin = s.spin.request c l) (hasked : (t.pc c).asked = some l) (hnew : c ∉ s.spin l)
    (hbare : ∀ e, l = .inl e → s.spin l = [] ∨ s.spin.Bare c)
    (hmine : ∀ T, t.Mine c T → s.spin.holder (.inr T) = some c ∨ l = .inr T ∧ s.spin l = [])
    (hkeep : ∀ T, s.spin.holder (.inr T) = some c → t.Mine c T) : t.SpinOk where
  nodup m := by
    rw [hspin]
    exact nodup_request (h.nodup m) hnew
  waits d m hw := by
    rw [hspin] at hw
    rcases waits_request hw with hs | ⟨rfl, rfl, -⟩
    · have hd : d ≠ c := by
        rintro rfl
        exact h.not_waits hc m hs
      rw [ha.pc d hd]
      exact h.waits d m hs
    · exact hasked
  bare d e hw m hm := by
    rw [hspin] at hw hm
    rcases waits_request hw with hs | ⟨rfl, rfl, hne⟩
    · rcases holder_request hm with hm' | ⟨rfl, -, -⟩
      · exact h.bare d e hs m hm'
      · exact h.not_waits hc _ hs
    · rcases holder_request hm with hm' | ⟨-, -, hnil⟩
      · exact (hbare e rfl).resolve_left hne m hm'
      · exact hne hnil
  held d T hh := by
    rw [hspin] at hh
    rcases holder_request hh with hs | ⟨rfl, rfl, -⟩
    · by_cases hd : d = c
      · subst hd
        exact .inl (hkeep T hs)
      · rw [ha.mine_iff hd, ha.pc d hd]
        exact h.held d T hs
    · exact .inr hasked
  mine d T hm := by
    rw [hspin]
    by_cases hd : d = c
    · subst hd
      rcases hmine T hm with hs | ⟨rfl, hnil⟩
      · exact holder_request_of_holder hs
      · exact holder_request_self hnil
    · exact holder_request_of_holder (h.mine d T ((ha.mine_iff hd).mp hm))
  asked d T hask := by
    rw [hspin]
    by_cases hd : d = c
    · subst hd
      obtain rfl := Option.some.inj (hasked.symm.trans hask)
      rw [request_self]
      exact List.mem_append_right _ (List.mem_singleton_self d)
    · rw [ha.pc d hd] at hask
      exact mem_request (h.asked d T hask)

/-- A step that gives a lock back. -/
theorem unlock (h : s.SpinOk) (hc : ¬ s.Blocked c) (ha : Apart s t c)
    (hspin : t.spin = s.spin.release l) (hasked : (t.pc c).asked = none)
    (hown : ∀ T, l = .inr T → s.spin.holder l = some c)
    (hmine : ∀ T, t.Mine c T ↔ s.spin.holder (.inr T) = some c ∧ l ≠ .inr T) : t.SpinOk where
  nodup m := by
    rw [hspin]
    exact nodup_release (h.nodup m)
  waits d m hw := by
    rw [hspin] at hw
    have hs := waits_release hw
    have hd : d ≠ c := by
      rintro rfl
      exact h.not_waits hc m hs
    rw [ha.pc d hd]
    exact h.waits d m hs
  bare d e hw m hm := by
    rw [hspin] at hw hm
    have hs := waits_release hw
    rcases holder_release hm with ⟨-, hm'⟩ | ⟨rfl, hm'⟩
    · exact h.bare d e hs m hm'
    · -- who has got the lock waited for no other
      obtain rfl := Option.some.inj ((h.waits d _ hs).symm.trans (h.waits d m hm'))
      exact not_waits_of_holder (nodup_release (h.nodup _)) hm hw
  held d T hh := by
    rw [hspin] at hh
    rcases holder_release hh with ⟨hne, hs⟩ | ⟨rfl, hw⟩
    · by_cases hd : d = c
      · subst hd
        exact .inl ((hmine T).mpr ⟨hs, hne.symm⟩)
      · rw [ha.mine_iff hd, ha.pc d hd]
        exact h.held d T hs
    · have hd : d ≠ c := by
        rintro rfl
        exact h.not_waits hc _ hw
      rw [ha.pc d hd]
      exact .inr (h.waits d _ hw)
  mine d T hm := by
    rw [hspin]
    by_cases hd : d = c
    · subst hd
      obtain ⟨hs, hne⟩ := (hmine T).mp hm
      rw [holder, release_of_ne (Ne.symm hne)]
      exact hs
    · have hs := h.mine d T ((ha.mine_iff hd).mp hm)
      have hne : Sum.inr T ≠ l := by
        rintro rfl
        exact hd (Option.some.inj (hs.symm.trans (hown T rfl)))
      rw [holder, release_of_ne hne]
      exact hs
  asked d T hask := by
    rw [hspin]
    by_cases hd : d = c
    · subst hd
      rw [hasked] at hask
      cases hask
    · rw [ha.pc d hd] at hask
      have hmem := h.asked d T hask
      by_cases hl : l = .inr T
      · exact mem_release hmem fun hh =>
          hd (Option.some.inj (hh.symm.trans (hown T hl)))
      · rw [release_of_ne (Ne.symm hl)]
        exact hmem

end SpinOk

end Steps

end EventLockState

end ShmDos64
