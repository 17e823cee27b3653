import ShmDos64.Scheduler.Model
/-!
# The places of a task

A task that may run, runs or is about to run is in exactly one place: in
`m_waitTaskQueue`, with the processor that popped or chose it, with the
call that is about to push it, or with the processor that executes it. A
task gets a place only from a state that no task in a place has, or under
its `m_spin`, which the processors hold of the tasks they are switching.
-/

namespace ShmDos64

open Function (update)

variable {κ ω τ ε : Type*}

namespace CpuPc

/-- The task a processor has popped from `m_waitTaskQueue` or chosen. -/
def taken : CpuPc τ → Option τ
  | waitPopped T => some T
  | chosen T => some T
  | activate T => some T
  | _ => none

/-- The task a processor has chosen. -/
def next : CpuPc τ → Option τ
  | chosen T => some T
  | activate T => some T
  | _ => none

/-- The processor holds the lock of its current task for the switch. -/
def switching : CpuPc τ → Bool
  | run => false
  | insert => false
  | activate _ => false
  | _ => true

/-- The processor executes its current task. -/
def executing : CpuPc τ → Bool
  | activate _ => false
  | _ => true

end CpuPc

namespace CallPc

/-- The task a call is about to push. -/
def pushes : CallPc τ ε → Option τ
  | push T => some T
  | enqueue T => some T
  | _ => none

/-- The task whose lock a call holds. -/
def holds : CallPc τ ε → Option τ
  | locked _ T => some T
  | push T => some T
  | _ => none

end CallPc

/-- Where a task that may run can be. -/
inductive Place (κ ω : Type*) where
  | queue
  | taken (cpu : κ)
  | pushes (call : ω)
  | executes (cpu : κ)

/-- The processor or call a place belongs to. -/
def Place.agent : Place κ ω → Option (κ ⊕ ω)
  | queue => none
  | taken c => some (.inl c)
  | pushes w => some (.inr w)
  | executes c => some (.inl c)

namespace SchedState

variable {s t : SchedState κ ω τ ε} {c : κ} {w : ω} {T : τ}

section

variable (s : SchedState κ ω τ ε)

/-- The processor executes the task: from the `endTaskSwitch` that makes it
active to the one that releases it as the old task. -/
def Executes (c : κ) (T : τ) : Prop :=
  s.current c = T ∧ (s.pc c).executing = true

/-- The task is in the place. -/
def At (T : τ) : Place κ ω → Prop
  | .queue => T ∈ s.waitTaskQueue.entries
  | .taken c => (s.pc c).taken = some T
  | .pushes w => (s.call w).pushes = some T
  | .executes c => s.Executes c T

/-- Whose `m_spin` a processor or a call holds: a processor that of its
current task when it is switching or about to sleep, and that of the task
it has chosen. -/
def Holds : κ ⊕ ω → τ → Prop
  | .inl c, T => s.current c = T ∧ ((s.pc c).switching = true ∨
      s.readyForSleep T = true ∧ (s.pc c).executing = true) ∨ (s.pc c).next = some T
  | .inr w, T => (s.call w).holds = some T

/-- What is known of a task in a place. -/
def TaskOk (T : τ) : Place κ ω → Prop
  | .queue => s.state T = .wait ∧ s.idle T = false
  | .taken c => s.idle T = false ∧ s.state T = .wait ∨
      (s.pc c).next = some T ∧ s.idle T = false ∧ s.state T = .timedSleep ∨
      (s.pc c).next = some T ∧ s.idle T = true ∧ T = s.idleTask c
  | .pushes _ => s.state T = .wait ∧ s.idle T = false
  | .executes c => s.state T ≠ .none ∧ s.state T ≠ .wait ∧
      (s.state T = .sleep ∨ s.state T = .timedSleep → s.Holds (.inl c) T) ∧
      ((s.pc c).switching = true → s.readyForSleep T = false) ∧
      (s.idle T = true → s.state T = .active ∧ T = s.idleTask c)

end

theorem at_queue : s.At T .queue ↔ T ∈ s.waitTaskQueue.entries := Iff.rfl

theorem at_taken : s.At T (.taken c) ↔ (s.pc c).taken = some T := Iff.rfl

theorem at_pushes : s.At T (.pushes w) ↔ (s.call w).pushes = some T := Iff.rfl

theorem at_executes : s.At T (.executes c) ↔ s.Executes c T := Iff.rfl

theorem holds_cpu : s.Holds (.inl c) T ↔ s.current c = T ∧ ((s.pc c).switching = true ∨
    s.readyForSleep T = true ∧ (s.pc c).executing = true) ∨ (s.pc c).next = some T := Iff.rfl

theorem holds_call : s.Holds (.inr w) T ↔ (s.call w).holds = some T := Iff.rfl

theorem taskOk_queue : s.TaskOk T .queue ↔ s.state T = .wait ∧ s.idle T = false := Iff.rfl

theorem taskOk_taken : s.TaskOk T (.taken c) ↔ s.idle T = false ∧ s.state T = .wait ∨
    (s.pc c).next = some T ∧ s.idle T = false ∧ s.state T = .timedSleep ∨
    (s.pc c).next = some T ∧ s.idle T = true ∧ T = s.idleTask c := Iff.rfl

theorem taskOk_pushes : s.TaskOk T (.pushes w) ↔ s.state T = .wait ∧ s.idle T = false := Iff.rfl

theorem taskOk_executes : s.TaskOk T (.executes c) ↔ s.state T ≠ .none ∧ s.state T ≠ .wait ∧
    (s.state T = .sleep ∨ s.state T = .timedSleep → s.Holds (.inl c) T) ∧
    ((s.pc c).switching = true → s.readyForSleep T = false) ∧
    (s.idle T = true → s.state T = .active ∧ T = s.idleTask c) := Iff.rfl

end SchedState

/-- The invariant: a task has at most one place, the state its place asks
for, and its lock is with whoever is to have it. -/
structure SchedInv (s : SchedState κ ω τ ε) : Prop where
  idleTask : Function.Injective s.idleTask
  idle : ∀ c, s.idle (s.idleTask c) = true
  /-- An idle task does not sleep. -/
  awake : ∀ T, s.idle T = true → s.state T = .none ∨ s.state T = .active
  /-- A task is in one place at most. -/
  unique : ∀ T p q, s.At T p → s.At T q → p = q
  nodup : s.waitTaskQueue.entries.Nodup
  ok : ∀ T p, s.At T p → s.TaskOk T p
  held : ∀ a T, s.Holds a T → s.spin T = some a
  ready : ∀ T, s.readyForSleep T = true → ∃ c, s.At T (.executes c)

/-- A step of `a` that has changed nothing but its own place and the task
`T`, and has taken or released locks. -/
structure SameBut (s t : SchedState κ ω τ ε) (a : κ ⊕ ω) (T : τ) : Prop where
  pc : ∀ c, a ≠ .inl c → t.pc c = s.pc c
  current : ∀ c, a ≠ .inl c → t.current c = s.current c
  call : ∀ w, a ≠ .inr w → t.call w = s.call w
  idleTask : t.idleTask = s.idleTask
  idle : t.idle = s.idle
  state : ∀ T', T' ≠ T → t.state T' = s.state T'
  ready : ∀ T', T' ≠ T → t.readyForSleep T' = s.readyForSleep T'
  queue : ∀ T', T' ≠ T → T' ∈ t.waitTaskQueue.entries → T' ∈ s.waitTaskQueue.entries
  spin : ∀ T', s.spin T' = none ∨ s.spin T' = some a ∨ t.spin T' = s.spin T'

namespace SchedInv

variable {s t : SchedState κ ω τ ε} {a : κ ⊕ ω} {c : κ} {w : ω} {T T' : τ}

/-- **The step rule.** The task `T` may have got a new place; the other
tasks of the agent are where they were. -/
theorem step (h : SchedInv s) (hsame : SameBut s t a T)
    (hheld : ∀ T', t.Holds a T' → t.spin T' = some a)
    (hmine : ∀ T', T' ≠ T → ∀ p : Place κ ω, p.agent = some a → t.At T' p →
      s.At T' p ∧ t.TaskOk T' p)
    (hkeep : ∀ T', T' ≠ T → ∀ c, a = .inl c → s.At T' (.executes c) → t.At T' (.executes c))
    (hT : ∃ q, ∀ p, t.At T p → p = q ∧ t.TaskOk T p)
    (hnodup : t.waitTaskQueue.entries.Nodup)
    (hready : t.readyForSleep T = true → ∃ c, t.At T (.executes c) ∧
      (a = .inl c ∨ s.readyForSleep T = true))
    (hawake : s.idle T = true → t.state T = .none ∨ t.state T = .active) : SchedInv t := by
  -- the places of other agents are as they were
  have hother : ∀ T' (p : Place κ ω), p.agent ≠ some a → (T' ≠ T ∨ p ≠ .queue) → t.At T' p →
      s.At T' p := by
    intro T' p hp hne hat
    cases p with
    | queue => exact hsame.queue T' (hne.resolve_right fun h => h rfl) hat
    | taken c => rwa [SchedState.at_taken, hsame.pc c fun ha => hp (ha ▸ rfl)] at hat
    | pushes w => rwa [SchedState.at_pushes, hsame.call w fun ha => hp (ha ▸ rfl)] at hat
    | executes c =>
      have hne : a ≠ .inl c := fun ha => hp (ha ▸ rfl)
      rwa [SchedState.at_executes, SchedState.Executes, hsame.current c hne, hsame.pc c hne] at hat
  have hback : ∀ T' p, T' ≠ T → t.At T' p → s.At T' p := by
    intro T' p hne hat
    by_cases hp : p.agent = some a
    · exact (hmine T' hne p hp hat).1
    · exact hother T' p hp (.inl hne) hat
  obtain ⟨q, hq⟩ := hT
  have hready' : ∀ T', t.readyForSleep T' = true → ∀ c, t.At T' (.executes c) → a ≠ .inl c →
      s.readyForSleep T' = true := by
    intro T' hr c hat ha
    by_cases hne : T' = T
    · subst hne
      obtain ⟨c', hat', hc'⟩ := hready hr
      have heq : Place.executes c = Place.executes c' := (hq _ hat).1.trans (hq _ hat').1.symm
      obtain rfl := Place.executes.inj heq
      exact hc'.resolve_left ha
    · rwa [hsame.ready T' hne] at hr
  have hholds : ∀ a' T', a' ≠ a → t.Holds a' T' → s.Holds a' T' := by
    intro a' T' ha hh
    cases a' with
    | inl c =>
      have hpc := hsame.pc c ha.symm
      have hcur := hsame.current c ha.symm
      rcases hh with ⟨hc, hsw | hr⟩ | hn
      · exact .inl ⟨hcur.symm.trans hc, .inl (hpc ▸ hsw)⟩
      · exact .inl ⟨hcur.symm.trans hc, .inr ⟨hready' T' hr.1 c ⟨hc, hr.2⟩ ha.symm, hpc ▸ hr.2⟩⟩
      · exact .inr (hpc ▸ hn)
    | inr w => rwa [SchedState.holds_call, hsame.call w ha.symm] at hh
  refine ⟨hsame.idleTask ▸ h.idleTask, hsame.idleTask ▸ hsame.idle ▸ h.idle, ?_, ?_, hnodup, ?_, ?_,
    ?_⟩
  · intro T' hi
    rw [hsame.idle] at hi
    by_cases hne : T' = T
    · subst hne
      exact hawake hi
    · rw [hsame.state T' hne]
      exact h.awake T' hi
  · intro T' p p' hp hp'
    by_cases hne : T' = T
    · subst hne
      exact (hq p hp).1.trans (hq p' hp').1.symm
    · exact h.unique T' p p' (hback T' p hne hp) (hback T' p' hne hp')
  · intro T' p hp
    by_cases hne : T' = T
    · subst hne
      exact (hq p hp).2
    by_cases hpa : p.agent = some a
    · exact (hmine T' hne p hpa hp).2
    have hok := h.ok T' p (hback T' p hne hp)
    cases p with
    | queue => rwa [SchedState.taskOk_queue, hsame.state T' hne, hsame.idle]
    | taken c =>
      rwa [SchedState.taskOk_taken, hsame.state T' hne, hsame.idle, hsame.idleTask,
        hsame.pc c fun ha => hpa (ha ▸ rfl)]
    | pushes w => rwa [SchedState.taskOk_pushes, hsame.state T' hne, hsame.idle]
    | executes c =>
      have hac : a ≠ .inl c := fun ha => hpa (ha ▸ rfl)
      rwa [SchedState.taskOk_executes, hsame.state T' hne, hsame.idle, hsame.idleTask,
        SchedState.holds_cpu, hsame.pc c hac, hsame.current c hac, hsame.ready T' hne]
  · intro a' T' hh
    by_cases ha : a' = a
    · subst ha
      exact hheld T' hh
    · have hs := h.held a' T' (hholds a' T' ha hh)
      rcases hsame.spin T' with hn | hn | hn
      · rw [hn] at hs
        cases hs
      · rw [hn] at hs
        exact absurd (Option.some.inj hs).symm ha
      · exact hn.trans hs
  · intro T' hr
    by_cases hne : T' = T
    · subst hne
      obtain ⟨c, hc, -⟩ := hready hr
      exact ⟨c, hc⟩
    · obtain ⟨c, hc⟩ := h.ready T' ((hsame.ready T' hne) ▸ hr)
      by_cases ha : a = .inl c
      · exact ⟨c, hkeep T' hne c ha hc⟩
      · refine ⟨c, ?_⟩
        rwa [SchedState.at_executes, SchedState.Executes, hsame.current c ha, hsame.pc c ha]

/-- The places of a task after a processor's step. -/
theorem at_cpu {Y : CpuPc τ} (hsame : SameBut s t (.inl c) T') (hpc : t.pc c = Y) {p : Place κ ω}
    (hat : t.At T p) : p = .queue ∧ T ∈ t.waitTaskQueue.entries ∨ p = .taken c ∧ Y.taken = some T ∨
    p = .executes c ∧ t.current c = T ∧ Y.executing = true ∨
    s.At T p ∧ p ≠ .queue ∧ p.agent ≠ some (.inl c) := by
  cases p with
  | queue => exact .inl ⟨rfl, hat⟩
  | taken c' =>
    by_cases hc : c' = c
    · subst hc
      exact .inr (.inl ⟨rfl, hpc ▸ hat⟩)
    · have hne : (Sum.inl c : κ ⊕ ω) ≠ .inl c' := fun h => hc (Sum.inl.inj h).symm
      rw [SchedState.at_taken, hsame.pc c' hne] at hat
      exact .inr (.inr (.inr ⟨hat, nofun, fun h => hne (Option.some.inj h).symm⟩))
  | pushes w =>
    rw [SchedState.at_pushes, hsame.call w nofun] at hat
    exact .inr (.inr (.inr ⟨hat, nofun, nofun⟩))
  | executes c' =>
    by_cases hc : c' = c
    · subst hc
      exact .inr (.inr (.inl ⟨rfl, hat.1, hpc ▸ hat.2⟩))
    · have hne : (Sum.inl c : κ ⊕ ω) ≠ .inl c' := fun h => hc (Sum.inl.inj h).symm
      rw [SchedState.at_executes, SchedState.Executes, hsame.current c' hne, hsame.pc c' hne] at hat
      exact .inr (.inr (.inr ⟨hat, nofun, fun h => hne (Option.some.inj h).symm⟩))

/-- The places of a task after a step of a call. -/
theorem at_call {Y : CallPc τ ε} (hsame : SameBut s t (.inr w) T') (hcall : t.call w = Y)
    {p : Place κ ω} (hat : t.At T p) :
    p = .queue ∧ T ∈ t.waitTaskQueue.entries ∨ p = .pushes w ∧ Y.pushes = some T ∨
    s.At T p ∧ p ≠ .queue ∧ p ≠ .pushes w := by
  cases p with
  | queue => exact .inl ⟨rfl, hat⟩
  | taken c =>
    rw [SchedState.at_taken, hsame.pc c nofun] at hat
    exact .inr (.inr ⟨hat, nofun, nofun⟩)
  | pushes w' =>
    by_cases hw : w' = w
    · subst hw
      exact .inr (.inl ⟨rfl, hcall ▸ hat⟩)
    · have hne : (Sum.inr w : κ ⊕ ω) ≠ .inr w' := fun h => hw (Sum.inr.inj h).symm
      rw [SchedState.at_pushes, hsame.call w' hne] at hat
      exact .inr (.inr ⟨hat, nofun, fun h => hw (Place.pushes.inj h)⟩)
  | executes c =>
    have hne : (Sum.inr w : κ ⊕ ω) ≠ .inl c := nofun
    rw [SchedState.at_executes, SchedState.Executes, hsame.current c hne, hsame.pc c hne] at hat
    exact .inr (.inr ⟨hat, nofun, nofun⟩)

/-- The step rule for a processor. -/
theorem cpuStep (h : SchedInv s) (hsame : SameBut s t (.inl c) T)
    (hheld : ∀ T', t.Holds (.inl c) T' → t.spin T' = some (.inl c))
    (htaken : ∀ T', T' ≠ T → (t.pc c).taken = some T' →
      (s.pc c).taken = some T' ∧ t.TaskOk T' (.taken c))
    (hexec : ∀ T', T' ≠ T → t.Executes c T' → t.TaskOk T' (.executes c))
    (hcur : ∀ T', T' ≠ T → (t.Executes c T' ↔ s.Executes c T'))
    (hT : ∃ q, ∀ p, t.At T p → p = q ∧ t.TaskOk T p)
    (hnodup : t.waitTaskQueue.entries.Nodup)
    (hready : t.readyForSleep T = true → t.Executes c T ∨
      ∃ c', t.Executes c' T ∧ s.readyForSleep T = true)
    (hawake : s.idle T = true → t.state T = .none ∨ t.state T = .active) : SchedInv t := by
  refine h.step hsame hheld ?_ ?_ hT hnodup ?_ hawake
  · intro T' hne p hp hat
    cases p with
    | queue => cases hp
    | taken c' =>
      obtain rfl := Sum.inl.inj (Option.some.inj hp)
      exact htaken T' hne hat
    | pushes w => cases Option.some.inj hp
    | executes c' =>
      obtain rfl := Sum.inl.inj (Option.some.inj hp)
      exact ⟨(hcur T' hne).mp hat, hexec T' hne hat⟩
  · intro T' hne c' hc hat
    obtain rfl := Sum.inl.inj hc
    exact (hcur T' hne).mpr hat
  · intro hr
    rcases hready hr with hx | ⟨c', hx, hr'⟩
    · exact ⟨c, hx, .inl rfl⟩
    · exact ⟨c', hx, .inr hr'⟩

/-- The step rule for a call. -/
theorem callStep (h : SchedInv s) (hsame : SameBut s t (.inr w) T)
    (hheld : ∀ T', (t.call w).holds = some T' → t.spin T' = some (.inr w))
    (hpush : ∀ T', T' ≠ T → (t.call w).pushes = some T' →
      (s.call w).pushes = some T' ∧ t.TaskOk T' (.pushes w))
    (hT : ∃ q, ∀ p, t.At T p → p = q ∧ t.TaskOk T p)
    (hnodup : t.waitTaskQueue.entries.Nodup)
    (hready : t.readyForSleep T = s.readyForSleep T)
    (hawake : s.idle T = true → t.state T = .none ∨ t.state T = .active) : SchedInv t := by
  refine h.step hsame hheld ?_ (fun _ _ _ hc => nomatch hc) hT hnodup ?_ hawake
  · intro T' hne p hp hat
    cases p with
    | queue => cases hp
    | taken c' | executes c' => cases Option.some.inj hp
    | pushes w' =>
      obtain rfl := Sum.inr.inj (Option.some.inj hp)
      exact hpush T' hne hat
  · intro hr
    rw [hready] at hr
    obtain ⟨c, hc⟩ := h.ready T hr
    refine ⟨c, ?_, .inr hr⟩
    have hne : (Sum.inr w : κ ⊕ ω) ≠ .inl c := nofun
    rwa [SchedState.at_executes, SchedState.Executes, hsame.current c hne, hsame.pc c hne]

end SchedInv

end ShmDos64
