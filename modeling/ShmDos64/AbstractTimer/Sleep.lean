import ShmDos64.AbstractTimer.Units
import ShmDos64.Scheduler.TimedQueue
/-!
# Sleeps on the system timer

An `Hpet` gets its frequency from a tick period, `sleepMs` turns a time into
ticks, `prepareToSleep` adds them to the clock, and `shedule` compares the sum
with the clock later on. The dividers are rounded down, and the sums and
products are those of 64 bits. `shedule` compares before it takes the lock of
the task, so that an entry of an earlier sleep can end a new one.
-/

namespace ShmDos64

open Function (update)

variable {κ ω τ ε : Type*}

/-- The task a processor has popped from the timed-sleep queue, to lock it. -/
def CpuPc.due : CpuPc τ → Option τ
  | timedPopped _ T => some T
  | _ => none

namespace SchedState

/-- No task goes to sleep while a processor is to lock it that has popped it as
due before. -/
def Settled (s : SchedState κ ω τ ε) : SchedAct κ ω τ ε → Prop
  | .sleep c _ => ∀ c', (s.pc c').due ≠ some (s.current c)
  | _ => True

instance [Fintype κ] [DecidableEq τ] (s : SchedState κ ω τ ε) :
    (a : SchedAct κ ω τ ε) → Decidable (s.Settled a)
  | .sleep _ _ => inferInstanceAs (Decidable (∀ _, _ ≠ _))
  | .tick _ | .insert _ _ _ | .terminate _ | .switch _ | .cpu _ | .create _ _ | .set _ _ _
  | .call _ => .isTrue trivial

/-- A task that sleeps is popped only once its wake time is over. -/
def PoppedDue (s : SchedState κ ω τ ε) : Prop :=
  ∀ c timepoint T, s.pc c = .timedPopped timepoint T → s.state T = .timedSleep →
    s.wakeTime T < timepoint

variable [DecidableEq κ] [DecidableEq ω] [DecidableEq τ] [DecidableEq ε]
  {s t : SchedState κ ω τ ε}

theorem PoppedDue.apply {a : SchedAct κ ω τ ε} (h : s.PoppedDue) (ha : s.Settled a)
    (hst : s.apply a = some t) : t.PoppedDue := by
  have hstep := apply_timedStep hst
  intro c timepoint T hpc hT
  rcases hstep.sleeps T hT with ⟨c', timeout, rfl, rfl⟩ | ⟨hs, hw⟩
  · -- the task has just gone to sleep, so no processor has popped it
    rcases hstep.popped c timepoint _ hpc with hpc | ⟨hcpu, -⟩
    · exact absurd (by rw [hpc]; rfl) (ha c)
    · cases hcpu
  · rw [hw]
    exact (hstep.popped c timepoint T hpc).elim (fun hpc => h c timepoint T hpc hs) And.right

theorem poppedDue_reachable (h : ((schedMachine κ ω τ ε).guard Settled).Reachable s) :
    s.PoppedDue := by
  refine h.invariant (fun s hinit c timepoint T hpc => ?_) fun s a t hs hst => hs.apply hst.1 hst.2
  rw [SchedState.Initial.pc hinit c] at hpc
  cases hpc

end SchedState

namespace AbstractTimer

variable {f n m t now delay tickPeriod : ℕ}

/-- The frequency of an `Hpet` whose ticks take so many femtoseconds; `none`
is a panic. -/
def hpetFrequency (tickPeriod : ℕ) : Option ℕ :=
  if tickPeriod < 1000000 then none
  else some ((1000000000000000 + tickPeriod / 2) / tickPeriod)

/-- A quotient; `none` is a division by zero. -/
def divide (t divider : ℕ) : Option ℕ := if divider = 0 then none else some (t / divider)

/-- `toSeconds`, `toMilliseconds`, `toMicroseconds` and `toNs100`. -/
def conversions (frequency t : ℕ) : List (Option ℕ) :=
  let timer := setFrequency frequency
  [divide t frequency, divide t timer.msDivider, divide t timer.usDivider,
    if 0 < timer.ns100Divider then divide t timer.ns100Divider
    else (divide ((t + 9) % 2 ^ 64) timer.usDivider).map fun us => us * 10 % 2 ^ 64]

def fromMicroseconds (timer : AbstractTimer) (t : ℕ) : ℕ := t * timer.usDivider % 2 ^ 64

theorem divide_eq_none : divide t n = none ↔ n = 0 := by
  unfold divide
  split_ifs with h <;> simp [h]

theorem none_notMem_conversions : none ∉ conversions f t ↔ 10 ^ 6 ≤ f := by
  unfold conversions
  dsimp only
  split_ifs with h <;>
    simp only [List.mem_cons, List.not_mem_nil, or_false, not_or, eq_comm (a := none),
      Option.map_eq_none_iff, divide_eq_none] <;>
    simp only [setFrequency] at h ⊢ <;> omega

/-- A product of 64 bits is zero for half of them unless the divider is odd. -/
theorem mul_mod_pos_iff : (∀ t < 2 ^ 64, 0 < t → 0 < t * n % 2 ^ 64) ↔ ¬ 2 ∣ n := by
  refine ⟨fun h ⟨k, hk⟩ => ?_, fun hn t ht hpos => Nat.pos_of_ne_zero fun hzero => ?_⟩
  · have := h (2 ^ 63) (by decide) (by decide)
    rw [hk] at this
    omega
  · have hcop : Nat.Coprime (2 ^ 64) n :=
      Nat.Coprime.pow_left 64 ((Nat.prime_two.coprime_iff_not_dvd).mpr hn)
    have hdvd := hcop.dvd_of_dvd_mul_right (Nat.dvd_of_mod_eq_zero hzero)
    exact absurd (Nat.le_of_dvd hpos hdvd) (by omega)

theorem mul_mod_pos (ht : 0 < t) (hn : 0 < n) (hlt : t * n < 2 ^ 64) : 0 < t * n % 2 ^ 64 := by
  rw [Nat.mod_eq_of_lt hlt]
  exact Nat.mul_pos ht hn

theorem le_hpetFrequency (hf : hpetFrequency tickPeriod = some f) (htick : tickPeriod < 2 ^ 32) :
    1000 ≤ f := by
  rw [hpetFrequency] at hf
  split_ifs at hf
  obtain rfl := Option.some.inj hf
  rw [Nat.le_div_iff_mul_le (by omega)]
  omega

/-- **The clock of an `Hpet` divides by zero below 1 MHz**; and a divider that
is even turns some time into no ticks, though only where the product wraps. -/
theorem hpet_clock_iff (hf : hpetFrequency tickPeriod = some f) (htick : tickPeriod < 2 ^ 32) :
    ((∀ t < 2 ^ 64, none ∉ conversions f t) ↔ 10 ^ 6 ≤ f) ∧
    ((∀ t < 2 ^ 64, 0 < t → 0 < (setFrequency f).fromMilliseconds t) ↔ ¬ 2 ∣ f / 1000) ∧
    ((∀ t < 2 ^ 64, 0 < t → 0 < (setFrequency f).fromMicroseconds t) ↔ ¬ 2 ∣ f / 1000000) ∧
    ∀ t, 0 < t → (t * (f / 1000) < 2 ^ 64 → 0 < (setFrequency f).fromMilliseconds t) ∧
      (10 ^ 6 ≤ f → t * (f / 1000000) < 2 ^ 64 → 0 < (setFrequency f).fromMicroseconds t) := by
  refine ⟨?_, mul_mod_pos_iff, mul_mod_pos_iff, fun t ht => ⟨?_, fun hmega => ?_⟩⟩
  · exact ⟨fun h => none_notMem_conversions.mp (h 0 (by decide)),
      fun h t _ => none_notMem_conversions.mpr h⟩
  · exact mul_mod_pos ht (Nat.div_pos (le_hpetFrequency hf htick) (by decide))
  · exact mul_mod_pos ht (Nat.div_pos hmega (by decide))

/-- The slowest `Hpet` that is taken counts at 233 kHz: microseconds divide by
zero, and are no ticks. -/
theorem hpet_clock_slow : hpetFrequency (2 ^ 32 - 1) = some 232831 ∧
    none ∈ conversions 232831 0 ∧ (setFrequency 232831).fromMicroseconds 999 = 0 := by
  decide

/-- A frequency of 11.001 MHz, as of the period 90.900827 ns, has two odd dividers. -/
theorem hpet_clock_odd : hpetFrequency 90900827 = some 11001000 ∧
    none ∉ conversions 11001000 12345 := by
  have hf : hpetFrequency 90900827 = some 11001000 := by decide
  exact ⟨hf, (hpet_clock_iff hf (by decide)).1.mpr (by decide) 12345 (by decide)⟩

/-! ## `sleepMs` -/

/-- What `prepareToSleep` writes to `m_wakeTime`; `none` is a sleep without end. -/
def wakeTime (now timeout : ℕ) : Option ℕ :=
  if timeout ≠ waitInfinite then some ((now + timeout) % timeRange) else none

theorem mem_wakeTime : m ∈ wakeTime now t ↔ t ≠ waitInfinite ∧ (now + t) % timeRange = m :=
  Option.ite_some_none_eq_some

/-- A `sleepMs` that begins at `now` has timed out at `timepoint`: at once in
`waitExStatus`, or in `shedule`. -/
def SleepMsTimedOut (timer : AbstractTimer) (now delay timepoint : ℕ) : Prop :=
  let timeout := timer.fromMilliseconds delay
  timeout = 0 ∨ ∃ wake ∈ wakeTime now timeout, wake < timepoint

/-- Neither the ticks nor the time to wake wrap, or they come to a time that
never comes. -/
def SleepFits (f now delay : ℕ) : Prop :=
  delay = 0 ∨ now + delay * (setFrequency f).msDivider < 2 ^ 64 ∨
    (setFrequency f).fromMilliseconds delay = waitInfinite ∨
    (setFrequency f).fromMilliseconds delay ≠ 0 ∧
      now + (setFrequency f).fromMilliseconds delay = 2 ^ 64 - 1

/-- A time to wake that fits is not before its time. -/
theorem SleepFits.le {wake timepoint : ℕ} (h : SleepFits f now delay) (hnow : now < 2 ^ 64)
    (hwake : wake ∈ wakeTime now ((setFrequency f).fromMilliseconds delay))
    (hlt : wake < timepoint) (htime : timepoint < 2 ^ 64) :
    now + delay * (setFrequency f).msDivider ≤ timepoint := by
  rw [SleepFits] at h
  rw [mem_wakeTime] at hwake
  simp only [fromMilliseconds, waitInfinite, timeRange] at h hwake
  have hzero : delay = 0 → delay * (setFrequency f).msDivider = 0 := fun h => by
    rw [h, Nat.zero_mul]
  generalize delay * (setFrequency f).msDivider = m at *
  omega

/-- **The wraps that matter**: the time at which a sleep times out is in no case
before its time just when the sleep fits. -/
theorem sleepFits_iff (hf : 1000 ≤ f) (hnow : now < 2 ^ 64) :
    (∀ timepoint, now ≤ timepoint → timepoint < 2 ^ 64 →
      (setFrequency f).SleepMsTimedOut now delay timepoint →
        now + delay * (setFrequency f).msDivider ≤ timepoint) ↔ SleepFits f now delay := by
  refine ⟨fun h => ?_, fun h timepoint hle hlt hout => ?_⟩
  · simp only [SleepMsTimedOut, mem_wakeTime] at h
    simp only [SleepFits, fromMilliseconds, waitInfinite, timeRange] at h ⊢
    have hpos : delay ≠ 0 → 0 < delay * (setFrequency f).msDivider := fun h =>
      Nat.mul_pos (Nat.pos_of_ne_zero h) (Nat.div_pos hf (by decide))
    generalize delay * (setFrequency f).msDivider = m at *
    -- The clock may show the start still, or the first tick after the time to wake.
    have hstart := h now le_rfl hnow
    have hwake := h (now + m % 2 ^ 64 + 1) (by omega)
    by_cases hinf : m % 2 ^ 64 = 2 ^ 64 - 1
    · exact .inr (.inr (.inl hinf))
    · simp only [ne_eq, hinf, not_false_eq_true, true_and, exists_eq_left'] at hstart hwake
      omega
  · rcases hout with h0 | ⟨wake, hwake, hover⟩
    · have hzero : delay * (setFrequency f).msDivider % 2 ^ 64 = 0 := h0
      have hm : delay = 0 → delay * (setFrequency f).msDivider = 0 := fun h => by
        rw [h, Nat.zero_mul]
      rw [SleepFits] at h
      simp only [fromMilliseconds, waitInfinite, timeRange] at h
      generalize delay * (setFrequency f).msDivider = m at *
      omega
    · exact h.le hnow hwake hover hlt

/-- **A sleep is not cut short** by its timeout. It times out before its time
for some reading of the clock just when its ticks or its time to wake wrap; and
where they do not, no `shedule` ends it before in a run in which no task goes to
sleep while a processor has popped it. -/
theorem sleepMs_full_iff [DecidableEq κ] [DecidableEq ω] [DecidableEq τ] [DecidableEq ε]
    (hf : 1000 ≤ f) (hnow : now < 2 ^ 64) :
    ((∀ timepoint, now ≤ timepoint → timepoint < 2 ^ 64 →
      (setFrequency f).SleepMsTimedOut now delay timepoint →
        now + delay * (setFrequency f).msDivider ≤ timepoint) ↔ SleepFits f now delay) ∧
    (SleepFits f now delay →
      ∀ s, ((schedMachine κ ω τ ε).guard SchedState.Settled).Reachable s →
      ∀ c timepoint T, s.pc c = .timedPopped timepoint T → timepoint < 2 ^ 64 →
        s.state T = .timedSleep →
        s.wakeTime T ∈ wakeTime now ((setFrequency f).fromMilliseconds delay) →
          now + delay * (setFrequency f).msDivider ≤ timepoint) := by
  refine ⟨sleepFits_iff hf hnow, fun hfits s hs c timepoint T hpc htime hstate hwake => ?_⟩
  exact hfits.le hnow hwake (SchedState.poppedDue_reachable hs c timepoint T hpc hstate) htime

/-- Task 0 sleeps for 50 ms on a timer of 1 kHz, and is popped at 60. -/
theorem sleepMs_full_fifty : ∃ s : SchedState (Fin 5) Unit ℕ ℕ,
    (s.pc 4 = .timedPopped 60 0 ∧ s.state 0 = .timedSleep ∧ s.wakeTime 0 = 50) ∧
      0 + 50 * (setFrequency 1000).msDivider ≤ 60 := by
  obtain ⟨s, hs, hP⟩ := Machine.Reachable.exists_of_guard (M := schedMachine (Fin 5) Unit ℕ ℕ)
    SchedState.Settled
    (P := fun s => s.pc 4 = .timedPopped 60 0 ∧ s.state 0 = .timedSleep ∧ s.wakeTime 0 = 50)
    (fun _ _ _ h => h) (sleepOn 0 50 0 ++ [.tick 60, .switch 4, .cpu 4, .cpu 4])
    (.init fiveTasks_initial) (by decide +kernel)
  obtain ⟨hpc, hstate, hwake⟩ := of_decide_eq_true hP
  exact ⟨s, ⟨hpc, hstate, hwake⟩, (sleepMs_full_iff (by decide) (by decide)).2
    (.inr (.inl (by decide))) s hs 4 60 0 hpc (by decide) hstate
    (mem_wakeTime.mpr ⟨by decide, hwake.symm⟩)⟩

/-- A sleep of 2⁵⁸ ms on a timer of 1 GHz is no sleep at all, and one of half a
millennium that begins late wakes before it begins. And a sleep of 1000 that
begins at 60 is about to be ended there: the task was popped at 60 as due, then
its event has woken it, and it has gone to sleep again. -/
theorem sleepMs_cut_short : (setFrequency (10 ^ 9)).SleepMsTimedOut 5 (2 ^ 58) 5 ∧
    (setFrequency (10 ^ 9)).SleepMsTimedOut (2 ^ 63) 15768000000000 (2 ^ 63) ∧
    ∃ s, (schedMachine (Fin 5) Unit ℕ ℕ).Reachable s ∧ s.pc 4 = .timedPopped 60 0 ∧
      s.spin 0 = none ∧ s.state 0 = .timedSleep ∧ s.now = 60 ∧ s.wakeTime 0 = 1060 := by
  refine ⟨.inl (by decide), .inr ⟨_, mem_wakeTime.mpr ⟨by decide, rfl⟩, by decide⟩, ?_⟩
  obtain ⟨s, hs, hP⟩ := Machine.Reachable.exists_of_foldlM (M := schedMachine (Fin 5) Unit ℕ ℕ)
    (P := fun s => s.pc 4 = .timedPopped 60 0 ∧
      s.spin 0 = none ∧ s.state 0 = .timedSleep ∧ s.now = 60 ∧ s.wakeTime 0 = 1060)
    (fun _ _ _ h => h)
    (sleepOn 0 50 0 ++ [.tick 60, .switch 4, .cpu 4, .cpu 4, .set () 0 0, .call (), .call (),
      .call (), .switch 1] ++ List.replicate 6 (.cpu 1) ++ sleepOn 1 1000 0)
    (.init fiveTasks_initial) (by decide +kernel)
  exact ⟨s, hs, of_decide_eq_true hP⟩

end AbstractTimer

end ShmDos64
