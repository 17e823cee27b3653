import ShmDos64.KMutex.Exclusion
import ShmDos64.Common.Total
/-!
# What `lock` returns

`lock` goes on by what `EventObject::wait` returns, and takes it for a status
where it is a truth value: when the wait has been given up, because of its
timeout, `lock` counts the thread out and returns true; when the thread has been
handed the mutex, `lock` counts it out and returns true only if nobody else is
counted. A thread that has taken the free word in `onWaitBegin` is counted out as
well, although it was never counted.

So `lock` tells the truth, and the word is what it should be, as long as no wait
is given up, a thread that has been handed the mutex finds itself the only one
counted, and one that has taken the word finds it between 1 and `MAX_CPU - 1`.
-/

namespace ShmDos64

open Function (update update_of_ne update_self)
open MutexState

/-- The `timeout` of `lock`, as far as the code tells the values apart. -/
inductive LockTimeout where
  | zero
  | finite
  | infinite
  deriving DecidableEq

/-- A mutex with timeouts. -/
structure TimedMutex (τ : Type*) where
  mutex : MutexState τ
  /-- The timeout of the last `lock` of a thread. -/
  timeout : τ → LockTimeout
  /-- `LOCAL_THREAD_STORAGE_MUTEX_WAIT`. -/
  mutexWait : τ → Bool
  /-- The wait of the thread has returned false. -/
  failed : τ → Bool
  /-- Whom the mutex belongs to: the thread that has taken the word, or has been
  woken for it, up to the end of its `unlock`. -/
  owner : Option τ

/-- What a thread does, and what the scheduler does to it. -/
inductive LockAct where
  | lock (timeout : LockTimeout)
  | unlock
  /-- The next step of the routine it is in. -/
  | run
  /-- `shedule` finds the time of the thread to have come. -/
  | timeout

namespace TimedMutex

variable {τ : Type*} [DecidableEq τ]

section

variable (s : TimedMutex τ)

/-- A step of the mutex, which may have made `t` the owner. -/
def took (t : τ) (m : MutexState τ) : TimedMutex τ :=
  { s with
    mutex := m
    owner := if m.pc t = .idle ∨ m.pc t = .onWake then some t else s.owner }

/-- The wait of `t` returns false. -/
def giveUpWait (t : τ) (m : MutexState τ) : TimedMutex τ :=
  { s with mutex := m.goto t .onWake, failed := update s.failed t true }

/-- The branch of `lock` for a wait that has returned false. -/
def lockFailed (t : τ) (cpu : ℕ) : TimedMutex τ :=
  let lockCpu := s.mutex.lockCpu
  { s with
    mutex := { s.mutex.ret t true with
      lockCpu := if s.mutexWait t then MutexState.wakeLock cpu lockCpu else lockCpu }
    failed := update s.failed t false }

/-- The thread that `set` wakes. -/
def woken (m : MutexState τ) : Option τ :=
  if m.set then none else (m.waitTasks.dropWhile (m.pc · ≠ .asleep)).head?

/-- The next step of the routine `t` is in; `none` when it cannot go on. -/
def exec (s : TimedMutex τ) (t : τ) (cpu : ℕ) : Option (TimedMutex τ) :=
  match s.mutex.pc t with
  | .idle | .asleep => none
  | .spinning _ | .waitEnter => (s.mutex.exec t cpu).map (s.took t)
  | .waitBegin => (s.mutex.exec t cpu).map fun m =>
      { s.took t m with mutexWait := update s.mutexWait t (m.pc t = .waitInsert) }
  | .waitInsert =>
    if s.timeout t = .zero then some (s.giveUpWait t { s.mutex with spin := none })
    else (s.mutex.exec t cpu).map fun m => { s with mutex := m }
  | .onWake =>
    if s.failed t then some (s.lockFailed t cpu)
    else (s.mutex.exec t cpu).map fun m => { s with mutex := m }
  | .signal => (s.mutex.exec t cpu).map fun m =>
      { s with mutex := m, owner := woken (s.mutex.goto t .idle) }

/-- A step of `t` on the processor `cpu`; only the owner calls `unlock`. -/
def apply (spinCount : ℕ) (s : TimedMutex τ) :
    τ × Fin maxCpu × LockAct → Option (TimedMutex τ)
  | (t, _, .lock timeout) =>
    if s.mutex.pc t = .idle then
      some { s with
        mutex := s.mutex.goto t (.spinning spinCount), timeout := update s.timeout t timeout }
    else none
  | (t, _, .unlock) =>
    if s.mutex.pc t = .idle ∧ s.owner = some t then
      if s.mutex.lockCpu < waitCountStartValue then
        some { s with mutex := { s.mutex.giveUp t with lockCpu := freeSpinValue }, owner := none }
      else some { s with mutex := (s.mutex.giveUp t).goto t .signal }
    else none
  | (t, cpu, .run) => s.exec t cpu
  | (t, _, .timeout) =>
    if s.mutex.pc t = .asleep ∧ s.timeout t = .finite then
      some (s.giveUpWait t { s.mutex with waitTasks := s.mutex.waitTasks.erase t })
    else none

/-- No wait is given up, and the word is such that `onWake` leaves it right: a
thread that was counted finds `MAX_CPU`, and one that was not 1 to `MAX_CPU - 1`. -/
def Settles : τ × Fin maxCpu × LockAct → Prop
  | (_, _, .timeout) => False
  | (t, _, .run) =>
    (s.mutex.pc t = .waitBegin → s.mutex.lockCpu ≠ 2 ^ 32 - 2 ∧
      (s.timeout t = .zero → s.mutex.lockCpu = freeSpinValue)) ∧
    (s.mutex.pc t = .onWake →
      if s.mutexWait t then s.mutex.lockCpu = waitCountStartValue
      else 0 < s.mutex.lockCpu ∧ s.mutex.lockCpu < waitCountStartValue)
  | _ => True

instance : (a : τ × Fin maxCpu × LockAct) → Decidable (s.Settles a)
  | (_, _, .timeout) => .isFalse id
  | (_, _, .run) => inferInstanceAs (Decidable ((_ → _ ∧ _) ∧ (_ → ite _ _ _)))
  | (_, _, .lock _) | (_, _, .unlock) => .isTrue trivial

/-- No thread is between two steps of `lock`. -/
def Quiet : Prop :=
  ∀ t, s.mutex.pc t = .idle ∨ s.mutex.pc t = .asleep ∨ s.mutex.pc t = .signal

end

instance [Fintype τ] (s : TimedMutex τ) : Decidable s.Quiet :=
  inferInstanceAs (Decidable (∀ t, s.mutex.pc t = .idle ∨ s.mutex.pc t = .asleep ∨
    s.mutex.pc t = .signal))

/-- A new mutex. -/
def initial : TimedMutex τ where
  mutex := .initial
  timeout _ := .infinite
  mutexWait _ := false
  failed _ := false
  owner := none

end TimedMutex

/-- The interleavings of any number of threads and the scheduler on one mutex. -/
def timedMutexMachine (τ : Type*) [DecidableEq τ] (spinCount : ℕ) :
    Machine (TimedMutex τ) (τ × Fin maxCpu × LockAct) where
  init s := s = .initial
  step s a s' := s.apply spinCount a = some s'

/-! ## The invariant -/

/-- The thread is counted in the word, but for the one that has been woken. -/
def MutexPc.counted : MutexPc → ℕ
  | waitInsert | asleep => 1
  | _ => 0

namespace TimedMutex

variable {τ : Type*} {s s' : TimedMutex τ} {t u : τ}

/-- What is so of a thread, by where it is. -/
def FitsAt (s : TimedMutex τ) (t : τ) : MutexPc → Prop
  | .idle => ∀ result, s.mutex.returned t = some result → (result = true ↔ s.owner = some t)
  | .spinning _ | .waitEnter => True
  | .waitBegin => s.mutex.spin = some t
  | .waitInsert => s.mutex.spin = some t ∧ s.mutexWait t = true ∧ s.timeout t ≠ .zero
  | .asleep => s.mutexWait t = true
  | .onWake => s.owner = some t
  | .signal => s.owner = some t ∧ s.mutex.returned t = none ∧
      waitCountStartValue ≤ s.mutex.lockCpu

def Fits (s : TimedMutex τ) (t : τ) : Prop := s.FitsAt t (s.mutex.pc t)

/-- The thread has been woken for the mutex, and is still counted. -/
def Handed (s : TimedMutex τ) (t : τ) : Prop :=
  s.mutex.pc t = .onWake ∧ s.mutexWait t = true

variable [Fintype τ]

/-- How many threads wait. -/
def waiting (s : TimedMutex τ) : ℕ := total MutexPc.counted s.mutex.pc

/-- The word of a mutex that belongs to `t`. -/
structure Held (s : TimedMutex τ) (t : τ) : Prop where
  lt : s.mutex.lockCpu < freeSpinValue
  handed : s.Handed t → s.mutex.lockCpu = waitCountStartValue + s.waiting
  counted : ¬ s.Handed t → 0 < s.waiting → s.mutex.lockCpu + 1 = waitCountStartValue + s.waiting
  alone : ¬ s.Handed t → s.waiting = 0 → s.mutex.lockCpu < waitCountStartValue

/-- **The invariant.** -/
structure Inv (s : TimedMutex τ) : Prop where
  set : s.mutex.set = false
  failed : ∀ t, s.failed t = false
  fits : ∀ t, s.Fits t
  mem : ∀ t, t ∈ s.mutex.waitTasks ↔ s.mutex.pc t = .asleep
  nodup : s.mutex.waitTasks.Nodup
  free : s.owner = none → s.mutex.lockCpu = freeSpinValue ∧ s.waiting = 0
  held : ∀ t, s.owner = some t → s.Held t

theorem Inv.fitsAt {p : MutexPc} (h : s.Inv) (hpc : s.mutex.pc t = p) : s.FitsAt t p :=
  hpc ▸ h.fits t

omit [Fintype τ] in
/-- A thread that does not move fits as before, if the owner is the same to it. -/
theorem Fits.other (h : s.Fits u) (hpc : s'.mutex.pc u = s.mutex.pc u)
    (hret : s'.mutex.returned u = s.mutex.returned u) (hwait : s'.mutexWait u = s.mutexWait u)
    (htimeout : s'.timeout u = s.timeout u) (hspin : s.mutex.spin = some u → s'.mutex.spin = some u)
    (howner : s'.owner = some u ↔ s.owner = some u)
    (hword : s.mutex.pc u = .signal → waitCountStartValue ≤ s'.mutex.lockCpu) : s'.Fits u := by
  simp only [Fits, FitsAt, hpc, hret, hwait, htimeout, howner] at h ⊢
  cases hcase : s.mutex.pc u with
  | idle | asleep | onWake =>
    rw [hcase] at h
    exact h
  | spinning rounds | waitEnter => trivial
  | waitBegin =>
    rw [hcase] at h
    exact hspin h
  | waitInsert =>
    rw [hcase] at h
    exact ⟨hspin h.1, h.2⟩
  | signal =>
    rw [hcase] at h
    exact ⟨h.1, h.2.1, hword hcase⟩

/-- The word of a mutex whose word, count and owner stay. -/
theorem Held.same (h : s.Held t) (hword : s'.mutex.lockCpu = s.mutex.lockCpu)
    (hwaiting : s'.waiting = s.waiting) (hhanded : s'.Handed t ↔ s.Handed t) : s'.Held t where
  lt := hword ▸ h.lt
  handed := by
    rw [hhanded, hword, hwaiting]
    exact h.handed
  counted := by
    rw [hhanded, hword, hwaiting]
    exact h.counted
  alone := by
    rw [hhanded, hword, hwaiting]
    exact h.alone

/-- The word is free exactly when the mutex belongs to nobody. -/
theorem Inv.owner_none_iff (h : s.Inv) : s.owner = none ↔ s.mutex.lockCpu = freeSpinValue := by
  refine ⟨fun hnone => (h.free hnone).1, fun hfree => ?_⟩
  by_contra hsome
  obtain ⟨o, ho⟩ := Option.ne_none_iff_exists'.mp hsome
  exact (h.held o ho).lt.ne hfree

variable [DecidableEq τ]

variable {q : MutexPc}

theorem waiting_update (hpc : s'.mutex.pc = update s.mutex.pc t q) :
    s'.waiting + (s.mutex.pc t).counted = s.waiting + q.counted := by
  rw [waiting, hpc]
  exact total_update MutexPc.counted s.mutex.pc t q

/-- The wait list of a thread that neither sleeps nor falls asleep. -/
theorem Inv.mem_update (h : s.Inv) (hold : s.mutex.pc t ≠ .asleep)
    (hnew : q ≠ .asleep) (u : τ) : u ∈ s.mutex.waitTasks ↔ update s.mutex.pc t q u = .asleep := by
  rw [h.mem]
  by_cases hu : u = t
  · rw [hu, update_self]
    exact iff_of_false hold hnew
  · rw [update_of_ne hu]

omit [Fintype τ] in
theorem handed_update {o : τ} (hpc : s'.mutex.pc = update s.mutex.pc t q)
    (hwait : ∀ u, u ≠ t → s'.mutexWait u = s.mutexWait u) (hold : s.mutex.pc t ≠ .onWake)
    (hnew : q ≠ .onWake) : s'.Handed o ↔ s.Handed o := by
  rw [Handed, Handed, hpc]
  by_cases ho : o = t
  · rw [ho, update_self]
    exact iff_of_false (fun h => hnew h.1) fun h => hold h.1
  · rw [update_of_ne ho, hwait o ho]

/-- A thread moves; the word, its count and the owner stay. -/
theorem Inv.moved (h : s.Inv) (hpc : s'.mutex.pc = update s.mutex.pc t q)
    (hword : s'.mutex.lockCpu = s.mutex.lockCpu) (hset : s'.mutex.set = s.mutex.set)
    (howner : s'.owner = s.owner) (hfailed : s'.failed = s.failed)
    (hwait : s'.mutexWait = s.mutexWait)
    (hothers : ∀ u, u ≠ t → s'.mutex.returned u = s.mutex.returned u ∧
      s'.timeout u = s.timeout u ∧ (s.mutex.spin = some u → s'.mutex.spin = some u))
    (hcounted : (s.mutex.pc t).counted = q.counted) (hold : s.mutex.pc t ≠ .onWake)
    (hnew : q ≠ .onWake) (hfits : s'.Fits t)
    (hmem : ∀ u, u ∈ s'.mutex.waitTasks ↔ s'.mutex.pc u = .asleep)
    (hnodup : s'.mutex.waitTasks.Nodup) : s'.Inv := by
  have hwaiting : s'.waiting = s.waiting := by
    have := waiting_update hpc
    omega
  refine ⟨hset.trans h.set, hfailed ▸ h.failed, fun u => ?_, hmem, hnodup, ?_, fun o ho => ?_⟩
  · by_cases hu : u = t
    · exact hu ▸ hfits
    · obtain ⟨hret, htimeout, hspin⟩ := hothers u hu
      refine (h.fits u).other ?_ hret (by rw [hwait]) htimeout hspin (by rw [howner]) fun hsig => ?_
      · rw [hpc, update_of_ne hu]
      · exact hword ▸ (h.fitsAt hsig).2.2
  · rw [howner, hword, hwaiting]
    exact h.free
  · exact (h.held o (howner ▸ ho)).same hword hwaiting
      (handed_update hpc (fun _ _ => by rw [hwait]) hold hnew)

/-! ## The steps -/

section

variable (h : s.Inv)

include h

/-- A thread goes on in `lock` before it waits. -/
theorem Inv.plain {p q : MutexPc} (hpc : s.mutex.pc t = p)
    (hp : p = .idle ∨ (∃ n, p = .spinning n) ∨ p = .waitEnter)
    (hq : (∃ n, q = .spinning n) ∨ q = .waitEnter) (timeout : τ → LockTimeout)
    (htimeout : ∀ u, u ≠ t → timeout u = s.timeout u) :
    Inv { s with mutex := s.mutex.goto t q, timeout := timeout } := by
  have hpq : p.counted = q.counted ∧ p ≠ .onWake ∧ q ≠ .onWake ∧ p ≠ .asleep ∧ q ≠ .asleep := by
    rcases hp with rfl | ⟨n, rfl⟩ | rfl <;> rcases hq with ⟨m, rfl⟩ | rfl <;> simp [MutexPc.counted]
  obtain ⟨hcounted, hpw, hqw, hpa, hqa⟩ := hpq
  subst hpc
  refine h.moved (q := q) rfl rfl rfl rfl rfl rfl
    (fun u hu => ⟨rfl, htimeout u hu, id⟩) hcounted hpw hqw ?_ (h.mem_update hpa hqa) h.nodup
  rcases hq with ⟨m, rfl⟩ | rfl <;> simp [Fits, FitsAt, goto]

/-- A thread takes the free word, and is not counted. -/
theorem Inv.taken {q : MutexPc} {cpu : Fin maxCpu}
    (hfree : s.mutex.lockCpu = freeSpinValue) (hpc : s'.mutex.pc = update s.mutex.pc t q)
    (hword : s'.mutex.lockCpu = cpu) (hset : s'.mutex.set = s.mutex.set)
    (howner : s'.owner = some t) (hfailed : s'.failed = s.failed)
    (hothers : ∀ u, u ≠ t → s'.mutex.returned u = s.mutex.returned u ∧
      s'.timeout u = s.timeout u ∧ s'.mutexWait u = s.mutexWait u ∧
      (s.mutex.spin = some u → s'.mutex.spin = some u))
    (htasks : s'.mutex.waitTasks = s.mutex.waitTasks) (hold : (s.mutex.pc t).counted = 0)
    (hnew : q.counted = 0) (hhanded : ¬ s'.Handed t) (hfits : s'.Fits t) : s'.Inv := by
  have hnone := h.owner_none_iff.mpr hfree
  have hwaiting : s'.waiting = 0 := by
    have := waiting_update hpc
    have := (h.free hnone).2
    omega
  have hasleep : ∀ p : MutexPc, p.counted = 0 → p ≠ .asleep := by
    rintro p hp rfl
    cases hp
  refine ⟨hset.trans h.set, hfailed ▸ h.failed, fun u => ?_, fun u => ?_, htasks ▸ h.nodup,
    fun hn => ?_, fun o ho => ?_⟩
  · by_cases hu : u = t
    · exact hu ▸ hfits
    · obtain ⟨hret, htimeout, hwait, hspin⟩ := hothers u hu
      refine (h.fits u).other ?_ hret hwait htimeout hspin ?_ fun hsig => ?_
      · rw [hpc, update_of_ne hu]
      · rw [howner, hnone]
        simp [Ne.symm hu]
      · cases hnone.symm.trans (h.fitsAt hsig).1
  · rw [htasks, hpc]
    exact h.mem_update (hasleep _ hold) (hasleep _ hnew) u
  · rw [howner] at hn
    cases hn
  · obtain rfl := Option.some.inj (howner.symm.trans ho)
    have hcpu := cpu.isLt
    refine ⟨?_, fun hh => absurd hh hhanded, fun _ hpos => ?_, fun _ _ => hword ▸ hcpu⟩
    · rw [hword]
      simp only [maxCpu] at hcpu
      simp only [freeSpinValue]
      omega
    · rw [hwaiting] at hpos
      cases hpos

theorem Inv.waitEnter (hpc : s.mutex.pc t = .waitEnter) (hspin : s.mutex.spin = none) :
    Inv { s with mutex := { s.mutex.goto t .waitBegin with spin := some t } } := by
  refine h.moved (t := t) (q := .waitBegin) rfl rfl rfl rfl rfl rfl
    (fun u _ => ⟨rfl, rfl, fun hu => ?_⟩) (by rw [hpc]; rfl) (by rw [hpc]; nofun) nofun ?_
    (h.mem_update (by rw [hpc]; nofun) nofun) h.nodup
  · rw [hspin] at hu
    cases hu
  · simp [Fits, FitsAt, goto]

/-- `onWaitBegin` counts the thread. -/
theorem Inv.count (hpc : s.mutex.pc t = .waitBegin)
    (hbusy : s.mutex.lockCpu ≠ freeSpinValue) (hroom : s.mutex.lockCpu ≠ 2 ^ 32 - 2)
    (htimeout : s.timeout t ≠ .zero)
    (hs' : s' = { s with
      mutex := { s.mutex.goto t .waitInsert with
        lockCpu := countLock s.mutex.lockCpu }
      mutexWait := update s.mutexWait t true }) : s'.Inv := by
  have hspin : s.mutex.spin = some t := h.fitsAt hpc
  have hword : s'.mutex.lockCpu = countLock s.mutex.lockCpu := by rw [hs']
  have hpc' : s'.mutex.pc = update s.mutex.pc t .waitInsert := by rw [hs']; rfl
  have howner : s'.owner = s.owner := by rw [hs']
  have hwait : ∀ u, u ≠ t → s'.mutexWait u = s.mutexWait u := fun u hu => by
    rw [hs']
    exact update_of_ne hu ..
  simp only [countLock, waitCountStartValue, maxCpu] at hword
  simp only [freeSpinValue] at hbusy
  refine ⟨by rw [hs']; exact h.set, by rw [hs']; exact h.failed, fun u => ?_, fun u => ?_,
    by rw [hs']; exact h.nodup, fun hnone => ?_, fun o ho => ?_⟩
  · by_cases hu : u = t
    · simp [Fits, FitsAt, goto, hu, hs', hspin, htimeout]
    · refine (h.fits u).other (by rw [hpc', update_of_ne hu]) (by rw [hs']; rfl)
        (hwait u hu) (by rw [hs']) (fun hu => by rw [hs']; exact hu) (by rw [howner])
        fun hsig => ?_
      have hlt := (h.held u (h.fitsAt hsig).1).lt
      simp only [freeSpinValue] at hlt
      simp only [waitCountStartValue, maxCpu]
      split at hword <;> omega
  · rw [hpc', hs']
    exact h.mem_update (q := .waitInsert) (by simp [hpc]) (by simp) u
  · exact absurd (h.owner_none_iff.mp (howner ▸ hnone)) hbusy
  · have hheld := h.held o (howner ▸ ho)
    have hhanded : s'.Handed o ↔ s.Handed o :=
      handed_update hpc' hwait (by simp [hpc]) (by simp)
    have hmore := waiting_update hpc'
    rw [hpc] at hmore
    simp only [MutexPc.counted] at hmore
    have hlt := hheld.lt
    have hcounted := hheld.counted
    have halone := hheld.alone
    have hin := hheld.handed
    simp only [freeSpinValue, waitCountStartValue, maxCpu] at hlt hcounted halone hin
    refine ⟨?_, fun hh => ?_, fun hh _ => ?_, fun _ hzero => ?_⟩
    all_goals simp only [freeSpinValue, waitCountStartValue, maxCpu]
    · split at hword <;> omega
    · have := hin (hhanded.mp hh)
      split at hword <;> omega
    · rcases Nat.eq_zero_or_pos s.waiting with hz | hpos
      · have := halone (mt hhanded.mpr hh) hz
        split at hword <;> omega
      · have := hcounted (mt hhanded.mpr hh) hpos
        split at hword <;> omega
    · omega

/-- The thread falls asleep. -/
theorem Inv.sleep (hpc : s.mutex.pc t = .waitInsert) :
    Inv { s with mutex := { s.mutex.goto t .asleep with
      waitTasks := s.mutex.waitTasks ++ [t], spin := none } } := by
  obtain ⟨hspin, hwait, -⟩ : s.mutex.spin = some t ∧ s.mutexWait t = true ∧ _ := h.fitsAt hpc
  have hnot : t ∉ s.mutex.waitTasks := by
    rw [h.mem, hpc]
    nofun
  refine h.moved (t := t) (q := .asleep) rfl rfl rfl rfl rfl rfl
    (fun u hu => ⟨rfl, rfl, fun husp => ?_⟩) (by rw [hpc]; rfl) (by rw [hpc]; nofun) nofun ?_
    (fun u => ?_) ?_
  · exact absurd (Option.some.inj (husp.symm.trans hspin)) hu
  · simp [Fits, FitsAt, goto, hwait]
  · simp only [goto, List.mem_append, List.mem_singleton, h.mem]
    by_cases hu : u = t
    · simp [hu]
    · simp [hu]
  · refine List.nodup_append.mpr ⟨h.nodup, List.nodup_singleton t, fun a ha b hb => ?_⟩
    rw [List.mem_singleton.mp hb]
    rintro rfl
    exact hnot ha

/-- A thread that has the mutex returns from `lock`. -/
theorem Inv.wake {lockCpu : ℕ} (hpc : s.mutex.pc t = .onWake) (hwaiting : s.waiting = 0)
    (hlt : lockCpu < waitCountStartValue)
    (hs' : s' = { s with mutex := { s.mutex.ret t true with lockCpu := lockCpu } }) : s'.Inv := by
  have howner : s.owner = some t := h.fitsAt hpc
  have hpc' : s'.mutex.pc = update s.mutex.pc t .idle := by rw [hs']; rfl
  have hnone : s'.waiting = 0 := by
    have := waiting_update hpc'
    rw [hpc, hwaiting] at this
    exact this
  have hidle : ¬ s'.Handed t := by
    rintro ⟨hwake, -⟩
    rw [hpc', update_self] at hwake
    cases hwake
  refine ⟨by rw [hs']; exact h.set, by rw [hs']; exact h.failed, fun u => ?_, fun u => ?_,
    by rw [hs']; exact h.nodup, fun hn => ?_, fun o ho => ?_⟩
  · by_cases hu : u = t
    · simp [Fits, FitsAt, ret, goto, hu, hs', howner]
    · refine (h.fits u).other (by rw [hpc', update_of_ne hu]) ?_ (by rw [hs'])
        (by rw [hs']) (fun hsp => by rw [hs']; exact hsp) (by rw [hs']) fun hsig => ?_
      · rw [hs']
        exact update_of_ne hu ..
      · exact absurd (Option.some.inj ((h.fitsAt hsig).1.symm.trans howner)) hu
  · rw [hpc', hs']
    exact h.mem_update (q := .idle) (by simp [hpc]) (by simp) u
  · rw [hs'] at hn
    cases howner.symm.trans hn
  · obtain rfl : o = t := by
      rw [hs'] at ho
      exact Option.some.inj (ho.symm.trans howner)
    have hword : s'.mutex.lockCpu = lockCpu := by rw [hs']
    refine ⟨?_, fun hh => absurd hh hidle, fun _ hpos => ?_, fun _ _ => hword ▸ hlt⟩
    · simp only [waitCountStartValue, maxCpu] at hlt
      simp only [hword, freeSpinValue]
      omega
    · rw [hnone] at hpos
      cases hpos

/-- The owner calls `unlock`, and nobody is counted. -/
theorem Inv.unlock_free (hpc : s.mutex.pc t = .idle) (howner : s.owner = some t)
    (hlt : s.mutex.lockCpu < waitCountStartValue) :
    Inv { s with mutex := { s.mutex.giveUp t with lockCpu := freeSpinValue }, owner := none } := by
  have hheld := h.held t howner
  have hidle : ¬ s.Handed t := fun hh => by cases hpc.symm.trans hh.1
  have hzero : s.waiting = 0 := by
    rcases Nat.eq_zero_or_pos s.waiting with hz | hpos
    · exact hz
    · have := hheld.counted hidle hpos
      omega
  refine ⟨h.set, h.failed, fun u => ?_, h.mem, h.nodup, fun _ => ⟨rfl, hzero⟩,
    fun o ho => by cases ho⟩
  by_cases hu : u = t
  · simp [Fits, FitsAt, giveUp, hu, hpc]
  · have hother : s.owner ≠ some u := fun ho => hu (Option.some.inj (ho.symm.trans howner))
    exact (h.fits u).other rfl (update_of_ne hu ..) rfl rfl id
      (iff_of_false (by simp) hother) fun hsig => absurd (h.fitsAt hsig).1 hother

theorem Inv.unlock_signal (hpc : s.mutex.pc t = .idle) (howner : s.owner = some t)
    (hge : waitCountStartValue ≤ s.mutex.lockCpu) :
    Inv { s with mutex := (s.mutex.giveUp t).goto t .signal } := by
  refine h.moved (t := t) (q := .signal) rfl rfl rfl rfl rfl rfl
    (fun u hu => ⟨update_of_ne hu .., rfl, id⟩) (by rw [hpc]; rfl) (by rw [hpc]; nofun)
    nofun ?_ (h.mem_update (by rw [hpc]; nofun) nofun) h.nodup
  simp [Fits, FitsAt, goto, giveUp, howner, hge]

omit [DecidableEq τ] in
/-- While `m_spin` is free the threads that are counted sleep. -/
theorem Inv.exists_asleep (hspin : s.mutex.spin = none) (hpos : 0 < s.waiting) :
    ∃ task rest, s.mutex.waitTasks = task :: rest := by
  obtain ⟨u, hu⟩ : ∃ u, (s.mutex.pc u).counted ≠ 0 := by
    by_contra hnone
    push Not at hnone
    exact hpos.ne' (total_eq_zero hnone)
  have hasleep : s.mutex.pc u = .asleep := by
    cases hpc : s.mutex.pc u with
    | asleep => rfl
    | waitInsert =>
      cases hspin.symm.trans (h.fitsAt hpc).1
    | idle | spinning _ | waitEnter | waitBegin | onWake | signal =>
      rw [hpc] at hu
      exact absurd rfl hu
  cases htasks : s.mutex.waitTasks with
  | nil =>
    have hmem := (h.mem u).mpr hasleep
    rw [htasks] at hmem
    cases hmem
  | cons task rest => exact ⟨task, rest, rfl⟩

/-- What `set` does when a thread sleeps. -/
theorem Inv.eventSet (hpc : s.mutex.pc t = .signal) {task : τ} {rest : List τ}
    (htasks : s.mutex.waitTasks = task :: rest) :
    task ≠ t ∧ s.mutex.pc task = .asleep ∧ woken (s.mutex.goto t .idle) = some task ∧
      (s.mutex.goto t .idle).eventSet =
        { (s.mutex.goto t .idle).goto task .onWake with waitTasks := rest } := by
  have hasleep : s.mutex.pc task = .asleep := (h.mem task).mp (htasks ▸ List.mem_cons_self)
  have hne : task ≠ t := by
    rintro rfl
    cases hpc.symm.trans hasleep
  have hdrop : (s.mutex.waitTasks.dropWhile fun x => (s.mutex.goto t .idle).pc x ≠ .asleep) =
      task :: rest := by
    simp [htasks, goto, hne, hasleep]
  refine ⟨hne, hasleep, ?_, ?_⟩
  · rw [woken, if_neg (by simp [goto, h.set])]
    exact congrArg List.head? hdrop
  · rw [MutexState.eventSet, if_neg (by simp [goto, h.set])]
    split
    · next heq => cases heq.symm.trans hdrop
    · next heq =>
      obtain ⟨rfl, rfl⟩ := List.cons.inj (heq.symm.trans hdrop)
      rfl

/-- `set` hands the mutex to the first of the threads that sleep. -/
theorem Inv.signal (hpc : s.mutex.pc t = .signal) (hspin : s.mutex.spin = none)
    (hs' : s' = { s with
      mutex := (s.mutex.goto t .idle).eventSet, owner := woken (s.mutex.goto t .idle) }) :
    s'.Inv := by
  obtain ⟨howner, hret, hge⟩ : s.owner = some t ∧ s.mutex.returned t = none ∧
      waitCountStartValue ≤ s.mutex.lockCpu := h.fitsAt hpc
  have hheld := h.held t howner
  have hnot : ¬ s.Handed t := fun hh => by cases hpc.symm.trans hh.1
  have hpos : 0 < s.waiting := by
    by_contra hzero
    have := hheld.alone hnot (Nat.eq_zero_of_not_pos hzero)
    omega
  obtain ⟨task, rest, htasks⟩ := h.exists_asleep hspin hpos
  obtain ⟨hne, hasleep, hwoken, hset⟩ := h.eventSet hpc htasks
  rw [hwoken, hset] at hs'
  have hnodup := htasks ▸ h.nodup
  have hpc' : s'.mutex.pc = update (update s.mutex.pc t .idle) task .onWake := by rw [hs']; rfl
  have hfewer : s'.waiting + 1 = s.waiting := by
    have hidle := total_update MutexPc.counted s.mutex.pc t .idle
    have hwake := total_update MutexPc.counted (update s.mutex.pc t .idle) task .onWake
    rw [update_of_ne hne, hasleep] at hwake
    rw [hpc] at hidle
    simp only [MutexPc.counted] at hidle hwake
    rw [waiting, waiting, hpc']
    omega
  refine ⟨by rw [hs']; exact h.set, by rw [hs']; exact h.failed, fun u => ?_, fun u => ?_,
    by rw [hs']; exact (List.nodup_cons.mp hnodup).2, fun hn => ?_, fun o ho => ?_⟩
  · by_cases hu : u = task
    · simp [Fits, FitsAt, goto, hu, hs']
    · by_cases hut : u = t
      · simp [Fits, FitsAt, goto, hut, hs', Ne.symm hne, hret]
      · have hother : s.owner ≠ some u := fun ho => hut (Option.some.inj (ho.symm.trans howner))
        refine (h.fits u).other (by rw [hpc', update_of_ne hu, update_of_ne hut])
          (by rw [hs']; rfl) (by rw [hs']) (by rw [hs']) (fun hsp => by rw [hs']; exact hsp)
          (iff_of_false (fun ho => ?_) hother) fun hsig => absurd (h.fitsAt hsig).1 hother
        rw [hs'] at ho
        exact hu (Option.some.inj ho).symm
  · have hmem := h.mem u
    rw [htasks, List.mem_cons] at hmem
    rw [hpc', hs']
    by_cases hu : u = task
    · subst hu
      simpa using (List.nodup_cons.mp hnodup).1
    · rw [update_of_ne hu]
      simp only [hu, false_or] at hmem
      by_cases hut : u = t
      · subst hut
        rw [update_self]
        simpa [hpc] using hmem
      · rw [update_of_ne hut]
        exact hmem
  · rw [hs'] at hn
    cases hn
  · obtain rfl : task = o := by
      rw [hs'] at ho
      exact Option.some.inj ho
    have hword : s'.mutex.lockCpu = s.mutex.lockCpu := by rw [hs']; rfl
    have hhanded : s'.Handed task := by
      refine ⟨by rw [hpc', update_self], ?_⟩
      rw [hs']
      exact h.fitsAt hasleep
    refine ⟨hword ▸ hheld.lt, fun _ => ?_, fun hh => absurd hhanded hh, fun hh => absurd hhanded hh⟩
    have := hheld.counted hnot hpos
    omega

omit [DecidableEq τ] in
/-- What `onWake` finds and leaves: nobody else waits, and the word is a processor. -/
theorem Inv.settled (cpu : Fin maxCpu) (hpc : s.mutex.pc t = .onWake)
    (hwake : if s.mutexWait t then s.mutex.lockCpu = waitCountStartValue
      else 0 < s.mutex.lockCpu ∧ s.mutex.lockCpu < waitCountStartValue) :
    s.waiting = 0 ∧ wakeLock cpu s.mutex.lockCpu < waitCountStartValue := by
  have hheld := h.held t (h.fitsAt hpc)
  have hcpu := cpu.isLt
  simp only [wakeLock]
  split at hwake
  next hcounted =>
    have := hheld.handed ⟨hpc, hcounted⟩
    refine ⟨by omega, ?_⟩
    rw [if_pos hwake]
    exact hcpu
  next hcounted =>
    have hnot : ¬ s.Handed t := fun hh => hcounted hh.2
    refine ⟨?_, ?_⟩
    · by_contra hpos
      have := hheld.counted hnot (Nat.pos_of_ne_zero hpos)
      omega
    · rw [if_neg hwake.2.ne]
      simp only [waitCountStartValue, maxCpu] at hwake ⊢
      omega

end

/-! ## The runs -/

/-- A thread that goes on before it waits takes the word, or does not. -/
theorem Inv.spinning {rounds : ℕ} {cpu : Fin maxCpu} (h : s.Inv)
    (hpc : s.mutex.pc t = .spinning rounds) (hst : (s.mutex.exec t cpu).map (s.took t) = some s') :
    s'.Inv := by
  have hplain : ∀ {q : MutexPc}, ((∃ n, q = .spinning n) ∨ q = .waitEnter) →
      s.took t (s.mutex.goto t q) = s' → s'.Inv := by
    rintro q hq rfl
    have howner : (s.took t (s.mutex.goto t q)) =
        { s with mutex := s.mutex.goto t q, timeout := s.timeout } := by
      rcases hq with ⟨n, rfl⟩ | rfl <;> simp [took, goto]
    rw [howner]
    exact h.plain hpc (.inr (.inl ⟨rounds, rfl⟩)) hq s.timeout fun _ _ => rfl
  cases rounds with
  | zero =>
    simp only [MutexState.exec, hpc, Option.map_some, Option.some.injEq] at hst
    exact hplain (.inr rfl) hst
  | succ rounds =>
    simp only [MutexState.exec, hpc] at hst
    split_ifs at hst with hfree hbusy
    · simp only [Option.map_some, Option.some.injEq] at hst
      subst hst
      refine h.taken (t := t) (q := .idle) hfree rfl rfl rfl ?_ rfl
        (fun u hu => ⟨update_of_ne hu .., rfl, rfl, id⟩) rfl (by rw [hpc]; rfl) rfl ?_ ?_
      · simp [took, ret, goto]
      · simp [Handed, took, ret, goto]
      · simp [Fits, FitsAt, took, ret, goto]
    · exact hplain (.inr rfl) (Option.some.inj hst)
    · exact hplain (.inl ⟨rounds, rfl⟩) (Option.some.inj hst)

/-- **The step lemma** for a thread inside a routine. -/
theorem Inv.exec {cpu : Fin maxCpu} (h : s.Inv) (hsettles : s.Settles (t, cpu, .run))
    (hst : s.exec t cpu = some s') : s'.Inv := by
  obtain ⟨hbegin, hwake⟩ := hsettles
  simp only [TimedMutex.exec] at hst
  split at hst
  case h_1 | h_2 => cases hst
  case h_3 rounds hpc => exact h.spinning hpc hst
  case h_4 hpc =>
    simp only [MutexState.exec, hpc] at hst
    split_ifs at hst with hspin hset
    · cases hst
    · rw [h.set] at hset
      cases hset
    · simp only [Option.map_some, Option.some.injEq] at hst
      subst hst
      have := h.waitEnter hpc (Decidable.not_not.mp hspin)
      simpa [took, goto] using this
  case h_5 hpc =>
    obtain ⟨hroom, hzero⟩ := hbegin hpc
    simp only [MutexState.exec, hpc] at hst
    split_ifs at hst with hfree
    · simp only [Option.map_some, Option.some.injEq] at hst
      subst hst
      have hspin : s.mutex.spin = some t := h.fitsAt hpc
      refine h.taken (t := t) (q := .onWake) hfree rfl rfl rfl ?_ rfl
        (fun u hu => ⟨rfl, rfl, update_of_ne hu .., fun husp => ?_⟩) rfl
        (by rw [hpc]; rfl) rfl ?_ ?_
      · simp [took, goto]
      · exact absurd (Option.some.inj (husp.symm.trans hspin)) hu
      · simp [Handed, took, goto]
      · simp [Fits, FitsAt, took, goto]
    · simp only [Option.map_some, Option.some.injEq] at hst
      refine h.count hpc hfree hroom (mt hzero hfree) ?_
      rw [← hst]
      simp [took, goto]
  case h_6 hpc =>
    rw [if_neg (h.fitsAt hpc).2.2] at hst
    simp only [MutexState.exec, hpc, Option.map_some, Option.some.injEq] at hst
    subst hst
    exact h.sleep hpc
  case h_7 hpc =>
    rw [h.failed t, if_neg Bool.false_ne_true] at hst
    simp only [MutexState.exec, hpc, Option.map_some, Option.some.injEq] at hst
    obtain ⟨hwaiting, hlt⟩ := h.settled cpu hpc (hwake hpc)
    refine h.wake hpc hwaiting hlt ?_
    rw [← hst, decide_eq_true hlt]
  case h_8 hpc =>
    simp only [MutexState.exec, hpc] at hst
    split_ifs at hst with hspin
    · cases hst
    · simp only [Option.map_some, Option.some.injEq] at hst
      exact h.signal hpc (Decidable.not_not.mp hspin) hst.symm

theorem Inv.apply {a : τ × Fin maxCpu × LockAct} {spinCount : ℕ} (h : s.Inv)
    (hsettles : s.Settles a) (hst : s.apply spinCount a = some s') : s'.Inv := by
  obtain ⟨t, cpu, a⟩ := a
  cases a with
  | lock timeout =>
    simp only [TimedMutex.apply] at hst
    split_ifs at hst with hpc
    obtain ⟨⟩ := hst
    exact h.plain hpc (.inl rfl) (.inl ⟨spinCount, rfl⟩) _ fun u hu =>
      update_of_ne hu ..
  | unlock =>
    simp only [TimedMutex.apply] at hst
    split_ifs at hst with howner hlt
    · obtain ⟨⟩ := hst
      exact h.unlock_free howner.1 howner.2 hlt
    · obtain ⟨⟩ := hst
      exact h.unlock_signal howner.1 howner.2 (Nat.not_lt.mp hlt)
  | run => exact h.exec hsettles hst
  | timeout => exact hsettles.elim

omit [DecidableEq τ] in
theorem inv_initial : (initial : TimedMutex τ).Inv where
  set := rfl
  failed _ := rfl
  fits t result hresult := by cases hresult
  mem t := by simp [initial, MutexState.initial]
  nodup := List.nodup_nil
  free _ := ⟨rfl, total_eq_zero fun _ => rfl⟩
  held t ht := by cases ht

/-- How many threads sleep. -/
def sleepers (s : TimedMutex τ) : ℕ :=
  (Finset.univ.filter fun t => s.mutex.pc t = .asleep).card

/-- The word between the calls. -/
def WordFits (s : TimedMutex τ) : Prop :=
  match s.owner with
  | none => s.mutex.lockCpu = freeSpinValue
  | some _ =>
    if s.sleepers = 0 then s.mutex.lockCpu < maxCpu
    else s.mutex.lockCpu = maxCpu - 1 + s.sleepers

omit [DecidableEq τ] in
/-- Between the calls the threads that wait sleep. -/
theorem Quiet.waiting_eq (h : s.Quiet) : s.waiting = s.sleepers := by
  have hcount : s.waiting = total (fun p => if p = MutexPc.asleep then 1 else 0) s.mutex.pc := by
    refine Finset.sum_congr rfl fun t _ => ?_
    rcases h t with hpc | hpc | hpc <;> rw [hpc] <;> rfl
  rw [hcount, total_ite]
  rfl

/-- **`lock` tells the truth** in every run in which no wait is given up and
`onWake` finds the word as it should be: a thread that it has returned true to,
and no other, has the mutex, and between the calls the word counts the threads
that sleep. -/
theorem lock_truthful {spinCount : ℕ}
    (hs : ((timedMutexMachine τ spinCount).guard Settles).Reachable s) :
    (∀ t result, s.mutex.pc t = .idle → s.mutex.returned t = some result →
      (result = true ↔ s.owner = some t)) ∧
    (s.Quiet → s.WordFits) := by
  have h : s.Inv := hs.invariant (fun _ h => h ▸ inv_initial)
    fun _ _ _ h hst => h.apply hst.1 hst.2
  refine ⟨fun t result hpc hresult => ?_, fun hquiet => ?_⟩
  · exact h.fitsAt hpc result hresult
  · rw [WordFits]
    split
    next hnone => exact (h.free hnone).1
    next o ho =>
      have hheld := h.held o ho
      have hnot : ¬ s.Handed o := fun hh => by
        rcases hquiet o with hpc | hpc | hpc <;> cases hpc.symm.trans hh.1
      rw [← hquiet.waiting_eq]
      split
      next hzero => exact hheld.alone hnot hzero
      next hpos =>
        have := hheld.counted hnot (Nat.pos_of_ne_zero hpos)
        simp only [waitCountStartValue, maxCpu] at this ⊢
        omega

/-- A thread sleeps, and is handed the mutex. -/
theorem lock_truthful_handed : ∃ s : TimedMutex (Fin 2),
    (s.Quiet ∧ s.mutex.returned 1 = some true ∧ s.mutex.pc 1 = .idle) ∧ s.owner = some 1 ∧
      s.WordFits := by
  obtain ⟨s, hs, hend⟩ := Machine.Reachable.exists_of_guard
    (M := timedMutexMachine (Fin 2) 1) Settles
    (P := fun s => decide (s.Quiet ∧ s.mutex.returned 1 = some true ∧ s.mutex.pc 1 = .idle))
    (fun _ _ _ h => h)
    [(0, 1, .lock .infinite), (0, 1, .run), (1, 2, .lock .finite), (1, 2, .run), (1, 2, .run),
      (1, 2, .run), (1, 2, .run), (1, 2, .run), (0, 1, .unlock), (0, 1, .run), (1, 2, .run)]
    (.init rfl) (by decide +kernel)
  obtain ⟨hquiet, hreturned, hpc⟩ := of_decide_eq_true hend
  obtain ⟨htruth, hword⟩ := lock_truthful hs
  exact ⟨s, ⟨hquiet, hreturned, hpc⟩, (htruth 1 true hpc hreturned).mp rfl, hword hquiet⟩

/-- **`lock` lies.** A thread that does not want to wait is told that it has the
mutex of another. -/
theorem lock_returns_true_unowned : ∃ s : TimedMutex (Fin 2),
    (timedMutexMachine (Fin 2) 1).Reachable s ∧ s.mutex.pc 1 = .idle ∧
      s.mutex.returned 1 = some true ∧ s.owner = some 0 := by
  obtain ⟨s, hs, hend⟩ := Machine.Reachable.exists_of_foldlM (M := timedMutexMachine (Fin 2) 1)
    (P := fun s => decide (s.mutex.pc 1 = .idle ∧ s.mutex.returned 1 = some true ∧
      s.owner = some 0))
    (fun _ _ _ h => h)
    [(0, 1, .lock .infinite), (0, 1, .run), (1, 2, .lock .zero), (1, 2, .run), (1, 2, .run),
      (1, 2, .run), (1, 2, .run), (1, 2, .run), (1, 2, .run)]
    (.init rfl) (by decide +kernel)
  exact ⟨s, hs, of_decide_eq_true hend⟩

end TimedMutex

end ShmDos64
