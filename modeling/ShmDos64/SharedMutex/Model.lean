import Mathlib.Data.Fintype.Card
import ShmDos64.Common.Run
/-!
# The shared mutex

`kshared_mutex` is a readers-writer lock over a `kmutex` and a condition
variable. All its fields are read and written under `m_mtx`, so a step is a
critical section: a round of the loop of `shared_lock` or `lock`, which ends
with the lock taken or in `m_cv.wait`, or the body of `shared_unlock` or
`unlock`. The notifications come after it, as steps of their own. A thread
that `m_cv.wait` has released looks at its condition again in a further
step; it may have been released for no reason.

`m_sharedCount` is an integer: there are fewer than 2^31 threads.
-/

namespace ShmDos64

/-- The fields of `kshared_mutex`, without `m_mtx` and `m_cv`. -/
structure SharedMutex where
  lock : Bool
  wait : Bool
  sharedCount : ℤ
  deriving DecidableEq

/-- What a thread asks for: `shared_lock` or `lock`. -/
inductive Access where
  | shared
  | exclusive
  deriving DecidableEq

namespace SharedMutex

/-- The condition of the loop of `shared_lock`, or of `lock`. -/
def mustWait (m : SharedMutex) : Access → Bool
  | .shared => m.lock
  | .exclusive => m.lock || m.sharedCount ≠ 0

/-- What `shared_lock`, or `lock`, does after its loop. -/
def enter (m : SharedMutex) : Access → SharedMutex
  | .shared => { m with sharedCount := m.sharedCount + 1 }
  | .exclusive => { m with lock := true }

/-- The critical section of `shared_unlock`, with `notify`. -/
def sharedUnlock (m : SharedMutex) : SharedMutex × Bool :=
  let m := { m with sharedCount := m.sharedCount - 1 }
  if m.wait && m.sharedCount = 0 then ({ m with wait := false }, true) else (m, false)

/-- The critical section of `unlock`, with `notify`. -/
def unlock (m : SharedMutex) : SharedMutex × Bool :=
  let m := { m with lock := false }
  if m.wait then ({ m with wait := false }, true) else (m, false)

end SharedMutex

/-- Where a thread is. -/
inductive SharedPc where
  | outside
  /-- In `m_cv.wait`, in the set of the threads that wait. -/
  | blocked (access : Access)
  /-- Released, and about to look at its condition again. -/
  | woken (access : Access)
  /-- Between `shared_lock` and `shared_unlock`, or `lock` and `unlock`. -/
  | inside (access : Access)
  /-- Before the `notify_one` of `shared_unlock`. -/
  | notifyOne
  /-- Before the `notify_all` of `unlock`. -/
  | notifyAll
  deriving DecidableEq

/-- The mutex and the threads that use it. -/
structure SharedState (θ : Type*) where
  mutex : SharedMutex
  pc : θ → SharedPc

/-- The steps of the threads. -/
inductive SharedAct (θ : Type*) where
  /-- `shared_lock` or `lock` is called, and its loop tests the condition. -/
  | call (t : θ) (access : Access)
  /-- A released thread tests the condition again. -/
  | recheck (t : θ)
  /-- A thread is released for no reason. -/
  | spurious (t : θ)
  | sharedUnlock (t : θ)
  | unlock (t : θ)
  /-- `notify_one` releases a thread that waits; none if there is none. -/
  | notifyOne (t : θ) (waiter : Option θ)
  | notifyAll (t : θ)

namespace SharedState

open Function (update)

variable {θ : Type*} [DecidableEq θ]

def setPc (s : SharedState θ) (t : θ) (pc : SharedPc) : SharedState θ :=
  { s with pc := update s.pc t pc }

/-- A round of the loop of `shared_lock` or `lock`. -/
def test (s : SharedState θ) (t : θ) (access : Access) : SharedState θ :=
  if s.mutex.mustWait access then
    { mutex := { s.mutex with wait := true }, pc := update s.pc t (.blocked access) }
  else { mutex := s.mutex.enter access, pc := update s.pc t (.inside access) }

/-- A thread waits in `m_cv.wait`. -/
def Blocked (s : SharedState θ) (t : θ) : Prop :=
  ∃ access, s.pc t = .blocked access

instance (s : SharedState θ) : DecidablePred s.Blocked := fun t =>
  match h : s.pc t with
  | .blocked access => isTrue ⟨access, h⟩
  | .outside | .woken _ | .inside _ | .notifyOne | .notifyAll =>
    isFalse fun ⟨_, hb⟩ => by rw [h] at hb; cases hb

/-- Out of `m_cv.wait`. -/
def release : SharedPc → SharedPc
  | .blocked access => .woken access
  | pc => pc

variable [Fintype θ]

/-- A step. -/
def apply (s : SharedState θ) : SharedAct θ → Option (SharedState θ)
  | .call t access => if s.pc t = .outside then some (s.test t access) else none
  | .recheck t =>
    match s.pc t with
    | .woken access => some (s.test t access)
    | _ => none
  | .spurious t => if s.Blocked t then some (s.setPc t (release (s.pc t))) else none
  | .sharedUnlock t =>
    if s.pc t = .inside .shared then
      let r := s.mutex.sharedUnlock
      some { mutex := r.1, pc := update s.pc t (if r.2 then .notifyOne else .outside) }
    else none
  | .unlock t =>
    if s.pc t = .inside .exclusive then
      let r := s.mutex.unlock
      some { mutex := r.1, pc := update s.pc t (if r.2 then .notifyAll else .outside) }
    else none
  | .notifyOne t waiter =>
    if s.pc t = .notifyOne then
      match waiter with
      | some u =>
        if s.Blocked u then some ((s.setPc t .outside).setPc u (release (s.pc u))) else none
      | none => if ∃ u, s.Blocked u then none else some (s.setPc t .outside)
    else none
  | .notifyAll t =>
    if s.pc t = .notifyAll then
      some { s with pc := update (fun u => release (s.pc u)) t .outside }
    else none

end SharedState

/-- The runs of the threads, from a free mutex and threads outside. -/
def sharedMachine (θ : Type*) [DecidableEq θ] [Fintype θ] :
    Machine (SharedState θ) (SharedAct θ) where
  init s := s.mutex = ⟨false, false, 0⟩ ∧ ∀ t, s.pc t = .outside
  step s a t := s.apply a = some t

namespace SharedState

open Function (update update_of_ne update_self)

variable {θ : Type*} [DecidableEq θ] [Fintype θ] {s s' : SharedState θ}

/-! ## What a step does -/

/-- A step moves threads that are not inside between places outside, lets
one in or out. -/
inductive Moves (s s' : SharedState θ) : Prop
  /-- The lock is as before, and so is who is inside. -/
  | stays (hlock : s'.mutex.lock = s.mutex.lock)
      (hcount : s'.mutex.sharedCount = s.mutex.sharedCount)
      (hpc : ∀ u access, s'.pc u = .inside access ↔ s.pc u = .inside access)
  /-- A thread gets in. -/
  | enters (t : θ) (access : Access) (ht : ∀ access, s.pc t ≠ .inside access)
      (hwait : s.mutex.mustWait access = false) (hmutex : s'.mutex = s.mutex.enter access)
      (hpc : s'.pc = update s.pc t (.inside access))
  /-- A reader leaves. -/
  | leavesShared (t : θ) (pc : SharedPc) (ht : s.pc t = .inside .shared)
      (hlock : s'.mutex.lock = s.mutex.lock)
      (hcount : s'.mutex.sharedCount = s.mutex.sharedCount - 1)
      (hpc : s'.pc = update s.pc t pc) (hout : ∀ access, pc ≠ .inside access)
  /-- A writer leaves. -/
  | leaves (t : θ) (pc : SharedPc) (ht : s.pc t = .inside .exclusive)
      (hlock : s'.mutex.lock = false)
      (hcount : s'.mutex.sharedCount = s.mutex.sharedCount)
      (hpc : s'.pc = update s.pc t pc) (hout : ∀ access, pc ≠ .inside access)

omit [Fintype θ] in
theorem inside_update {f : θ → SharedPc} {t : θ} {pc : SharedPc}
    (ht : ∀ access, f t ≠ .inside access) (hpc : ∀ access, pc ≠ .inside access) (u : θ)
    (access : Access) : update f t pc u = .inside access ↔ f u = .inside access := by
  by_cases hu : u = t
  · subst hu
    rw [update_self]
    exact iff_of_false (hpc access) (ht access)
  · rw [update_of_ne hu]

theorem release_inside {pc : SharedPc} {access : Access} :
    release pc = .inside access ↔ pc = .inside access := by
  cases pc <;> simp [release]

omit [DecidableEq θ] [Fintype θ] in
theorem Blocked.not_inside {t : θ} (h : s.Blocked t) (access : Access) :
    s.pc t ≠ .inside access := by
  obtain ⟨_, hb⟩ := h
  rw [hb]
  exact nofun

theorem outside_ne (access : Access) : SharedPc.outside ≠ .inside access :=
  nofun

omit [Fintype θ] in
theorem test_moves {t : θ} (ht : ∀ access, s.pc t ≠ .inside access) (access : Access) :
    Moves s (s.test t access) := by
  unfold test
  split <;> rename_i hwait
  · exact .stays rfl rfl (inside_update ht nofun)
  · exact .enters t access ht (Bool.eq_false_of_not_eq_true hwait) rfl rfl

theorem step_moves {a : SharedAct θ} (h : s.apply a = some s') : Moves s s' := by
  cases a with
  | call t access =>
    simp only [apply, Option.ite_some_none_eq_some] at h
    obtain ⟨ht, rfl⟩ := h
    exact test_moves (by rw [ht]; exact nofun) access
  | recheck t =>
    simp only [apply] at h
    split at h
    · rename_i access ht
      obtain ⟨⟩ := h
      exact test_moves (by rw [ht]; exact nofun) access
    · cases h
  | spurious t =>
    simp only [apply, Option.ite_some_none_eq_some] at h
    obtain ⟨ht, rfl⟩ := h
    refine .stays rfl rfl (inside_update ht.not_inside fun access hr => ?_)
    exact ht.not_inside access (release_inside.mp hr)
  | sharedUnlock t =>
    simp only [apply, Option.ite_some_none_eq_some] at h
    obtain ⟨ht, rfl⟩ := h
    refine .leavesShared t _ ht ?_ ?_ rfl ?_
    all_goals
      unfold SharedMutex.sharedUnlock
      dsimp only
      split
    all_goals first | rfl | exact nofun
  | unlock t =>
    simp only [apply, Option.ite_some_none_eq_some] at h
    obtain ⟨ht, rfl⟩ := h
    refine .leaves t _ ht ?_ ?_ rfl ?_
    all_goals
      unfold SharedMutex.unlock
      dsimp only
      split
    all_goals first | rfl | exact nofun
  | notifyOne t waiter =>
    simp only [apply, Option.ite_none_right_eq_some] at h
    obtain ⟨ht, h⟩ := h
    have ht' : ∀ access, s.pc t ≠ .inside access := by rw [ht]; exact nofun
    cases waiter with
    | none =>
      simp only [Option.ite_none_left_eq_some, Option.some.injEq] at h
      obtain ⟨-, rfl⟩ := h
      exact .stays rfl rfl (inside_update ht' nofun)
    | some u =>
      simp only [Option.ite_some_none_eq_some] at h
      obtain ⟨hu, rfl⟩ := h
      have hu' : ∀ access, s.pc u ≠ .inside access := hu.not_inside
      have hne : u ≠ t := fun heq => by
        obtain ⟨_, hb⟩ := hu
        rw [heq, ht] at hb
        cases hb
      refine .stays rfl rfl fun v access => ?_
      refine (inside_update (fun access => ?_) (fun access hr => ?_) v access).trans
        (inside_update ht' outside_ne v access)
      · change update s.pc t .outside u ≠ _
        rw [update_of_ne hne]
        exact hu' access
      · exact hu' access (release_inside.mp hr)
  | notifyAll t =>
    simp only [apply, Option.ite_some_none_eq_some] at h
    obtain ⟨ht, rfl⟩ := h
    refine .stays rfl rfl fun v access => ?_
    refine (inside_update (f := fun u => release (s.pc u)) (fun access hr => ?_) outside_ne v
      access).trans release_inside
    rw [release_inside, ht] at hr
    cases hr

/-! ## Exclusion -/

/-- The threads that have the lock shared. -/
def readers (s : SharedState θ) : Finset θ :=
  Finset.univ.filter fun t => s.pc t = .inside .shared

omit [DecidableEq θ] in
theorem mem_readers {t : θ} : t ∈ s.readers ↔ s.pc t = .inside .shared := by
  simp [readers]

/-- What the fields say of the threads that are inside. -/
structure Excludes (s : SharedState θ) : Prop where
  one_writer : ∀ t u, s.pc t = .inside .exclusive → s.pc u = .inside .exclusive → t = u
  no_reader : ∀ t u, s.pc t = .inside .exclusive → s.pc u ≠ .inside .shared
  lock_iff : s.mutex.lock = true ↔ ∃ t, s.pc t = .inside .exclusive
  sharedCount_eq : s.mutex.sharedCount = s.readers.card

section

variable (h : s.Excludes)

include h

omit [DecidableEq θ] in
theorem Excludes.stays (hlock : s'.mutex.lock = s.mutex.lock)
    (hcount : s'.mutex.sharedCount = s.mutex.sharedCount)
    (hpc : ∀ u access, s'.pc u = .inside access ↔ s.pc u = .inside access) : s'.Excludes := by
  have hreaders : s'.readers = s.readers := by
    ext t
    rw [mem_readers, mem_readers, hpc]
  refine ⟨fun t u ht hu => ?_, fun t u ht hu => ?_, ?_, ?_⟩
  · exact h.one_writer t u ((hpc _ _).mp ht) ((hpc _ _).mp hu)
  · exact h.no_reader t u ((hpc _ _).mp ht) ((hpc _ _).mp hu)
  · rw [hlock, h.lock_iff]
    simp only [hpc]
  · rw [hcount, hreaders, h.sharedCount_eq]

omit [DecidableEq θ] in
/-- With count 0 there is no reader. -/
theorem Excludes.no_readers (hzero : s.mutex.sharedCount = 0) (t : θ) :
    s.pc t ≠ .inside .shared := by
  intro ht
  rw [h.sharedCount_eq, Int.natCast_eq_zero, Finset.card_eq_zero] at hzero
  exact Finset.notMem_empty t (hzero ▸ mem_readers.mpr ht)

omit [DecidableEq θ] in
theorem Excludes.no_writer (hlock : s.mutex.lock = false) (t : θ) :
    s.pc t ≠ .inside .exclusive := fun ht =>
  Bool.false_ne_true (hlock.symm.trans (h.lock_iff.mpr ⟨t, ht⟩))

theorem Excludes.enters_shared {t : θ} (ht : s.pc t ≠ .inside .shared)
    (hlock : s.mutex.lock = false) (hmutex : s'.mutex = s.mutex.enter .shared)
    (hpc : s'.pc = update s.pc t (.inside .shared)) : s'.Excludes := by
  have hnone : ∀ u, s'.pc u ≠ .inside .exclusive := fun u hu => by
    rw [hpc] at hu
    by_cases hut : u = t
    · rw [hut, update_self] at hu
      cases hu
    · rw [update_of_ne hut] at hu
      exact h.no_writer hlock u hu
  have hreaders : s'.readers = insert t s.readers := by
    ext u
    rw [mem_readers, Finset.mem_insert, mem_readers, hpc]
    by_cases hut : u = t
    · simp [hut]
    · simp [hut]
  refine ⟨fun u v hu => absurd hu (hnone u), fun u v hu => absurd hu (hnone u), ?_, ?_⟩
  · rw [hmutex]
    exact iff_of_false (by rw [SharedMutex.enter, hlock]; exact Bool.false_ne_true)
      fun ⟨u, hu⟩ => hnone u hu
  · rw [hmutex, hreaders, Finset.card_insert_of_notMem (fun hm => ht (mem_readers.mp hm)),
      SharedMutex.enter, h.sharedCount_eq]
    push_cast
    rfl

theorem Excludes.enters_exclusive {t : θ} (hlock : s.mutex.lock = false)
    (hcount : s.mutex.sharedCount = 0) (hmutex : s'.mutex = s.mutex.enter .exclusive)
    (hpc : s'.pc = update s.pc t (.inside .exclusive)) : s'.Excludes := by
  have hwriter : ∀ u, s'.pc u = .inside .exclusive → u = t := fun u hu => by
    by_contra hut
    rw [hpc, update_of_ne hut] at hu
    exact h.no_writer hlock u hu
  have hreader : ∀ u, s'.pc u ≠ .inside .shared := fun u hu => by
    rw [hpc] at hu
    by_cases hut : u = t
    · rw [hut, update_self] at hu
      cases hu
    · rw [update_of_ne hut] at hu
      exact h.no_readers hcount u hu
  refine ⟨fun u v hu hv => (hwriter u hu).trans (hwriter v hv).symm, fun u v _ => hreader v,
    ?_, ?_⟩
  · rw [hmutex]
    exact iff_of_true rfl ⟨t, by rw [hpc, update_self]⟩
  · have hempty : s'.readers = ∅ := by
      ext u
      rw [mem_readers]
      exact iff_of_false (hreader u) (Finset.notMem_empty u)
    rw [hmutex, hempty, Finset.card_empty]
    exact hcount

theorem Excludes.leaves_shared {t : θ} {pc : SharedPc} (ht : s.pc t = .inside .shared)
    (hlock : s'.mutex.lock = s.mutex.lock) (hcount : s'.mutex.sharedCount = s.mutex.sharedCount - 1)
    (hpc : s'.pc = update s.pc t pc) (hout : ∀ access, pc ≠ .inside access) : s'.Excludes := by
  have hwriter : ∀ u, s'.pc u ≠ .inside .exclusive := fun u hu => by
    rw [hpc] at hu
    by_cases hut : u = t
    · rw [hut, update_self] at hu
      exact hout _ hu
    · rw [update_of_ne hut] at hu
      exact h.no_reader u t hu ht
  have hreaders : s'.readers = s.readers.erase t := by
    ext u
    rw [mem_readers, Finset.mem_erase, mem_readers, hpc]
    by_cases hut : u = t
    · simp [hut, hout]
    · simp [hut]
  refine ⟨fun u v hu => absurd hu (hwriter u), fun u v hu => absurd hu (hwriter u), ?_, ?_⟩
  · rw [hlock, h.lock_iff]
    exact iff_of_false (fun ⟨u, hu⟩ => h.no_reader u t hu ht) fun ⟨u, hu⟩ => hwriter u hu
  · have hmem : t ∈ s.readers := mem_readers.mpr ht
    have hpos := Finset.card_pos.mpr ⟨t, hmem⟩
    rw [hcount, hreaders, Finset.card_erase_of_mem hmem, h.sharedCount_eq]
    omega

theorem Excludes.leaves {t : θ} {pc : SharedPc} (ht : s.pc t = .inside .exclusive)
    (hlock : s'.mutex.lock = false) (hcount : s'.mutex.sharedCount = s.mutex.sharedCount)
    (hpc : s'.pc = update s.pc t pc) (hout : ∀ access, pc ≠ .inside access) : s'.Excludes := by
  have hwriter : ∀ u, s'.pc u ≠ .inside .exclusive := fun u hu => by
    rw [hpc] at hu
    by_cases hut : u = t
    · rw [hut, update_self] at hu
      exact hout _ hu
    · rw [update_of_ne hut] at hu
      exact hut (h.one_writer u t hu ht)
  have hreaders : s'.readers = s.readers := by
    ext u
    rw [mem_readers, mem_readers, hpc]
    by_cases hut : u = t
    · simp [hut, hout, ht]
    · simp [hut]
  refine ⟨fun u v hu => absurd hu (hwriter u), fun u v hu => absurd hu (hwriter u), ?_, ?_⟩
  · exact iff_of_false (by rw [hlock]; exact Bool.false_ne_true) fun ⟨u, hu⟩ => hwriter u hu
  · rw [hcount, hreaders, h.sharedCount_eq]

theorem Excludes.step (hm : Moves s s') : s'.Excludes := by
  cases hm with
  | stays hlock hcount hpc => exact h.stays hlock hcount hpc
  | enters t access ht hwait hmutex hpc =>
    cases access with
    | shared => exact h.enters_shared (ht .shared) hwait hmutex hpc
    | exclusive =>
      simp only [SharedMutex.mustWait, Bool.or_eq_false_iff, decide_eq_false_iff_not, not_not]
        at hwait
      exact h.enters_exclusive hwait.1 hwait.2 hmutex hpc
  | leavesShared t pc ht hlock hcount hpc hout => exact h.leaves_shared ht hlock hcount hpc hout
  | leaves t pc ht hlock hcount hpc hout => exact h.leaves ht hlock hcount hpc hout

end

theorem excludes_reachable (h : (sharedMachine θ).Reachable s) : s.Excludes := by
  refine h.invariant (I := Excludes) ?_ fun s a t hs hst => hs.step (step_moves hst)
  rintro s ⟨hmutex, hpc⟩
  refine ⟨fun t u ht => ?_, fun t u ht => ?_, ?_, ?_⟩
  · rw [hpc] at ht
    cases ht
  · rw [hpc] at ht
    cases ht
  · rw [hmutex]
    exact iff_of_false Bool.false_ne_true fun ⟨t, ht⟩ => by rw [hpc] at ht; cases ht
  · have hempty : s.readers = ∅ := by
      ext t
      rw [mem_readers, hpc]
      exact iff_of_false nofun (Finset.notMem_empty t)
    rw [hmutex, hempty]
    rfl

/-- **Writers are excluded.** In every reachable state there is at most one
writer, no reader beside it, `m_lock` is set exactly with a writer inside, and
`m_sharedCount` counts the readers. -/
theorem sharedMutex_excludes (h : (sharedMachine θ).Reachable s) :
    (∀ t u, s.pc t = .inside .exclusive → s.pc u = .inside .exclusive → t = u) ∧
    (∀ t u, s.pc t = .inside .exclusive → s.pc u ≠ .inside .shared) ∧
    (s.mutex.lock = true ↔ ∃ t, s.pc t = .inside .exclusive) ∧
    s.mutex.sharedCount = (Finset.univ.filter fun t => s.pc t = .inside .shared).card :=
  have he := excludes_reachable h
  ⟨he.one_writer, he.no_reader, he.lock_iff, he.sharedCount_eq⟩

/-- A free mutex and threads outside. -/
def idle (θ : Type*) : SharedState θ :=
  ⟨⟨false, false, 0⟩, fun _ => .outside⟩

theorem idle_init : (sharedMachine θ).init (idle θ) :=
  ⟨rfl, fun _ => rfl⟩

/-- A reader waits for a writer. -/
theorem sharedMutex_excludes_reader : ∃ s : SharedState (Fin 2),
    s.pc 0 = .inside .exclusive ∧ s.pc 1 = .blocked .shared ∧ s.mutex.lock = true ∧
    s.mutex.sharedCount = (Finset.univ.filter fun t => s.pc t = .inside .shared).card := by
  obtain ⟨s, hs, hP⟩ := Machine.Reachable.exists_of_foldlM (M := sharedMachine (Fin 2))
    (P := fun s => s.pc 0 = .inside .exclusive ∧ s.pc 1 = .blocked .shared)
    (fun _ _ _ h => h) [.call 0 .exclusive, .call 1 .shared] (.init idle_init)
    (by decide +kernel)
  obtain ⟨hwriter, hreader⟩ := of_decide_eq_true hP
  obtain ⟨-, -, hlock, hcount⟩ := sharedMutex_excludes hs
  exact ⟨s, hwriter, hreader, hlock.mpr ⟨0, hwriter⟩, hcount⟩

end SharedState

end ShmDos64
