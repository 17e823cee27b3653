import ShmDos64.KConditionVariable.Model
/-!
# Where a condition variable has its tasks

A task that sleeps is in the list of the condition variable or of the mutex,
and in it once, and a thread inside `wait` has the mutex, or has been granted it,
wherever it relies on that. Each operation of the model keeps this; most of them
move one thread that is in no list.
-/

namespace ShmDos64

open Function (update update_of_ne update_self)

namespace CvPc

variable {τ : Type*}

/-- The thread holds `m_spin`. -/
def inSection : CvPc τ → Bool
  | setFlag _ _ | test _ _ | clearFlag | count _ | release _ | insert _ | move _ _ => true
  | _ => false

/-- The thread may be in a wait list. -/
def listed : CvPc τ → Bool
  | asleep _ | locking => true
  | _ => false

/-- What `wait` of `t` takes the mutex to be. -/
def needs (t : τ) (mutexLock : Bool) : CvPc τ → Option (CvMutex τ)
  | load _ | enter _ _ | setFlag _ _ | test _ _ | clearFlag | count _ | release _ | returns _ =>
    some (.owned t)
  | woken => some (if mutexLock then .owned t else .granted t)
  | _ => none

theorem needs_eq {t : τ} {mutexLock : Bool} {p : CvPc τ} {o : CvMutex τ}
    (h : p.needs t mutexLock = some o) : o = .owned t ∨ o = .granted t := by
  cases p <;> cases mutexLock <;> simp_all [needs]

theorem listed_of_isAsleep {p : CvPc τ} (h : p.isAsleep = true) : p.listed = true := by
  cases p <;> simp_all [isAsleep, listed]

end CvPc

namespace CvState

variable {τ : Type*}

/-- **Where the tasks and the mutex are.** -/
structure Placed (s : CvState τ) : Prop where
  asleep : ∀ t ∈ s.waitTasks, (s.pc t).isAsleep = true
  queued : ∀ t ∈ s.mutexTasks,
    s.pc t = .locking ∨ (s.pc t).isAsleep = true ∧ s.mutexLock t = false
  nodup : (s.waitTasks ++ s.mutexTasks).Nodup
  granted : ∀ t, s.mutex = .granted t →
    (s.pc t = .locking ∨ s.pc t = .woken) ∧ t ∉ s.mutexTasks
  needs : ∀ t o, (s.pc t).needs t (s.mutexLock t) = some o → s.mutex = o
  spin : ∀ t, (s.pc t).inSection = true ↔ s.spin = some t
  moves : ∀ t all task, s.pc t = .move all task → task ∈ s.waitTasks

variable {s s' : CvState τ} {t task : τ} {q : CvPc τ}

namespace Placed

theorem not_mem (h : Placed s) (ht : (s.pc t).listed = false) :
    t ∉ s.waitTasks ∧ t ∉ s.mutexTasks := by
  constructor <;> intro hmem
  · rw [CvPc.listed_of_isAsleep (h.asleep t hmem)] at ht
    cases ht
  · rcases h.queued t hmem with hl | hl
    · rw [hl] at ht
      cases ht
    · rw [CvPc.listed_of_isAsleep hl.1] at ht
      cases ht

theorem not_mem_mutexTasks (h : Placed s) (ht : t ∈ s.waitTasks) : t ∉ s.mutexTasks :=
  fun hm => (List.nodup_append.mp h.nodup).2.2 t ht t hm rfl

theorem not_inSection (h : Placed s) (hspin : s.spin = none) (u : τ) :
    (s.pc u).inSection = false := by
  by_contra hu
  have := (h.spin u).mp (by simpa using hu)
  rw [hspin] at this
  cases this

variable [DecidableEq τ]

section

variable (h : Placed s)

include h

/-- The spin lock is taken, kept, given back or left by the thread that moves. -/
theorem spin_update {spin : Option τ}
    (hspin : q.inSection = true ∧ spin = some t ∧ ((s.pc t).inSection = true ∨ s.spin = none) ∨
      q.inSection = false ∧ spin = if (s.pc t).inSection then none else s.spin) (u : τ) :
    (update s.pc t q u).inSection = true ↔ spin = some u := by
  by_cases hu : u = t
  · subst hu
    rw [update_self]
    rcases hspin with ⟨hq, rfl, -⟩ | ⟨hq, rfl⟩
    · simp [hq]
    · rw [hq]
      split
      · simp
      next hp => simpa using mt (h.spin u).mpr hp
  · rw [update_of_ne hu, h.spin u]
    have hne : some t ≠ some u := fun e => hu (Option.some.inj e).symm
    rcases hspin with ⟨-, rfl, hp | hp⟩ | ⟨-, rfl⟩
    · rw [(h.spin t).mp hp]
    · rw [hp]
      exact ⟨nofun, fun e => absurd e hne⟩
    · split
      next hp =>
        rw [(h.spin t).mp hp]
        exact ⟨fun e => absurd e hne, nofun⟩
      next => rfl

/-- A thread that is in no list moves. It may have obtained the mutex. -/
theorem moved (ht : t ∉ s.waitTasks ∧ t ∉ s.mutexTasks)
    (hpc : s'.pc = update s.pc t q) (hw : s'.waitTasks = s.waitTasks)
    (hm : s'.mutexTasks = s.mutexTasks) (hlock : ∀ u, u ≠ t → s'.mutexLock u = s.mutexLock u)
    (hmutex : s'.mutex = s.mutex ∨
      s'.mutex = .owned t ∧ (s.mutex = .free ∨ s.mutex = .granted t))
    (hneeds : ∀ o, q.needs t (s'.mutexLock t) = some o → s'.mutex = o)
    (hgranted : s'.mutex = .granted t → q = .locking ∨ q = .woken)
    (hspin : q.inSection = true ∧ s'.spin = some t ∧ ((s.pc t).inSection = true ∨ s.spin = none) ∨
      q.inSection = false ∧ s'.spin = if (s.pc t).inSection then none else s.spin)
    (hmoves : ∀ all task, q = .move all task → task ∈ s.waitTasks) : Placed s' := by
  have hne : ∀ u, u ≠ t → s'.pc u = s.pc u := fun u hu => by
    rw [hpc, update_of_ne hu]
  have hself : s'.pc t = q := by rw [hpc, update_self]
  refine ⟨fun u hu => ?_, fun u hu => ?_, ?_, fun u hu => ?_, fun u o hu => ?_, fun u => ?_,
    fun u all task hu => ?_⟩
  · rw [hw] at hu
    rw [hne u (ne_of_mem_of_not_mem hu ht.1)]
    exact h.asleep u hu
  · rw [hm] at hu
    have hut := ne_of_mem_of_not_mem hu ht.2
    rw [hne u hut, hlock u hut]
    exact h.queued u hu
  · rw [hw, hm]
    exact h.nodup
  · rw [hm]
    by_cases hut : u = t
    · subst hut
      rw [hself]
      exact ⟨hgranted hu, ht.2⟩
    · rw [hne u hut]
      rcases hmutex with hmutex | ⟨hmutex, -⟩
      · exact h.granted u (hmutex.symm.trans hu)
      · rw [hmutex] at hu
        cases hu
  · by_cases hut : u = t
    · subst hut
      rw [hself] at hu
      exact hneeds o hu
    · rw [hne u hut, hlock u hut] at hu
      have hold := h.needs u o hu
      rcases hmutex with hmutex | ⟨-, hmutex⟩
      · exact hmutex.trans hold
      · -- the mutex was free, or meant for `t`
        rcases CvPc.needs_eq hu with rfl | rfl <;> rcases hmutex with hmutex | hmutex <;>
          rw [hold] at hmutex <;> cases hmutex
        exact absurd rfl hut
  · rw [hpc]
    exact h.spin_update hspin u
  · rw [hw]
    by_cases hut : u = t
    · subst hut
      rw [hself] at hu
      exact hmoves all task hu
    · rw [hne u hut] at hu
      exact h.moves u all task hu

/-- A thread that is neither in a list nor woken moves, and leaves the mutex. -/
theorem plain (ht : (s.pc t).listed = false) (hwoken : s.pc t ≠ .woken)
    (hpc : s'.pc = update s.pc t q) (hw : s'.waitTasks = s.waitTasks)
    (hm : s'.mutexTasks = s.mutexTasks) (hlock : s'.mutexLock = s.mutexLock)
    (hmutex : s'.mutex = s.mutex)
    (hneeds : ∀ o, q.needs t (s.mutexLock t) = some o → s.mutex = o)
    (hspin : q.inSection = true ∧ s'.spin = some t ∧ ((s.pc t).inSection = true ∨ s.spin = none) ∨
      q.inSection = false ∧ s'.spin = if (s.pc t).inSection then none else s.spin)
    (hmoves : ∀ all task, q = .move all task → task ∈ s.waitTasks) : Placed s' := by
  refine h.moved (h.not_mem ht) hpc hw hm (fun u _ => by rw [hlock]) (.inl hmutex)
    (by rwa [hlock, hmutex]) (fun hg => ?_) hspin hmoves
  rcases (h.granted t (hmutex.symm.trans hg)).1 with hl | hl
  · rw [hl] at ht
    cases ht
  · exact absurd hl hwoken

/-- The mutex is handed to the first task of its list, or becomes free. -/
theorem mutexUnlock (hown : s.mutex = .owned t) (hneeds : (s.pc t).needs t (s.mutexLock t) = none) :
    Placed s.mutexUnlock := by
  -- nobody relies on what the mutex is
  have hnone : ∀ u, (s.pc u).needs u (s.mutexLock u) = none := by
    intro u
    cases hu : (s.pc u).needs u (s.mutexLock u) with
    | none => rfl
    | some o =>
      have ho := h.needs u o hu
      rw [hown] at ho
      rcases CvPc.needs_eq hu with rfl | rfl
      · cases ho
        rw [hneeds] at hu
        cases hu
      · cases ho
  rw [CvState.mutexUnlock]
  split
  next hq =>
    refine ⟨h.asleep, h.queued, h.nodup, nofun, fun u o hu => ?_, h.spin, h.moves⟩
    rw [hnone u] at hu
    cases hu
  next task rest hq =>
    have hmem : task ∈ s.mutexTasks := by simp [hq]
    have hnodup := h.nodup
    rw [hq] at hnodup
    obtain ⟨hnw, hnr, hdisj⟩ := List.nodup_append.mp hnodup
    have htw : ∀ u ∈ s.waitTasks, u ≠ task := fun u hu => hdisj u hu task (by simp)
    obtain ⟨htr, hnr⟩ := List.nodup_cons.mp hnr
    have hrest : ∀ u ∈ rest, u ∈ s.mutexTasks := fun u hu => by simp [hq, hu]
    have hnodup' : (s.waitTasks ++ rest).Nodup :=
      List.nodup_append.mpr ⟨hnw, hnr, fun u hu v hv => hdisj u hu v (List.mem_cons_of_mem _ hv)⟩
    have hnot : (s.pc task).inSection = false := by
      rcases h.queued task hmem with hl | hl
      · rw [hl]
        rfl
      · cases hp : s.pc task <;> simp_all [CvPc.isAsleep, CvPc.inSection]
    split
    next hasleep =>
      refine ⟨fun u hu => ?_, fun u hu => ?_, hnodup', fun u hu => ?_, fun u o hu => ?_,
        fun u => ?_, fun u all task' hu => ?_⟩
      · simp only [goto, update_of_ne (htw u hu)]
        exact h.asleep u hu
      · have hut : u ≠ task := fun e => htr (e ▸ hu)
        simp only [goto, update_of_ne hut]
        exact h.queued u (hrest u hu)
      · obtain rfl : task = u := CvMutex.granted.inj hu
        exact ⟨.inr (update_self ..), htr⟩
      · by_cases hut : u = task
        · subst hut
          have hlock : s.mutexLock u = false := by
            rcases h.queued u hmem with hl | hl
            · rw [hl] at hasleep
              cases hasleep
            · exact hl.2
          simpa [goto, CvPc.needs, hlock] using hu
        · simp only [goto, update_of_ne hut, hnone u] at hu
          cases hu
      · exact h.spin_update (t := task) (q := .woken) (.inr ⟨rfl, by simp [hnot, goto]⟩) u
      · by_cases hut : u = task
        · subst hut
          simp [goto] at hu
        · simp only [goto, update_of_ne hut] at hu
          exact h.moves u all task' hu
    next hasleep =>
      refine ⟨h.asleep, fun u hu => h.queued u (hrest u hu), hnodup', fun u hu => ?_,
        fun u o hu => ?_, h.spin, h.moves⟩
      · obtain rfl : task = u := CvMutex.granted.inj hu
        refine ⟨.inl ?_, htr⟩
        rcases h.queued task hmem with hl | hl
        · exact hl
        · exact absurd hl.1 hasleep
      · rw [hnone u] at hu
        cases hu

/-- A task is taken off the list of the condition variable. -/
theorem nodup_erase (task : τ) : (s.waitTasks.erase task ++ s.mutexTasks).Nodup :=
  h.nodup.sublist ((List.erase_sublist ..).append (List.Sublist.refl _))

/-- A notifier locks the free mutex on behalf of a task. -/
theorem wakeOwner (hspin : s.spin = none) (htask : task ∈ s.waitTasks) (hfree : s.mutex = .free) :
    Placed (s.wakeOwner task) := by
  have hnot : (s.pc task).inSection = false := h.not_inSection hspin task
  have hnd : s.waitTasks.Nodup := (List.nodup_append.mp h.nodup).1
  refine ⟨fun u hu => ?_, fun u hu => ?_, h.nodup_erase task, nofun, fun u o hu => ?_,
    fun u => ?_, fun u all task' hu => ?_⟩
  · obtain ⟨hut, hu⟩ := (List.Nodup.mem_erase_iff hnd).mp hu
    simp only [CvState.wakeOwner, goto, update_of_ne hut]
    exact h.asleep u hu
  · have hut : u ≠ task := fun e => h.not_mem_mutexTasks htask (e ▸ hu)
    simp only [CvState.wakeOwner, goto, update_of_ne hut]
    exact h.queued u hu
  · by_cases hut : u = task
    · subst hut
      simpa [CvState.wakeOwner, goto, CvPc.needs] using hu
    · simp only [CvState.wakeOwner, goto, update_of_ne hut] at hu
      have hold := h.needs u o hu
      rw [hfree] at hold
      rcases CvPc.needs_eq hu with rfl | rfl <;> cases hold
  · exact h.spin_update (t := task) (q := .woken)
      (.inr ⟨rfl, by simp [hnot, CvState.wakeOwner, goto]⟩) u
  · by_cases hut : u = task
    · subst hut
      simp [CvState.wakeOwner, goto] at hu
    · simp only [CvState.wakeOwner, goto, update_of_ne hut] at hu
      have := h.not_inSection hspin u
      rw [hu] at this
      cases this

/-- A notifier moves a task to the list of the mutex. -/
theorem moveTask (hspin : s.spin = none) (htask : task ∈ s.waitTasks) :
    Placed (s.moveTask task) := by
  have hnd : s.waitTasks.Nodup := (List.nodup_append.mp h.nodup).1
  have hasleep := h.asleep task htask
  have hneeds : ∀ lock, (s.pc task).needs task lock = none := by
    intro lock
    cases hp : s.pc task <;> simp_all [CvPc.isAsleep, CvPc.needs]
  refine ⟨fun u hu => h.asleep u (List.mem_of_mem_erase hu), fun u hu => ?_, ?_,
    fun u hu => ?_, fun u o hu => ?_, h.spin, fun u all task' hu => ?_⟩
  · rcases List.mem_append.mp hu with hu | hu
    · have hut : u ≠ task := fun e => h.not_mem_mutexTasks htask (e ▸ hu)
      simp only [CvState.moveTask, update_of_ne hut]
      exact h.queued u hu
    · obtain rfl := List.mem_singleton.mp hu
      exact .inr ⟨hasleep, update_self ..⟩
  · have hnw := h.nodup_erase task
    simp only [CvState.moveTask, ← List.append_assoc]
    refine List.nodup_append.mpr ⟨hnw, List.nodup_singleton _, fun u hu v hv => ?_⟩
    obtain rfl := List.mem_singleton.mp hv
    rintro rfl
    rcases List.mem_append.mp hu with hu | hu
    · exact absurd rfl ((List.Nodup.mem_erase_iff hnd).mp hu).1
    · exact h.not_mem_mutexTasks htask hu
  · obtain ⟨hpc, hmem⟩ := h.granted u hu
    refine ⟨hpc, fun hmem' => ?_⟩
    rcases List.mem_append.mp hmem' with hmem' | hmem'
    · exact hmem hmem'
    · obtain rfl := List.mem_singleton.mp hmem'
      rcases hpc with hpc | hpc <;> rw [hpc] at hasleep <;> cases hasleep
  · by_cases hut : u = task
    · subst hut
      rw [show (s.moveTask u).pc u = s.pc u from rfl, hneeds] at hu
      cases hu
    · simp only [CvState.moveTask, update_of_ne hut] at hu
      exact h.needs u o hu
  · have := h.not_inSection hspin u
    rw [show s.pc u = .move all task' from hu] at this
    cases this

/-- A thread goes to sleep in the list of the condition variable. -/
theorem slept {timeout : ℕ} {timed : Bool} (hpc : s.pc t = .insert timeout) :
    Placed { s.goto t (.asleep timed) with waitTasks := s.waitTasks ++ [t], spin := none } := by
  have hin : (s.pc t).inSection = true := by rw [hpc]; rfl
  have hout : ∀ u, u ≠ t → (s.pc u).inSection = false := by
    intro u hut
    by_contra hu
    have hu := (h.spin u).mp (by simpa using hu)
    rw [(h.spin t).mp hin] at hu
    exact hut (Option.some.inj hu).symm
  obtain ⟨htw, htm⟩ := h.not_mem (t := t) (by rw [hpc]; rfl)
  refine ⟨fun u hu => ?_, fun u hu => ?_, ?_, fun u hu => ?_, fun u o hu => ?_,
    h.spin_update (.inr ⟨rfl, by rw [if_pos hin]⟩), fun u all task hu => ?_⟩
  · rcases List.mem_append.mp hu with hu | hu
    · simp only [goto, update_of_ne (ne_of_mem_of_not_mem hu htw)]
      exact h.asleep u hu
    · obtain rfl := List.mem_singleton.mp hu
      simp [goto, CvPc.isAsleep]
  · simp only [goto, update_of_ne (ne_of_mem_of_not_mem hu htm)]
    exact h.queued u hu
  · obtain ⟨hnw, hnm, hdisj⟩ := List.nodup_append.mp h.nodup
    refine List.nodup_append.mpr ⟨?_, hnm, fun u hu v hv => ?_⟩
    · refine List.nodup_append.mpr ⟨hnw, List.nodup_singleton _, fun u hu v hv => ?_⟩
      obtain rfl := List.mem_singleton.mp hv
      exact ne_of_mem_of_not_mem hu htw
    · rcases List.mem_append.mp hu with hu | hu
      · exact hdisj u hu v hv
      · obtain rfl := List.mem_singleton.mp hu
        exact (ne_of_mem_of_not_mem hv htm).symm
  · obtain ⟨hwait, hmem⟩ := h.granted u hu
    have hut : u ≠ t := by
      rintro rfl
      rw [hpc] at hwait
      rcases hwait with hwait | hwait <;> cases hwait
    simp only [goto, update_of_ne hut]
    exact ⟨hwait, hmem⟩
  · by_cases hut : u = t
    · subst hut
      simp [goto, CvPc.needs] at hu
    · simp only [goto, update_of_ne hut] at hu
      exact h.needs u o hu
  · by_cases hut : u = t
    · subst hut
      simp [goto] at hu
    · simp only [goto, update_of_ne hut] at hu
      have := hout u hut
      rw [hu] at this
      cases this

/-- A thread goes to wait for the mutex. -/
theorem locked (hpc : s.pc t = .idle) :
    Placed { s.goto t .locking with mutexTasks := s.mutexTasks ++ [t] } := by
  obtain ⟨htw, htm⟩ := h.not_mem (t := t) (by rw [hpc]; rfl)
  refine ⟨fun u hu => ?_, fun u hu => ?_, ?_, fun u hu => ?_, fun u o hu => ?_,
    h.spin_update (.inr ⟨rfl, by simp [hpc, CvPc.inSection, goto]⟩), fun u all task hu => ?_⟩
  · simp only [goto, update_of_ne (ne_of_mem_of_not_mem hu htw)]
    exact h.asleep u hu
  · rcases List.mem_append.mp hu with hu | hu
    · simp only [goto, update_of_ne (ne_of_mem_of_not_mem hu htm)]
      exact h.queued u hu
    · obtain rfl := List.mem_singleton.mp hu
      exact .inl (update_self ..)
  · change (s.waitTasks ++ (s.mutexTasks ++ [t])).Nodup
    rw [← List.append_assoc]
    refine List.nodup_append.mpr ⟨h.nodup, List.nodup_singleton _, fun u hu v hv => ?_⟩
    obtain rfl := List.mem_singleton.mp hv
    rintro rfl
    exact (List.mem_append.mp hu).elim htw htm
  · obtain ⟨hwait, hmem⟩ := h.granted u hu
    have hut : u ≠ t := by
      rintro rfl
      rw [hpc] at hwait
      rcases hwait with hwait | hwait <;> cases hwait
    simp only [goto, update_of_ne hut]
    refine ⟨hwait, fun hmem' => ?_⟩
    rcases List.mem_append.mp hmem' with hmem' | hmem'
    · exact hmem hmem'
    · exact hut (List.mem_singleton.mp hmem')
  · by_cases hut : u = t
    · subst hut
      simp [goto, CvPc.needs] at hu
    · simp only [goto, update_of_ne hut] at hu
      exact h.needs u o hu
  · by_cases hut : u = t
    · subst hut
      simp [goto] at hu
    · simp only [goto, update_of_ne hut] at hu
      exact h.moves u all task hu

end

end Placed

end CvState

end ShmDos64
