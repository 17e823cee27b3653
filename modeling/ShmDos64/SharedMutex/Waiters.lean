import ShmDos64.SharedMutex.Model
/-!
# Who waits for a shared mutex is released

`m_wait` says that some thread waits. Whoever clears it owes a notification:
`unlock` one to all, and `shared_unlock` one to a single thread. If two wait
when the last reader leaves, the second is owed nothing: the one that is
released finds `m_wait` false when it leaves in turn, and notifies nobody.
-/

namespace ShmDos64

namespace SharedState

open Function (update update_of_ne update_self)

variable {θ : Type*} [DecidableEq θ] [Fintype θ] {s s' : SharedState θ}

/-- The lock is free and a thread waits for it, with no notification to come
and no released thread to look again. -/
def Stranded (s : SharedState θ) : Prop :=
  s.mutex.lock = false ∧ s.mutex.sharedCount = 0 ∧ (∃ t, s.Blocked t) ∧
    ∀ t, s.pc t ≠ .notifyOne ∧ s.pc t ≠ .notifyAll ∧ ∀ access, s.pc t ≠ .woken access

/-- At most one thread waits when the last reader leaves. -/
def LastReader (s : SharedState θ) : SharedAct θ → Prop
  | .sharedUnlock _ => s.mutex.wait = true → s.mutex.sharedCount = 1 →
      ∀ t u, s.Blocked t → s.Blocked u → t = u
  | _ => True

/-- `m_wait` is set only while someone is inside, and is cleared only with a
notification to come for all who wait. -/
structure Notified (s : SharedState θ) : Prop where
  waiting : s.mutex.wait = true → s.mutex.lock = true ∨ s.mutex.sharedCount ≠ 0
  silent : s.mutex.wait = false → (∀ t, ¬ s.Blocked t) ∨ (∃ t, s.pc t = .notifyAll) ∨
    ((∃ t, s.pc t = .notifyOne) ∧ ∀ t u, s.Blocked t → s.Blocked u → t = u)

omit [DecidableEq θ] [Fintype θ] in
theorem Notified.not_stranded (h : s.Notified) : ¬ s.Stranded := by
  rintro ⟨hlock, hcount, ⟨t, ht⟩, hnone⟩
  have hwait : s.mutex.wait = false := by
    by_contra hne
    rcases h.waiting (Bool.eq_true_of_not_eq_false hne) with hl | hc
    · exact Bool.false_ne_true (hlock.symm.trans hl)
    · exact hc hcount
  rcases h.silent hwait with hb | ⟨u, hu⟩ | ⟨⟨u, hu⟩, -⟩
  · exact hb t ht
  · exact (hnone u).2.1 hu
  · exact (hnone u).1 hu

/-! ## Steps -/

omit [Fintype θ] in
/-- A thread that waits nowhere after its step. -/
theorem blocked_update {t u : θ} {p : SharedPc} (hs' : s'.pc = update s.pc t p)
    (hp : ∀ access, p ≠ .blocked access) (h : s'.Blocked u) : u ≠ t ∧ s.Blocked u := by
  obtain ⟨access, hu⟩ := h
  rw [hs'] at hu
  have hut : u ≠ t := fun hut => by
    rw [hut, update_self] at hu
    exact hp access hu
  rw [update_of_ne hut] at hu
  exact ⟨hut, access, hu⟩

omit [Fintype θ] in
/-- Who is about to notify still is when another thread has moved. -/
theorem notify_update {t u : θ} {pc pc' : SharedPc} (hs' : s'.pc = update s.pc t pc)
    (ht : s.pc t ≠ pc') (h : s.pc u = pc') : s'.pc u = pc' := by
  have hut : u ≠ t := fun hut => ht (hut ▸ h)
  rw [hs', update_of_ne hut]
  exact h

section

variable (h : s.Notified)

include h

variable {t : θ}

omit [Fintype θ] in
/-- A thread that neither waits after its step nor was to notify. -/
theorem Notified.moves {p : SharedPc} (hs' : s'.pc = update s.pc t p)
    (hwait : s'.mutex.wait = s.mutex.wait)
    (hin : s'.mutex.wait = true → s'.mutex.lock = true ∨ s'.mutex.sharedCount ≠ 0)
    (hp : ∀ access, p ≠ .blocked access) (hone : s.pc t ≠ .notifyOne) (hall : s.pc t ≠ .notifyAll) :
    s'.Notified := by
  refine ⟨hin, fun hw => ?_⟩
  rcases h.silent (hwait.symm.trans hw) with hb | ⟨u, hu⟩ | ⟨⟨u, hu⟩, huniq⟩
  · exact .inl fun u hu => hb u (blocked_update hs' hp hu).2
  · exact .inr (.inl ⟨u, notify_update hs' hall hu⟩)
  · exact .inr (.inr ⟨⟨u, notify_update hs' hone hu⟩, fun v w hv hw =>
      huniq v w (blocked_update hs' hp hv).2 (blocked_update hs' hp hw).2⟩)

theorem Notified.test (he : s.Excludes) (access : Access)
    (hone : s.pc t ≠ .notifyOne) (hall : s.pc t ≠ .notifyAll) : (s.test t access).Notified := by
  unfold SharedState.test
  split <;> rename_i hwait
  · refine ⟨fun _ => ?_, fun hw => absurd hw.symm Bool.false_ne_true⟩
    cases access with
    | shared => exact .inl hwait
    | exclusive =>
      simp only [SharedMutex.mustWait, Bool.or_eq_true, decide_eq_true_eq] at hwait
      exact hwait
  · refine h.moves (p := .inside access) rfl ?_ ?_ (by simp) hone hall
    · cases access <;> rfl
    · intro _
      cases access with
      | shared =>
        right
        have := he.sharedCount_eq
        simp only [SharedMutex.enter]
        omega
      | exclusive => exact .inl rfl

/-- The last reader clears `m_wait`, and owes one thread a notification. -/
theorem Notified.sharedUnlock (ht : s.pc t = .inside .shared)
    (hlast : s.LastReader (.sharedUnlock t)) (hs' : s.apply (.sharedUnlock t) = some s') :
    s'.Notified := by
  simp only [apply, ht, ↓reduceIte, Option.some.injEq] at hs'
  subst hs'
  by_cases hclear : s.mutex.wait = true ∧ s.mutex.sharedCount = 1
  · have hr : s.mutex.sharedUnlock = (⟨s.mutex.lock, false, 0⟩, true) := by
      simp [SharedMutex.sharedUnlock, hclear.1, hclear.2]
    rw [hr]
    refine ⟨fun hw => absurd hw Bool.false_ne_true, fun _ => .inr (.inr ⟨⟨t, ?_⟩, ?_⟩)⟩
    · exact update_self ..
    · intro u v hu hv
      exact hlast hclear.1 hclear.2 u v (blocked_update (p := .notifyOne) rfl (by simp) hu).2
        (blocked_update (p := .notifyOne) rfl (by simp) hv).2
  · have hr : s.mutex.sharedUnlock =
        ({ s.mutex with sharedCount := s.mutex.sharedCount - 1 }, false) := by
      unfold SharedMutex.sharedUnlock
      dsimp only
      rw [if_neg]
      simp only [Bool.and_eq_true, decide_eq_true_eq]
      rintro ⟨hw, hc⟩
      exact hclear ⟨hw, by omega⟩
    rw [hr]
    refine h.moves (t := t) rfl rfl ?_ (by simp) (by simp [ht]) (by simp [ht])
    intro hw
    right
    change s.mutex.sharedCount - 1 ≠ 0
    exact fun hc => hclear ⟨hw, by omega⟩

/-- A writer that clears `m_wait` owes all a notification. -/
theorem Notified.unlock (ht : s.pc t = .inside .exclusive)
    (hs' : s.apply (.unlock t) = some s') : s'.Notified := by
  simp only [apply, ht, ↓reduceIte, Option.some.injEq] at hs'
  subst hs'
  cases hw : s.mutex.wait with
  | true =>
    have hr : s.mutex.unlock = (⟨false, false, s.mutex.sharedCount⟩, true) := by
      simp [SharedMutex.unlock, hw]
    rw [hr]
    refine ⟨fun hw => absurd hw Bool.false_ne_true, fun _ => .inr (.inl ⟨t, ?_⟩)⟩
    exact update_self ..
  | false =>
    have hr : s.mutex.unlock = ({ s.mutex with lock := false }, false) := by
      simp [SharedMutex.unlock, hw]
    rw [hr]
    refine h.moves (t := t) rfl rfl ?_ (by simp) (by simp [ht]) (by simp [ht])
    intro hw'
    exact absurd (hw.symm.trans hw') Bool.false_ne_true

/-- `notify_one` pays what was owed if only one thread waits. -/
theorem Notified.notifyOne {waiter : Option θ}
    (hs' : s.apply (.notifyOne t waiter) = some s') : s'.Notified := by
  simp only [apply, Option.ite_none_right_eq_some] at hs'
  obtain ⟨ht, hs'⟩ := hs'
  have hall : s.pc t ≠ .notifyAll := by
    rw [ht]
    simp
  cases waiter with
  | none =>
    simp only [Option.ite_none_left_eq_some, Option.some.injEq] at hs'
    obtain ⟨hnone, rfl⟩ := hs'
    exact ⟨h.waiting, fun _ => .inl fun u hu =>
      hnone ⟨u, (blocked_update (p := .outside) rfl (by simp) hu).2⟩⟩
  | some u =>
    simp only [Option.ite_some_none_eq_some] at hs'
    obtain ⟨hu, rfl⟩ := hs'
    have hrel : ∀ access, release (s.pc u) ≠ .blocked access := by
      obtain ⟨access, hu⟩ := hu
      simp [hu, release]
    have hb : ∀ v, ((s.setPc t .outside).setPc u (release (s.pc u))).Blocked v →
        v ≠ u ∧ s.Blocked v := fun v hv => by
      obtain ⟨hvu, hv⟩ := blocked_update (s := s.setPc t .outside) rfl hrel hv
      exact ⟨hvu, (blocked_update (p := .outside) rfl (by simp) hv).2⟩
    refine ⟨h.waiting, fun hw => ?_⟩
    rcases h.silent hw with hnone | ⟨v, hv⟩ | ⟨-, huniq⟩
    · exact .inl fun v hv => hnone v (hb v hv).2
    · have hvu : (s.setPc t .outside).pc u ≠ .notifyAll := fun hc => by
        obtain ⟨access, hu⟩ := hu
        by_cases hut : u = t
        · rw [hut, ht] at hu
          cases hu
        · change update s.pc t .outside u = _ at hc
          rw [update_of_ne hut, hu] at hc
          cases hc
      have hv' : (s.setPc t .outside).pc v = .notifyAll := notify_update rfl hall hv
      exact .inr (.inl ⟨v, notify_update rfl hvu hv'⟩)
    · exact .inl fun v hv => (hb v hv).1 (huniq v u (hb v hv).2 hu)

theorem Notified.notifyAll (hs' : s.apply (.notifyAll t) = some s') :
    s'.Notified := by
  simp only [apply, Option.ite_some_none_eq_some] at hs'
  obtain ⟨-, rfl⟩ := hs'
  refine ⟨h.waiting, fun _ => .inl fun u hu => ?_⟩
  obtain ⟨-, access, hu⟩ := blocked_update (s := ⟨s.mutex, fun u => release (s.pc u)⟩)
    (p := .outside) rfl (by simp) hu
  change release (s.pc u) = _ at hu
  cases hpc : s.pc u <;> rw [hpc] at hu <;> cases hu

theorem Notified.step (he : s.Excludes) {a : SharedAct θ} (hlast : s.LastReader a)
    (hs' : s.apply a = some s') : s'.Notified := by
  cases a with
  | call t access =>
    simp only [apply, Option.ite_some_none_eq_some] at hs'
    obtain ⟨ht, rfl⟩ := hs'
    exact h.test he access (by simp [ht]) (by simp [ht])
  | recheck t =>
    simp only [apply] at hs'
    split at hs'
    · rename_i access ht
      obtain ⟨⟩ := hs'
      exact h.test he access (by simp [ht]) (by simp [ht])
    · cases hs'
  | spurious t =>
    simp only [apply, Option.ite_some_none_eq_some] at hs'
    obtain ⟨⟨access, ht⟩, rfl⟩ := hs'
    rw [ht]
    exact h.moves (t := t) rfl rfl h.waiting (by simp [release]) (by simp [ht])
      (by simp [ht])
  | sharedUnlock t =>
    have ht : s.pc t = .inside .shared := by
      by_contra hne
      simp [apply, hne] at hs'
    exact h.sharedUnlock ht hlast hs'
  | unlock t =>
    have ht : s.pc t = .inside .exclusive := by
      by_contra hne
      simp [apply, hne] at hs'
    exact h.unlock ht hs'
  | notifyOne t waiter => exact h.notifyOne hs'
  | notifyAll t => exact h.notifyAll hs'

end

theorem notified_reachable (h : ((sharedMachine θ).guard LastReader).Reachable s) : s.Notified := by
  have hboth : s.Notified ∧ s.Excludes := by
    refine h.invariant (I := fun s => s.Notified ∧ s.Excludes) ?_ ?_
    · rintro s hinit
      refine ⟨⟨fun hw => ?_, fun _ => .inl fun t ht => ?_⟩, excludes_reachable (.init hinit)⟩
      · rw [hinit.1] at hw
        cases hw
      · obtain ⟨access, ht⟩ := ht
        rw [hinit.2 t] at ht
        cases ht
    · rintro s a t ⟨hn, he⟩ ⟨hlast, hst⟩
      exact ⟨hn.step he hlast hst, he.step (step_moves hst)⟩
  exact hboth.1

/-- **No waiter is stranded** in a run whose last readers leave with at most
one thread waiting. -/
theorem sharedMutex_strands_none (h : ((sharedMachine θ).guard LastReader).Reachable s) :
    ¬ s.Stranded :=
  (notified_reachable h).not_stranded

instance (s : SharedState θ) (a : SharedAct θ) : Decidable (s.LastReader a) :=
  match a with
  | .sharedUnlock _ =>
    inferInstanceAs (Decidable (_ → _ → ∀ t u, s.Blocked t → s.Blocked u → t = u))
  | .call _ _ | .recheck _ | .spurious _ | .unlock _ | .notifyOne _ _ | .notifyAll _ =>
    isTrue trivial

/-- A writer waits for a reader, which leaves. -/
theorem sharedMutex_strands_none_writer : ∃ s : SharedState (Fin 2),
    s.pc 0 = .notifyOne ∧ s.pc 1 = .blocked .exclusive ∧ ¬ s.Stranded := by
  obtain ⟨s, hs, hP⟩ := Machine.Reachable.exists_of_guard (M := sharedMachine (Fin 2)) LastReader
    (P := fun s => s.pc 0 = .notifyOne ∧ s.pc 1 = .blocked .exclusive) (fun _ _ _ h => h)
    [.call 0 .shared, .call 1 .exclusive, .sharedUnlock 0] (.init idle_init)
    (by decide +kernel)
  obtain ⟨hone, hblocked⟩ := of_decide_eq_true hP
  exact ⟨s, hone, hblocked, sharedMutex_strands_none hs⟩

/-- **A writer is stranded.** Two writers wait when the reader leaves; the
one that is released takes the lock and leaves it without a word. -/
theorem sharedMutex_strands_writer : ∃ s : SharedState (Fin 3),
    (sharedMachine (Fin 3)).Reachable s ∧ s.Stranded := by
  obtain ⟨s, hs, hP⟩ := Machine.Reachable.exists_of_foldlM (M := sharedMachine (Fin 3))
    (P := fun s => s.mutex.lock = false ∧ s.mutex.sharedCount = 0 ∧ s.pc 0 = .outside ∧
      s.pc 1 = .outside ∧ s.pc 2 = .blocked .exclusive)
    (fun _ _ _ h => h)
    [.call 0 .shared, .call 1 .exclusive, .call 2 .exclusive, .sharedUnlock 0,
      .notifyOne 0 (some 1), .recheck 1, .unlock 1] (.init idle_init) (by decide +kernel)
  obtain ⟨hlock, hcount, h0, h1, h2⟩ := of_decide_eq_true hP
  refine ⟨s, hs, hlock, hcount, ⟨2, _, h2⟩, fun t => ?_⟩
  fin_cases t
  · exact h0 ▸ ⟨nofun, nofun, nofun⟩
  · exact h1 ▸ ⟨nofun, nofun, nofun⟩
  · exact h2 ▸ ⟨nofun, nofun, nofun⟩

end SharedState

end ShmDos64
