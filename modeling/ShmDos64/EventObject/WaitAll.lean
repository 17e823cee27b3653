import ShmDos64.EventObject.Delivery
/-!
# Waiting for all events

`waitMultiple` with `waitAll` sets `m_needWaitEvents` to the number of its
objects, those that are set already among them, and neither consumes these
nor queues the task at them. So with none of them set every event is counted
once and the last one wakes the task; with some set, the signals of the
others never bring the counter down to the last one; and with all set the
call returns and consumes none.
-/

namespace ShmDos64

open Function (update update_of_ne update_self)

variable {τ ε : Type*} [DecidableEq ε] [DecidableEq τ]

namespace EventState

variable {s t u : EventState τ ε} {L : ε → List τ} {e : ε} {T : τ} {timeout : ℕ}
  {objects rem : List ε} {c : ε → ℕ} {k : ℕ}

/-! ## What a wait for all is -/

/-- The signals of each event that were consumed, after one more `set`: one
of an event that is not set before and not set after. -/
def consumed (s t : EventState τ ε) (e : ε) (c : ε → ℕ) : ε → ℕ :=
  if (s.event e).set = false ∧ (t.event e).set = false then update c e (c e + 1) else c

/-- A sequence of `set` calls, with the signals that were consumed. -/
def runSets : List ε → EventState τ ε → (ε → ℕ) → Option (EventState τ ε × (ε → ℕ))
  | [], s, c => some (s, c)
  | e :: es, s, c => (s.set 1 e).bind fun t => runSets es t (consumed s t e c)

/-- **The wait is for all objects**: the call returns or sleeps, and after
any later `set` calls on the objects the task is not asleep precisely when
each was signalled, one set at the call counting as signalled; and then one
signal of each was consumed. -/
def WaitsForAll (s : EventState τ ε) (T : τ) (objects : List ε) (timeout : ℕ) : Prop :=
  ∃ t r, s.waitMultiple objects T true timeout = some (t, r) ∧
    ∀ es : List ε, (∀ e ∈ es, e ∈ objects) → ∃ u c,
      runSets es t (fun e => if (s.event e).set && !(t.event e).set then 1 else 0) =
        some (u, c) ∧
      (¬ (u.task T).Asleep ↔ ∀ e ∈ objects, (s.event e).set = true ∨ e ∈ es) ∧
      (¬ (u.task T).Asleep → ∀ e ∈ objects, c e = 1)

/-! ## Locks -/

/-- The first loop of a wait for all, after one object: its lock is held
unless it is set. -/
theorem lockLoop_all {obj : ε} (objects : List ε) (hl : (s.event obj).locked = false)
    (idx setCount : ℕ) (needWait : List Bool) : ∃ idx' setCount' needWait' u,
    lockLoop T true (obj :: objects) idx setCount needWait s =
      lockLoop T true objects idx' setCount' needWait' u ∧ OnlyLocks s u ∧
    (u.event obj).locked = !(s.event obj).set ∧ ∀ e, e ≠ obj → u.event e = s.event e := by
  have hlock : OnlyLocks s (s.updateEvent obj fun o => { o with locked := true }) :=
    .lock s obj true
  have hself : ((s.updateEvent obj fun o => { o with locked := true }).event obj).locked = true :=
    by rw [updateEvent_self]
  have hother : ∀ e, e ≠ obj →
      (s.updateEvent obj fun o => { o with locked := true }).event e = s.event e :=
    fun e he => updateEvent_of_ne he
  rw [lockLoop, if_neg (by rw [hl]; exact Bool.false_ne_true)]
  dsimp only
  rw [hlock.set, if_pos rfl]
  generalize (s.updateEvent obj fun o => { o with locked := true }) = v at hlock hself hother ⊢
  by_cases hset : (s.event obj).set = true
  · rw [if_pos hset]
    refine ⟨_, _, _, _, rfl, hlock.trans (.unlock v obj), ?_, fun e he => ?_⟩
    · rw [unlock, if_pos hself, updateEvent_self, hset]
      rfl
    · rw [unlock, if_pos hself, updateEvent_of_ne he, hother e he]
  · rw [if_neg hset]
    rw [Bool.not_eq_true] at hset
    exact ⟨_, _, _, _, rfl, hlock, by rw [hself, hset]; rfl, hother⟩

section

variable (hnd : objects.Nodup) (hfree : ∀ e ∈ objects, (s.event e).locked = false)

include hnd hfree

theorem lockLoop_returns
    (idx setCount : ℕ) (needWait : List Bool) :
    ∃ q, lockLoop T true objects idx setCount needWait s = some q := by
  induction objects generalizing idx setCount needWait s with
  | nil => exact ⟨_, rfl⟩
  | cons obj objects ih =>
    obtain ⟨hno, hnd⟩ := List.nodup_cons.mp hnd
    obtain ⟨idx', c', nw', u, heq, -, -, hother⟩ :=
      lockLoop_all (T := T) objects (hfree obj List.mem_cons_self) idx setCount needWait
    rw [heq]
    refine ih hnd (fun e he => ?_) idx' c' nw'
    rw [hother e fun hc => hno (hc ▸ he)]
    exact hfree e (List.mem_cons_of_mem obj he)

/-- It leaves locked what is not set. -/
theorem lockLoop_locked
    {idx setCount : ℕ} {needWait : List Bool} {q : EventState τ ε × LockLoop}
    (h : lockLoop T true objects idx setCount needWait s = some q)
    (he : (q.1.event e).locked = true) : (s.event e).locked = true ∨ e ∈ s.unset objects := by
  induction objects generalizing idx setCount needWait s with
  | nil =>
    obtain ⟨⟩ := h
    exact .inl he
  | cons obj objects ih =>
    obtain ⟨hno, hnd⟩ := List.nodup_cons.mp hnd
    obtain ⟨idx', c', nw', u, heq, hsu, hself, hother⟩ :=
      lockLoop_all (T := T) objects (hfree obj List.mem_cons_self) idx setCount needWait
    rw [heq] at h
    have hfree' : ∀ e ∈ objects, (u.event e).locked = false := by
      intro e he
      rw [hother e fun hc => hno (hc ▸ he)]
      exact hfree e (List.mem_cons_of_mem obj he)
    rcases ih hnd hfree' h with hl | hm
    · by_cases heo : e = obj
      · right
        rw [heo, hself] at hl
        rw [heo]
        exact List.mem_filter.mpr ⟨List.mem_cons_self, hl⟩
      · rw [hother e heo] at hl
        exact .inl hl
    · right
      rw [unset_congr hsu] at hm
      obtain ⟨hm, hset⟩ := List.mem_filter.mp hm
      exact List.mem_filter.mpr ⟨List.mem_cons_of_mem obj hm, hset⟩

end

theorem insertTask_locked (h : s.insertTask e T = some t) (e' : ε) :
    (t.event e').locked = (s.event e').locked := by
  have hfield : ∀ (u : EventState τ ε) (f : EventObject τ → EventObject τ),
      (∀ o, (f o).locked = o.locked) →
      ((u.updateEvent e f).event e').locked = (u.event e').locked := by
    intro u f hf
    by_cases he : e' = e
    · rw [he, updateEvent_self, hf]
    · rw [updateEvent_of_ne he]
  unfold insertTask at h
  dsimp only at h
  cases hlast : (s.event e).tail with
  | none =>
    rw [hlast] at h
    obtain ⟨⟩ := h
    refine (hfield _ _ ?_).trans (hfield _ _ ?_)
    all_goals exact fun _ => rfl
  | some last =>
    rw [hlast] at h
    obtain ⟨u, hu, rfl⟩ := Option.map_eq_some_iff.mp h
    obtain ⟨i, -, rfl⟩ := Option.map_eq_some_iff.mp hu
    refine hfield _ _ ?_
    exact fun _ => rfl

/-- `unlockAll` unlocks. -/
theorem unlockAll_locked {insert : Bool} {ps : List (ε × Bool)}
    (h : s.unlockAll T insert ps = some t) (he : (t.event e).locked = true) :
    (s.event e).locked = true ∧ (e, true) ∉ ps := by
  induction ps generalizing s with
  | nil =>
    obtain ⟨⟩ := h
    exact ⟨he, List.not_mem_nil⟩
  | cons p ps ih =>
    obtain ⟨obj, needWait⟩ := p
    cases needWait with
    | false =>
      obtain ⟨hs, hps⟩ := ih h
      refine ⟨hs, fun hm => ?_⟩
      rcases List.mem_cons.mp hm with hm | hm
      · cases hm
      · exact hps hm
    | true =>
      obtain ⟨u, hu, h⟩ := Option.bind_eq_some_iff.mp h
      obtain ⟨hul, hps⟩ := ih h
      have hsu : ∀ e', (u.event e').locked = (s.event e').locked := by
        cases insert with
        | true => exact insertTask_locked hu
        | false =>
          obtain ⟨⟩ := hu
          exact fun _ => rfl
      unfold unlock at hul
      split_ifs at hul with hl
      · by_cases heo : e = obj
        · rw [heo, updateEvent_self] at hul
          exact absurd hul Bool.false_ne_true
        · rw [updateEvent_of_ne heo, hsu] at hul
          refine ⟨hul, fun hm => ?_⟩
          rcases List.mem_cons.mp hm with hm | hm
          · exact heo (Prod.mk.inj hm).1
          · exact hps hm
      · have hul : (u.event e).locked = true := hul
        have heo : e ≠ obj := by
          rintro rfl
          exact hl hul
        rw [hsu] at hul
        refine ⟨hul, fun hm => ?_⟩
        rcases List.mem_cons.mp hm with hm | hm
        · exact heo (Prod.mk.inj hm).1
        · exact hps hm

/-- A wait for all holds no lock when it is done. -/
theorem waitAll_free (hactive : (s.task T).state = .active)
    (hauto : ∀ e, (s.event e).manualReset = false) (hnd : objects.Nodup)
    (hfree : ∀ e, (s.event e).locked = false) {r : EventState τ ε × Option ℕ}
    (hw : s.waitMultiple objects T true timeout = some r) (e : ε) :
    (r.1.event e).locked = false := by
  obtain ⟨q, hq, hw⟩ := Option.bind_eq_some_iff.mp hw
  have hlock := lockLoop_spec hauto hq
  have hlocked := fun e => lockLoop_locked (e := e) hnd (fun e _ => hfree e) hq
  obtain ⟨u, loop⟩ := q
  cases loop with
  | returned idx => exact absurd hlock.1.symm Bool.false_ne_true
  | done setCount needWait =>
    obtain ⟨hsu, hbs, -⟩ := hlock
    rw [List.nil_append] at hbs
    dsimp only at hw hbs hlocked hsu
    obtain rfl := hbs
    have hactive' : (u.task T).state = .active := by rw [hsu.task, hactive]
    rw [← List.map_prod_left_eq_zip, prepareToSleep_active hactive'] at hw
    -- every branch ends in `unlockAll`
    have hdone : ∀ {insert : Bool} {v t : EventState τ ε},
        v.unlockAll T insert (objects.map fun e => (e, !(s.event e).set)) = some t →
        v.event = u.event → (t.event e).locked = false := by
      intro insert v t ht hv
      by_contra hl
      rw [Bool.not_eq_false] at hl
      obtain ⟨hul, hno⟩ := unlockAll_locked ht hl
      rw [hv] at hul
      rcases hlocked e hul with hs | hm
      · rw [hfree e] at hs
        exact Bool.false_ne_true hs
      · obtain ⟨hm, hset⟩ := List.mem_filter.mp hm
        exact hno (List.mem_map.mpr ⟨e, hm, by rw [hset]⟩)
    by_cases hall : setCount = objects.length
    · rw [if_pos hall] at hw
      obtain ⟨t, ht, rfl⟩ := Option.map_eq_some_iff.mp hw
      exact hdone ht rfl
    rw [if_neg hall] at hw
    by_cases htime : timeout = 0
    · rw [if_pos htime] at hw
      obtain ⟨t, ht, rfl⟩ := Option.map_eq_some_iff.mp hw
      exact hdone ht rfl
    rw [if_neg htime] at hw
    obtain ⟨t, ht, rfl⟩ := Option.map_eq_some_iff.mp hw
    have hlt : (t.event e).locked = false := hdone ht rfl
    exact hlt

/-! ## The signals -/

/-- The task sleeps, queued alone at the events `rem`, and needs `k` more
than these. -/
structure Pending (s : EventState τ ε) (T : τ) (rem : List ε) (k : ℕ) : Prop where
  queue : QueueInv s fun e => if e ∈ rem then [T] else []
  asleep : (s.task T).Asleep
  need : (s.task T).needWaitEvents = rem.length + k
  nodup : rem.Nodup
  free : ∀ e, (s.event e).locked = false
  more : 0 < rem.length + k

/-- The task was woken, and nobody waits. -/
structure Served (s : EventState τ ε) (T : τ) : Prop where
  queue : QueueInv s fun _ => []
  awake : ¬ (s.task T).Asleep
  free : ∀ e, (s.event e).locked = false

/-- After the wait is over `set` consumes nothing. -/
theorem served_set (h : Served s T) (e : ε) (c : ε → ℕ) : ∃ t,
    s.set 1 e = some t ∧ Served t T ∧ consumed s t e c = c := by
  obtain ⟨t, ht⟩ := set_returns h.queue h.free e
  refine ⟨t, ht, ?_⟩
  by_cases hset : (s.event e).set = true
  · obtain rfl : s = t := by
      rw [EventState.set, if_neg (by rw [h.free e]; exact Bool.false_ne_true), if_pos hset] at ht
      exact Option.some.inj ht
    exact ⟨h, if_neg fun hc => absurd (hset.symm.trans hc.1) Bool.false_ne_true.symm⟩
  · rw [Bool.not_eq_true] at hset
    obtain ⟨L', hq, hout⟩ := set_outcome h.queue hset ht
    cases hout with
    | raised hL hL' hst =>
      subst hL'
      refine ⟨⟨hq, mt (hst.asleep T).mp h.awake, fun e' => ?_⟩, if_neg fun hc => ?_⟩
      · rw [hst.locked]
        by_cases he : e' = e
        · rw [he, updateEvent_self]
          exact h.free e
        · rw [updateEvent_of_ne he]
          exact h.free e'
      · have := hst.set e
        rw [updateEvent_self, hc.2] at this
        exact Bool.false_ne_true this
    | counted T rest i hL | woken T rest i hL => cases hL

omit [DecidableEq τ] in
theorem mem_of_queue {T' : τ} {rest : List τ} (h : (if e ∈ rem then [T] else []) = T' :: rest) :
    e ∈ rem ∧ T = T' ∧ [] = rest := by
  split_ifs at h with hm
  exact ⟨hm, List.cons.inj h⟩

/-- **One signal.** The task needs one event less, or this was the last. -/
theorem pending_set (h : Pending s T rem k) (e : ε) (c : ε → ℕ) : ∃ t, s.set 1 e = some t ∧
    consumed s t e c = (if e ∈ rem then update c e (c e + 1) else c) ∧
    ((0 < (rem.erase e).length + k ∧ Pending t T (rem.erase e) k) ∨
      (k = 0 ∧ rem = [e] ∧ Served t T)) := by
  obtain ⟨t, ht⟩ := set_returns h.queue h.free e
  refine ⟨t, ht, ?_⟩
  have hfree : ∀ e, (s.event e).locked = false := h.free
  by_cases hset : (s.event e).set = true
  · -- absorbed: nobody waits for an event that is set
    obtain rfl : s = t := by
      rw [EventState.set, if_neg (by rw [h.free e]; exact Bool.false_ne_true), if_pos hset] at ht
      exact Option.some.inj ht
    have hno : e ∉ rem := by
      intro hm
      have := h.queue.empty e hset
      rw [if_pos hm] at this
      cases this
    rw [List.erase_of_not_mem hno, if_neg hno]
    refine ⟨if_neg fun hc => ?_, .inl ⟨h.more, h⟩⟩
    exact absurd (hset.symm.trans hc.1) Bool.false_ne_true.symm
  · rw [Bool.not_eq_true] at hset
    obtain ⟨L', hq, hout⟩ := set_outcome h.queue hset ht
    cases hout with
    | raised hL hL' hst =>
      subst hL'
      have hno : e ∉ rem := by
        intro hm
        rw [if_pos hm] at hL
        cases hL
      rw [List.erase_of_not_mem hno, if_neg hno]
      refine ⟨if_neg fun hc => ?_, .inl ⟨h.more, hq, ?_, ?_, h.nodup, fun e' => ?_, h.more⟩⟩
      · have := hst.set e
        rw [updateEvent_self, hc.2] at this
        exact Bool.false_ne_true this
      · exact (hst.asleep T).mpr h.asleep
      · rw [hst.need]
        exact h.need
      · rw [hst.locked]
        by_cases he : e' = e
        · rw [he, updateEvent_self]
          exact h.free e
        · rw [updateEvent_of_ne he]
          exact h.free e'
    | counted T' rest i hL hi hneed hL' hst =>
      obtain ⟨hm, rfl, rfl⟩ := mem_of_queue hL
      have hlen : (rem.erase e).length = rem.length - 1 := List.length_erase_of_mem hm
      rw [h.need] at hneed
      have hmore : 0 < (rem.erase e).length + k := by omega
      refine ⟨?_, .inl ⟨hmore, ?_, ?_, ?_, h.nodup.erase e, fun e' => ?_, hmore⟩⟩
      · rw [if_pos hm, consumed, if_pos ⟨hset, (hst.set e).trans hset⟩]
      · rw [hL'] at hq
        convert hq using 1
        funext e'
        by_cases he : e' = e
        · rw [he, update_self, if_neg h.nodup.not_mem_erase]
        · rw [update_of_ne he]
          simp only [List.mem_erase_of_ne he]
      · rw [hst.asleep, updateTask_self]
        exact h.asleep
      · rw [hst.need, updateTask_self]
        show (s.task T).needWaitEvents - 1 = _
        rw [h.need]
        have := List.length_pos_of_mem hm
        omega
      · rw [hst.locked]
        exact h.free e'
    | woken T' rest i hL hi hneed hL' hst =>
      obtain ⟨hm, rfl, rfl⟩ := mem_of_queue hL
      rw [h.need] at hneed
      have hpos := List.length_pos_of_mem hm
      obtain ⟨e', rfl⟩ := List.length_eq_one_iff.mp (by omega : rem.length = 1)
      obtain rfl := List.mem_singleton.mp hm
      refine ⟨?_, .inr ⟨by omega, rfl, ?_, ?_, fun e' => ?_⟩⟩
      · rw [if_pos hm, consumed, if_pos ⟨hset, (hst.set e).trans hset⟩]
      · rw [hL'] at hq
        convert hq using 1
        funext e'
        by_cases he : e' = e
        · rw [if_pos he]
        · rw [if_neg he, if_neg (by simpa using he), List.erase_nil]
      · rw [hst.asleep, updateTask_self]
        exact wake_awake
      · rw [hst.locked]
        exact h.free e'

/-- Any further calls consume nothing. -/
theorem served_run (h : Served s T) (es : List ε) (c : ε → ℕ) : ∃ u,
    runSets es s c = some (u, c) ∧ Served u T := by
  induction es generalizing s with
  | nil => exact ⟨s, rfl, h⟩
  | cons e es ih =>
    obtain ⟨t, ht, hserved, hc⟩ := served_set h e c
    obtain ⟨u, hu, hserved⟩ := ih hserved
    refine ⟨u, ?_, hserved⟩
    rw [runSets, ht, Option.bind_some, hc, hu]

/-- **All signals.** The task is woken once each event of `rem` was
signalled, if it needs no more than these. -/
theorem pending_run (h : Pending s T rem k) (es : List ε) (c : ε → ℕ) : ∃ u c',
    runSets es s c = some (u, c') ∧
    (∀ e, c' e = if e ∈ rem ∧ e ∈ es then c e + 1 else c e) ∧
    ((k = 0 ∧ (∀ e ∈ rem, e ∈ es) ∧ Served u T) ∨
      ((k ≠ 0 ∨ ∃ e ∈ rem, e ∉ es) ∧ (u.task T).Asleep)) := by
  induction es generalizing s rem c with
  | nil =>
    refine ⟨s, c, rfl, fun e => ?_, .inr ⟨?_, h.asleep⟩⟩
    · rw [if_neg fun hc => absurd hc.2 List.not_mem_nil]
    · have := h.more
      by_cases hk : k = 0
      · obtain ⟨e, he⟩ := List.exists_mem_of_length_pos (by omega : 0 < rem.length)
        exact .inr ⟨e, he, List.not_mem_nil⟩
      · exact .inl hk
  | cons e es ih =>
    obtain ⟨t, ht, hc, ⟨-, hp⟩ | ⟨hk, hrem, hserved⟩⟩ := pending_set h e c
    · obtain ⟨u, c', hu, hc', hout⟩ := ih hp (consumed s t e c)
      refine ⟨u, c', ?_, fun e' => ?_, ?_⟩
      · rw [runSets, ht, Option.bind_some, hu]
      · rw [hc', hc]
        by_cases he : e' = e
        · subst he
          rw [if_neg fun hc => absurd hc.1 h.nodup.not_mem_erase]
          by_cases hm : e' ∈ rem
          · rw [if_pos hm, if_pos ⟨hm, List.mem_cons_self⟩, update_self]
          · rw [if_neg hm, if_neg fun hc => hm hc.1]
        · have hself : (if e ∈ rem then update c e (c e + 1) else c) e' = c e' := by
            split_ifs
            · exact update_of_ne he _ _
            · rfl
          rw [hself]
          simp only [List.mem_erase_of_ne he, List.mem_cons, he, false_or]
      · have hmem : ∀ e' ∈ rem, e' ∈ e :: es ↔ (e' ∈ rem.erase e → e' ∈ es) := by
          intro e' he'
          by_cases he : e' = e
          · subst he
            simp [h.nodup.not_mem_erase]
          · simp [List.mem_erase_of_ne he, he, he']
        rcases hout with ⟨hk, hall, hserved⟩ | ⟨hmore, hasleep⟩
        · exact .inl ⟨hk, fun e' he' => (hmem e' he').mpr fun hm => hall e' hm, hserved⟩
        · refine .inr ⟨hmore.imp_right ?_, hasleep⟩
          rintro ⟨e', he', hno⟩
          have hm := List.mem_of_mem_erase he'
          exact ⟨e', hm, fun hc => hno ((hmem e' hm).mp hc he')⟩
    · obtain ⟨u, hu, hserved⟩ := served_run hserved es (consumed s t e c)
      refine ⟨u, consumed s t e c, ?_, fun e' => ?_, .inl ⟨hk, fun e' he' => ?_, hserved⟩⟩
      · rw [runSets, ht, Option.bind_some, hu]
      · rw [hc, hrem, if_pos (List.mem_singleton_self e)]
        by_cases he : e' = e
        · subst he
          rw [update_self, if_pos ⟨List.mem_singleton_self e', List.mem_cons_self⟩]
        · rw [update_of_ne he, if_neg fun hc => he (List.mem_singleton.mp hc.1)]
      · rw [hrem] at he'
        rw [List.mem_singleton.mp he']
        exact List.mem_cons_self

/-! ## The wait -/

/-- How a wait for all begins, where nobody waits. -/
theorem waitAll_entry (hs : s.Initial) (hauto : ∀ e, (s.event e).manualReset = false)
    (hactive : (s.task T).state = .active) (hnd : objects.Nodup) (htime : timeout ≠ 0) :
    ∃ t r, s.waitMultiple objects T true timeout = some (t, r) ∧
      (∀ e, (t.event e).set = (s.event e).set) ∧
      ((s.unset objects = [] ∧ ¬ (t.task T).Asleep) ∨
        Pending t T (s.unset objects) (objects.length - (s.unset objects).length)) := by
  have hinv := hs.eventInv hauto
  obtain ⟨q, hq⟩ := lockLoop_returns (T := T) hnd (fun e _ => hs.locked e) 0 0 []
  obtain ⟨⟨t, r⟩, hr, hout⟩ := waitMultiple_outcome hinv.toQueueInv hactive hq timeout
  refine ⟨t, r, hr, ?_⟩
  have hfree := waitAll_free hactive hauto hnd hs.locked hr
  rcases hout with ⟨hw, -⟩ | ⟨ht, hnone⟩ | ⟨hne, -, hslept, hneed, hq⟩
  · exact absurd hw.symm Bool.false_ne_true
  · refine ⟨ht.set, .inl ⟨hnone.resolve_right htime, ?_⟩⟩
    rw [ht.task]
    exact not_asleep_of_active hactive
  · have hle : (s.unset objects).length ≤ objects.length := List.length_filter_le _ _
    have hpos := List.length_pos_of_ne_nil hne
    refine ⟨hslept.set, .inr ⟨?_, hslept.asleep, ?_, hnd.filter _, hfree, by omega⟩⟩
    · simpa only [List.nil_append] using hq
    · rw [hneed, if_pos rfl]
      omega

/-- **A wait for all is for exactly all events, precisely when none of them
is set at the call.** -/
theorem waitAll_exact_iff (hs : s.Initial) (hauto : ∀ e, (s.event e).manualReset = false)
    (hactive : (s.task T).state = .active) (hne : objects ≠ []) (hnd : objects.Nodup)
    (htime : timeout ≠ 0) :
    s.WaitsForAll T objects timeout ↔ ∀ e ∈ objects, (s.event e).set = false := by
  obtain ⟨t, r, hr, hset, hout⟩ := waitAll_entry hs hauto hactive hnd htime
  have hmem : ∀ e, e ∈ s.unset objects ↔ e ∈ objects ∧ (s.event e).set = false := by
    intro e
    rw [EventState.unset, List.mem_filter, Bool.not_eq_true']
  -- the call consumes nothing
  have hzero : (fun e => if (s.event e).set && !(t.event e).set then 1 else 0) =
      fun _ : ε => 0 := by
    funext e
    rw [hset e, Bool.and_not_self, if_neg Bool.false_ne_true]
  constructor
  · rintro ⟨t', r', hr', hall⟩
    obtain ⟨rfl, rfl⟩ := Prod.mk.inj (Option.some.inj (hr.symm.trans hr'))
    rw [hzero] at hall
    rcases hout with ⟨hnone, hawake⟩ | hp
    · -- all are set, the call has returned and consumed none
      obtain ⟨u, c, hu, -, hc⟩ := hall [] (fun e he => absurd he List.not_mem_nil)
      obtain ⟨⟩ := hu
      obtain ⟨e, he⟩ := List.exists_mem_of_ne_nil objects hne
      exact absurd (hc hawake e he) Nat.zero_ne_one
    · obtain ⟨u, c, hu, hiff, -⟩ := hall (s.unset objects) fun e he => ((hmem e).mp he).1
      obtain ⟨u', c', hu', -, hrun⟩ := pending_run hp (s.unset objects) fun _ => 0
      obtain ⟨rfl, rfl⟩ := Prod.mk.inj (Option.some.inj (hu.symm.trans hu'))
      have hawake : ¬ (u.task T).Asleep := by
        refine hiff.mpr fun e he => ?_
        cases hse : (s.event e).set with
        | true => exact .inl rfl
        | false => exact .inr ((hmem e).mpr ⟨he, hse⟩)
      rcases hrun with ⟨hk, -, -⟩ | ⟨-, hasleep⟩
      · have hle : objects.length ≤ (s.unset objects).length := by omega
        have heq : s.unset objects = objects := List.filter_sublist.eq_of_length_le hle
        intro e he
        rw [← heq] at he
        exact ((hmem e).mp he).2
      · exact absurd hasleep hawake
  · intro hunset
    have heq : s.unset objects = objects :=
      List.filter_eq_self.mpr fun e he => by rw [hunset e he]; rfl
    rw [heq, Nat.sub_self] at hout
    refine ⟨t, r, hr, fun es _ => ?_⟩
    rw [hzero]
    obtain ⟨u, c, hu, hc, hrun⟩ := pending_run (hout.resolve_left fun h => hne h.1) es fun _ => 0
    refine ⟨u, c, hu, ?_⟩
    rcases hrun with ⟨-, hall, hserved⟩ | ⟨hmore, hasleep⟩
    · refine ⟨iff_of_true hserved.awake fun e he => .inr (hall e he), fun _ e he => ?_⟩
      rw [hc, if_pos ⟨he, hall e he⟩]
    · obtain ⟨e, he, hno⟩ := hmore.resolve_left fun h => h rfl
      refine ⟨iff_of_false (not_not_intro hasleep) fun h => ?_, fun h => absurd hasleep h⟩
      rcases h e he with hs | hm
      · rw [hunset e he] at hs
        exact Bool.false_ne_true hs
      · exact hno hm

/-- Task 0 waits for both events, which are not set. -/
theorem waitAll_exact_twoTasks : twoTasks.WaitsForAll 0 [0, 1] waitInfinite :=
  (waitAll_exact_iff twoTasks_init.1 (fun _ => rfl) rfl (by decide) (by decide)
    (by decide)).mpr fun _ _ => rfl

/-- With event 0 set at the call, task 0 sleeps on after the signal of event
1: it still needs one. -/
theorem waitAll_sleeps_on :
    ¬ (twoTasks.updateEvent 0 fun o => { o with set := true }).WaitsForAll 0 [0, 1]
      waitInfinite := by
  set s := twoTasks.updateEvent 0 fun o => { o with set := true } with hs
  rintro ⟨t, r, hr, hall⟩
  obtain ⟨u, c, hu, hiff, -⟩ := hall [1] (by decide)
  have hrun : (s.waitMultiple [0, 1] 0 true waitInfinite).all fun p => (runSets [1] p.1
      fun e => if (s.event e).set && !(p.1.event e).set then 1 else 0).all fun q =>
      decide (q.1.task 0).Asleep := by
    rw [hs]
    decide +kernel
  rw [hr, Option.all_some, hu, Option.all_some, decide_eq_true_iff] at hrun
  refine hiff.mpr ?_ hrun
  rw [hs]
  decide

end EventState

end ShmDos64
