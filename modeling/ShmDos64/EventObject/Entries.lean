import ShmDos64.EventObject.Signals
/-!
# The waits

`waitExStatus` and `waitMultiple` up to the sleep. The first loop of
`waitMultiple` changes locks only, but for the one event a wait for any
consumes, and the objects it leaves locked are distinct: a lock that is held
is not taken again. `unlockAll` then queues the task at each of them.
-/

namespace ShmDos64

open Function (update update_of_ne update_self)
open WaitTask

variable {τ ε : Type*}

/-- Locks differ, and the tasks that hang. -/
structure OnlyLocks (s t : EventState τ ε) : Prop where
  task : t.task = s.task
  blocked : t.blocked = s.blocked
  set : ∀ e, (t.event e).set = (s.event e).set
  manualReset : ∀ e, (t.event e).manualReset = (s.event e).manualReset
  head : ∀ e, (t.event e).head = (s.event e).head
  tail : ∀ e, (t.event e).tail = (s.event e).tail

namespace OnlyLocks

variable {s t u : EventState τ ε}

theorem refl (s : EventState τ ε) : OnlyLocks s s :=
  ⟨rfl, rfl, fun _ => rfl, fun _ => rfl, fun _ => rfl, fun _ => rfl⟩

theorem trans (h : OnlyLocks s t) (h' : OnlyLocks t u) : OnlyLocks s u where
  task := h'.task.trans h.task
  blocked := h'.blocked.trans h.blocked
  set e := (h'.set e).trans (h.set e)
  manualReset e := (h'.manualReset e).trans (h.manualReset e)
  head e := (h'.head e).trans (h.head e)
  tail e := (h'.tail e).trans (h.tail e)

variable [DecidableEq ε] {e : ε} {T : τ}

theorem lock (s : EventState τ ε) (e : ε) (x : Bool) :
    OnlyLocks s (s.updateEvent e fun o => { o with locked := x }) := by
  have hevent : ∀ e', (s.updateEvent e fun o => { o with locked := x }).event e' =
      if e' = e then { s.event e with locked := x } else s.event e' :=
    fun e' => Function.update_apply _ _ _ _
  refine ⟨rfl, rfl, fun e' => ?_, fun e' => ?_, fun e' => ?_, fun e' => ?_⟩
  all_goals
    rw [hevent]
    split_ifs with he
    · rw [he]
    · rfl

/-- A flag is lowered in both. -/
theorem lower (h : OnlyLocks s t) (e : ε) :
    OnlyLocks (s.updateEvent e fun o => { o with set := false })
      (t.updateEvent e fun o => { o with set := false }) := by
  have hevent : ∀ (s : EventState τ ε) e',
      (s.updateEvent e fun o => { o with set := false }).event e' =
      if e' = e then { s.event e with set := false } else s.event e' :=
    fun s e' => Function.update_apply _ _ _ _
  refine ⟨h.task, h.blocked, fun e' => ?_, fun e' => ?_, fun e' => ?_, fun e' => ?_⟩
  all_goals
    rw [hevent, hevent]
    split_ifs with he
  · rfl
  · exact h.set e'
  · exact h.manualReset e
  · exact h.manualReset e'
  · exact h.head e
  · exact h.head e'
  · exact h.tail e
  · exact h.tail e'

variable [DecidableEq τ]

theorem unlock (s : EventState τ ε) (e : ε) : OnlyLocks s (s.unlock T e) := by
  unfold EventState.unlock
  split_ifs with h
  · exact lock s e false
  · exact ⟨rfl, rfl, fun _ => rfl, fun _ => rfl, fun _ => rfl, fun _ => rfl⟩

theorem unlocks (s : EventState τ ε) (e : ε) (is : List ℕ) :
    OnlyLocks s (is.foldl (fun s _ => s.unlock T e) s) := by
  induction is generalizing s with
  | nil => exact refl s
  | cons i is ih => exact (unlock s e).trans (ih _)

/-- `unlockAll` of a task that does not sleep. -/
theorem unlockAll (ps : List (ε × Bool)) (s : EventState τ ε) : ∃ t,
    s.unlockAll T false ps = some t ∧ OnlyLocks s t := by
  induction ps generalizing s with
  | nil => exact ⟨s, rfl, refl s⟩
  | cons p ps ih =>
    obtain ⟨obj, needWait⟩ := p
    cases needWait with
    | false => exact ih s
    | true =>
      obtain ⟨t, ht, hst⟩ := ih (s.unlock T obj)
      exact ⟨t, ht, (unlock s obj).trans hst⟩

omit [DecidableEq ε] [DecidableEq τ] in
theorem waits {L : ε → List τ} (h : OnlyLocks s t) (hw : Waits s L) : Waits t L where
  full T i e hi ho := by
    rw [h.task] at hi ho
    exact hw.full T i e hi ho
  asleep e T hT := by
    rw [h.task]
    exact hw.asleep e T hT
  awake T := by
    rw [h.task]
    exact hw.awake T
  auto e := (h.manualReset e).trans (hw.auto e)
  empty e he := hw.empty e ((h.set e).symm.trans he)

omit [DecidableEq τ] in
theorem queueInv {L : ε → List τ} (h : OnlyLocks s t) (hq : QueueInv s L) : QueueInv t L :=
  ⟨h.waits hq.toWaits, hq.lists.of_infos (fun T => by rw [h.task]) (fun T => by rw [h.task])
    h.head h.tail⟩

end OnlyLocks

namespace EventState

variable [DecidableEq ε] [DecidableEq τ] {s t u : EventState τ ε} {L : ε → List τ} {e e' : ε}
  {T T' : τ} {i : ℕ}

/-! ## The first loop of `waitMultiple` -/

/-- The objects that are not set. -/
def unset (s : EventState τ ε) (objects : List ε) : List ε :=
  objects.filter fun e => !(s.event e).set

/-- How the first loop ends: a wait for any returned at an event that was
set, or the objects that were not set are locked. -/
def LockOutcome (s : EventState τ ε) (objects : List ε) (waitAll : Bool) (setCount : ℕ)
    (needWait : List Bool) (t : EventState τ ε) : LockLoop → Prop
  | .returned _ => waitAll = false ∧ ∃ obj ∈ objects, (s.event obj).set = true ∧
      OnlyLocks (s.updateEvent obj fun o => { o with set := false }) t
  | .done setCount' needWait' => OnlyLocks s t ∧
      needWait' = needWait ++ objects.map (fun e => !(s.event e).set) ∧
      setCount' + (s.unset objects).length = setCount + objects.length ∧
      (s.unset objects).Nodup ∧ (∀ e ∈ s.unset objects, (s.event e).locked = false) ∧
      (waitAll = false → s.unset objects = objects)

omit [DecidableEq ε] [DecidableEq τ] in
theorem unset_congr (h : OnlyLocks s t) (objects : List ε) : t.unset objects = s.unset objects :=
  List.filter_congr fun e _ => by rw [h.set]

variable {objects : List ε} {waitAll : Bool}

omit [DecidableEq τ] in
/-- One object, and the outcome for the rest. -/
theorem LockOutcome.cons {obj : ε} {setCount setCount' : ℕ}
    {needWait : List Bool} {r : LockLoop} (hsu : OnlyLocks s u)
    (h : LockOutcome u objects waitAll setCount' (needWait ++ [!(s.event obj).set]) t r)
    (hcount : setCount' = if (s.event obj).set then setCount + 1 else setCount)
    (hlocked : ∀ e, (u.event e).locked = false → (s.event e).locked = false)
    (hobj : (s.event obj).set = false →
      (s.event obj).locked = false ∧ (u.event obj).locked = true)
    (hall : waitAll = false → (s.event obj).set = false) :
    LockOutcome s (obj :: objects) waitAll setCount needWait t r := by
  cases r with
  | returned idx =>
    obtain ⟨hw, e, he, hset, ht⟩ := h
    exact ⟨hw, e, List.mem_cons_of_mem obj he, (hsu.set e).symm.trans hset, (hsu.lower e).trans ht⟩
  | done c bs =>
    obtain ⟨hut, hbs, hc, hnd, hfree, hany⟩ := h
    rw [unset_congr hsu] at hc hnd hfree hany
    have hmap : (objects.map fun e => !(u.event e).set) =
        objects.map fun e => !(s.event e).set :=
      List.map_congr_left fun e _ => by rw [hsu.set]
    refine ⟨hsu.trans hut, ?_, ?_⟩
    · rw [hbs, hmap, List.map_cons, List.append_assoc, List.singleton_append]
    · cases hset : (s.event obj).set with
      | true =>
        have hunset : s.unset (obj :: objects) = s.unset objects := by
          simp [EventState.unset, hset]
        rw [hset, if_pos rfl] at hcount
        rw [hunset, List.length_cons]
        refine ⟨by omega, hnd, fun e he => hlocked e (hfree e he), fun hw => ?_⟩
        rw [hall hw] at hset
        exact absurd hset Bool.false_ne_true
      | false =>
        have hunset : s.unset (obj :: objects) = obj :: s.unset objects := by
          simp [EventState.unset, hset]
        obtain ⟨hl, hlu⟩ := hobj hset
        rw [hset, if_neg Bool.false_ne_true] at hcount
        rw [hunset, List.length_cons, List.length_cons]
        refine ⟨by omega, List.nodup_cons.mpr ⟨fun hm => ?_, hnd⟩, ?_, fun hw => ?_⟩
        · -- a held lock is not taken again
          rw [hfree obj hm] at hlu
          exact Bool.false_ne_true hlu
        · intro e he
          rcases List.mem_cons.mp he with rfl | he
          · exact hl
          · exact hlocked e (hfree e he)
        · rw [hany hw]

theorem lockLoop_spec (hauto : ∀ e, (s.event e).manualReset = false) {idx setCount : ℕ}
    {needWait : List Bool} {r : EventState τ ε × LockLoop}
    (h : lockLoop T waitAll objects idx setCount needWait s = some r) :
    LockOutcome s objects waitAll setCount needWait r.1 r.2 := by
  induction objects generalizing idx setCount needWait s with
  | nil =>
    obtain ⟨⟩ := h
    refine ⟨OnlyLocks.refl s, by simp, rfl, List.nodup_nil, ?_, fun _ => rfl⟩
    exact fun e he => absurd he List.not_mem_nil
  | cons obj objects ih =>
    have hl : (s.event obj).locked = false := by
      by_contra hl
      rw [lockLoop, if_pos (Bool.not_eq_false _ ▸ hl)] at h
      exact Option.some_ne_none r h.symm
    rw [lockLoop, if_neg (by rw [hl]; exact Bool.false_ne_true)] at h
    dsimp only at h
    have h₁ : OnlyLocks s (s.updateEvent obj fun o => { o with locked := true }) :=
      .lock s obj true
    have hself : ((s.updateEvent obj fun o => { o with locked := true }).event obj).locked = true :=
      by rw [updateEvent_self]
    have hother : ∀ e, e ≠ obj →
        ((s.updateEvent obj fun o => { o with locked := true }).event e) = s.event e :=
      fun e he => updateEvent_of_ne he
    rw [h₁.set obj, h₁.manualReset obj, hauto obj] at h
    generalize (s.updateEvent obj fun o => { o with locked := true }) = s₁ at h h₁ hself hother
    by_cases hset : (s.event obj).set = true
    · rw [if_pos hset] at h
      by_cases hall : waitAll = true
      · rw [if_pos hall] at h
        have h₂ := h₁.trans (.unlock (T := T) s₁ obj)
        have hrest := ih (fun e => (h₂.manualReset e).trans (hauto e)) h
        refine .cons h₂ (by rwa [hset]) (by rw [hset, if_pos rfl]) ?_ ?_ ?_
        · intro e he
          by_cases heo : e = obj
          · rw [heo, hl]
          · rwa [unlock, if_pos hself, updateEvent_of_ne heo, hother e heo] at he
        · intro hf
          rw [hset] at hf
          exact absurd hf.symm Bool.false_ne_true
        · intro hw
          rw [hw] at hall
          exact absurd hall Bool.false_ne_true
      · rw [if_neg hall, if_neg Bool.false_ne_true] at h
        obtain ⟨⟩ := h
        refine ⟨Bool.not_eq_true _ ▸ hall, obj, List.mem_cons_self, hset, ?_⟩
        exact (h₁.lower obj).trans (.unlocks _ obj _)
    · rw [if_neg hset] at h
      rw [Bool.not_eq_true] at hset
      have hrest := ih (fun e => (h₁.manualReset e).trans (hauto e)) h
      refine .cons h₁ (by rwa [hset]) (by rw [hset, if_neg Bool.false_ne_true]) ?_
        (fun _ => ⟨hl, hself⟩) fun _ => hset
      intro e he
      by_cases heo : e = obj
      · rw [heo, hl]
      · rwa [hother e heo] at he

/-! ## The task is queued -/

/-- `insertTask` of a task that sleeps. -/
theorem queueInv_insert (h : QueueInv s L) (hasleep : (s.task T).Asleep) (hT : T ∉ L e)
    (hset : (s.event e).set = false) : ∃ t, s.insertTask e T = some t ∧ Inserted s t e T ∧
    QueueInv t (update L e (L e ++ [T])) := by
  obtain ⟨t, ht, hst, hLt⟩ := insertTask_spec h.lists hT
    fun i hi ho => hT (h.full T i e hi ho)
  have hsleep : ∀ T', (t.task T').Asleep ↔ (s.task T').Asleep := by
    intro T'
    rw [Asleep, Asleep, hst.state]
  refine ⟨t, ht, hst, ⟨?_, ?_, ?_, ?_, ?_⟩, hLt⟩
  · intro T' i e' hi ho
    rw [hst.object] at ho
    rw [hst.count] at hi
    split_ifs at ho with hnew
    · obtain ⟨⟩ := ho
      rw [hnew.1, update_self]
      exact List.mem_append_right _ (List.mem_singleton_self T)
    · have hm : T' ∈ L e' := by
        refine h.full T' i e' ?_ ho
        split_ifs at hi with hTT
        · subst hTT
          have : i ≠ (s.task T').waitEventCount := fun hc => hnew ⟨rfl, hc⟩
          omega
        · exact hi
      by_cases he : e' = e
      · rw [he, update_self]
        exact List.mem_append_left _ (he ▸ hm)
      · rwa [update_of_ne he]
  · intro e' T' hm
    rw [hsleep]
    by_cases he : e' = e
    · rw [he, update_self] at hm
      rcases List.mem_append.mp hm with hm | hm
      · exact h.asleep e T' hm
      · rwa [List.mem_singleton.mp hm]
    · rw [update_of_ne he] at hm
      exact h.asleep e' T' hm
  · intro T' hn
    rw [hsleep] at hn
    have hTT : T' ≠ T := by
      rintro rfl
      exact hn hasleep
    rw [hst.count, if_neg hTT]
    exact h.awake T' hn
  · intro e'
    rw [hst.manualReset]
    exact h.auto e'
  · intro e' hset'
    rw [hst.set] at hset'
    have he : e' ≠ e := by
      rintro rfl
      rw [hset] at hset'
      exact Bool.false_ne_true hset'
    rw [update_of_ne he]
    exact h.empty e' hset'

/-- The task has new slots, for `ws`. -/
structure Queued (s t : EventState τ ε) (ws : List ε) (T : τ) : Prop where
  state : ∀ T', (t.task T').state = (s.task T').state
  need : ∀ T', (t.task T').needWaitEvents = (s.task T').needWaitEvents
  count : (t.task T).waitEventCount = (s.task T).waitEventCount + ws.length
  old : ∀ i < (s.task T).waitEventCount,
    ((t.task T).infos i).object = ((s.task T).infos i).object
  new : ∀ k, k < ws.length →
    ((t.task T).infos ((s.task T).waitEventCount + k)).object = ws[k]?
  countOther : ∀ T', T' ≠ T → (t.task T').waitEventCount = (s.task T').waitEventCount
  objectOther : ∀ T', T' ≠ T → ∀ i, ((t.task T').infos i).object = ((s.task T').infos i).object
  set : ∀ e, (t.event e).set = (s.event e).set
  blocked : t.blocked = s.blocked

omit [DecidableEq ε] [DecidableEq τ] in
theorem Queued.nil (s : EventState τ ε) (T : τ) : Queued s s [] T :=
  ⟨fun _ => rfl, fun _ => rfl, rfl, fun _ _ => rfl, fun k hk => absurd hk (Nat.not_lt_zero k),
    fun _ _ => rfl, fun _ _ _ => rfl, fun _ => rfl, rfl⟩

variable {ws : List ε}

omit [DecidableEq ε] in
theorem Queued.cons {v : EventState τ ε} (hsu : Inserted s u e T)
    (huv : OnlyLocks u v) (hvt : Queued v t ws T) : Queued s t (e :: ws) T := by
  have hcount : (u.task T).waitEventCount = (s.task T).waitEventCount + 1 := by
    rw [hsu.count, if_pos rfl]
  have hobject : ∀ T' i, ¬ (T' = T ∧ i = (s.task T).waitEventCount) →
      ((u.task T').infos i).object = ((s.task T').infos i).object := by
    intro T' i hn
    rw [hsu.object, if_neg hn]
  obtain ⟨hstate, hneed, hc, hold, hnew, hco, hoo, hset, hb⟩ := hvt
  rw [huv.task] at hc hold hnew
  refine ⟨fun T' => ?_, fun T' => ?_, ?_, fun i hi => ?_, fun k hk => ?_, fun T' hT => ?_,
    fun T' hT i => ?_, fun e' => ?_, ?_⟩
  · rw [hstate, huv.task, hsu.state]
  · rw [hneed, huv.task, hsu.need]
  · rw [hc, hcount, List.length_cons]
    omega
  · rw [hold i (by omega), hobject T i fun hc => hi.ne hc.2]
  · cases k with
    | zero =>
      rw [Nat.add_zero, hold _ (by omega), hsu.object, if_pos ⟨rfl, rfl⟩]
      rfl
    | succ k =>
      have hk' : k < ws.length := Nat.lt_of_succ_lt_succ hk
      have := hnew k hk'
      rw [hcount, Nat.add_right_comm, Nat.add_assoc] at this
      rw [List.getElem?_cons_succ, ← this]
  · rw [hco T' hT, huv.task, hsu.count, if_neg hT]
  · rw [hoo T' hT, huv.task, hobject T' i fun hc => hT hc.1]
  · rw [hset, huv.set, hsu.set]
  · rw [hb, huv.blocked, hsu.blocked]

/-- **The task is queued** at each object it is to wait for. -/
theorem unlockAll_insert (b : ε → Bool) (objects : List ε) (h : QueueInv s L)
    (hasleep : (s.task T).Asleep) (hnd : (objects.filter b).Nodup)
    (hnew : ∀ e ∈ objects.filter b, T ∉ L e ∧ (s.event e).set = false) : ∃ t,
    s.unlockAll T true (objects.map fun e => (e, b e)) = some t ∧
    Queued s t (objects.filter b) T ∧
    QueueInv t fun e => if e ∈ objects.filter b then L e ++ [T] else L e := by
  induction objects generalizing s L with
  | nil =>
    refine ⟨s, rfl, Queued.nil s T, ?_⟩
    simpa using h
  | cons obj objects ih =>
    cases hb : b obj with
    | false =>
      rw [List.filter_cons_of_neg (by simp [hb])] at hnd hnew ⊢
      rw [List.map_cons, hb]
      exact ih h hasleep hnd hnew
    | true =>
      rw [List.filter_cons_of_pos hb] at hnd hnew ⊢
      obtain ⟨hno, hnd⟩ := List.nodup_cons.mp hnd
      obtain ⟨hT, hset⟩ := hnew obj List.mem_cons_self
      obtain ⟨u, hu, hsu, hqu⟩ := queueInv_insert h hasleep hT hset
      have huv : OnlyLocks u (u.unlock T obj) := .unlock u obj
      obtain ⟨t, ht, hvt, hqt⟩ := ih (huv.queueInv hqu)
        (by
          rw [huv.task, Asleep, hsu.state]
          exact hasleep) hnd
        (fun e he => by
          have hne : e ≠ obj := fun hc => hno (hc ▸ he)
          obtain ⟨hTe, hse⟩ := hnew e (List.mem_cons_of_mem obj he)
          rw [update_of_ne hne, huv.set, hsu.set]
          exact ⟨hTe, hse⟩)
      refine ⟨t, ?_, .cons hsu huv hvt, ?_⟩
      · rw [List.map_cons, hb]
        show (s.insertTask obj T).bind _ = _
        rw [hu]
        exact ht
      · convert hqt using 1
        funext e
        by_cases he : e = obj
        · subst he
          rw [if_pos List.mem_cons_self, if_neg hno, update_self]
        · simp only [List.mem_cons, he, false_or, update_of_ne he]

/-! ## The two waits -/

/-- What `prepareToSleep` changes. -/
def doze (timeout : ℕ) (t : WaitTask τ ε) : WaitTask τ ε :=
  { t with
    state := if timeout ≠ waitInfinite then .timedSleep else .sleep
    waitEventResult := waitError }

omit [DecidableEq ε] [DecidableEq τ] in
theorem doze_asleep (timeout : ℕ) (t : WaitTask τ ε) : (doze timeout t).Asleep := by
  unfold doze Asleep
  dsimp only
  split_ifs
  · exact .inr rfl
  · exact .inl rfl

/-- The task is about to sleep in `call`. -/
def goToSleep (s : EventState τ ε) (T : τ) (timeout : ℕ) (call : WaitCall ε) : EventState τ ε :=
  { s.updateTask T (doze timeout) with blocked := update s.blocked T (some call) }

variable {timeout : ℕ} {call : WaitCall ε}

omit [DecidableEq ε] in
theorem goToSleep_self : (s.goToSleep T timeout call).task T = doze timeout (s.task T) :=
  updateTask_self

omit [DecidableEq ε] in
theorem goToSleep_of_ne (hT : T' ≠ T) : (s.goToSleep T timeout call).task T' = s.task T' :=
  updateTask_of_ne hT

omit [DecidableEq τ] in
/-- A task that runs is in no queue. -/
theorem not_mem_of_awake (h : QueueInv s L) (hT : ¬ (s.task T).Asleep) (e : ε) : T ∉ L e :=
  fun hm => hT (h.asleep e T hm)

theorem goToSleep_queueInv (h : QueueInv s L) (hT : ¬ (s.task T).Asleep) (timeout : ℕ)
    (call : WaitCall ε) : QueueInv (s.goToSleep T timeout call) L := by
  have hcount := h.awake T hT
  have hw : Waits (s.updateTask T (doze timeout)) L := by
    refine h.toWaits.updateTask (fun _ _ _ => Iff.rfl) ?_ ?_ (fun _ => hcount) h.empty
    · intro i e hi
      have hi : i < (s.task T).waitEventCount := hi
      rw [hcount] at hi
      exact absurd hi (Nat.not_lt_zero i)
    · intro e hm
      exact absurd hm (not_mem_of_awake h hT e)
  refine ⟨⟨hw.full, hw.asleep, hw.awake, hw.auto, hw.empty⟩, ?_⟩
  refine h.lists.of_infos (fun T' => ?_) (fun T' => ?_) (fun _ => rfl) (fun _ => rfl)
  all_goals
    by_cases hTT : T' = T
    · rw [hTT, goToSleep_self]
      rfl
    · rw [goToSleep_of_ne hTT]

/-- The task sleeps in `call`, queued at the events `ws`. -/
structure Slept (s t : EventState τ ε) (T : τ) (call : WaitCall ε) (ws : List ε) : Prop where
  asleep : (t.task T).Asleep
  count : (t.task T).waitEventCount = ws.length
  object : ∀ k, k < ws.length → ((t.task T).infos k).object = ws[k]?
  state : ∀ T', T' ≠ T → (t.task T').state = (s.task T').state
  need : ∀ T', T' ≠ T → (t.task T').needWaitEvents = (s.task T').needWaitEvents
  countOther : ∀ T', T' ≠ T → (t.task T').waitEventCount = (s.task T').waitEventCount
  objectOther : ∀ T', T' ≠ T → ∀ i, ((t.task T').infos i).object = ((s.task T').infos i).object
  set : ∀ e, (t.event e).set = (s.event e).set
  blocked : t.blocked = update s.blocked T (some call)

omit [DecidableEq ε] in
theorem slept_of_queued (hcount : (s.task T).waitEventCount = 0)
    (hq : Queued (s.goToSleep T timeout call) t ws T) : Slept s t T call ws := by
  have hcount' : ((s.goToSleep T timeout call).task T).waitEventCount = 0 := by
    rw [goToSleep_self]
    exact hcount
  refine ⟨?_, ?_, fun k hk => ?_, fun T' hT => ?_, fun T' hT => ?_, fun T' hT => ?_,
    fun T' hT i => ?_, hq.set, hq.blocked⟩
  · rw [Asleep, hq.state, goToSleep_self]
    exact doze_asleep timeout _
  · rw [hq.count, hcount', Nat.zero_add]
  · have := hq.new k hk
    rwa [hcount', Nat.zero_add] at this
  · rw [hq.state, goToSleep_of_ne hT]
  · rw [hq.need, goToSleep_of_ne hT]
  · rw [hq.countOther T' hT, goToSleep_of_ne hT]
  · rw [hq.objectOther T' hT, goToSleep_of_ne hT]

omit [DecidableEq τ] in
theorem waits_lower (h : Waits s L) (e : ε) :
    Waits (s.updateEvent e fun o => { o with set := false }) L where
  full := h.full
  asleep := h.asleep
  awake := h.awake
  auto e' := by
    by_cases he : e' = e
    · rw [he, updateEvent_self]
      exact h.auto e
    · rw [updateEvent_of_ne he]
      exact h.auto e'
  empty e' hset := by
    by_cases he : e' = e
    · rw [he, updateEvent_self] at hset
      exact absurd hset Bool.false_ne_true
    · rw [updateEvent_of_ne he] at hset
      exact h.empty e' hset

omit [DecidableEq ε] in
theorem prepareToSleep_active (hactive : (s.task T).state = .active) :
    s.prepareToSleep T timeout = some (s.updateTask T (doze timeout)) := by
  unfold prepareToSleep
  rw [if_neg (by rw [hactive]; exact nofun)]
  rfl

omit [DecidableEq ε] [DecidableEq τ] in
theorem not_asleep_of_active (hactive : (s.task T).state = .active) : ¬ (s.task T).Asleep := by
  rw [Asleep, hactive]
  simp

variable {r : EventState τ ε × Option ℕ}

/-- **A wait for one event** consumes it, returns at once or sleeps. -/
theorem waitExStatus_spec (h : QueueInv s L) (hactive : (s.task T).state = .active)
    (hw : s.waitExStatus e T timeout = some r) :
    ((s.event e).set = true ∧ r.1 = s.updateEvent e fun o => { o with set := false }) ∨
    r.1 = s ∨
    ((s.event e).set = false ∧ timeout ≠ 0 ∧ Slept s r.1 T ⟨[e], false⟩ [e] ∧
      (r.1.task T).needWaitEvents = (s.task T).needWaitEvents ∧
      QueueInv r.1 (update L e (L e ++ [T]))) := by
  have hT := not_asleep_of_active hactive
  unfold waitExStatus at hw
  rw [h.auto e, prepareToSleep_active hactive, if_neg Bool.false_ne_true] at hw
  by_cases hl : (s.event e).locked = true
  · rw [if_pos hl] at hw
    exact absurd hw.symm (Option.some_ne_none r)
  rw [if_neg hl] at hw
  by_cases hset : (s.event e).set = true
  · rw [if_pos hset] at hw
    obtain ⟨⟩ := hw
    exact .inl ⟨hset, rfl⟩
  rw [if_neg hset] at hw
  rw [Bool.not_eq_true] at hset
  by_cases ht : timeout = 0
  · rw [if_pos ht] at hw
    obtain ⟨⟩ := hw
    exact .inr (.inl rfl)
  rw [if_neg ht] at hw
  obtain ⟨t, hins, hst, hqt⟩ := queueInv_insert (goToSleep_queueInv h hT timeout ⟨[e], false⟩)
    (by rw [goToSleep_self]; exact doze_asleep timeout _) (not_mem_of_awake h hT e) hset
  change ((s.goToSleep T timeout ⟨[e], false⟩).insertTask e T).map _ = _ at hw
  rw [hins] at hw
  obtain ⟨⟩ := hw
  refine .inr (.inr ⟨hset, ht, ?_, ?_, hqt⟩)
  · exact slept_of_queued (h.awake T hT) (.cons hst (OnlyLocks.refl t) (.nil t T))
  · rw [hst.need, goToSleep_self]
    rfl

/-- The queues do not see the other fields of a task. -/
theorem queueInv_updateTask {f : WaitTask τ ε → WaitTask τ ε} (h : QueueInv s L)
    (hstate : (f (s.task T)).state = (s.task T).state)
    (hinfos : (f (s.task T)).infos = (s.task T).infos)
    (hcount : (f (s.task T)).waitEventCount = (s.task T).waitEventCount) :
    QueueInv (s.updateTask T f) L := by
  have hasleep : (f (s.task T)).Asleep ↔ (s.task T).Asleep := by
    rw [Asleep, Asleep, hstate]
  refine ⟨h.toWaits.updateTask (fun _ _ _ => Iff.rfl) ?_ (fun e hT => ?_) (fun hT => ?_) h.empty,
    h.lists.of_infos (fun T' => ?_) (fun T' => ?_) (fun _ => rfl) (fun _ => rfl)⟩
  · rw [hinfos, hcount]
    exact h.full T
  · exact hasleep.mpr (h.asleep e T hT)
  · rw [hcount]
    exact h.awake T (mt hasleep.mpr hT)
  · by_cases hTT : T' = T
    · rw [hTT, updateTask_self, hinfos]
    · rw [updateTask_of_ne hTT]
  · by_cases hTT : T' = T
    · rw [hTT, updateTask_self, hcount]
    · rw [updateTask_of_ne hTT]

omit [DecidableEq ε] in
/-- The end of `waitMultiple`: the locks it took, and the events it needs. -/
theorem slept_of_slept (hsu : OnlyLocks s u) (h : Slept u t T call ws) (n : ℕ) :
    Slept s (t.updateTask T fun t => { t with needWaitEvents := n }) T call ws := by
  have hother : ∀ T', T' ≠ T →
      (t.updateTask T fun t => { t with needWaitEvents := n }).task T' = t.task T' :=
    fun T' hT => updateTask_of_ne hT
  have hself : (t.updateTask T fun t => { t with needWaitEvents := n }).task T =
      { t.task T with needWaitEvents := n } := updateTask_self
  refine ⟨?_, ?_, fun k hk => ?_, fun T' hT => ?_, fun T' hT => ?_, fun T' hT => ?_,
    fun T' hT i => ?_, fun e => ?_, ?_⟩
  · rw [hself]
    exact h.asleep
  · rw [hself]
    exact h.count
  · rw [hself]
    exact h.object k hk
  · rw [hother T' hT, h.state T' hT, hsu.task]
  · rw [hother T' hT, h.need T' hT, hsu.task]
  · rw [hother T' hT, h.countOther T' hT, hsu.task]
  · rw [hother T' hT, h.objectOther T' hT, hsu.task]
  · exact (h.set e).trans (hsu.set e)
  · rw [← hsu.blocked]
    exact h.blocked

/-- A wait for several events consumes one of them, returns at once or
sleeps. -/
def WaitOutcome (s t : EventState τ ε) (L : ε → List τ) (T : τ) (objects : List ε)
    (waitAll : Bool) (timeout : ℕ) : Prop :=
  (waitAll = false ∧ ∃ obj, (s.event obj).set = true ∧
    OnlyLocks (s.updateEvent obj fun o => { o with set := false }) t) ∨
  (OnlyLocks s t ∧ (s.unset objects = [] ∨ timeout = 0)) ∨
  (s.unset objects ≠ [] ∧ (waitAll = false → s.unset objects = objects) ∧
    Slept s t T ⟨objects, waitAll⟩ (s.unset objects) ∧
    (t.task T).needWaitEvents = (if waitAll then objects.length else 1) ∧
    QueueInv t fun e => if e ∈ s.unset objects then L e ++ [T] else L e)

/-- **`waitMultiple` returns** once its first loop has the locks. -/
theorem waitMultiple_outcome (h : QueueInv s L) (hactive : (s.task T).state = .active)
    {q : EventState τ ε × LockLoop}
    (hq : lockLoop T waitAll objects 0 0 [] s = some q) (timeout : ℕ) :
    ∃ r, s.waitMultiple objects T waitAll timeout = some r ∧
      s.WaitOutcome r.1 L T objects waitAll timeout := by
  have hT := not_asleep_of_active hactive
  have hlock := lockLoop_spec h.auto hq
  obtain ⟨u, loop⟩ := q
  unfold waitMultiple
  rw [hq, Option.bind_some]
  cases loop with
  | returned idx =>
    obtain ⟨hw, obj, -, hset, hu⟩ := hlock
    exact ⟨_, rfl, .inl ⟨hw, obj, hset, hu⟩⟩
  | done setCount needWait =>
    obtain ⟨hsu, hbs, hcount, hnd, -, hany⟩ := hlock
    rw [List.nil_append] at hbs
    dsimp only at hsu hbs hcount hnd hany ⊢
    obtain rfl := hbs
    obtain ⟨v, hv, huv⟩ := OnlyLocks.unlockAll (T := T)
      (objects.map fun e => (e, !(s.event e).set)) u
    have hactive' : (u.task T).state = .active := by rw [hsu.task, hactive]
    rw [← List.map_prod_left_eq_zip, prepareToSleep_active hactive', hv]
    by_cases hall : setCount = objects.length
    · rw [if_pos hall]
      refine ⟨_, rfl, .inr (.inl ⟨hsu.trans huv, .inl ?_⟩)⟩
      exact List.length_eq_zero_iff.mp (by omega)
    rw [if_neg hall]
    by_cases ht : timeout = 0
    · rw [if_pos ht]
      exact ⟨_, rfl, .inr (.inl ⟨hsu.trans huv, .inr ht⟩)⟩
    rw [if_neg ht]
    obtain ⟨w, hins, hqw, hinv⟩ := unlockAll_insert (T := T) (fun e => !(s.event e).set) objects
      (goToSleep_queueInv (hsu.queueInv h) (not_asleep_of_active hactive') timeout
        ⟨objects, waitAll⟩)
      (by rw [goToSleep_self]; exact doze_asleep timeout _) hnd
      (fun e he => ⟨not_mem_of_awake h hT e, by
        have := List.of_mem_filter he
        rw [Bool.not_eq_true'] at this
        exact (hsu.set e).trans this⟩)
    refine ⟨(w.updateTask T fun t => { t with
      needWaitEvents := if waitAll then objects.length else 1 }, none), ?_, ?_⟩
    · change ((u.goToSleep T timeout ⟨objects, waitAll⟩).unlockAll T true _).map _ = _
      rw [hins]
      rfl
    have hslept := slept_of_queued (by rw [hsu.task]; exact h.awake T hT) hqw
    refine .inr (.inr ⟨?_, hany, ?_, ?_, ?_⟩)
    · intro hnil
      rw [hnil, List.length_nil] at hcount
      omega
    · exact slept_of_slept hsu hslept _
    · dsimp only
      rw [updateTask_self]
    · exact queueInv_updateTask (T := T) hinv (f := fun t => { t with
        needWaitEvents := if waitAll then objects.length else 1 }) rfl rfl rfl

theorem waitMultiple_spec (h : QueueInv s L) (hactive : (s.task T).state = .active)
    (hw : s.waitMultiple objects T waitAll timeout = some r) :
    s.WaitOutcome r.1 L T objects waitAll timeout := by
  obtain ⟨q, hq, -⟩ := Option.bind_eq_some_iff.mp hw
  obtain ⟨r', hr', hout⟩ := waitMultiple_outcome h hactive hq timeout
  rwa [Option.some.inj (hw.symm.trans hr')]

end EventState

end ShmDos64
