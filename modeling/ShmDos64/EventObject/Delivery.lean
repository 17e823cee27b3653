import ShmDos64.EventObject.Entries
/-!
# Every signal is delivered once

`m_needWaitEvents` is set by `waitMultiple` alone. A wait for one event that
goes to sleep uses what the task's last wait left there: after a wait for
all that timed out it is still the number of events that wait lacked, `set`
counts the signal as one of these, and the signal is lost. In the runs where
no wait for one event goes to sleep with more than one there, a task in a
wait that one signal ends needs one event, and a `set` of an event that is
not set wakes the first task that sleeps in its queue.
-/

namespace ShmDos64

open Function (update update_of_ne update_self)

variable {τ ε : Type*}

/-- One signal of any of the task's slots ends the call. -/
def WaitTask.Expects (t : WaitTask τ ε) (call : WaitCall ε) : Prop :=
  t.needWaitEvents ≤ 1 ∧
    ∀ i, i < t.waitEventCount → (t.infos i).object = call.objects[i]?

/-- The calls of the tasks that sleep. -/
def Calls (s : EventState τ ε) : Prop :=
  ∀ T, (s.task T).Asleep →
    ∃ call, s.blocked T = some call ∧ (call.Single → (s.task T).Expects call)

theorem Calls.of_eq {s t : EventState τ ε} (h : Calls s) (htask : t.task = s.task)
    (hblocked : t.blocked = s.blocked) : Calls t := by
  unfold Calls
  rw [htask, hblocked]
  exact h

theorem Calls.congr {s t : EventState τ ε} (h : Calls s) (hs : SameWaits s t) : Calls t := by
  intro T hT
  obtain ⟨call, hcall, hsingle⟩ := h T ((hs.asleep T).mp hT)
  refine ⟨call, by rw [hs.blocked, hcall], fun hc => ⟨?_, fun i hi => ?_⟩⟩
  · rw [hs.need]
    exact (hsingle hc).1
  · rw [hs.object]
    exact (hsingle hc).2 i (by rwa [← hs.count])

/-- One task changes. -/
theorem Calls.change {s t : EventState τ ε} {T : τ} (h : Calls s)
    (hother : ∀ T', T' ≠ T → (t.task T').state = (s.task T').state ∧
      (t.task T').waitEventCount = (s.task T').waitEventCount ∧
      (∀ i, ((t.task T').infos i).object = ((s.task T').infos i).object) ∧
      (t.task T').needWaitEvents = (s.task T').needWaitEvents ∧ t.blocked T' = s.blocked T')
    (hself : (t.task T).Asleep →
      ∃ call, t.blocked T = some call ∧ (call.Single → (t.task T).Expects call)) : Calls t := by
  intro T' hT'
  by_cases hT : T' = T
  · subst hT
    exact hself hT'
  · obtain ⟨hstate, hcount, hobject, hneed, hblocked⟩ := hother T' hT
    rw [WaitTask.Asleep, hstate] at hT'
    obtain ⟨call, hcall, hsingle⟩ := h T' hT'
    refine ⟨call, by rw [hblocked, hcall], fun hs => ⟨?_, fun i hi => ?_⟩⟩
    · rw [hneed]
      exact (hsingle hs).1
    · rw [hobject]
      exact (hsingle hs).2 i (by rwa [← hcount])

variable [DecidableEq ε] [DecidableEq τ]

omit [DecidableEq ε] in
theorem Calls.updateTask {s : EventState τ ε} {T : τ} {f : WaitTask τ ε → WaitTask τ ε}
    (h : Calls s) (hself : (f (s.task T)).Asleep →
      ∃ call, s.blocked T = some call ∧ (call.Single → (f (s.task T)).Expects call)) :
    Calls (s.updateTask T f) := by
  refine h.change (T := T) (fun T' hT => ?_) ?_
  · rw [EventState.updateTask_of_ne hT]
    exact ⟨rfl, rfl, fun _ => rfl, rfl, rfl⟩
  · rw [EventState.updateTask_self]
    exact hself

/-- **The invariant.** -/
structure EventInv (s : EventState τ ε) (L : ε → List τ) : Prop extends QueueInv s L where
  calls : Calls s

namespace EventState

variable {s t u : EventState τ ε} {L : ε → List τ} {e e' : ε} {T T' : τ} {timeout : ℕ}

/-! ## The steps -/

omit [DecidableEq τ] in
theorem Initial.eventInv (h : s.Initial) (hauto : ∀ e, (s.event e).manualReset = false) :
    EventInv s fun _ => [] where
  full T i e hi := by
    rw [h.count] at hi
    exact absurd hi (Nat.not_lt_zero i)
  asleep e T hT := absurd hT List.not_mem_nil
  awake T _ := h.count T
  auto := hauto
  empty _ _ := rfl
  lists :=
    { queue := fun e => by
        rw [h.head, h.tail]
        exact LinkedQueue.nil
      slot := fun e T hT => absurd hT List.not_mem_nil
      distinct := fun T i j e hi => by
        rw [h.count] at hi
        exact absurd hi (Nat.not_lt_zero i) }
  calls T hT := absurd hT (h.awake T)

omit [DecidableEq ε] [DecidableEq τ] in
theorem wake_awake {i : ℕ} {t : WaitTask τ ε} : ¬ (t.wake i).Asleep := by
  rintro (h | h)
  all_goals cases h

theorem eventInv_set (h : EventInv s L) {fuel : ℕ} (ht : s.set fuel e = some t) :
    ∃ L', EventInv t L' := by
  by_cases hset : (s.event e).set = true
  · have hts : t = s := by
      unfold EventState.set at ht
      split_ifs at ht
      exact (Option.some.inj ht).symm
    exact ⟨L, hts ▸ h⟩
  · rw [Bool.not_eq_true] at hset
    obtain ⟨L', hq, hout⟩ := set_outcome h.toQueueInv hset ht
    refine ⟨L', hq, ?_⟩
    cases hout with
    | raised hL hL' hst =>
      have hraised : Calls (s.updateEvent e fun o => { o with set := true }) :=
        h.calls.of_eq rfl rfl
      exact hraised.congr hst
    | counted T rest i hL hi hneed hL' hst =>
      refine Calls.congr (h.calls.updateTask fun _ => ?_) hst
      obtain ⟨call, hcall, hsingle⟩ := h.calls T (h.asleep e T (hL ▸ List.mem_cons_self))
      exact ⟨call, hcall, fun hs => absurd (hsingle hs).1 (by omega)⟩
    | woken T rest i hL hi hneed hL' hst =>
      exact Calls.congr (h.calls.updateTask fun hasleep => absurd hasleep wake_awake) hst

omit [DecidableEq τ] in
theorem eventInv_lower (h : EventInv s L) (e : ε) :
    EventInv (s.updateEvent e fun o => { o with set := false }) L :=
  ⟨⟨waits_lower h.toWaits e, lists_flag h.lists false⟩, h.calls.of_eq rfl rfl⟩

omit [DecidableEq τ] in
theorem eventInv_onlyLocks (h : EventInv s L) (hst : OnlyLocks s t) : EventInv t L :=
  ⟨hst.queueInv h.toQueueInv, h.calls.of_eq hst.task hst.blocked⟩

omit [DecidableEq ε] in
theorem calls_slept {call : WaitCall ε} {ws : List ε} (h : Calls s) (hs : Slept s t T call ws)
    (hsingle : call.Single → (t.task T).needWaitEvents ≤ 1 ∧ ws = call.objects) : Calls t := by
  refine h.change (T := T) (fun T' hT => ?_) fun _ => ⟨call, ?_, fun hc => ?_⟩
  · refine ⟨hs.state T' hT, hs.countOther T' hT, hs.objectOther T' hT, hs.need T' hT, ?_⟩
    rw [hs.blocked, update_of_ne hT]
  · rw [hs.blocked, update_self]
  · obtain ⟨hneed, hws⟩ := hsingle hc
    refine ⟨hneed, fun i hi => ?_⟩
    rw [hs.count] at hi
    rw [hs.object i hi, hws]

variable {r : EventState τ ε × Option ℕ}

theorem eventInv_wait (h : EventInv s L) (hactive : (s.task T).state = .active)
    (hok : (s.event e).set = true ∨ timeout = 0 ∨ (s.task T).needWaitEvents ≤ 1)
    (hw : s.waitExStatus e T timeout = some r) :
    ∃ L', EventInv r.1 L' := by
  rcases waitExStatus_spec h.toQueueInv hactive hw with ⟨-, hr⟩ | hr | ⟨hset, ht, hs, hn, hq⟩
  · exact ⟨L, hr ▸ eventInv_lower h e⟩
  · exact ⟨L, hr ▸ h⟩
  · refine ⟨_, hq, calls_slept h.calls hs fun _ => ⟨?_, rfl⟩⟩
    rw [hset] at hok
    rw [hn]
    exact (hok.resolve_left Bool.false_ne_true).resolve_left ht

theorem eventInv_waitMultiple (h : EventInv s L) (hactive : (s.task T).state = .active)
    {objects : List ε} {waitAll : Bool}
    (hw : s.waitMultiple objects T waitAll timeout = some r) : ∃ L', EventInv r.1 L' := by
  rcases waitMultiple_spec h.toQueueInv hactive hw with
    ⟨-, obj, -, hr⟩ | ⟨hr, -⟩ | ⟨hne, hany, hs, hn, hq⟩
  · exact ⟨L, eventInv_onlyLocks (eventInv_lower h obj) hr⟩
  · exact ⟨L, eventInv_onlyLocks h hr⟩
  · refine ⟨_, hq, calls_slept h.calls hs fun hsingle => ?_⟩
    rw [hn]
    cases hsingle with
    | inl hall =>
      have hall : waitAll = false := hall
      rw [hall, if_neg Bool.false_ne_true]
      exact ⟨le_rfl, hany hall⟩
    | inr hone =>
      have hone : objects.length = 1 := hone
      refine ⟨by split_ifs <;> omega, ?_⟩
      -- the one object is not set
      refine (List.filter_sublist).eq_of_length_le ?_
      have := List.length_pos_of_ne_nil hne
      rw [hone]
      exact this

/-- A task that is in no queue any more runs on. -/
theorem eventInv_activate {L' : ε → List τ} (hw : Waits s L) (hc : Calls s) (hl : Lists s L')
    (hmem : ∀ e, ∀ T', T' ≠ T → (T' ∈ L' e ↔ T' ∈ L e)) (hno : ∀ e, T ∉ L' e)
    (hempty : ∀ e, L e = [] → L' e = []) (hstate : (t.task T).state = .active)
    (hcount : (t.task T).waitEventCount = 0) (hother : ∀ T', T' ≠ T → t.task T' = s.task T')
    (hevent : t.event = s.event) (hblocked : ∀ T', T' ≠ T → t.blocked T' = s.blocked T') :
    EventInv t L' := by
  have hawake := not_asleep_of_active hstate
  have htask : t.task = (s.updateTask T fun _ => t.task T).task := by
    funext T'
    by_cases hT : T' = T
    · rw [hT, updateTask_self]
    · rw [updateTask_of_ne hT, hother T' hT]
  have hwt : Waits (s.updateTask T fun _ => t.task T) L' := by
    refine hw.updateTask hmem (fun i e hi => ?_) (fun e hT => absurd hT (hno e)) (fun _ => hcount)
      fun e hset => hempty e (hw.empty e hset)
    rw [hcount] at hi
    exact absurd hi (Nat.not_lt_zero i)
  refine ⟨⟨⟨?_, ?_, ?_, ?_, ?_⟩, ?_⟩, ?_⟩
  · unfold Full
    rw [htask]
    exact hwt.full
  · rw [htask]
    exact hwt.asleep
  · rw [htask]
    exact hwt.awake
  · rw [hevent]
    exact hwt.auto
  · rw [hevent]
    exact hwt.empty
  · refine hl.congr (fun e T' hT' => ?_) (fun T' => ?_) (fun e => by rw [hevent])
      fun e => by rw [hevent]
    · rw [hother T' fun hT => hno e (hT ▸ hT')]
      exact WaitTask.sameSlot_of_infos rfl rfl e
    · by_cases hT : T' = T
      · intro i j e hi
        rw [hT, hcount] at hi
        exact absurd hi (Nat.not_lt_zero i)
      · rw [hother T' hT]
        exact hl.distinct T'
  · refine hc.change (T := T) (fun T' hT => ?_) fun hT => absurd hT hawake
    rw [hother T' hT]
    exact ⟨rfl, rfl, fun _ => rfl, rfl, hblocked T' hT⟩

/-- **A timeout**: the task leaves all its queues. -/
theorem eventInv_timeout (h : EventInv s L) {reason : ℕ}
    (ht : s.excludeTaskFromWaiting T reason = some t) :
    EventInv (({ t with blocked := update t.blocked T none } : EventState τ ε).updateTask T
      fun t => { t with state := .active }) fun e => (L e).erase T := by
  have hq := queueInv_updateTask (T := T) (f := fun t => { t with waitEventResult := reason })
    h.toQueueInv rfl rfl rfl
  have hc : Calls (s.updateTask T fun t => { t with waitEventResult := reason }) :=
    h.calls.updateTask (h.calls T)
  unfold excludeTaskFromWaiting at ht
  dsimp only at ht
  generalize s.updateTask T (fun t => { t with waitEventResult := reason }) = v at ht hq hc
  rcases excludeAll_spec hq.lists (hq.full T) none with ⟨b, hb, hvb, hLb⟩ | ⟨hnone, -⟩
  · rw [hb] at ht
    obtain ⟨⟩ := ht
    simp only [reduceCtorEq, if_false] at hLb
    refine eventInv_activate (T := T) (hq.toWaits.congr hvb) (hc.congr hvb) hLb
      (fun e T' hT => List.mem_erase_of_ne hT)
      (fun e => List.Nodup.not_mem_erase (h.lists.queue e).nodup) (fun e hL => ?_) ?_ ?_
      (fun T' hT => ?_) rfl fun T' hT => update_of_ne hT _ _
    · rw [hL, List.erase_nil]
    · rw [updateTask_self]
    · rw [updateTask_self]
      dsimp only
      rw [updateTask_self]
    · rw [updateTask_of_ne hT]
      dsimp only
      rw [updateTask_of_ne hT]
  · rw [hnone] at ht
    exact absurd ht.symm (Option.some_ne_none t)

theorem eventInv_resume (h : EventInv s L) (hwait : (s.task T).state = .wait) :
    EventInv (({ s with blocked := update s.blocked T none } : EventState τ ε).updateTask T
      fun t => { t with state := .active }) L := by
  have hawake : ¬ (s.task T).Asleep := by
    rw [WaitTask.Asleep, hwait]
    simp
  refine eventInv_activate (T := T) h.toWaits h.calls h.lists (fun _ _ _ => Iff.rfl)
    (not_mem_of_awake h.toQueueInv hawake) (fun _ hL => hL) ?_ ?_
    (fun T' hT => updateTask_of_ne hT) rfl fun T' hT => update_of_ne hT _ _
  · rw [updateTask_self]
  · rw [updateTask_self]
    exact h.awake T hawake

/-! ## Every run -/

/-- A wait for one event that goes to sleep finds at most one needed event
in the task. -/
def NeedsOne (s : EventState τ ε) : EventAct τ ε → Prop
  | .wait T e timeout =>
    (s.event e).set = true ∨ timeout = 0 ∨ (s.task T).needWaitEvents ≤ 1
  | _ => True

instance (s : EventState τ ε) : DecidablePred s.NeedsOne
  | .wait .. => inferInstanceAs (Decidable (_ ∨ _))
  | .set _ | .waitMultiple .. | .timeout _ | .resume _ => inferInstanceAs (Decidable True)

theorem eventInv_step (h : EventInv s L) {a : EventAct τ ε} (hok : s.NeedsOne a)
    (hst : (eventMachine τ ε).step s a t) : ∃ L', EventInv t L' := by
  obtain ⟨fuel, hst⟩ := hst
  cases a with
  | set e => exact eventInv_set h hst
  | wait T e timeout =>
    simp only [EventState.apply] at hst
    split_ifs at hst with hT
    obtain ⟨r, hr, rfl⟩ := Option.map_eq_some_iff.mp hst
    exact eventInv_wait h hT.1 hok hr
  | waitMultiple T objects waitAll timeout =>
    simp only [EventState.apply] at hst
    split_ifs at hst with hT
    obtain ⟨r, hr, rfl⟩ := Option.map_eq_some_iff.mp hst
    exact eventInv_waitMultiple h hT.1 hr
  | timeout T =>
    simp only [EventState.apply] at hst
    split_ifs at hst with hT
    obtain ⟨u, hu, rfl⟩ := Option.map_eq_some_iff.mp hst
    exact ⟨_, eventInv_timeout h hu⟩
  | resume T =>
    simp only [EventState.apply] at hst
    split_ifs at hst with hT
    obtain ⟨⟩ := hst
    exact ⟨L, eventInv_resume h hT⟩

theorem eventInv_reachable (h : ((eventMachine τ ε).guard NeedsOne).Reachable s) :
    ∃ L, EventInv s L := by
  refine h.invariant (I := fun s => ∃ L, EventInv s L) ?_ ?_
  · rintro s ⟨hinit, hauto⟩
    exact ⟨_, hinit.eventInv hauto⟩
  · rintro s a t ⟨L, hL⟩ ⟨hok, hst⟩
    exact eventInv_step hL hok hst

/-- The list from the head of an event to its tail. -/
def WaitList (s : EventState τ ε) (e : ε) (l : List τ) : Prop :=
  LinkedQueue (fun T => (s.task T).link EventsInfo.next e)
    (fun T => (s.task T).link EventsInfo.prev e) (s.event e).head (s.event e).tail l

/-- What `set` does to an event that is not set. Where no task of its list
sleeps it stays set. Else the first that does takes the signal: one in a
wait that a signal ends runs, with the event's index; another may also
count the signal. -/
def SignalsOnce (s t : EventState τ ε) (e : ε) (l : List τ) : Prop :=
  match l.find? fun T => (s.task T).Asleep with
  | none => (t.event e).set = true ∧ ∀ T, (t.task T).state = (s.task T).state
  | some T => (t.event e).set = false ∧
      (∀ T', T' ≠ T → (t.task T').state = (s.task T').state) ∧
      ∃ call, s.blocked T = some call ∧
        if call.Single then (t.task T).state = .wait ∧
          call.objects[(t.task T).waitEventResult]? = some e
        else (t.task T).state = .wait ∨
          (t.task T).needWaitEvents + 1 = (s.task T).needWaitEvents

theorem signalsOnce_of_outcome {L' : ε → List τ} (h : EventInv s L) (hout : SetOutcome s t L L' e)
    (hset : (s.event e).set = false) : s.SignalsOnce t e (L e) := by
  have hfind : ∀ T rest, L e = T :: rest →
      ((L e).find? fun T => decide (s.task T).Asleep) = some T := by
    intro T rest hL
    rw [hL]
    exact List.find?_cons_of_pos (decide_eq_true (h.asleep e T (hL ▸ List.mem_cons_self)))
  unfold SignalsOnce
  cases hout with
  | raised hL _ hst =>
    rw [hL]
    refine ⟨?_, hst.state⟩
    rw [hst.set, updateEvent_self]
  | counted T rest i hL hi hneed _ hst =>
    rw [hfind T rest hL]
    obtain ⟨call, hcall, hsingle⟩ := h.calls T (h.asleep e T (hL ▸ List.mem_cons_self))
    refine ⟨(hst.set e).trans hset, fun T' hT => ?_, call, hcall, ?_⟩
    · rw [hst.state, updateTask_of_ne hT]
    · rw [if_neg fun hc => absurd (hsingle hc).1 (by omega)]
      right
      rw [hst.need, updateTask_self]
      show (s.task T).needWaitEvents - 1 + 1 = _
      omega
  | woken T rest i hL hi hneed _ hst =>
    rw [hfind T rest hL]
    obtain ⟨call, hcall, hsingle⟩ := h.calls T (h.asleep e T (hL ▸ List.mem_cons_self))
    have hstate : (t.task T).state = .wait := by
      rw [hst.state, updateTask_self]
      rfl
    have hresult : (t.task T).waitEventResult = i := by
      rw [hst.result, updateTask_self]
      rfl
    refine ⟨(hst.set e).trans hset, fun T' hT => ?_, call, hcall, ?_⟩
    · rw [hst.state, updateTask_of_ne hT]
    · split_ifs with hc
      · obtain ⟨hlt, ho⟩ := WaitTask.slot_spec hi
        refine ⟨hstate, ?_⟩
        rw [hresult, ← (hsingle hc).2 i hlt, ho]
      · exact .inl hstate

/-- The steps that enter a wait. -/
def Enters : EventAct τ ε → Prop
  | .wait .. | .waitMultiple .. => True
  | _ => False

/-- The step takes the signal of an event that was set. -/
def Consumes (s t : EventState τ ε) (e : ε) : Prop :=
  (s.event e).set = true ∧ (t.event e).set = false

omit [DecidableEq τ] in
theorem lower_consumes {obj : ε} (hset : ∀ e, (t.event e).set =
    ((s.updateEvent obj fun o => { o with set := false }).event e).set)
    (h : s.Consumes t e) : e = obj := by
  by_contra he
  have := h.2
  rw [hset, updateEvent_of_ne he, h.1] at this
  exact Bool.false_ne_true this.symm

omit [DecidableEq ε] [DecidableEq τ] in
theorem not_consumes (hset : ∀ e, (t.event e).set = (s.event e).set) : ¬ s.Consumes t e := by
  rintro ⟨h, h'⟩
  rw [hset, h] at h'
  exact Bool.false_ne_true h'.symm

/-- An entry consumes one event at most. -/
theorem consumes_one (h : EventInv s L) {a : EventAct τ ε} (ha : Enters a)
    (hst : (eventMachine τ ε).step s a t) (he : s.Consumes t e) (he' : s.Consumes t e') :
    e = e' := by
  obtain ⟨fuel, hst⟩ := hst
  cases a with
  | wait T obj timeout =>
    simp only [EventState.apply] at hst
    split_ifs at hst with hT
    obtain ⟨r, hr, rfl⟩ := Option.map_eq_some_iff.mp hst
    rcases waitExStatus_spec h.toQueueInv hT.1 hr with ⟨-, hr⟩ | hr | ⟨-, -, hs, -⟩
    · rw [lower_consumes (fun e => by rw [hr]) he, lower_consumes (fun e => by rw [hr]) he']
    · exact absurd he (not_consumes fun e => by rw [hr])
    · exact absurd he (not_consumes hs.set)
  | waitMultiple T objects waitAll timeout =>
    simp only [EventState.apply] at hst
    split_ifs at hst with hT
    obtain ⟨r, hr, rfl⟩ := Option.map_eq_some_iff.mp hst
    rcases waitMultiple_spec h.toQueueInv hT.1 hr with
      ⟨-, obj, -, hr⟩ | ⟨hr, -⟩ | ⟨-, -, hs, -⟩
    · rw [lower_consumes hr.set he, lower_consumes hr.set he']
    · exact absurd he (not_consumes hr.set)
    · exact absurd he (not_consumes hs.set)
  | set _ | timeout _ | resume _ => exact absurd ha id

/-- **Auto-reset events deliver each signal once**, in every state of a run
whose waits for one event go to sleep with at most one needed event: no
task sleeps in the list of an event that is set; `set` of one that is not
wakes the first task that sleeps, if one signal ends its wait, and leaves
the event set if there is none; it returns when no lock is held; and an
entry of a wait consumes one event at most. -/
theorem signals_delivered_once (h : ((eventMachine τ ε).guard NeedsOne).Reachable s) :
    (∀ e, ∃ l, s.WaitList e l ∧
      ((s.event e).set = true → ∀ T ∈ l, ¬ (s.task T).Asleep) ∧
      ((s.event e).set = false →
        ∀ t, (eventMachine τ ε).step s (.set e) t → s.SignalsOnce t e l)) ∧
    ((∀ e, (s.event e).locked = false) → ∀ e, ∃ t, (eventMachine τ ε).step s (.set e) t) ∧
    ∀ a t, Enters a → (eventMachine τ ε).step s a t →
      ∀ e e', s.Consumes t e → s.Consumes t e' → e = e' := by
  obtain ⟨L, hL⟩ := eventInv_reachable h
  refine ⟨fun e => ⟨L e, hL.lists.queue e, fun hset T hT => ?_, ?_⟩, fun hfree e => ?_, ?_⟩
  · rw [hL.empty e hset] at hT
    exact absurd hT List.not_mem_nil
  · rintro hset t ⟨fuel, ht⟩
    obtain ⟨L', -, hout⟩ := set_outcome hL.toQueueInv hset ht
    exact signalsOnce_of_outcome hL hout hset
  · obtain ⟨t, ht⟩ := set_returns hL.toQueueInv hfree e
    exact ⟨t, 1, ht⟩
  · intro a t ha hst e e' he he'
    exact consumes_one hL ha hst he he'

/-- Two tasks that run and two events that are not set. -/
def twoTasks : EventState (Fin 2) (Fin 2) where
  task _ :=
    { state := .active
      infos := fun _ => ⟨none, none, none⟩
      waitEventCount := 0
      waitEventResult := 0
      needWaitEvents := 0 }
  event _ := { set := false, manualReset := false, locked := false, tail := none, head := none }
  blocked _ := none
  hung _ := false

theorem twoTasks_init : (eventMachine (Fin 2) (Fin 2)).init twoTasks := by
  refine ⟨⟨fun _ => ?_, fun _ => rfl, fun _ => rfl, fun _ => rfl, fun _ => rfl, fun _ => rfl⟩,
    fun _ => rfl⟩
  rintro (h | h) <;> cases h

/-- Task 0 waits for event 0, and a `set` delivers its signal. -/
theorem signals_delivered_once_twoTasks : ∃ s : EventState (Fin 2) (Fin 2),
    ((eventMachine (Fin 2) (Fin 2)).guard NeedsOne).Reachable s ∧ (s.task 0).Asleep ∧
    ∃ l, s.WaitList 0 l ∧
      ∀ t, (eventMachine (Fin 2) (Fin 2)).step s (.set 0) t → s.SignalsOnce t 0 l := by
  obtain ⟨s, hs, hP⟩ := Machine.Reachable.exists_of_foldlM
    (M := (eventMachine (Fin 2) (Fin 2)).guard NeedsOne)
    (f := fun s a => if s.NeedsOne a then s.apply 1 a else none)
    (P := fun s => (s.event 0).set = false ∧ (s.task 0).Asleep)
    (fun s a t h => by
      split_ifs at h with hok
      exact ⟨hok, 1, h⟩)
    [.wait 0 0 waitInfinite] (.init twoTasks_init) (by decide +kernel)
  obtain ⟨hset, hasleep⟩ := of_decide_eq_true hP
  obtain ⟨l, hl, -, hsig⟩ := (signals_delivered_once hs).1 0
  exact ⟨s, hs, hasleep, l, hl, hsig hset⟩

/-- Task 0 times out of a wait for both events, and then waits for event 0:
`set` counts the signal, clears the slot and takes the task out of the
queue. The task sleeps on, and the signal is gone. -/
theorem signal_lost_after_timeout : ∃ s t : EventState (Fin 2) (Fin 2),
    (eventMachine (Fin 2) (Fin 2)).Reachable s ∧
    (s.event 0).set = false ∧ (s.event 0).head = some 0 ∧ (s.task 0).Asleep ∧
    s.blocked 0 = some ⟨[0], false⟩ ∧ (eventMachine (Fin 2) (Fin 2)).step s (.set 0) t ∧
    (t.task 0).Asleep ∧ (t.event 0).set = false := by
  obtain ⟨s, hs, hP⟩ := Machine.Reachable.exists_of_foldlM
    (M := eventMachine (Fin 2) (Fin 2)) (f := EventState.apply 1)
    (P := fun s => (s.event 0).set = false ∧ (s.event 0).head = some 0 ∧ (s.task 0).Asleep ∧
      s.blocked 0 = some ⟨[0], false⟩ ∧
      (s.set 1 0).any fun t => (t.task 0).Asleep ∧ (t.event 0).set = false)
    (fun s a t h => ⟨1, h⟩)
    [.waitMultiple 0 [0, 1] true 5, .timeout 0, .wait 0 0 waitInfinite]
    (.init twoTasks_init) (by decide +kernel)
  obtain ⟨hset, hhead, hasleep, hcall, hany⟩ := of_decide_eq_true hP
  cases ht : s.set 1 0 with
  | none =>
    rw [ht] at hany
    cases hany
  | some t =>
    rw [ht] at hany
    obtain ⟨hsleep, hlost⟩ := of_decide_eq_true hany
    exact ⟨s, t, hs, hset, hhead, hasleep, hcall, ⟨1, ht⟩, hsleep, hlost⟩

end EventState

end ShmDos64
