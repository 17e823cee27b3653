import ShmDos64.EventObject.Queues
/-!
# `set`

In a state where every slot stands for a place in a queue and only tasks
that sleep are queued, `set` of an event that is not set has three
outcomes: nobody waits and the event is set; the first task of the queue
needs more events and counts this one; or it is woken and leaves the queues
of its other events.
-/

namespace ShmDos64

open Function (update update_of_ne update_self)

variable {τ ε : Type*} [DecidableEq ε] [DecidableEq τ]

/-- What the slots and the flags say about the lists. -/
structure Waits (s : EventState τ ε) (L : ε → List τ) : Prop where
  full : ∀ T, s.Full L T
  asleep : ∀ e, ∀ T ∈ L e, (s.task T).Asleep
  awake : ∀ T, ¬ (s.task T).Asleep → (s.task T).waitEventCount = 0
  auto : ∀ e, (s.event e).manualReset = false
  /-- No task waits for an event that is set. -/
  empty : ∀ e, (s.event e).set = true → L e = []

/-- The queues of auto-reset events between the steps. -/
structure QueueInv (s : EventState τ ε) (L : ε → List τ) : Prop extends Waits s L where
  lists : Lists s L

omit [DecidableEq ε] [DecidableEq τ] in
theorem Waits.congr {s t : EventState τ ε} {L : ε → List τ} (h : Waits s L) (hs : SameWaits s t) :
    Waits t L where
  full T i e hi ho := by
    rw [hs.count] at hi
    rw [hs.object] at ho
    exact h.full T i e hi ho
  asleep e T hT := (hs.asleep T).mpr (h.asleep e T hT)
  awake T hT := by
    rw [hs.count]
    exact h.awake T (mt (hs.asleep T).mpr hT)
  auto e := (hs.manualReset e).trans (h.auto e)
  empty e he := h.empty e ((hs.set e).symm.trans he)

omit [DecidableEq ε] in
/-- One task changes, and its places in the queues. -/
theorem Waits.updateTask {s : EventState τ ε} {L L' : ε → List τ} {T : τ}
    {f : WaitTask τ ε → WaitTask τ ε} (h : Waits s L)
    (hmem : ∀ e, ∀ T', T' ≠ T → (T' ∈ L' e ↔ T' ∈ L e))
    (hfull : ∀ i e, i < (f (s.task T)).waitEventCount →
      ((f (s.task T)).infos i).object = some e → T ∈ L' e)
    (hasleep : ∀ e, T ∈ L' e → (f (s.task T)).Asleep)
    (hawake : ¬ (f (s.task T)).Asleep → (f (s.task T)).waitEventCount = 0)
    (hempty : ∀ e, (s.event e).set = true → L' e = []) : Waits (s.updateTask T f) L' where
  full T' i e hi ho := by
    by_cases hT : T' = T
    · rw [hT, EventState.updateTask_self] at hi ho
      rw [hT]
      exact hfull i e hi ho
    · rw [EventState.updateTask_of_ne hT] at hi ho
      exact (hmem e T' hT).mpr (h.full T' i e hi ho)
  asleep e T' hT' := by
    by_cases hT : T' = T
    · rw [hT, EventState.updateTask_self]
      exact hasleep e (hT ▸ hT')
    · rw [EventState.updateTask_of_ne hT]
      exact h.asleep e T' ((hmem e T' hT).mp hT')
  awake T' := by
    by_cases hT : T' = T
    · rw [hT, EventState.updateTask_self]
      exact hawake
    · rw [EventState.updateTask_of_ne hT]
      exact h.awake T'
  auto := h.auto
  empty := hempty

namespace WaitTask

/-- A signal of the event of slot `i` is counted. -/
def countSignal (i : ℕ) (t : WaitTask τ ε) : WaitTask τ ε :=
  { t.updateInfo i (fun info => { info with object := none }) with
    needWaitEvents := t.needWaitEvents - 1 }

/-- The wait ends with the event of slot `i`. -/
def wake (i : ℕ) (t : WaitTask τ ε) : WaitTask τ ε :=
  { t with waitEventCount := 0, state := .wait, waitEventResult := i }

variable {t : WaitTask τ ε} {e e' : ε} {i : ℕ}

omit [DecidableEq ε] [DecidableEq τ] in
theorem countSignal_object (j : ℕ) : ((t.countSignal i).infos j).object =
    if j = i then none else (t.infos j).object := by
  unfold countSignal updateInfo
  split_ifs with h
  · simp [h]
  · simp [update_of_ne h]

omit [DecidableEq ε] [DecidableEq τ] in
theorem countSignal_distinct (hd : t.Distinct) : (t.countSignal i).Distinct := by
  intro j k e hj hk hoj hok
  rw [countSignal_object] at hoj hok
  split_ifs at hoj hok
  exact hd j k e hj hk hoj hok

omit [DecidableEq τ] in
theorem countSignal_sameSlot (hs : t.slot e = some i) (he : e' ≠ e) :
    t.SameSlot (t.countSignal i) e' := by
  have ho := (slot_spec hs).2
  have hslot : (t.countSignal i).slot e' = t.slot e' := by
    refine List.find?_congr fun j _ => ?_
    rw [countSignal_object]
    split_ifs with h
    · rw [h, ho]
      simp [he.symm]
    · rfl
  refine ⟨hslot, fun j hj => ?_⟩
  have hji : j ≠ i := by
    rintro rfl
    rw [(slot_spec hj).2] at ho
    exact he (Option.some.inj ho)
  exact update_of_ne hji _ _

end WaitTask

namespace EventState

variable {s t u : EventState τ ε} {L : ε → List τ} {e e' : ε} {T T' : τ} {i : ℕ}

/-- **Nobody waits**: the event stays set. -/
theorem set_empty (h : QueueInv s L) (hl : (s.event e).locked = false)
    (hset : (s.event e).set = false) (hL : L e = []) (fuel : ℕ) : ∃ t,
    s.set (fuel + 1) e = some t ∧
      SameWaits (s.updateEvent e fun o => { o with set := true }) t ∧ Lists t L := by
  have hhead : (s.event e).head = none := (h.lists.queue e).head_eq_none.mpr hL
  have htail : (s.event e).tail = none := (h.lists.queue e).tail_eq_none.mpr hL
  set u := s.updateEvent e fun o => { o with set := true } with hu
  have huhead : (u.event e).head = none := by
    rw [hu, updateEvent_self]
    exact hhead
  refine ⟨u.updateEvent e fun o => { o with tail := none }, ?_,
    .updateEvent rfl rfl rfl, ?_⟩
  · have hloop : setLoop e (fuel + 1) u = some u := by
      unfold setLoop
      rw [huhead]
    unfold EventState.set closeHead
    rw [if_neg (by rw [hl]; exact Bool.false_ne_true),
      if_neg (by rw [hset]; exact Bool.false_ne_true), ← hu, hloop, Option.bind_some, huhead]
  · refine h.lists.of_infos (fun _ => rfl) (fun _ => rfl) ?_ ?_
    · intro e'
      by_cases he : e' = e
      · rw [he, updateEvent_self, hhead]
        exact huhead
      · rw [updateEvent_of_ne he, hu, updateEvent_of_ne he]
    · intro e'
      by_cases he : e' = e
      · rw [he, updateEvent_self, htail]
      · rw [updateEvent_of_ne he, hu, updateEvent_of_ne he]

variable {rest : List τ}

omit [DecidableEq τ] in
/-- The first task of a queue has a slot that leads to the next one. -/
theorem head_slot (h : Lists s L) (hL : L e = T :: rest) : ∃ i,
    (s.task T).slot e = some i ∧ ((s.task T).infos i).next = rest.head? ∧
      (s.event e).head = some T := by
  obtain ⟨i, hi⟩ := h.slot e T (hL ▸ List.mem_cons_self)
  have hq := h.queue e
  rw [hL] at hq
  refine ⟨i, hi, ?_, hq.head_eq⟩
  have := hq.next_head
  rwa [WaitTask.link_of_slot hi] at this

/-- `set`, once the first task of the queue is served. -/
theorem set_served {b : EventState τ ε} {f : WaitTask τ ε → WaitTask τ ε}
    (hl : (s.event e).locked = false) (hset : (s.event e).set = false)
    (hauto : (s.event e).manualReset = false) (hhead : (s.event e).head = some T)
    (hasleep : (s.task T).Asleep)
    (hsb : SameWaits (s.updateEvent e fun o => { o with set := true }) b)
    (hserve : (s.updateEvent e fun o => { o with set := true }).serve e T =
      some (b.updateTask T f, i))
    (hb : Lists b L) (hL : L e = T :: rest)
    (hnext : ((f (b.task T)).infos i).next = rest.head?) (hd : (f (b.task T)).Distinct)
    (hself : ∀ e', e' ≠ e → T ∈ L e' → (b.task T).SameSlot (f (b.task T)) e') (fuel : ℕ) :
    ∃ t, s.set (fuel + 1) e = some t ∧ SameWaits { b.updateTask T f with event := s.event } t ∧
      Lists t (update L e rest) := by
  set v := s.updateEvent e fun o => { o with set := true } with hv
  have hself' : (b.updateTask T f).task T = f (b.task T) := updateTask_self
  have hfield : ∀ g : EventObject τ → Bool, (∀ o x, g { o with set := x } = g o) →
      (∀ e', g (b.event e') = g (v.event e')) → ∀ e', g (b.event e') = g (s.event e') := by
    intro g hg hgb e'
    rw [hgb]
    by_cases he : e' = e
    · rw [he, hv, updateEvent_self, hg]
    · rw [hv, updateEvent_of_ne he]
  have hmanual := hfield EventObject.manualReset (fun _ _ => rfl) hsb.manualReset
  have hlocked := hfield EventObject.locked (fun _ _ => rfl) hsb.locked
  set u := (b.updateTask T f).updateEvent e
    fun o => { o with set := false, head := rest.head? } with hu
  have hloop : setLoop e (fuel + 1) v = some u := by
    have hvhead : (v.event e).head = some T := by
      rw [hv, updateEvent_self]
      exact hhead
    have hasleep' : (v.task T).Asleep := hasleep
    have hauto' : ((b.updateTask T f).event e).manualReset = false := (hmanual e).trans hauto
    unfold setLoop
    rw [hvhead]
    dsimp only
    rw [if_neg (not_not_intro hasleep'), hserve, Option.bind_some]
    dsimp only
    rw [hauto', hself', hnext, if_neg Bool.false_ne_true]
  have hue : u.event e = { b.event e with set := false, head := rest.head? } := updateEvent_self
  have hue' : ∀ e', e' ≠ e → u.event e' = b.event e' := fun e' he => updateEvent_of_ne he
  have htask : u.task T = f (b.task T) := hself'
  obtain ⟨t, ht, hut, hLt⟩ := closeHead_spec (u := u) hb hL
    (fun T' hT' => updateTask_of_ne hT') (by rwa [htask]) (by rwa [htask]) hue' (by rw [hue])
    (by rw [hue])
  have hsu : SameWaits { b.updateTask T f with event := s.event } u := by
    refine .of_task rfl (fun e' => ?_) (fun e' => ?_) (fun e' => ?_) rfl rfl
    · by_cases he : e' = e
      · rw [he, hue, hset]
      · rw [hue' e' he, hsb.set, hv, updateEvent_of_ne he]
    · rw [← hmanual e']
      by_cases he : e' = e
      · rw [he, hue]
      · rw [hue' e' he]
    · rw [← hlocked e']
      by_cases he : e' = e
      · rw [he, hue]
      · rw [hue' e' he]
  refine ⟨t, ?_, hsu.trans hut, hLt⟩
  unfold EventState.set
  rw [if_neg (by rw [hl]; exact Bool.false_ne_true),
    if_neg (by rw [hset]; exact Bool.false_ne_true), ← hv, hloop, Option.bind_some, ht]

omit [DecidableEq τ] in
/-- The flag is no part of the lists. -/
theorem lists_flag (h : Lists s L) (x : Bool) :
    Lists (s.updateEvent e fun o => { o with set := x }) L := by
  refine h.of_infos (fun _ => rfl) (fun _ => rfl) ?_ ?_
  all_goals
    intro e'
    by_cases he : e' = e
    · rw [he, updateEvent_self]
    · rw [updateEvent_of_ne he]

/-- **The first task needs more events**: it leaves the queue, and the event
is not set. -/
theorem set_counted (h : QueueInv s L) (hl : (s.event e).locked = false)
    (hset : (s.event e).set = false) (hL : L e = T :: rest) (hneed : 1 < (s.task T).needWaitEvents)
    (fuel : ℕ) : ∃ i t, (s.task T).slot e = some i ∧
    s.set (fuel + 1) e = some t ∧ SameWaits (s.updateTask T (WaitTask.countSignal i)) t ∧
    Lists t (update L e rest) := by
  obtain ⟨i, hi, hnext, hhead⟩ := head_slot h.lists hL
  have hasleep : (s.task T).Asleep := h.asleep e T (hL ▸ List.mem_cons_self)
  set v := s.updateEvent e fun o => { o with set := true } with hv
  have hserve : v.serve e T = some (v.updateTask T (WaitTask.countSignal i), i) := by
    have hinfo : v.taskEventInfo e T = some i := hi
    have hneed' : 1 < (v.task T).needWaitEvents := hneed
    unfold serve
    rw [if_pos hneed', hinfo]
    rfl
  have hnext' : (((v.task T).countSignal i).infos i).next = rest.head? := by
    rw [← hnext]
    simp [WaitTask.countSignal, WaitTask.updateInfo, hv, updateEvent]
  obtain ⟨t, ht, hst, hLt⟩ := set_served (b := v) hl hset (h.auto e) hhead hasleep
    (SameWaits.refl v) hserve (lists_flag h.lists true) hL hnext'
    (WaitTask.countSignal_distinct (h.lists.distinct T))
    (fun e' he _ => WaitTask.countSignal_sameSlot hi he) fuel
  exact ⟨i, t, hi, ht, hst, hLt⟩

/-- A wake sees the fields that stay, and not the links. -/
theorem sameWaits_wake (h : SameWaits (s.updateEvent e fun o => { o with set := true }) t) :
    SameWaits (s.updateTask T (WaitTask.wake i))
      { t.updateTask T (WaitTask.wake i) with event := s.event } := by
  have hfield : ∀ {α : Type} (g : WaitTask τ ε → α),
      g ((t.task T).wake i) = g ((s.task T).wake i) →
      (∀ T', g (t.task T') = g (s.task T')) → ∀ T',
      g ((t.updateTask T (WaitTask.wake i)).task T') =
        g ((s.updateTask T (WaitTask.wake i)).task T') := by
    intro α g hT hg T'
    by_cases hTT : T' = T
    · rw [hTT, updateTask_self, updateTask_self, hT]
    · rw [updateTask_of_ne hTT, updateTask_of_ne hTT, hg]
  refine ⟨hfield WaitTask.state rfl h.state, fun T' j => ?_,
    hfield WaitTask.waitEventCount rfl h.count, hfield WaitTask.waitEventResult rfl h.result,
    hfield WaitTask.needWaitEvents (h.need T) h.need, fun _ => rfl, fun _ => rfl, fun _ => rfl,
    h.blocked, h.hung⟩
  by_cases hTT : T' = T
  · rw [hTT]
    show (((t.updateTask T _).task T).infos j).object = _
    rw [updateTask_self, updateTask_self]
    exact h.object T j
  · show (((t.updateTask T _).task T').infos j).object = _
    rw [updateTask_of_ne hTT, updateTask_of_ne hTT]
    exact h.object T' j

/-- **The first task is woken**: it leaves all its queues, and the event is
not set. -/
theorem set_woken (h : QueueInv s L) (hl : (s.event e).locked = false)
    (hset : (s.event e).set = false) (hL : L e = T :: rest)
    (hneed : ¬ 1 < (s.task T).needWaitEvents) (fuel : ℕ) : ∃ i, (s.task T).slot e = some i ∧
    ((∃ t, s.set (fuel + 1) e = some t ∧ SameWaits (s.updateTask T (WaitTask.wake i)) t ∧
      Lists t fun e' => if e' = e then rest else (L e').erase T) ∨
    s.set (fuel + 1) e = none ∧ ∃ e', (s.event e').locked = true) := by
  obtain ⟨i, hi, hnext, hhead⟩ := head_slot h.lists hL
  have hasleep : (s.task T).Asleep := h.asleep e T (hL ▸ List.mem_cons_self)
  set v := s.updateEvent e fun o => { o with set := true } with hv
  have hneed' : ¬ 1 < (v.task T).needWaitEvents := hneed
  refine ⟨i, hi, ?_⟩
  rcases excludeEventsFromTask_spec (lists_flag (e := e) h.lists true) (h.full T) hi with
    ⟨b, hb, hvb, hLb⟩ | ⟨hnone, e', he'⟩
  · left
    have hserve : v.serve e T = some (b.updateTask T (WaitTask.wake i), i) := by
      unfold serve
      rw [if_neg hneed', hb]
      rfl
    have hLb' : (fun e' => if e' = e then L e' else (L e').erase T) e = T :: rest := by
      simp only [if_true, hL]
    obtain ⟨j, hj, hnextb, -⟩ := head_slot hLb hLb'
    obtain rfl : j = i := Option.some.inj (hj.symm.trans ((hvb.slot T e).trans hi))
    obtain ⟨t, ht, hst, hLt⟩ := set_served hl hset (h.auto e) hhead hasleep hvb hserve hLb hLb'
      hnextb (fun k _ _ hk => absurd hk (Nat.not_lt_zero k))
      (fun e' he hT => by
        rw [if_neg he] at hT
        exact absurd hT (List.Nodup.not_mem_erase (h.lists.queue e').nodup)) fuel
    refine ⟨t, ht, (sameWaits_wake hvb).trans hst, ?_⟩
    · convert hLt using 1
      funext e'
      by_cases he : e' = e
      · rw [if_pos he, he, update_self]
      · rw [if_neg he, update_of_ne he, if_neg he]
  · refine .inr ⟨?_, e', ?_⟩
    · have hserve : v.serve e T = none := by
        unfold serve
        rw [if_neg hneed', hnone]
        rfl
      have hvhead : (v.event e).head = some T := by
        rw [hv, updateEvent_self]
        exact hhead
      have hasleep' : (v.task T).Asleep := hasleep
      have hloop : setLoop e (fuel + 1) v = none := by
        unfold setLoop
        rw [hvhead]
        dsimp only
        rw [if_neg (not_not_intro hasleep'), hserve]
        rfl
      unfold EventState.set
      rw [if_neg (by rw [hl]; exact Bool.false_ne_true),
        if_neg (by rw [hset]; exact Bool.false_ne_true), ← hv, hloop]
      rfl
    · by_cases he : e' = e
      · rw [he, updateEvent_self] at he'
        exact he ▸ he'
      · rwa [updateEvent_of_ne he] at he'

/-! ## The queues after `set` -/

omit [DecidableEq τ] in
/-- An event nobody waits for is set. -/
theorem waits_raise (h : Waits s L) (hL : L e = []) :
    Waits (s.updateEvent e fun o => { o with set := true }) L where
  full := h.full
  asleep := h.asleep
  awake := h.awake
  auto e' := by
    by_cases he : e' = e
    · rw [he, updateEvent_self]
      exact h.auto e
    · rw [updateEvent_of_ne he]
      exact h.auto e'
  empty e' hset := by
    by_cases he : e' = e
    · rw [he, hL]
    · rw [updateEvent_of_ne he] at hset
      exact h.empty e' hset

omit [DecidableEq ε] [DecidableEq τ] in
/-- A queue with a task in it is that of an event that is not set. -/
theorem ne_of_set (h : Waits s L) (hL : L e = T :: rest)
    (hset : (s.event e').set = true) : e' ≠ e := by
  rintro rfl
  rw [h.empty e' hset] at hL
  exact List.cons_ne_nil T rest hL.symm

theorem waits_countSignal (h : QueueInv s L) (hL : L e = T :: rest)
    (hi : (s.task T).slot e = some i) :
    Waits (s.updateTask T (WaitTask.countSignal i)) (update L e rest) := by
  obtain ⟨hlt, ho⟩ := WaitTask.slot_spec hi
  have hasleep : (s.task T).Asleep := h.asleep e T (hL ▸ List.mem_cons_self)
  refine h.toWaits.updateTask ?_ ?_ (fun _ _ => hasleep) (fun hn => absurd hasleep hn) ?_
  · intro e' T' hT
    by_cases he : e' = e
    · rw [he, update_self, hL, List.mem_cons, or_iff_right hT]
    · rw [update_of_ne he]
  · intro j e' hj hoj
    rw [WaitTask.countSignal_object] at hoj
    split_ifs at hoj with hji
    have he : e' ≠ e := by
      rintro rfl
      exact hji (h.lists.distinct T j i e' hj hlt hoj ho)
    rw [update_of_ne he]
    exact h.full T j e' hj hoj
  · intro e' hset
    rw [update_of_ne (ne_of_set h.toWaits hL hset)]
    exact h.empty e' hset

theorem waits_wake (h : QueueInv s L) (hL : L e = T :: rest) (i : ℕ) :
    Waits (s.updateTask T (WaitTask.wake i))
      fun e' => if e' = e then rest else (L e').erase T := by
  have hnd := (h.lists.queue e).nodup
  rw [hL] at hnd
  refine h.toWaits.updateTask ?_ (fun j _ hj => absurd hj (Nat.not_lt_zero j)) ?_ (fun _ => rfl) ?_
  · intro e' T' hT
    by_cases he : e' = e
    · simp only [if_pos he]
      rw [he, hL, List.mem_cons, or_iff_right hT]
    · simp only [if_neg he]
      exact List.mem_erase_of_ne hT
  · intro e' hT
    by_cases he : e' = e
    · simp only [if_pos he] at hT
      exact absurd hT (List.nodup_cons.mp hnd).1
    · simp only [if_neg he] at hT
      exact absurd hT (List.Nodup.not_mem_erase (h.lists.queue e').nodup)
  · intro e' hset
    simp only [if_neg (ne_of_set h.toWaits hL hset), h.empty e' hset, List.erase_nil]

/-- The outcomes of `set`. -/
inductive SetOutcome (s t : EventState τ ε) (L L' : ε → List τ) (e : ε) : Prop
  | raised : L e = [] → L' = L →
      SameWaits (s.updateEvent e fun o => { o with set := true }) t → SetOutcome s t L L' e
  | counted (T : τ) (rest : List τ) (i : ℕ) : L e = T :: rest → (s.task T).slot e = some i →
      1 < (s.task T).needWaitEvents → L' = update L e rest →
      SameWaits (s.updateTask T (WaitTask.countSignal i)) t → SetOutcome s t L L' e
  | woken (T : τ) (rest : List τ) (i : ℕ) : L e = T :: rest → (s.task T).slot e = some i →
      ¬ 1 < (s.task T).needWaitEvents →
      (L' = fun e' => if e' = e then rest else (L e').erase T) →
      SameWaits (s.updateTask T (WaitTask.wake i)) t → SetOutcome s t L L' e

/-- **`set` of an event that is not set** has one of the three outcomes, if
it returns. -/
theorem set_outcome (h : QueueInv s L) (hset : (s.event e).set = false) {fuel : ℕ}
    (ht : s.set fuel e = some t) : ∃ L', QueueInv t L' ∧ SetOutcome s t L L' e := by
  have hl : (s.event e).locked = false := by
    by_contra hl
    rw [EventState.set, if_pos (Bool.not_eq_false _ ▸ hl)] at ht
    exact Option.some_ne_none t ht.symm
  obtain ⟨fuel, rfl⟩ : ∃ n, fuel = n + 1 := by
    refine ⟨fuel - 1, ?_⟩
    by_contra hf
    obtain rfl : fuel = 0 := by omega
    simp [EventState.set, hl, hset, setLoop] at ht
  cases hL : L e with
  | nil =>
    obtain ⟨u, hu, hsu, hLu⟩ := set_empty h hl hset hL fuel
    obtain rfl := Option.some.inj (hu.symm.trans ht)
    exact ⟨L, ⟨(waits_raise h.toWaits hL).congr hsu, hLu⟩, .raised hL rfl hsu⟩
  | cons T rest =>
    by_cases hneed : 1 < (s.task T).needWaitEvents
    · obtain ⟨i, u, hi, hu, hsu, hLu⟩ := set_counted h hl hset hL hneed fuel
      obtain rfl := Option.some.inj (hu.symm.trans ht)
      exact ⟨_, ⟨(waits_countSignal h hL hi).congr hsu, hLu⟩,
        .counted T rest i hL hi hneed rfl hsu⟩
    · obtain ⟨i, hi, ⟨u, hu, hsu, hLu⟩ | ⟨hnone, -⟩⟩ := set_woken h hl hset hL hneed fuel
      · obtain rfl := Option.some.inj (hu.symm.trans ht)
        exact ⟨_, ⟨(waits_wake h hL i).congr hsu, hLu⟩, .woken T rest i hL hi hneed rfl hsu⟩
      · exact absurd (ht.symm.trans hnone) (Option.some_ne_none t)

/-- `set` returns when no lock is held. -/
theorem set_returns (h : QueueInv s L) (hfree : ∀ e, (s.event e).locked = false) (e : ε) :
    ∃ t, s.set 1 e = some t := by
  by_cases hset : (s.event e).set = true
  · refine ⟨s, ?_⟩
    simp [EventState.set, hfree e, hset]
  · rw [Bool.not_eq_true] at hset
    cases hL : L e with
    | nil =>
      obtain ⟨t, ht, -⟩ := set_empty h (hfree e) hset hL 0
      exact ⟨t, ht⟩
    | cons T rest =>
      by_cases hneed : 1 < (s.task T).needWaitEvents
      · obtain ⟨-, t, -, ht, -⟩ := set_counted h (hfree e) hset hL hneed 0
        exact ⟨t, ht⟩
      · obtain ⟨-, -, ⟨t, ht, -⟩ | ⟨-, e', he'⟩⟩ := set_woken h (hfree e) hset hL hneed 0
        · exact ⟨t, ht⟩
        · rw [hfree e'] at he'
          exact absurd he' Bool.false_ne_true

end EventState

end ShmDos64
