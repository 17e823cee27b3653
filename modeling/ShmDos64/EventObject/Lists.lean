import ShmDos64.Common.LinkedQueue
import ShmDos64.EventObject.Model
/-!
# The queues of the events

The links of an event's queue are in the slots of its tasks. `Lists` says
that they spell a list for each event; the operations on queues are an
append and removals of these lists, and leave everything but the links and
the ends of the queues as it was (`SameWaits`).
-/

namespace ShmDos64

open Function (update update_of_ne update_self)

variable {τ ε : Type*}

namespace WaitTask

variable {t t' : WaitTask τ ε} {e e' : ε} {i : ℕ}

/-- No event has two slots. -/
def Distinct (t : WaitTask τ ε) : Prop :=
  ∀ i j e, i < t.waitEventCount → j < t.waitEventCount → (t.infos i).object = some e →
    (t.infos j).object = some e → i = j

theorem distinct_congr (hd : t.Distinct) (hc : t'.waitEventCount = t.waitEventCount)
    (ho : ∀ i, (t'.infos i).object = (t.infos i).object) : t'.Distinct := by
  intro i j e hi hj hoi hoj
  rw [hc] at hi hj
  rw [ho] at hoi hoj
  exact hd i j e hi hj hoi hoj

/-- Change one slot. -/
def updateInfo (t : WaitTask τ ε) (i : ℕ) (f : EventsInfo τ ε → EventsInfo τ ε) : WaitTask τ ε :=
  { t with infos := update t.infos i (f (t.infos i)) }

variable {f : EventsInfo τ ε → EventsInfo τ ε}

theorem updateInfo_object
    (hf : ∀ info, (f info).object = info.object) (j : ℕ) :
    ((t.updateInfo i f).infos j).object = (t.infos j).object := by
  unfold updateInfo
  by_cases hj : j = i
  · subst hj
    simp [hf]
  · simp [update_of_ne hj]

variable [DecidableEq ε]

/-- The slot a task has for an event. -/
def slot (t : WaitTask τ ε) (e : ε) : Option ℕ :=
  (List.range t.waitEventCount).find? fun idx => (t.infos idx).object = some e

theorem slot_spec (h : t.slot e = some i) : i < t.waitEventCount ∧ (t.infos i).object = some e := by
  have hm := List.mem_of_find?_eq_some h
  have hp := List.find?_some h
  exact ⟨List.mem_range.mp hm, of_decide_eq_true hp⟩

theorem slot_eq (hd : t.Distinct) (hi : i < t.waitEventCount) (ho : (t.infos i).object = some e) :
    t.slot e = some i := by
  cases hs : t.slot e with
  | none =>
    have := List.find?_eq_none.mp hs i (List.mem_range.mpr hi)
    exact absurd (decide_eq_true ho) this
  | some j =>
    obtain ⟨hj, hoj⟩ := slot_spec hs
    rw [hd j i e hj hi hoj ho]

/-- Slots are found by their objects. -/
theorem slot_congr (hc : t'.waitEventCount = t.waitEventCount)
    (ho : ∀ i, (t'.infos i).object = (t.infos i).object) : t'.slot e = t.slot e := by
  unfold slot
  rw [hc]
  congr 1
  funext idx
  rw [ho]

/-- A link of the task in the queue of an event. -/
def link (g : EventsInfo τ ε → Option τ) (t : WaitTask τ ε) (e : ε) : Option τ :=
  (t.slot e).bind fun i => g (t.infos i)

variable {g : EventsInfo τ ε → Option τ}

theorem link_of_slot (hs : t.slot e = some i) :
    t.link g e = g (t.infos i) := by
  unfold link
  rw [hs]
  rfl

/-- The two have the same slot for the event. -/
def SameSlot (t t' : WaitTask τ ε) (e : ε) : Prop :=
  t'.slot e = t.slot e ∧ ∀ i, t.slot e = some i → t'.infos i = t.infos i

theorem SameSlot.link (h : t.SameSlot t' e) (g : EventsInfo τ ε → Option τ) :
    t'.link g e = t.link g e := by
  unfold WaitTask.link
  rw [h.1]
  cases hs : t.slot e with
  | none => rfl
  | some i => exact congrArg g (h.2 i hs)

theorem sameSlot_of_infos (hc : t'.waitEventCount = t.waitEventCount) (hi : t'.infos = t.infos)
    (e : ε) : t.SameSlot t' e :=
  ⟨slot_congr hc fun i => by rw [hi], fun i _ => by rw [hi]⟩

/-- A change of the slot of `e` changes the links of `e` only. -/
theorem link_updateInfo
    (hf : ∀ info, (f info).object = info.object) (hs : t.slot e = some i) :
    (t.updateInfo i f).link g e' = if e' = e then g (f (t.infos i)) else t.link g e' := by
  have hslot : (t.updateInfo i f).slot e' = t.slot e' := slot_congr rfl (updateInfo_object hf)
  unfold link
  rw [hslot]
  split_ifs with he
  · subst he
    rw [hs]
    simp [updateInfo]
  · cases hs' : t.slot e' with
    | none => rfl
    | some j =>
      have hji : j ≠ i := by
        rintro rfl
        have := (slot_spec hs).2
        rw [(slot_spec hs').2] at this
        exact he (Option.some.inj this)
      simp [updateInfo, update_of_ne hji]

end WaitTask

/-- Only links and the ends of queues differ. -/
structure SameWaits (s t : EventState τ ε) : Prop where
  state : ∀ T, (t.task T).state = (s.task T).state
  object : ∀ T i, ((t.task T).infos i).object = ((s.task T).infos i).object
  count : ∀ T, (t.task T).waitEventCount = (s.task T).waitEventCount
  result : ∀ T, (t.task T).waitEventResult = (s.task T).waitEventResult
  need : ∀ T, (t.task T).needWaitEvents = (s.task T).needWaitEvents
  set : ∀ e, (t.event e).set = (s.event e).set
  manualReset : ∀ e, (t.event e).manualReset = (s.event e).manualReset
  locked : ∀ e, (t.event e).locked = (s.event e).locked
  blocked : t.blocked = s.blocked
  hung : t.hung = s.hung

namespace SameWaits

variable {s t u : EventState τ ε}

theorem refl (s : EventState τ ε) : SameWaits s s :=
  ⟨fun _ => rfl, fun _ _ => rfl, fun _ => rfl, fun _ => rfl, fun _ => rfl, fun _ => rfl,
    fun _ => rfl, fun _ => rfl, rfl, rfl⟩

theorem trans (h : SameWaits s t) (h' : SameWaits t u) : SameWaits s u where
  state T := (h'.state T).trans (h.state T)
  object T i := (h'.object T i).trans (h.object T i)
  count T := (h'.count T).trans (h.count T)
  result T := (h'.result T).trans (h.result T)
  need T := (h'.need T).trans (h.need T)
  set e := (h'.set e).trans (h.set e)
  manualReset e := (h'.manualReset e).trans (h.manualReset e)
  locked e := (h'.locked e).trans (h.locked e)
  blocked := h'.blocked.trans h.blocked
  hung := h'.hung.trans h.hung

theorem asleep (h : SameWaits s t) (T : τ) : (t.task T).Asleep ↔ (s.task T).Asleep := by
  rw [WaitTask.Asleep, WaitTask.Asleep, h.state T]

variable [DecidableEq ε]

theorem slot (h : SameWaits s t) (T : τ) (e : ε) : (t.task T).slot e = (s.task T).slot e :=
  WaitTask.slot_congr (h.count T) (h.object T)

omit [DecidableEq ε] in
/-- The ends of queues change. -/
theorem of_task (htask : t.task = s.task) (hset : ∀ e, (t.event e).set = (s.event e).set)
    (hmanual : ∀ e, (t.event e).manualReset = (s.event e).manualReset)
    (hlocked : ∀ e, (t.event e).locked = (s.event e).locked) (hblocked : t.blocked = s.blocked)
    (hhung : t.hung = s.hung) : SameWaits s t :=
  ⟨fun T => by rw [htask], fun T i => by rw [htask], fun T => by rw [htask],
    fun T => by rw [htask], fun T => by rw [htask], hset, hmanual, hlocked, hblocked, hhung⟩

theorem updateEvent {e : ε} {f : EventObject τ → EventObject τ}
    (hset : (f (s.event e)).set = (s.event e).set)
    (hmanual : (f (s.event e)).manualReset = (s.event e).manualReset)
    (hlocked : (f (s.event e)).locked = (s.event e).locked) : SameWaits s (s.updateEvent e f) := by
  have hfield : ∀ g : EventObject τ → Bool, g (f (s.event e)) = g (s.event e) → ∀ e',
      g ((s.updateEvent e f).event e') = g (s.event e') := by
    intro g hg e'
    by_cases he : e' = e
    · rw [he, EventState.updateEvent_self, hg]
    · rw [EventState.updateEvent_of_ne he]
  exact of_task rfl (hfield _ hset) (hfield _ hmanual) (hfield _ hlocked) rfl rfl

end SameWaits

variable [DecidableEq ε]

/-- The queues of the events spell the lists `L`, whose tasks have slots for
them. -/
structure Lists (s : EventState τ ε) (L : ε → List τ) : Prop where
  queue : ∀ e, LinkedQueue (fun T => (s.task T).link EventsInfo.next e)
    (fun T => (s.task T).link EventsInfo.prev e) (s.event e).head (s.event e).tail (L e)
  slot : ∀ e T, T ∈ L e → ∃ i, (s.task T).slot e = some i
  distinct : ∀ T, (s.task T).Distinct

/-- The lists read the slots of their tasks and the ends of the queues. -/
theorem Lists.congr {s t : EventState τ ε} {L : ε → List τ} (h : Lists s L)
    (hslot : ∀ e, ∀ T ∈ L e, (s.task T).SameSlot (t.task T) e)
    (hdistinct : ∀ T, (t.task T).Distinct) (hhead : ∀ e, (t.event e).head = (s.event e).head)
    (htail : ∀ e, (t.event e).tail = (s.event e).tail) : Lists t L where
  queue e := by
    rw [hhead, htail]
    refine (h.queue e).congr ?_ ?_
    all_goals
      intro T hT
      exact (hslot e T hT).link _
  slot e T hT := by
    rw [(hslot e T hT).1]
    exact h.slot e T hT
  distinct := hdistinct

/-- Other fields of the tasks and the events may change. -/
theorem Lists.of_infos {s t : EventState τ ε} {L : ε → List τ} (h : Lists s L)
    (hinfos : ∀ T, (t.task T).infos = (s.task T).infos)
    (hcount : ∀ T, (t.task T).waitEventCount = (s.task T).waitEventCount)
    (hhead : ∀ e, (t.event e).head = (s.event e).head)
    (htail : ∀ e, (t.event e).tail = (s.event e).tail) : Lists t L :=
  h.congr (fun e T _ => WaitTask.sameSlot_of_infos (hcount T) (hinfos T) e)
    (fun T => WaitTask.distinct_congr (h.distinct T) (hcount T) fun i => by rw [hinfos]) hhead htail

namespace EventState

variable [DecidableEq τ] {s t : EventState τ ε} {e e' : ε} {T T' : τ} {i : ℕ}

/-- A change of links in the slot a task has for an event. -/
structure Relinked (s t : EventState τ ε) (e : ε) (T : τ) (nx px : Option τ) : Prop where
  same : SameWaits s t
  event : t.event = s.event
  next : ∀ T' e', (t.task T').link EventsInfo.next e' =
    if T' = T ∧ e' = e then nx else (s.task T').link EventsInfo.next e'
  prev : ∀ T' e', (t.task T').link EventsInfo.prev e' =
    if T' = T ∧ e' = e then px else (s.task T').link EventsInfo.prev e'

theorem relinked (hs : (s.task T).slot e = some i) {f : EventsInfo τ ε → EventsInfo τ ε}
    (hf : ∀ info, (f info).object = info.object) :
    Relinked s (s.updateInfo T i f) e T (f ((s.task T).infos i)).next
      (f ((s.task T).infos i)).prev := by
  have htask : ∀ T', (s.updateInfo T i f).task T' =
      if T' = T then (s.task T).updateInfo i f else s.task T' :=
    fun T' => Function.update_apply _ _ _ _
  have hfield : ∀ {α : Type} (g : WaitTask τ ε → α),
      g ((s.task T).updateInfo i f) = g (s.task T) → ∀ T',
      g ((s.updateInfo T i f).task T') = g (s.task T') := by
    intro α g hg T'
    rw [htask]
    split_ifs with h
    · rw [h, hg]
    · rfl
  have hlink : ∀ (g : EventsInfo τ ε → Option τ) T' e',
      ((s.updateInfo T i f).task T').link g e' =
        if T' = T ∧ e' = e then g (f ((s.task T).infos i)) else (s.task T').link g e' := by
    intro g T' e'
    rw [htask]
    by_cases h : T' = T
    · rw [if_pos h, WaitTask.link_updateInfo hf hs, h]
      simp
    · rw [if_neg h, if_neg fun hc => h hc.1]
  refine ⟨⟨hfield _ rfl, ?_, hfield _ rfl, hfield _ rfl, hfield _ rfl, fun _ => rfl, fun _ => rfl,
    fun _ => rfl, rfl, rfl⟩, rfl, hlink EventsInfo.next, hlink EventsInfo.prev⟩
  intro T' j
  rw [htask]
  split_ifs with h
  · rw [h]
    exact WaitTask.updateInfo_object hf j
  · rfl

/-- `setNext` changes one link. -/
theorem setNext_spec (hs : (s.task T).slot e = some i) (x : Option τ) : ∃ t,
    s.setNext e T x = some t ∧ Relinked s t e T x ((s.task T).link EventsInfo.prev e) := by
  have hinfo : s.taskEventInfo e T = some i := hs
  refine ⟨s.updateInfo T i fun info => { info with next := x }, ?_, ?_⟩
  · unfold setNext
    rw [hinfo]
    rfl
  · rw [WaitTask.link_of_slot hs]
    exact relinked hs fun _ => rfl

/-- `setPrev` changes one link. -/
theorem setPrev_spec (hs : (s.task T).slot e = some i) (x : Option τ) : ∃ t,
    s.setPrev e T x = some t ∧ Relinked s t e T ((s.task T).link EventsInfo.next e) x := by
  have hinfo : s.taskEventInfo e T = some i := hs
  refine ⟨s.updateInfo T i fun info => { info with prev := x }, ?_, ?_⟩
  · unfold setPrev
    rw [hinfo]
    rfl
  · rw [WaitTask.link_of_slot hs]
    exact relinked hs fun _ => rfl

/-- The task's neighbours in the queue of `e` are linked to each other, and
the ends of the queue moved where there is none. -/
structure Unlinked (s t : EventState τ ε) (e : ε) (nx px : Option τ) : Prop where
  same : SameWaits s t
  event : ∀ e', e' ≠ e → t.event e' = s.event e'
  head : (t.event e).head = if px = none then nx else (s.event e).head
  tail : (t.event e).tail = if nx = none then px else (s.event e).tail
  next : ∀ T' e', (t.task T').link EventsInfo.next e' =
    if px = some T' ∧ e' = e then nx else (s.task T').link EventsInfo.next e'
  prev : ∀ T' e', (t.task T').link EventsInfo.prev e' =
    if nx = some T' ∧ e' = e then px else (s.task T').link EventsInfo.prev e'

/-- A change of the `next` link alone. -/
theorem Relinked.prev_eq {nx : Option τ}
    (h : Relinked s t e T nx ((s.task T).link EventsInfo.prev e)) (T' : τ) (e' : ε) :
    (t.task T').link EventsInfo.prev e' = (s.task T').link EventsInfo.prev e' := by
  rw [h.prev]
  split_ifs with hc
  · rw [hc.1, hc.2]
  · rfl

/-- A change of the `prev` link alone. -/
theorem Relinked.next_eq {px : Option τ}
    (h : Relinked s t e T ((s.task T).link EventsInfo.next e) px) (T' : τ) (e' : ε) :
    (t.task T').link EventsInfo.next e' = (s.task T').link EventsInfo.next e' := by
  rw [h.next]
  split_ifs with hc
  · rw [hc.1, hc.2]
  · rfl

theorem ite_eq_ite_some (x T' : τ) (e e' : ε) (a b : Option τ) :
    (if T' = x ∧ e' = e then a else b) = if some x = some T' ∧ e' = e then a else b := by
  simp only [Option.some.injEq, eq_comm]

theorem unlinked_exclude {L : ε → List τ} (h : Lists s L) (hT : T ∈ L e)
    (hs : (s.task T).slot e = some i) : ∃ t, s.excludeEventFromTask T i = some t ∧
    Unlinked s t e ((s.task T).link EventsInfo.next e) ((s.task T).link EventsInfo.prev e) := by
  have ho := (WaitTask.slot_spec hs).2
  have hnext : ((s.task T).infos i).next = (s.task T).link EventsInfo.next e :=
    (WaitTask.link_of_slot hs).symm
  have hprev : ((s.task T).infos i).prev = (s.task T).link EventsInfo.prev e :=
    (WaitTask.link_of_slot hs).symm
  have hq := h.queue e
  cases hn : (s.task T).link EventsInfo.next e with
  | some n =>
    obtain ⟨j, hj⟩ := h.slot e n (hq.next_mem hT hn).1
    obtain ⟨s₁, hs₁, hr₁⟩ := setPrev_spec hj ((s.task T).link EventsInfo.prev e)
    cases hp : (s.task T).link EventsInfo.prev e with
    | some p =>
      obtain ⟨k, hk⟩ := h.slot e p (hq.prev_mem hT hp).1
      obtain ⟨s₂, hs₂, hr₂⟩ := setNext_spec ((hr₁.same.slot p e).trans hk) (some n)
      have hevent : s₂.event = s.event := hr₂.event.trans hr₁.event
      rw [hp] at hs₁ hr₁
      refine ⟨s₂, ?_, hr₁.same.trans hr₂.same, fun e' _ => congrFun hevent e', ?_, ?_, ?_, ?_⟩
      · simp only [excludeEventFromTask, ho, hnext, hn, hprev, hp, hs₁, Option.bind_some, hs₂]
      · rw [hevent, if_neg (Option.some_ne_none p)]
      · rw [hevent, if_neg (Option.some_ne_none n)]
      · intro T' e'
        rw [hr₂.next, hr₁.next_eq, ite_eq_ite_some]
      · intro T' e'
        rw [hr₂.prev_eq, hr₁.prev, ite_eq_ite_some]
    | none =>
      rw [hp] at hs₁ hr₁
      refine ⟨s₁.updateEvent e fun o => { o with head := some n }, ?_,
        hr₁.same.trans (.updateEvent rfl rfl rfl), ?_, ?_, ?_, ?_,
        ?_⟩
      · simp only [excludeEventFromTask, ho, hnext, hn, hprev, hp, hs₁, Option.bind_some]
      · intro e' he
        rw [updateEvent_of_ne he, hr₁.event]
      · rw [updateEvent_self, if_pos rfl]
      · rw [updateEvent_self, hr₁.event, if_neg (Option.some_ne_none n)]
      · intro T' e'
        rw [if_neg fun hc => Option.some_ne_none T' hc.1.symm]
        exact hr₁.next_eq T' e'
      · intro T' e'
        rw [← ite_eq_ite_some]
        exact hr₁.prev T' e'
  | none =>
    cases hp : (s.task T).link EventsInfo.prev e with
    | some p =>
      obtain ⟨k, hk⟩ := h.slot e p (hq.prev_mem hT hp).1
      obtain ⟨s₂, hs₂, hr₂⟩ := setNext_spec hk none
      refine ⟨s₂.updateEvent e fun o => { o with tail := some p }, ?_,
        hr₂.same.trans (.updateEvent rfl rfl rfl), ?_, ?_, ?_, ?_,
        ?_⟩
      · simp only [excludeEventFromTask, ho, hnext, hn, hprev, hp, hs₂, Option.map_some]
      · intro e' he
        rw [updateEvent_of_ne he, hr₂.event]
      · rw [updateEvent_self, hr₂.event, if_neg (Option.some_ne_none p)]
      · rw [updateEvent_self, if_pos rfl]
      · intro T' e'
        rw [← ite_eq_ite_some]
        exact hr₂.next T' e'
      · intro T' e'
        rw [if_neg fun hc => Option.some_ne_none T' hc.1.symm]
        exact hr₂.prev_eq T' e'
    | none =>
      have hsame : ∀ (s : EventState τ ε) (x : Option τ),
          SameWaits s (s.updateEvent e fun o => { o with head := x }) ∧
          SameWaits s (s.updateEvent e fun o => { o with tail := x }) := fun s x =>
        ⟨.updateEvent rfl rfl rfl,
          .updateEvent rfl rfl rfl⟩
      refine ⟨(s.updateEvent e fun o => { o with head := none }).updateEvent e fun o =>
        { o with tail := none }, ?_, (hsame _ _).1.trans (hsame _ _).2, ?_, ?_, ?_, ?_, ?_⟩
      · simp only [excludeEventFromTask, ho, hnext, hn, hprev, hp, Option.map_some]
      · intro e' he
        rw [updateEvent_of_ne he, updateEvent_of_ne he]
      · rw [updateEvent_self, updateEvent_self, if_pos rfl]
      · rw [updateEvent_self, if_pos rfl]
      all_goals
        intro T' e'
        rw [if_neg fun hc => Option.some_ne_none T' hc.1.symm]
        rfl

/-- **A task leaves the queue of an event.** -/
theorem excludeEventFromTask_spec {L : ε → List τ} (h : Lists s L) (hT : T ∈ L e)
    (hs : (s.task T).slot e = some i) : ∃ t, s.excludeEventFromTask T i = some t ∧
    SameWaits s t ∧ Lists t (update L e ((L e).erase T)) := by
  obtain ⟨t, ht, hu⟩ := unlinked_exclude h hT hs
  refine ⟨t, ht, hu.same, ?_, ?_, ?_⟩
  · intro e'
    by_cases he : e' = e
    · subst he
      rw [update_self, hu.head, hu.tail]
      refine (h.queue e').remove hT ?_ ?_
      · intro y _ _
        rw [hu.next]
        simp only [and_true]
      · intro y _ _
        rw [hu.prev]
        simp only [and_true]
    · rw [update_of_ne he, hu.event e' he]
      refine (h.queue e').congr ?_ ?_
      · intro y _
        rw [hu.next, if_neg (fun hc => he hc.2)]
      · intro y _
        rw [hu.prev, if_neg (fun hc => he hc.2)]
  · intro e' T' hm
    rw [hu.same.slot]
    refine h.slot e' T' ?_
    by_cases he : e' = e
    · subst he
      rw [update_self] at hm
      exact List.mem_of_mem_erase hm
    · rwa [update_of_ne he] at hm
  · intro T'
    exact WaitTask.distinct_congr (h.distinct T') (hu.same.count T') (hu.same.object T')

end EventState

end ShmDos64
