import ShmDos64.EventObject.Lists
/-!
# The queue operations

What `insertTask`, the two loops that take a task out of its queues and the
end of `set` do to the lists. The loops fail only on a lock that is held.
-/

namespace ShmDos64

open Function (update update_of_ne update_self)
open EventsInfo

variable {τ ε : Type*} [DecidableEq ε]

/-! ## A new slot -/

namespace WaitTask

variable {t : WaitTask τ ε} {e e' : ε} {i : ℕ}

/-- The next slot, of `insertTask`. -/
def push (t : WaitTask τ ε) (info : EventsInfo τ ε) : WaitTask τ ε :=
  { t with
    infos := update t.infos t.waitEventCount info
    waitEventCount := t.waitEventCount + 1 }

omit [DecidableEq ε] in
theorem push_object (info : EventsInfo τ ε) (i : ℕ) : ((t.push info).infos i).object =
    if i = t.waitEventCount then info.object else (t.infos i).object := by
  unfold push
  split_ifs with h
  · simp [h]
  · simp [update_of_ne h]

variable {info : EventsInfo τ ε}

section

variable (hd : t.Distinct) (ho : info.object = some e)
  (hfree : ∀ i < t.waitEventCount, (t.infos i).object ≠ some e)

include hd ho hfree

omit [DecidableEq ε] in
theorem push_distinct : (t.push info).Distinct := by
  have hlt : ∀ i, i < (t.push info).waitEventCount → i ≠ t.waitEventCount →
      i < t.waitEventCount := by
    intro i hi hne
    have : i < t.waitEventCount + 1 := hi
    omega
  intro i j e' hi hj hoi hoj
  rw [push_object] at hoi hoj
  split_ifs at hoi hoj with h1 h2 h3
  · rw [h1, h2]
  · rw [ho] at hoi
    exact absurd (hoj.trans hoi.symm) (hfree j (hlt j hj h2))
  · rw [ho] at hoj
    exact absurd (hoi.trans hoj.symm) (hfree i (hlt i hi h1))
  · exact hd i j e' (hlt i hi h1) (hlt j hj h3) hoi hoj

theorem push_slot :
    (t.push info).slot e = some t.waitEventCount :=
  slot_eq (push_distinct hd ho hfree) (Nat.lt_succ_self _) (by rw [push_object, if_pos rfl, ho])

end

theorem push_sameSlot (ho : info.object = some e) (he : e' ≠ e) :
    t.SameSlot (t.push info) e' := by
  have hslot : (t.push info).slot e' = t.slot e' := by
    unfold slot
    show (List.range (t.waitEventCount + 1)).find? _ = _
    rw [List.range_succ, List.find?_append]
    have hlast : [t.waitEventCount].find? (fun idx =>
        decide (((t.push info).infos idx).object = some e')) = none := by
      rw [List.find?_singleton, push_object, if_pos rfl, ho]
      simp [he.symm]
    rw [hlast, Option.or_none]
    refine List.find?_congr fun i hi => ?_
    rw [push_object, if_neg (List.mem_range.mp hi).ne]
  refine ⟨hslot, fun i hi => ?_⟩
  exact update_of_ne (slot_spec hi).1.ne _ _

end WaitTask

namespace EventState

variable [DecidableEq τ] {s t u : EventState τ ε} {L : ε → List τ} {e e' : ε} {T T' : τ} {i : ℕ}

/-! ## `insertTask` -/

/-- The task has one more slot, for `e`. -/
structure Inserted (s t : EventState τ ε) (e : ε) (T : τ) : Prop where
  state : ∀ T', (t.task T').state = (s.task T').state
  object : ∀ T' i, ((t.task T').infos i).object =
    if T' = T ∧ i = (s.task T).waitEventCount then some e else ((s.task T').infos i).object
  count : ∀ T', (t.task T').waitEventCount =
    if T' = T then (s.task T').waitEventCount + 1 else (s.task T').waitEventCount
  need : ∀ T', (t.task T').needWaitEvents = (s.task T').needWaitEvents
  set : ∀ e, (t.event e).set = (s.event e).set
  manualReset : ∀ e, (t.event e).manualReset = (s.event e).manualReset
  locked : ∀ e, (t.event e).locked = (s.event e).locked
  blocked : t.blocked = s.blocked
  hung : t.hung = s.hung

/-- The slot of `insertTask` is there, and the queue is as it was. -/
def pushSlot (s : EventState τ ε) (e : ε) (T : τ) : EventState τ ε :=
  s.updateTask T fun t => t.push ⟨none, (s.event e).tail, some e⟩

omit [DecidableEq ε] in
theorem pushSlot_self :
    (s.pushSlot e T).task T = (s.task T).push ⟨none, (s.event e).tail, some e⟩ :=
  updateTask_self

omit [DecidableEq ε] in
theorem pushSlot_of_ne (hT : T' ≠ T) : (s.pushSlot e T).task T' = s.task T' :=
  updateTask_of_ne hT

theorem pushSlot_sameSlot (hne : T' ≠ T ∨ e' ≠ e) :
    (s.task T').SameSlot ((s.pushSlot e T).task T') e' := by
  by_cases hT : T' = T
  · rw [hT, pushSlot_self]
    exact WaitTask.push_sameSlot rfl (hne.resolve_left (not_not_intro hT))
  · rw [pushSlot_of_ne hT]
    exact WaitTask.sameSlot_of_infos rfl rfl e'

omit [DecidableEq ε] in
theorem pushSlot_distinct (hd : ∀ T, (s.task T).Distinct)
    (hfree : ∀ i < (s.task T).waitEventCount, ((s.task T).infos i).object ≠ some e) (T' : τ) :
    ((s.pushSlot e T).task T').Distinct := by
  by_cases hT : T' = T
  · rw [hT, pushSlot_self]
    exact WaitTask.push_distinct (hd T) rfl hfree
  · rw [pushSlot_of_ne hT]
    exact hd T'

omit [DecidableEq ε] in
theorem inserted_pushSlot (hu : SameWaits (s.pushSlot e T) t) : Inserted s t e T := by
  have hfield : ∀ {α : Type} (g : WaitTask τ ε → α),
      g ((s.task T).push ⟨none, (s.event e).tail, some e⟩) = g (s.task T) → ∀ T',
      g ((s.pushSlot e T).task T') = g (s.task T') := by
    intro α g hg T'
    by_cases hT : T' = T
    · rw [hT, pushSlot_self, hg]
    · rw [pushSlot_of_ne hT]
  refine ⟨fun T' => ?_, fun T' i => ?_, fun T' => ?_, fun T' => ?_, hu.set, hu.manualReset,
    hu.locked, hu.blocked, hu.hung⟩
  · rw [hu.state]
    exact hfield WaitTask.state rfl T'
  · rw [hu.object]
    by_cases hT : T' = T
    · rw [hT, pushSlot_self, WaitTask.push_object]
      simp
    · rw [pushSlot_of_ne hT, if_neg fun hc => hT hc.1]
  · rw [hu.count]
    split_ifs with hT
    · rw [hT, pushSlot_self]
      rfl
    · rw [pushSlot_of_ne hT]
  · rw [hu.need]
    exact hfield WaitTask.needWaitEvents rfl T'

/-- `insertTask` links the old tail, or the head where there is none, to the
task. -/
theorem insertTask_links (h : Lists s L) (hT : T ∉ L e) : ∃ t, s.insertTask e T = some t ∧
    SameWaits (s.pushSlot e T) t ∧ (∀ e', e' ≠ e → t.event e' = s.event e') ∧
    (t.event e).head = (if (s.event e).tail = none then some T else (s.event e).head) ∧
    (t.event e).tail = some T ∧
    (∀ T' e', (t.task T').link next e' =
      if (s.event e).tail = some T' ∧ e' = e then some T
      else ((s.pushSlot e T).task T').link next e') ∧
    ∀ T' e', (t.task T').link prev e' =
      ((s.pushSlot e T).task T').link prev e' := by
  have hsame : ∀ v : EventState τ ε,
      SameWaits v (v.updateEvent e fun o => { o with tail := some T }) :=
    fun v => .updateEvent rfl rfl rfl
  have htail : ∀ v : EventState τ ε,
      ((v.updateEvent e fun o => { o with tail := some T }).event e).tail = some T := by
    intro v
    rw [updateEvent_self]
  cases hlast : (s.event e).tail with
  | some last =>
    have hm : last ∈ L e := (h.queue e).tail_mem hlast
    obtain ⟨j, hj⟩ := h.slot e last hm
    have hne : last ≠ T := fun hc => hT (hc ▸ hm)
    rw [← (pushSlot_sameSlot (.inl hne)).1] at hj
    obtain ⟨v, hv, hr⟩ := setNext_spec hj (some T)
    refine ⟨v.updateEvent e fun o => { o with tail := some T }, ?_, hr.same.trans (hsame v), ?_,
      ?_, htail v, ?_, hr.prev_eq⟩
    · have heq : s.insertTask e T = ((s.pushSlot e T).setNext e last (some T)).map
          fun v : EventState τ ε => v.updateEvent e fun o => { o with tail := some T } := by
        unfold insertTask pushSlot
        simp only [hlast]
        rfl
      rw [heq, hv]
      rfl
    · intro e' he
      rw [updateEvent_of_ne he, hr.event]
      rfl
    · rw [updateEvent_self, hr.event, if_neg (Option.some_ne_none last)]
      rfl
    · intro T' e'
      rw [← ite_eq_ite_some]
      exact hr.next T' e'
  | none =>
    have hhead : SameWaits (s.pushSlot e T)
        ((s.pushSlot e T).updateEvent e fun o => { o with head := some T }) :=
      .updateEvent rfl rfl rfl
    refine ⟨_, ?_, hhead.trans (hsame _), ?_, ?_, htail _, ?_, ?_⟩
    · unfold insertTask pushSlot
      simp only [hlast]
      rfl
    · intro e' he
      rw [updateEvent_of_ne he, updateEvent_of_ne he]
      rfl
    · rw [updateEvent_self, updateEvent_self, if_pos rfl]
    · intro T' e'
      rw [if_neg fun hc => Option.some_ne_none T' hc.1.symm]
      rfl
    · intro T' e'
      rfl

/-- **A task joins the queue of an event.** -/
theorem insertTask_spec (h : Lists s L) (hT : T ∉ L e)
    (hfree : ∀ i < (s.task T).waitEventCount, ((s.task T).infos i).object ≠ some e) : ∃ t,
    s.insertTask e T = some t ∧ Inserted s t e T ∧ Lists t (update L e (L e ++ [T])) := by
  obtain ⟨t, ht, hu, hevent, hhead, htail, hnext, hprev⟩ := insertTask_links h hT
  have hslot : ((s.pushSlot e T).task T).slot e = some (s.task T).waitEventCount := by
    rw [pushSlot_self]
    exact WaitTask.push_slot (h.distinct T) rfl hfree
  have hnew : ∀ g : EventsInfo τ ε → Option τ,
      ((s.pushSlot e T).task T).link g e = g ⟨none, (s.event e).tail, some e⟩ := by
    intro g
    rw [WaitTask.link_of_slot hslot, pushSlot_self]
    exact congrArg g (update_self _ _ _)
  have hne : ∀ y ∈ L e, y ≠ T := fun y hy hyT => hT (hyT ▸ hy)
  refine ⟨t, ht, inserted_pushSlot hu, ?_, ?_, ?_⟩
  · intro e'
    by_cases he : e' = e
    · subst he
      rw [update_self, hhead, htail]
      refine (h.queue e').append hT ?_ ?_ ?_ ?_
      · rw [hnext, hnew, if_neg fun hc => hT ((h.queue e').tail_mem hc.1)]
      · rw [hprev, hnew]
      · intro y hy
        rw [hnext, (pushSlot_sameSlot (.inl (hne y hy))).link]
        simp only [and_true]
      · intro y hy
        rw [hprev, (pushSlot_sameSlot (.inl (hne y hy))).link]
    · rw [update_of_ne he, hevent e' he]
      refine (h.queue e').congr ?_ ?_
      · intro y _
        rw [hnext, if_neg (fun hc => he hc.2), (pushSlot_sameSlot (.inr he)).link]
      · intro y _
        rw [hprev, (pushSlot_sameSlot (.inr he)).link]
  · intro e' T' hm
    rw [hu.slot]
    by_cases hT' : T' = T ∧ e' = e
    · rw [hT'.1, hT'.2]
      exact ⟨_, hslot⟩
    · rw [(pushSlot_sameSlot (not_and_or.mp hT')).1]
      refine h.slot e' T' ?_
      by_cases he : e' = e
      · subst he
        rw [update_self] at hm
        refine (List.mem_append.mp hm).resolve_right fun hT'' => hT' ⟨?_, rfl⟩
        exact List.mem_singleton.mp hT''
      · rwa [update_of_ne he] at hm
  · intro T'
    exact WaitTask.distinct_congr (pushSlot_distinct h.distinct hfree T') (hu.count T')
      (hu.object T')

/-! ## Leaving the queues -/

/-- The lists after the task left those of the events in `os`, but for
`own`. -/
def leave (own : Option ε) (T : τ) (os : List (Option ε)) (L : ε → List τ) (e : ε) : List τ :=
  if some e ∈ os ∧ some e ≠ own then (L e).erase T else L e

theorem leave_skip {own o : Option ε} {os : List (Option ε)} (ho : o = none ∨ o = own) :
    leave own T (o :: os) L = leave own T os L := by
  funext e
  unfold leave
  grind

theorem leave_cons {own : Option ε} {os : List (Option ε)} (he : some e ≠ own) (hos : some e ∉ os) :
    leave own T os (update L e ((L e).erase T)) = leave own T (some e :: os) L := by
  funext e'
  unfold leave
  by_cases h : e' = e
  · subst h
    simp [hos, he]
  · simp [h]

/-- **The task leaves the queues of its slots**, unless one of their locks
is held. -/
theorem excludeSlots_spec (own : Option ε) (T : τ) : ∀ (is : List ℕ) {s : EventState τ ε}
    {L : ε → List τ}, Lists s L → is.Nodup → (∀ i ∈ is, i < (s.task T).waitEventCount) →
    (∀ i ∈ is, ∀ e, ((s.task T).infos i).object = some e → some e ≠ own → T ∈ L e) →
    (∃ t, is.foldlM (excludeSlot own T) s = some t ∧ SameWaits s t ∧
      Lists t (leave own T (is.map fun i => ((s.task T).infos i).object) L)) ∨
    is.foldlM (excludeSlot own T) s = none ∧ ∃ e, (s.event e).locked = true := by
  intro is
  induction is with
  | nil =>
    intro s L h _ _ _
    refine .inl ⟨s, rfl, SameWaits.refl s, ?_⟩
    have : leave own T [] L = L := by
      funext e
      simp [leave]
    exact this.symm ▸ h
  | cons i is ih =>
    intro s L h hnd hlt hfull
    obtain ⟨hi, hnd⟩ := List.nodup_cons.mp hnd
    have hlt' : ∀ j ∈ is, j < (s.task T).waitEventCount :=
      fun j hj => hlt j (List.mem_cons_of_mem i hj)
    rw [List.foldlM_cons, List.map_cons]
    by_cases ho : ((s.task T).infos i).object = none ∨ ((s.task T).infos i).object = own
    · have hskip : excludeSlot own T s i = some s := by
        unfold excludeSlot
        rcases ho with ho | ho
        · rw [ho]
        · cases hob : ((s.task T).infos i).object with
          | none => rfl
          | some e => simp [← ho, hob]
      rw [hskip, leave_skip ho]
      exact ih h hnd hlt' fun j hj => hfull j (List.mem_cons_of_mem i hj)
    · obtain ⟨hne, hown⟩ := not_or.mp ho
      obtain ⟨e, he⟩ := Option.ne_none_iff_exists'.mp hne
      rw [he] at hown
      by_cases hl : (s.event e).locked = true
      · refine .inr ⟨?_, e, hl⟩
        simp [excludeSlot, he, hown, hl]
      · have hs : (s.task T).slot e = some i :=
          WaitTask.slot_eq (h.distinct T) (hlt i List.mem_cons_self) he
        obtain ⟨u, hu, hsu, hLu⟩ := excludeEventFromTask_spec h
          (hfull i List.mem_cons_self e he hown) hs
        have hstep : excludeSlot own T s i = some u := by
          simp [excludeSlot, he, hown, hl, hu]
        have hos : some e ∉ is.map fun j => ((s.task T).infos j).object := by
          intro hm
          obtain ⟨j, hj, hje⟩ := List.mem_map.mp hm
          have := h.distinct T j i e (hlt' j hj) (hlt i List.mem_cons_self) hje he
          exact hi (this ▸ hj)
        have hobj : (is.map fun j => ((u.task T).infos j).object) =
            is.map fun j => ((s.task T).infos j).object :=
          List.map_congr_left fun j _ => hsu.object T j
        have hrest := ih hLu hnd (fun j hj => by rw [hsu.count]; exact hlt' j hj) ?_
        · rw [hobj, leave_cons hown hos] at hrest
          rw [hstep, he]
          rcases hrest with ⟨t, ht, hst, hLt⟩ | ⟨hnone, e', he'⟩
          · exact .inl ⟨t, ht, hsu.trans hst, hLt⟩
          · exact .inr ⟨hnone, e', by rw [← hsu.locked]; exact he'⟩
        · intro j hj e' hje' hown'
          rw [hsu.object] at hje'
          have hee : e' ≠ e := by
            rintro rfl
            exact hos (List.mem_map.mpr ⟨j, hj, hje'⟩)
          rw [update_of_ne hee]
          exact hfull j (List.mem_cons_of_mem i hj) e' hje' hown'

/-- Every slot of the task stands for a place in a queue. -/
def Full (s : EventState τ ε) (L : ε → List τ) (T : τ) : Prop :=
  ∀ i e, i < (s.task T).waitEventCount → ((s.task T).infos i).object = some e → T ∈ L e

/-- The slots are all the queues the task is in. -/
theorem leave_slots (h : Lists s L) {own : Option ε} (e : ε) :
    leave own T ((List.range (s.task T).waitEventCount).map fun i =>
      ((s.task T).infos i).object) L e = if some e = own then L e else (L e).erase T := by
  unfold leave
  by_cases hT : T ∈ L e
  · obtain ⟨i, hi⟩ := h.slot e T hT
    obtain ⟨hlt, ho⟩ := WaitTask.slot_spec hi
    have hm : some e ∈ (List.range (s.task T).waitEventCount).map fun i =>
        ((s.task T).infos i).object := List.mem_map.mpr ⟨i, List.mem_range.mpr hlt, ho⟩
    simp only [hm, true_and, ite_not, ne_eq]
  · rw [List.erase_of_not_mem hT, ite_self, ite_self]

/-- The loop over all slots of the task. -/
theorem excludeAll_spec (h : Lists s L) (hfull : Full s L T) (own : Option ε) :
    (∃ t, (List.range (s.task T).waitEventCount).foldlM (excludeSlot own T) s = some t ∧
      SameWaits s t ∧ Lists t fun e => if some e = own then L e else (L e).erase T) ∨
    (List.range (s.task T).waitEventCount).foldlM (excludeSlot own T) s = none ∧
      ∃ e, (s.event e).locked = true := by
  have hspec := excludeSlots_spec own T _ h List.nodup_range
    (fun i hi => List.mem_range.mp hi)
    fun i hi e he _ => hfull i e (List.mem_range.mp hi) he
  rwa [funext (leave_slots h)] at hspec

/-- `excludeEventsFromTask` leaves the queues of the other events. -/
theorem excludeEventsFromTask_spec (h : Lists s L) (hfull : Full s L T)
    (hs : (s.task T).slot e = some i) :
    (∃ t, s.excludeEventsFromTask e T = some (t, i) ∧ SameWaits s t ∧
      Lists t fun e' => if e' = e then L e' else (L e').erase T) ∨
    s.excludeEventsFromTask e T = none ∧ ∃ e, (s.event e).locked = true := by
  obtain ⟨hlt, ho⟩ := WaitTask.slot_spec hs
  have hlast : ((List.range (s.task T).waitEventCount).filter fun idx =>
      ((s.task T).infos idx).object = some e).getLast? = some i := by
    have hm : ∀ j, j ∈ (List.range (s.task T).waitEventCount).filter (fun idx =>
        ((s.task T).infos idx).object = some e) ↔
        j < (s.task T).waitEventCount ∧ ((s.task T).infos j).object = some e := by
      intro j
      rw [List.mem_filter, List.mem_range, decide_eq_true_iff]
    cases hl : ((List.range (s.task T).waitEventCount).filter fun idx =>
        ((s.task T).infos idx).object = some e).getLast? with
    | none =>
      rw [List.getLast?_eq_none_iff] at hl
      have := (hm i).mpr ⟨hlt, ho⟩
      rw [hl] at this
      exact absurd this List.not_mem_nil
    | some j =>
      obtain ⟨hj, hoj⟩ := (hm j).mp (List.mem_of_mem_getLast? hl)
      rw [h.distinct T j i e hj hlt hoj ho]
  unfold excludeEventsFromTask
  rcases excludeAll_spec h hfull (some e) with ⟨t, ht, hst, hLt⟩ | ⟨hnone, hl⟩
  · refine .inl ⟨t, ?_, hst, ?_⟩
    · rw [ht, Option.bind_some, hlast]
      rfl
    · simpa only [Option.some.injEq] using hLt
  · refine .inr ⟨?_, hl⟩
    rw [hnone]
    rfl

/-! ## The head leaves -/

/-- **The head of a queue leaves it**: in `u` the head has moved on and the
slots of the task that leaves have changed; the end of `set` mends the
links. -/
theorem closeHead_spec {rest : List τ} (h : Lists s L) (hL : L e = T :: rest)
    (hother : ∀ T', T' ≠ T → u.task T' = s.task T')
    (hself : ∀ e', e' ≠ e → T ∈ L e' → (s.task T).SameSlot (u.task T) e')
    (hdistinct : (u.task T).Distinct) (hevent : ∀ e', e' ≠ e → u.event e' = s.event e')
    (hhead : (u.event e).head = rest.head?) (htail : (u.event e).tail = (s.event e).tail) :
    ∃ t, u.closeHead e = some t ∧ SameWaits u t ∧ Lists t (update L e rest) := by
  have hq := h.queue e
  rw [hL] at hq
  have hnd := List.nodup_cons.mp hq.nodup
  have hne : ∀ y ∈ rest, y ≠ T := fun y hy hyT => hnd.1 (hyT ▸ hy)
  obtain ⟨t, ht, hut, hevent', hheadt, htailt, hnext, hprev⟩ : ∃ t, u.closeHead e = some t ∧
      SameWaits u t ∧ (∀ e', e' ≠ e → t.event e' = u.event e') ∧
      (t.event e).head = rest.head? ∧
      (t.event e).tail = (if rest.head? = none then none else (u.event e).tail) ∧
      (∀ T' e', (t.task T').link next e' = (u.task T').link next e') ∧
      ∀ T' e', (t.task T').link prev e' = if rest.head? = some T' ∧ e' = e then none
        else (u.task T').link prev e' := by
    cases hr : rest.head? with
    | some n =>
      have hn : n ∈ rest := List.mem_of_mem_head? hr
      obtain ⟨j, hj⟩ := h.slot e n (hL ▸ List.mem_cons_of_mem T hn)
      rw [← hother n (hne n hn)] at hj
      obtain ⟨t, ht, hr'⟩ := setPrev_spec hj none
      refine ⟨t, ?_, hr'.same, fun e' _ => congrFun hr'.event e', ?_, ?_, hr'.next_eq, ?_⟩
      · unfold closeHead
        rw [hhead, hr]
        exact ht
      · rw [hr'.event, hhead, hr]
      · rw [hr'.event, if_neg (Option.some_ne_none n)]
      · intro T' e'
        rw [← ite_eq_ite_some]
        exact hr'.prev T' e'
    | none =>
      refine ⟨u.updateEvent e fun o => { o with tail := none }, ?_,
        .updateEvent rfl rfl rfl, fun e' he => updateEvent_of_ne he,
        ?_, ?_, fun _ _ => rfl, ?_⟩
      · unfold closeHead
        rw [hhead, hr]
      · rw [updateEvent_self]
        exact hhead.trans hr
      · rw [updateEvent_self, if_pos rfl]
      · intro T' e'
        rw [if_neg fun hc => Option.some_ne_none T' hc.1.symm]
        rfl
  have hsame : ∀ e', e' ≠ e → ∀ T' ∈ L e', (s.task T').SameSlot (u.task T') e' := by
    intro e' he T' hT'
    by_cases hTT : T' = T
    · subst hTT
      exact hself e' he hT'
    · rw [hother T' hTT]
      exact WaitTask.sameSlot_of_infos rfl rfl e'
  refine ⟨t, ht, hut, ?_, ?_, ?_⟩
  · intro e'
    by_cases he : e' = e
    · subst he
      have hrem : LinkedQueue (fun T' => (t.task T').link next e')
          (fun T' => (t.task T').link prev e') _ _ _ :=
        hq.remove (x := T) List.mem_cons_self ?_ ?_
      · rw [hq.prev_head, hq.next_head, if_pos rfl, List.erase_cons_head] at hrem
        rwa [update_self, hheadt, htailt, htail]
      · intro y hy hyT
        rw [hq.prev_head, if_neg (Option.some_ne_none y).symm, hnext, hother y hyT]
      · intro y hy hyT
        rw [hq.next_head, hq.prev_head, hprev, hother y hyT]
        simp only [and_true]
    · rw [update_of_ne he, hevent' e' he, hevent e' he]
      refine (h.queue e').congr ?_ ?_
      · intro y hy
        rw [hnext, (hsame e' he y hy).link]
      · intro y hy
        rw [hprev, if_neg fun hc => he hc.2, (hsame e' he y hy).link]
  · intro e' T' hm
    rw [hut.slot]
    by_cases he : e' = e
    · subst he
      rw [update_self] at hm
      rw [hother T' (hne T' hm)]
      exact h.slot e' T' (hL ▸ List.mem_cons_of_mem T hm)
    · rw [update_of_ne he] at hm
      rw [(hsame e' he T' hm).1]
      exact h.slot e' T' hm
  · intro T'
    refine WaitTask.distinct_congr ?_ (hut.count T') (hut.object T')
    by_cases hTT : T' = T
    · rwa [hTT]
    · rw [hother T' hTT]
      exact h.distinct T'

end EventState

end ShmDos64
