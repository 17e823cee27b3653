import ShmDos64.SpinLock.Queue
/-!
# The steps of the queued spin lock

Each access of `lock` and `unlock` keeps the invariant. The queue of a
lock grows at the exchange of `m_tail` and shrinks at the two places where
the lock is given up: the exchange of `m_tail` with null, and the store
that hands the lock over.
-/

namespace ShmDos64

open Function (update update_of_ne update_self)
open SpinState

variable {τ ι ε : Type*} [DecidableEq τ]

namespace SpinInv

variable {s : SpinState τ ι ε} {Q : ι → List (τ × ε)} {own : ε → Option (τ ⊕ ι)}
variable {t : τ} {q : SpinPc ι ε} {l : ι} {e cur p : ε}

/-! ## Steps on memory of the context's own -/

/-- The context goes on, and nothing else happens. -/
theorem goto (h : SpinInv s Q own) (hw : ∀ l, ¬ (s.pc t).Waits l ∧ ¬ q.Waits l)
    (hq : s.PcOk Q own t q) : SpinInv (s.goto t q) Q own :=
  h.move_private rfl rfl rfl rfl rfl rfl h.used (fun _ _ ho _ => ⟨ho, rfl, rfl⟩) hw
    (h.pcOk_congr hq (fun _ ho => ⟨ho, rfl, rfl⟩) (fun _ _ _ _ => rfl) fun _ _ =>
      ⟨rfl, rfl, List.prefix_rfl⟩)

variable [DecidableEq ε]

/-- `allocSpinEntry` finds an entry that is not in use. -/
theorem alloc (h : SpinInv s Q own) (hpc : s.pc t = .alloc l) (hu : s.use e = false) :
    SpinInv { s.goto t (.storeNext l e) with use := update s.use e true } Q
      (update own e (some (.inl t))) := by
  have hfree : own e = none := by
    by_contra ho
    rw [h.used e ho] at hu
    cases hu
  refine h.move_private rfl rfl rfl rfl rfl rfl (fun e' he' => ?_) (fun e' o ho _ => ?_)
    (fun l' => ?_) (update_self ..)
  · rcases eq_or_ne e' e with rfl | hne
    · exact update_self ..
    · rw [update_of_ne hne] at he'
      exact (update_of_ne hne ..).trans (h.used e' he')
  · have hne : e' ≠ e := by
      rintro rfl
      rw [hfree] at ho
      cases ho
    exact ⟨(update_of_ne hne ..).trans ho, rfl, rfl⟩
  · rw [hpc]
    exact ⟨id, id⟩

theorem storeNext (h : SpinInv s Q own) (hpc : s.pc t = .storeNext l e) :
    SpinInv { s.goto t (.storeState l e) with next := update s.next e none } Q own := by
  have ho : own e = some (.inl t) := h.pcOk_of hpc
  refine h.move_private rfl rfl rfl rfl rfl rfl h.used (fun e' o ho' hne => ?_) (fun l' => ?_)
    ⟨ho, update_self ..⟩
  · refine ⟨ho', update_of_ne ?_ .., rfl⟩
    rintro rfl
    exact hne (Option.some.inj (ho'.symm.trans ho))
  · rw [hpc]
    exact ⟨id, id⟩

theorem storeState (h : SpinInv s Q own) (hpc : s.pc t = .storeState l e) :
    SpinInv { s.goto t (.exchange l e) with state := update s.state e true } Q own := by
  have ho : own e = some (.inl t) ∧ s.next e = none := h.pcOk_of hpc
  refine h.move_private rfl rfl rfl rfl rfl rfl h.used (fun e' o ho' hne => ?_) (fun l' => ?_)
    ⟨ho.1, ho.2, update_self ..⟩
  · refine ⟨ho', rfl, update_of_ne ?_ ..⟩
    rintro rfl
    exact hne (Option.some.inj (ho'.symm.trans ho.1))
  · rw [hpc]
    exact ⟨id, id⟩

/-- `freeSpinEntry`. -/
theorem release (h : SpinInv s Q own) (hpc : s.pc t = .release l e) :
    SpinInv { s.goto t .idle with use := update s.use e false } Q (update own e none) := by
  have ho : own e = some (.inl t) := h.pcOk_of hpc
  refine h.move_private rfl rfl rfl rfl rfl rfl (fun e' he' => ?_) (fun e' o ho' hne => ?_)
    (fun l' => ?_) trivial
  · rcases eq_or_ne e' e with rfl | hee
    · rw [update_self] at he'
      exact absurd rfl he'
    · rw [update_of_ne hee] at he'
      exact (update_of_ne hee ..).trans (h.used e' he')
  · refine ⟨(update_of_ne ?_ ..).trans ho', rfl, rfl⟩
    rintro rfl
    exact hne (Option.some.inj (ho'.symm.trans ho))
  · rw [hpc]
    exact ⟨id, id⟩

/-! ## Waiting -/

/-- The link that is set is that of the entry before the context's own. -/
theorem behind_link {x y : τ × ε} {r l₁ l₂ : List (τ × ε)} (h : s.Behind l y r)
    (hr : y :: r = l₁ ++ (x.1, cur) :: (t, e) :: l₂) (hnd : ((y :: r).map Prod.snd).Nodup)
    (hpc : s.pc t = .link l e cur) :
    Behind { s.goto t (.spin l e) with next := update s.next cur (some e) } l y r := by
  -- a context behind the linked pair is another one: its entry is another
  have hother : ∀ z : τ × ε, z.2 ≠ e →
      ((∃ c, s.pc z.1 = .link l z.2 c) ∨ s.pc z.1 = .spin l z.2) →
      update s.pc t (.spin l e) z.1 = s.pc z.1 := by
    rintro ⟨t', e'⟩ hne hz
    refine update_of_ne ?_ ..
    rintro rfl
    rcases hz with ⟨c, hz⟩ | hz
    · exact hne (SpinPc.link.inj (hz.symm.trans hpc)).2.1
    · cases hz.symm.trans hpc
  induction r generalizing y l₁ with
  | nil =>
    have hlen := congrArg List.length hr
    simp only [List.length_cons, List.length_nil, List.length_append] at hlen
    omega
  | cons z r ih =>
    obtain ⟨hyz, hst, hb⟩ := h
    obtain ⟨hy, hnd'⟩ := List.nodup_cons.mp hnd
    cases l₁ with
    | nil =>
      obtain ⟨rfl, hzr⟩ := List.cons.inj hr
      obtain ⟨rfl, rfl⟩ := List.cons.inj hzr
      refine ⟨Or.inr ⟨update_self .., update_self ..⟩, hst,
        hb.congr (fun w hw => update_of_ne ?_ ..) (fun _ _ => rfl) fun w hw => ?_⟩
      · exact fun hwe => hy (List.mem_map.mpr ⟨w, hw, hwe⟩)
      · refine hother w (fun hwe => ?_) (hb.pc_of_mem hw).1
        exact (List.nodup_cons.mp hnd').1 (List.mem_map.mpr ⟨w, hw, hwe⟩)
    | cons w l₁ =>
      obtain ⟨rfl, hzr⟩ := List.cons.inj hr
      have hcur : y.2 ≠ cur := by
        rintro rfl
        refine hy ?_
        rw [hzr]
        simp
      refine ⟨?_, hst, ih hb hzr hnd'⟩
      have hz : update s.pc t (.spin l e) z.1 = s.pc z.1 := by
        refine update_of_ne ?_ ..
        rintro hzt
        rcases hyz with ⟨-, hz⟩ | ⟨-, hz⟩ <;> rw [hzt, hpc] at hz
        · exact hcur (SpinPc.link.inj hz).2.2.symm
        · cases hz
      change ((update s.next cur (some e) y.2 = none ∧ update s.pc t (.spin l e) z.1 = _) ∨
        update s.next cur (some e) y.2 = _ ∧ update s.pc t (.spin l e) z.1 = _)
      rw [update_of_ne hcur, hz]
      exact hyz

theorem link (h : SpinInv s Q own) (hpc : s.pc t = .link l e cur) :
    SpinInv { s.goto t (.spin l e) with next := update s.next cur (some e) } Q own := by
  obtain ⟨l₁, x, l₂, hQ⟩ : ∃ l₁ x l₂, Q l = l₁ ++ (x, cur) :: (t, e) :: l₂ := h.pcOk_of hpc
  have hcur : own cur = some (.inr l) := h.queued l (x, cur) (by rw [hQ]; simp)
  obtain ⟨y, r, hyr⟩ : ∃ y r, Q l = y :: r :=
    List.exists_cons_of_ne_nil (by rw [hQ]; simp)
  have hqueue := h.queue l
  have hnd := h.nodup l
  rw [hyr] at hqueue hnd
  obtain ⟨hf, hb⟩ := hqueue
  -- before the step the entry in front has no link
  have hnone : s.next cur = none := by
    rcases hb.pair (hyr.symm.trans hQ) with hpair | hpair
    · exact hpair.1
    · cases hpair.2.symm.trans hpc
  refine h.move rfl rfl rfl rfl rfl rfl h.used (fun _ _ ho => ho) (fun t' _ e' ho => ?_)
    (fun l' e' _ hne => update_of_ne ?_ ..) (fun l' => ?_) ?_
  · refine ⟨ho, update_of_ne ?_ .., rfl⟩
    rintro rfl
    rw [hcur] at ho
    cases ho
  · rintro rfl
    exact hne hnone
  · rcases eq_or_ne l' l with rfl | hl
    · rw [hyr]
      refine ⟨?_, behind_link (x := (x, cur)) hb (hyr.symm.trans hQ) hnd hpc⟩
      change ((update s.pc t _ y.1 = _ ∨ update s.pc t _ y.1 = _ ∧ _) ∧ _) ∨
        (_ ∧ _ ∧ update s.pc t _ y.1 ≠ _)
      by_cases hyt : y.1 = t
      · -- the front is the same context: it has the lock already
        rw [hyt, update_self]
        have hmem : (t, e) ∈ r := by
          have hr := hyr.symm.trans hQ
          cases l₁ with
          | nil | cons z l₁ => rw [(List.cons.inj hr).2]; simp
        have hye : y.2 ≠ e := fun hye =>
          (List.nodup_cons.mp hnd).1 (List.mem_map.mpr ⟨(t, e), hmem, hye.symm⟩)
        rcases hf with ⟨hf, -⟩ | ⟨hlast, hiff, -⟩
        · rw [hyt, hpc] at hf
          rcases hf with hf | ⟨hf, -⟩ <;> cases hf
        · rw [← hyt]
          exact Or.inr ⟨hlast, hiff, fun heq => hye (SpinPc.spin.inj heq).2.symm⟩
      · rw [update_of_ne hyt]
        exact hf
    · refine h.queue_same rfl rfl rfl (fun e' ho => update_of_ne ?_ ..) (fun _ _ => rfl)
        (by rw [hpc]; exact hl.symm) hl.symm
      rintro rfl
      exact hl (Sum.inr.inj (Option.some.inj (ho.symm.trans hcur)))
  · change (t, e) ∈ Q l
    rw [hQ]
    simp

omit [DecidableEq ε] in
theorem spin (h : SpinInv s Q own) (hpc : s.pc t = .spin l e) (hst : s.state e = false) :
    SpinInv (s.goto t (.storeLast l e)) Q own := by
  obtain ⟨r, hr, hb, hno⟩ := h.front_of_state hpc hst
  have hnd := h.nodup l
  rw [hr] at hnd
  refine h.move rfl rfl rfl rfl rfl rfl h.used (fun _ _ ho => ho) (fun t' _ e' ho => ⟨ho, rfl, rfl⟩)
    (fun _ _ _ _ => rfl) (fun l' => ?_) ⟨⟨r, hr⟩, hno⟩
  rcases eq_or_ne l' l with rfl | hl
  · rw [hr]
    refine ⟨Or.inl ⟨Or.inl (update_self ..), hno⟩,
      hb.congr (fun _ _ => rfl) (fun _ _ => rfl) fun y hy => update_of_ne ?_ ..⟩
    rintro rfl
    -- a context behind the front has another entry
    rcases (hb.pc_of_mem hy).1 with ⟨cur, hy'⟩ | hy'
    · cases hy'.symm.trans hpc
    · have hye : y.2 = e := (SpinPc.spin.inj (hy'.symm.trans hpc)).2
      exact (List.nodup_cons.mp hnd).1 (List.mem_map.mpr ⟨y, hy, hye⟩)
  · exact h.queue_same rfl rfl rfl (fun _ _ => rfl) (fun _ _ => rfl)
      (by rw [hpc]; exact hl.symm) hl.symm

/-! ## Joining the queue -/

variable {r : List (τ × ε)}

omit [DecidableEq τ] [DecidableEq ε] in
/-- A new last member, which is about to link its entry. -/
theorem behind_concat {s' : SpinState τ ι ε} {x y z : τ × ε} (h : s.Behind l x r)
    (hz : z ∈ (x :: r).getLast?) (hn : s'.next = s.next) (hst : s'.state = s.state)
    (hp : ∀ w ∈ r, s'.pc w.1 = s.pc w.1) (hy : s'.pc y.1 = .link l y.2 z.2)
    (hny : s.next y.2 = none) (hsy : s.state y.2 = true) : s'.Behind l x (r ++ [y]) := by
  induction r generalizing x with
  | nil =>
    obtain rfl : x = z := by simpa using hz
    refine ⟨Or.inl ⟨?_, hy⟩, ?_, ?_⟩
    · rw [hn]
      exact h
    · rw [hst]
      exact hsy
    · exact (congrFun hn y.2).trans hny
  | cons w r ih =>
    obtain ⟨hxw, hstw, hb⟩ := h
    refine ⟨?_, ?_, ih hb (by simpa using hz) fun v hv => hp v (List.mem_cons_of_mem w hv)⟩
    · rw [hn, hp w (by simp)]
      exact hxw
    · rw [hst]
      exact hstw

variable [DecidableEq ι]

omit [DecidableEq ε] in
/-- The queue after the exchange of `m_tail`. -/
theorem queueOk_exchange (h : SpinInv s Q own) (hpc : s.pc t = .exchange l e)
    (hne : s.next e = none) (hse : s.state e = true) :
    QueueOk { s.goto t (.exchanged l e (s.tail l)) with
      tail := update s.tail l (some e)
      arrivals := update s.arrivals l (s.arrivals l ++ [(t, e)]) } l (Q l ++ [(t, e)]) := by
  have hqueue := h.queue l
  have htail := h.tail l
  cases hQ : Q l with
  | nil =>
    rw [hQ] at hqueue htail
    rw [htail]
    exact ⟨Or.inl ⟨Or.inl (update_self ..), hqueue⟩, hne⟩
  | cons x r =>
    rw [hQ] at hqueue htail
    obtain ⟨hf, hb⟩ := hqueue
    obtain ⟨z, hz⟩ : ∃ z, (x :: r).getLast? = some z :=
      ⟨_, List.getLast?_eq_getLast_of_ne_nil (List.cons_ne_nil x r)⟩
    rw [hz] at htail
    rw [htail]
    refine ⟨?_, behind_concat hb hz rfl rfl (fun w hw => update_of_ne ?_ ..)
      (update_self ..) hne hse⟩
    · change ((update s.pc t _ x.1 = _ ∨ update s.pc t _ x.1 = _ ∧ _) ∧ _) ∨
        (_ ∧ _ ∧ update s.pc t _ x.1 ≠ _)
      by_cases hx : x.1 = t
      · rw [hx, update_self]
        rcases hf with ⟨hf, -⟩ | ⟨hlast, hiff, -⟩
        · rw [hx, hpc] at hf
          rcases hf with hf | ⟨hf, -⟩ <;> cases hf
        · rw [← hx]
          exact Or.inr ⟨hlast, hiff, fun heq => by cases heq⟩
      · rw [update_of_ne hx]
        exact hf
    · rintro rfl
      rcases (hb.pc_of_mem hw).1 with ⟨cur, hw'⟩ | hw'
      all_goals cases hw'.symm.trans hpc

theorem exchange (h : SpinInv s Q own) (hpc : s.pc t = .exchange l e) :
    SpinInv { s.goto t (.exchanged l e (s.tail l)) with
      tail := update s.tail l (some e)
      arrivals := update s.arrivals l (s.arrivals l ++ [(t, e)]) }
      (update Q l (Q l ++ [(t, e)])) (update own e (some (.inr l))) := by
  obtain ⟨ho, hne, hse⟩ : own e = some (.inl t) ∧ s.next e = none ∧ s.state e = true :=
    h.pcOk_of hpc
  have hnot : ∀ l', ∀ x ∈ Q l', x.2 ≠ e := by
    rintro l' x hx rfl
    cases (h.queued l' x hx).symm.trans ho
  refine ⟨fun e' he' => ?_, fun l' x hx => ?_, fun l' => ?_, fun l' => ?_, fun l' => ?_,
    fun t' => ?_, fun l' => ?_⟩
  · rcases eq_or_ne e' e with rfl | hee
    · exact h.used e' (by rw [ho]; exact Option.some_ne_none _)
    · rw [update_of_ne hee] at he'
      exact h.used e' he'
  · rcases eq_or_ne l' l with rfl | hl
    · rw [update_self] at hx
      rcases List.mem_append.mp hx with hx | hx
      · rw [update_of_ne (hnot l' x hx)]
        exact h.queued l' x hx
      · rw [List.mem_singleton.mp hx, update_self]
    · rw [update_of_ne hl] at hx
      rw [update_of_ne (hnot l' x hx)]
      exact h.queued l' x hx
  · rcases eq_or_ne l' l with rfl | hl
    · rw [update_self, List.map_append]
      refine List.nodup_append.mpr ⟨h.nodup l', List.nodup_singleton _, fun a ha b hb => ?_⟩
      obtain ⟨x, hx, rfl⟩ := List.mem_map.mp ha
      rw [show b = e by simpa using hb]
      exact hnot l' x hx
    · rw [update_of_ne hl]
      exact h.nodup l'
  · change update s.tail l (some e) l' = _
    rcases eq_or_ne l' l with rfl | hl
    · simp
    · rw [update_of_ne hl, update_of_ne hl]
      exact h.tail l'
  · rcases eq_or_ne l' l with rfl | hl
    · rw [update_self]
      exact h.queueOk_exchange hpc hne hse
    · rw [update_of_ne hl]
      refine h.queue_same rfl rfl rfl (fun _ _ => rfl) (fun _ _ => rfl) (by rw [hpc]; exact id) ?_
      cases s.tail l with
      | none | some cur => exact hl.symm
  · change PcOk _ _ _ t' (update s.pc t _ t')
    rcases eq_or_ne t' t with rfl | ht
    · rw [update_self]
      have htail := h.tail l
      have hqueue := h.queue l
      cases hQ : Q l with
      | nil =>
        rw [hQ] at htail hqueue
        rw [htail]
        exact ⟨⟨[], by rw [update_self]; rfl⟩, hqueue⟩
      | cons x r =>
        obtain ⟨l₁, z, hz⟩ : ∃ l₁ z, x :: r = l₁ ++ [z] :=
          ⟨_, _, (List.dropLast_append_getLast (List.cons_ne_nil x r)).symm⟩
        rw [hQ, hz, List.getLast?_concat] at htail
        rw [htail]
        refine ⟨l₁, z.1, [], ?_⟩
        rw [update_self, hz, List.append_assoc]
        rfl
    · rw [update_of_ne ht]
      refine h.pcOk_congr (h.pc t') (fun e' he' => ⟨(update_of_ne ?_ ..).trans he', rfl, rfl⟩)
        (fun _ _ _ _ => rfl) fun l' _ => ⟨rfl, rfl, ?_⟩
      · rintro rfl
        exact ht (Sum.inl.inj (Option.some.inj (he'.symm.trans ho)))
      · rcases eq_or_ne l' l with rfl | hl
        · rw [update_self]
          exact List.prefix_append ..
        · rw [update_of_ne hl]
  · obtain ⟨done, harr, hacq⟩ := h.order l'
    refine ⟨done, ?_, ?_⟩
    · change update s.arrivals l _ l' = _
      rcases eq_or_ne l' l with rfl | hl
      · rw [update_self, update_self, harr, List.append_assoc]
      · rw [update_of_ne hl, update_of_ne hl, harr]
    · refine hacq.imp_right ?_
      rintro ⟨x, r, hx, hh, ha⟩
      rcases eq_or_ne l' l with rfl | hl
      · exact ⟨x, r ++ [(t, e)], by rw [update_self, hx]; rfl, hh, ha⟩
      · exact ⟨x, r, by rw [update_of_ne hl, hx], hh, ha⟩

/-! ## Obtaining the lock -/

omit [DecidableEq ε] in
theorem storeLast (h : SpinInv s Q own) (hpc : s.pc t = .storeLast l e) :
    SpinInv { s.goto t .idle with
      last := update s.last l (some e)
      holds := update s.holds l (update (s.holds l) t true)
      acquired := update s.acquired l (s.acquired l ++ [(t, e)]) } Q own := by
  obtain ⟨⟨r, hr⟩, hno⟩ : (∃ r, Q l = (t, e) :: r) ∧ ∀ t', s.holds l t' = false := h.pcOk_of hpc
  have hqueue := h.queue l
  rw [hr] at hqueue
  refine ⟨h.used, h.queued, h.nodup, h.tail, fun l' => ?_, fun t' => ?_, fun l' => ?_⟩
  · rcases eq_or_ne l' l with rfl | hl
    · rw [hr]
      refine ⟨Or.inr ⟨update_self .., fun t' => ?_, ?_⟩,
        hqueue.2.congr (fun _ _ => rfl) (fun _ _ => rfl) fun y hy => update_of_ne ?_ ..⟩
      · change update s.holds l' (update (s.holds l') t true) l' t' = true ↔ t' = t
        rw [update_self]
        rcases eq_or_ne t' t with rfl | ht
        · simp
        · rw [update_of_ne ht, hno]
          simp [ht]
      · change update s.pc t .idle t ≠ _
        rw [update_self]
        exact fun heq => by cases heq
      · rintro rfl
        rcases (hqueue.2.pc_of_mem hy).1 with ⟨cur, hy'⟩ | hy'
        all_goals cases hy'.symm.trans hpc
    · exact h.queue_same rfl (update_of_ne hl ..) (update_of_ne hl ..)
        (fun _ _ => rfl) (fun _ _ => rfl) (by rw [hpc]; exact hl.symm) id
  · change PcOk _ _ _ t' (update s.pc t _ t')
    rcases eq_or_ne t' t with rfl | ht
    · rw [update_self]
      trivial
    · rw [update_of_ne ht]
      by_cases hat : (s.pc t').At l
      · have hpc' := h.pc t'
        rcases h.pc_of_at hr ht hat with ⟨e', cur, hlk⟩ | ⟨e', hsp⟩
        · rw [hlk] at hpc' ⊢
          exact hpc'
        · rw [hsp] at hpc' ⊢
          exact hpc'
      · refine h.pcOk_congr (h.pc t') (fun _ he' => ⟨he', rfl, rfl⟩) (fun _ _ _ _ => rfl)
          fun l' hl' => ?_
        have hl : l' ≠ l := by
          rintro rfl
          exact hat hl'
        exact ⟨update_of_ne hl .., update_of_ne hl .., List.prefix_rfl⟩
  · obtain ⟨done, harr, hacq⟩ := h.order l'
    refine ⟨done, harr, ?_⟩
    change (∀ t', update s.holds l _ l' t' = false) ∧ update s.acquired l _ l' = _ ∨
      ∃ (x : τ × ε) (r : List (τ × ε)), _ ∧ update s.holds l _ l' x.1 = true ∧
        update s.acquired l _ l' = _
    rcases eq_or_ne l' l with rfl | hl
    · rw [update_self, update_self]
      rcases hacq with ⟨-, hacq⟩ | ⟨x, r', -, hh, -⟩
      · exact Or.inr ⟨(t, e), r, hr, update_self .., by rw [hacq]⟩
      · cases (hno x.1).symm.trans hh
    · rw [update_of_ne hl, update_of_ne hl]
      exact hacq

/-! ## Giving the lock up -/

omit [DecidableEq ε] in
/-- No holder is left when the front has left. -/
theorem holds_leave (h : SpinInv s Q own) (hQ : Q l = (t, e) :: r) (t' : τ) :
    update s.holds l (update (s.holds l) t false) l t' = false := by
  rw [update_self]
  rcases eq_or_ne t' t with rfl | ht
  · rw [update_self]
  · rw [update_of_ne ht]
    by_contra hh
    obtain ⟨e', r', hq, -⟩ := (h.queue l).of_holds (Bool.eq_true_of_not_eq_false hh)
    exact ht (Prod.mk.inj (List.cons.inj (hq.symm.trans hQ)).1).1

/-- **The front leaves the queue** and takes its entry with it. -/
theorem leave {s' : SpinState τ ι ε} (h : SpinInv s Q own)
    (hpc : ¬ (s.pc t).Waits l ∧ ∀ l', (s.pc t).Waits l' → l' = l) (hQ : Q l = (t, e) :: r)
    (hheld : s.holds l t = true) (hpc' : s'.pc = update s.pc t (.release l e))
    (huse : s'.use = s.use) (hnext : s'.next = s.next) (hlast : s'.last = s.last)
    (hholds : s'.holds = update s.holds l (update (s.holds l) t false))
    (harr : s'.arrivals = s.arrivals) (hacq : s'.acquired = s.acquired)
    (hstate : ∀ e, own e ≠ some (.inr l) → s'.state e = s.state e)
    (htail : ∀ l', s'.tail l' = (update Q l r l').getLast?.map Prod.snd)
    (hqueue : s'.QueueOk l r)
    (hwait : ∀ t', t' ≠ t → (s.pc t').At l → s'.PcOk (update Q l r) (update own e (some (.inl t)))
      t' (s.pc t')) :
    SpinInv s' (update Q l r) (update own e (some (.inl t))) := by
  have ho : own e = some (.inr l) := h.queued l (t, e) (by rw [hQ]; simp)
  have hnd := h.nodup l
  rw [hQ] at hnd
  have hnot : ∀ l', ∀ x ∈ update Q l r l', x ∈ Q l' ∧ x.2 ≠ e := by
    intro l' x hx
    rcases eq_or_ne l' l with rfl | hl
    · rw [update_self] at hx
      refine ⟨by rw [hQ]; simp [hx], fun hxe => ?_⟩
      exact (List.nodup_cons.mp hnd).1 (List.mem_map.mpr ⟨x, hx, hxe⟩)
    · rw [update_of_ne hl] at hx
      refine ⟨hx, ?_⟩
      rintro rfl
      exact hl (Sum.inr.inj (Option.some.inj ((h.queued l' x hx).symm.trans ho)))
  refine ⟨fun e' he' => ?_, fun l' x hx => ?_, fun l' => ?_, htail, fun l' => ?_, fun t' => ?_,
    fun l' => ?_⟩
  · rw [huse]
    rcases eq_or_ne e' e with rfl | hee
    · exact h.used e' (by rw [ho]; exact Option.some_ne_none _)
    · rw [update_of_ne hee] at he'
      exact h.used e' he'
  · obtain ⟨hx, hxe⟩ := hnot l' x hx
    rw [update_of_ne hxe]
    exact h.queued l' x hx
  · rcases eq_or_ne l' l with rfl | hl
    · rw [update_self]
      exact (List.nodup_cons.mp hnd).2
    · rw [update_of_ne hl]
      exact h.nodup l'
  · rcases eq_or_ne l' l with rfl | hl
    · rw [update_self]
      exact hqueue
    · rw [update_of_ne hl]
      refine h.queue_same hpc' (congrFun hlast l') ?_ (fun e' _ => congrFun hnext e')
        (fun e' he' => hstate e' ?_) (fun hw => hl (hpc.2 l' hw)) id
      · rw [hholds, update_of_ne hl]
      · rw [he']
        exact fun heq => hl (Sum.inr.inj (Option.some.inj heq))
  · rw [hpc']
    rcases eq_or_ne t' t with rfl | ht
    · rw [update_self]
      exact update_self ..
    · rw [update_of_ne ht]
      by_cases hat : (s.pc t').At l
      · exact hwait t' ht hat
      · refine h.pcOk_congr (h.pc t') (fun e' he' => ⟨?_, congrFun hnext e', hstate e' ?_⟩)
          (fun _ e' _ _ => congrFun hnext e') fun l' hl' => ?_
        · rw [update_of_ne, he']
          rintro rfl
          cases ho.symm.trans he'
        · rw [he']
          exact fun heq => by cases heq
        · have hl : l' ≠ l := by
            rintro rfl
            exact hat hl'
          rw [hholds, hlast, update_of_ne hl, update_of_ne hl]
          exact ⟨rfl, rfl, List.prefix_rfl⟩
  · obtain ⟨done, harr', hacq'⟩ := h.order l'
    rw [harr, hacq, hholds]
    rcases eq_or_ne l' l with rfl | hl
    · refine ⟨done ++ [(t, e)], ?_, Or.inl ⟨h.holds_leave hQ, ?_⟩⟩
      · rw [update_self, harr', hQ, List.append_assoc]
        rfl
      · rcases hacq' with ⟨hno, -⟩ | ⟨x, r', hx, -, hacq'⟩
        · cases (hno t).symm.trans hheld
        · rw [hacq', (List.cons.inj (hx.symm.trans hQ)).1]
    · rw [update_of_ne hl, update_of_ne hl]
      exact ⟨done, harr', hacq'⟩

/-- `m_tail` is exchanged with null. -/
theorem casTail (h : SpinInv s Q own) (hpc : s.pc t = .casTail l e) (htail : s.tail l = some e) :
    SpinInv { s.goto t (.release l e) with
      tail := update s.tail l none
      holds := update s.holds l (update (s.holds l) t false) }
      (update Q l []) (update own e (some (.inl t))) := by
  obtain ⟨hheld, hlast⟩ : s.holds l t = true ∧ s.last l = some e := h.pcOk_of hpc
  obtain ⟨e', r, hQ, hlast', -⟩ := (h.queue l).of_holds hheld
  obtain rfl : e = e' := Option.some.inj (hlast.symm.trans hlast')
  -- the front is the last: the queue has no other member
  obtain rfl : r = [] := by
    have hnd := h.nodup l
    have htl := h.tail l
    rw [hQ] at hnd htl
    by_contra hr
    rw [htail, List.getLast?_cons_of_ne_nil hr, List.getLast?_eq_getLast_of_ne_nil hr] at htl
    exact (List.nodup_cons.mp hnd).1
      (List.mem_map.mpr ⟨r.getLast hr, List.getLast_mem hr, (Option.some.inj htl).symm⟩)
  refine h.leave ?_ hQ hheld rfl rfl rfl rfl rfl rfl rfl (fun _ _ => rfl) (fun l' => ?_)
    (h.holds_leave hQ) fun t' ht hat => ?_
  · rw [hpc]
    exact ⟨id, fun _ hw => hw.elim⟩
  · change update s.tail l none l' = _
    rcases eq_or_ne l' l with rfl | hl
    · rw [update_self, update_self]
      rfl
    · rw [update_of_ne hl, update_of_ne hl]
      exact h.tail l'
  · have hpc' := h.pc t'
    rcases h.pc_of_at hQ ht hat with ⟨e', cur, hlk⟩ | ⟨e', hsp⟩
    · rw [hlk] at hpc'
      obtain ⟨l₁, x, l₂, hpc'⟩ := hpc'
      have hlen := congrArg List.length (hQ.symm.trans hpc')
      simp only [List.length_cons, List.length_nil, List.length_append] at hlen
      omega
    · rw [hsp] at hpc'
      have hmem : (t', e') ∈ Q l := hpc'
      rw [hQ, List.mem_singleton] at hmem
      exact absurd (Prod.mk.inj hmem).1 ht

/-- The lock is handed over to the next entry. -/
theorem handOver (h : SpinInv s Q own) (hpc : s.pc t = .handOver l e p) :
    ∃ r, SpinInv { s.goto t (.release l e) with
      state := update s.state p false
      holds := update s.holds l (update (s.holds l) t false) }
      (update Q l r) (update own e (some (.inl t))) := by
  obtain ⟨hheld, hlast, hnext⟩ : s.holds l t = true ∧ s.last l = some e ∧ s.next e = some p :=
    h.pcOk_of hpc
  obtain ⟨e', r, hQ, hlast', hb⟩ := (h.queue l).of_holds hheld
  obtain rfl : e = e' := Option.some.inj (hlast.symm.trans hlast')
  have hnd := h.nodup l
  have htl := h.tail l
  rw [hQ] at hnd htl
  cases r with
  | nil => cases (show s.next e = none from hb).symm.trans hnext
  | cons y r =>
    obtain ⟨hpair, -, hb'⟩ := hb
    obtain ⟨hyp, hy⟩ : y.2 = p ∧ s.pc y.1 = .spin l y.2 := by
      rcases hpair with ⟨hn, -⟩ | ⟨hn, hy⟩
      · cases hn.symm.trans hnext
      · exact ⟨Option.some.inj (hn.symm.trans hnext), hy⟩
    have hwaits : ∀ z : τ × ε, (s.pc z.1).Waits l → z.1 ≠ t := by
      rintro z hz hzt
      rw [hzt, hpc] at hz
      exact hz
    refine ⟨y :: r, h.leave ?_ hQ hheld rfl rfl rfl rfl rfl rfl rfl
      (fun e' he' => update_of_ne ?_ ..) (fun l' => ?_) ⟨?_, ?_⟩ fun t' ht hat => ?_⟩
    · rw [hpc]
      exact ⟨id, fun _ hw => hw.elim⟩
    · rintro rfl
      exact he' (hyp ▸ h.queued l y (by rw [hQ]; simp))
    · change s.tail l' = _
      rcases eq_or_ne l' l with rfl | hl
      · rw [update_self, htl, List.getLast?_cons_cons]
      · rw [update_of_ne hl]
        exact h.tail l'
    · refine Or.inl ⟨Or.inr ⟨?_, ?_⟩, h.holds_leave hQ⟩
      · exact (update_of_ne (hwaits y (by rw [hy]; rfl)) ..).trans hy
      · change update s.state p false y.2 = false
        rw [hyp, update_self]
    · refine hb'.congr (fun _ _ => rfl) (fun z hz => update_of_ne ?_ ..)
        fun z hz => update_of_ne (hwaits z ?_) ..
      · rintro hzp
        exact (List.nodup_cons.mp (List.nodup_cons.mp hnd).2).1
          (List.mem_map.mpr ⟨z, hz, hzp.trans hyp.symm⟩)
      · rcases (hb'.pc_of_mem hz).1 with ⟨cur, hz'⟩ | hz'
        all_goals rw [hz']; rfl
    · have hpc' := h.pc t'
      rcases h.pc_of_at hQ ht hat with ⟨e', cur, hlk⟩ | ⟨e', hsp⟩
      · rw [hlk] at hpc' ⊢
        obtain ⟨l₁, x, l₂, hpc'⟩ := hpc'
        rw [hQ] at hpc'
        cases l₁ with
        | nil =>
          -- the second member has linked its entry
          have hyt := (List.cons.inj (List.cons.inj hpc').2).1
          rw [hyt] at hy
          cases hy.symm.trans hlk
        | cons z l₁ =>
          exact ⟨l₁, x, l₂, (update_self ..).trans (List.cons.inj hpc').2⟩
      · rw [hsp] at hpc' ⊢
        have hmem : (t', e') ∈ Q l := hpc'
        change (t', e') ∈ update Q l (y :: r) l
        rw [update_self]
        rw [hQ] at hmem
        exact (List.mem_cons.mp hmem).resolve_left fun heq => ht (Prod.mk.inj heq).1

end SpinInv

end ShmDos64
