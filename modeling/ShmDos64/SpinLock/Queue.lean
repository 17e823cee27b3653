import ShmDos64.SpinLock.Model
/-!
# The queue of a spin lock

The contexts that have exchanged `m_tail` of a lock and not yet released
it form a queue: the first has the lock, or has been given it; each later
one is about to link its entry behind that of the one before it, or spins.
`own` says where every entry in use is: with a context that is about to
queue it or has taken it out, or in the queue of a lock.
-/

namespace ShmDos64

open Function (update update_of_ne update_self)

variable {τ ι ε : Type*}

/-- The context is in `lock`, past the exchange of `m_tail`. -/
def SpinPc.Waits (l : ι) : SpinPc ι ε → Prop
  | .link l' _ _ | .spin l' _ | .storeLast l' _ => l' = l
  | _ => False

/-- What is known of the context is about the queue of `l`. -/
def SpinPc.At (l : ι) : SpinPc ι ε → Prop
  | .link l' _ _ | .spin l' _ | .storeLast l' _ | .loadLast l' | .casTail l' _ | .loadNext l' _
  | .handOver l' _ _ => l' = l
  | _ => False

namespace SpinState

variable (s s' : SpinState τ ι ε)

/-- The part of the queue of `l` behind `x`. -/
def Behind (l : ι) : τ × ε → List (τ × ε) → Prop
  | x, [] => s.next x.2 = none
  | x, y :: r =>
    ((s.next x.2 = none ∧ s.pc y.1 = .link l y.2 x.2) ∨
      (s.next x.2 = some y.2 ∧ s.pc y.1 = .spin l y.2)) ∧
    s.state y.2 = true ∧ Behind l y r

/-- The front of the queue of `l` has the lock, or has been given it. -/
def Front (l : ι) (x : τ × ε) : Prop :=
  ((s.pc x.1 = .storeLast l x.2 ∨ s.pc x.1 = .spin l x.2 ∧ s.state x.2 = false) ∧
    ∀ t, s.holds l t = false) ∨
  (s.last l = some x.2 ∧ (∀ t, s.holds l t = true ↔ t = x.1) ∧ s.pc x.1 ≠ .spin l x.2)

/-- The queue of `l`. -/
def QueueOk (l : ι) : List (τ × ε) → Prop
  | [] => ∀ t, s.holds l t = false
  | x :: r => s.Front l x ∧ s.Behind l x r

/-- What is known of a context from where it is. -/
def PcOk (Q : ι → List (τ × ε)) (own : ε → Option (τ ⊕ ι)) (t : τ) : SpinPc ι ε → Prop
  | .idle | .alloc _ => True
  | .storeNext _ e | .release _ e => own e = some (.inl t)
  | .storeState _ e => own e = some (.inl t) ∧ s.next e = none
  | .exchange _ e => own e = some (.inl t) ∧ s.next e = none ∧ s.state e = true
  | .link l e cur => ∃ l₁ x l₂, Q l = l₁ ++ (x, cur) :: (t, e) :: l₂
  | .spin l e => (t, e) ∈ Q l
  | .storeLast l e => (∃ r, Q l = (t, e) :: r) ∧ ∀ t', s.holds l t' = false
  | .loadLast l => s.holds l t = true
  | .casTail l e => s.holds l t = true ∧ s.last l = some e
  | .loadNext l e => s.holds l t = true ∧ s.last l = some e ∧ ∃ y r, Q l = (t, e) :: y :: r
  | .handOver l e p => s.holds l t = true ∧ s.last l = some e ∧ s.next e = some p

end SpinState

open SpinState

/-- **The invariant.** -/
structure SpinInv (s : SpinState τ ι ε) (Q : ι → List (τ × ε)) (own : ε → Option (τ ⊕ ι)) :
    Prop where
  used : ∀ e, own e ≠ none → s.use e = true
  queued : ∀ l, ∀ x ∈ Q l, own x.2 = some (.inr l)
  nodup : ∀ l, ((Q l).map Prod.snd).Nodup
  tail : ∀ l, s.tail l = (Q l).getLast?.map Prod.snd
  queue : ∀ l, s.QueueOk l (Q l)
  pc : ∀ t, s.PcOk Q own t (s.pc t)
  /-- The contexts that have given the lock back came first, in order. -/
  order : ∀ l, ∃ done, s.arrivals l = done ++ Q l ∧
    ((∀ t, s.holds l t = false) ∧ s.acquired l = done ∨
      ∃ x r, Q l = x :: r ∧ s.holds l x.1 = true ∧ s.acquired l = done ++ [x])

theorem SpinInv.pcOk_of {s : SpinState τ ι ε} {Q : ι → List (τ × ε)} {own : ε → Option (τ ⊕ ι)}
    {t : τ} {q : SpinPc ι ε} (h : SpinInv s Q own) (hpc : s.pc t = q) : s.PcOk Q own t q :=
  hpc ▸ h.pc t

/-! ## What a queue reads -/

namespace SpinState

variable {s s' : SpinState τ ι ε} {l : ι} {x : τ × ε} {r : List (τ × ε)} {t : τ} {e : ε}

theorem Behind.congr (h : s.Behind l x r) (hn : ∀ y ∈ x :: r, s'.next y.2 = s.next y.2)
    (hs : ∀ y ∈ r, s'.state y.2 = s.state y.2) (hp : ∀ y ∈ r, s'.pc y.1 = s.pc y.1) :
    s'.Behind l x r := by
  induction r generalizing x with
  | nil => exact (hn x (by simp)).trans h
  | cons y r ih =>
    obtain ⟨hxy, hst, hr⟩ := h
    refine ⟨?_, (hs y (by simp)).trans hst, ih hr (fun z hz => hn z (List.mem_cons_of_mem x hz))
      (fun z hz => hs z (List.mem_cons_of_mem y hz)) fun z hz => hp z (List.mem_cons_of_mem y hz)⟩
    rw [hn x (by simp), hp y (by simp)]
    exact hxy

/-- A context behind the front is about to link its entry, or spins. -/
theorem Behind.pc_of_mem (h : s.Behind l x r) {y : τ × ε} (hy : y ∈ r) :
    ((∃ cur, s.pc y.1 = .link l y.2 cur) ∨ s.pc y.1 = .spin l y.2) ∧ s.state y.2 = true := by
  induction r generalizing x with
  | nil => cases hy
  | cons z r ih =>
    obtain ⟨hxz, hst, hr⟩ := h
    rcases List.mem_cons.mp hy with rfl | hy
    · exact ⟨hxz.imp (fun h => ⟨_, h.2⟩) fun h => h.2, hst⟩
    · exact ih hr hy

/-- Two entries of a queue one behind the other. -/
theorem Behind.pair (h : s.Behind l x r) {l₁ l₂ : List (τ × ε)} {y z : τ × ε}
    (hr : x :: r = l₁ ++ y :: z :: l₂) : (s.next y.2 = none ∧ s.pc z.1 = .link l z.2 y.2) ∨
      (s.next y.2 = some z.2 ∧ s.pc z.1 = .spin l z.2) := by
  induction r generalizing x l₁ with
  | nil =>
    have hlen := congrArg List.length hr
    simp only [List.length_cons, List.length_nil, List.length_append] at hlen
    omega
  | cons w r ih =>
    cases l₁ with
    | nil =>
      obtain ⟨rfl, hwr⟩ := List.cons.inj hr
      obtain ⟨rfl, rfl⟩ := List.cons.inj hwr
      exact h.1
    | cons v l₁ => exact ih h.2.2 (List.cons.inj hr).2

/-- A link leads along the queue. -/
theorem Behind.next_mem (h : s.Behind l x r) {y : τ × ε} (hy : y ∈ x :: r)
    (he : s.next y.2 = some e) : ∃ z ∈ r, z.2 = e := by
  induction r generalizing x with
  | nil =>
    obtain rfl : y = x := by simpa using hy
    rw [show s.next y.2 = none from h] at he
    cases he
  | cons z r ih =>
    obtain ⟨hxz, -, hr⟩ := h
    rcases List.mem_cons.mp hy with rfl | hy
    · rcases hxz with ⟨hn, -⟩ | ⟨hn, -⟩
      · rw [hn] at he
        cases he
      · rw [hn] at he
        exact ⟨z, by simp, Option.some.inj he⟩
    · obtain ⟨w, hw, hwe⟩ := ih hr hy
      exact ⟨w, by simp [hw], hwe⟩

/-- A queue reads the links and states of its entries, the fields of its
lock, and where the contexts are that wait for it. -/
theorem QueueOk.congr {q : List (τ × ε)} (h : s.QueueOk l q)
    (hn : ∀ y ∈ q, s'.next y.2 = s.next y.2) (hs : ∀ y ∈ q, s'.state y.2 = s.state y.2)
    (hh : s'.holds l = s.holds l) (hl : s'.last l = s.last l)
    (hp : ∀ t, (s.pc t).Waits l ∨ (s'.pc t).Waits l → s'.pc t = s.pc t) : s'.QueueOk l q := by
  cases q with
  | nil =>
    intro t
    rw [hh]
    exact h t
  | cons x r =>
    obtain ⟨hf, hb⟩ := h
    refine ⟨?_, hb.congr hn (fun y hy => hs y (List.mem_cons_of_mem x hy)) fun y hy => hp y.1 ?_⟩
    · rw [Front, hh, hl, hs x (by simp)]
      rcases hf with ⟨hpc, hno⟩ | ⟨hlast, hiff, hne⟩
      · have hw : (s.pc x.1).Waits l := by
          rcases hpc with hpc | ⟨hpc, -⟩ <;> rw [hpc] <;> rfl
        rw [hp x.1 (Or.inl hw)]
        exact Or.inl ⟨hpc, hno⟩
      · refine Or.inr ⟨hlast, hiff, fun hpc => hne ?_⟩
        rw [← hpc]
        exact (hp x.1 (Or.inr (by rw [hpc]; rfl))).symm
    · rcases (hb.pc_of_mem hy).1 with ⟨cur, hpc⟩ | hpc
      all_goals
        rw [hpc]
        exact Or.inl rfl

theorem QueueOk.of_holds {q : List (τ × ε)} (h : s.QueueOk l q) (ht : s.holds l t = true) :
    ∃ e r, q = (t, e) :: r ∧ s.last l = some e ∧ s.Behind l (t, e) r := by
  cases q with
  | nil =>
    rw [h t] at ht
    cases ht
  | cons x r =>
    obtain ⟨⟨-, hno⟩ | ⟨hlast, hiff⟩, hb⟩ := h
    · rw [hno t] at ht
      cases ht
    · obtain rfl := (hiff.1 t).mp ht
      exact ⟨x.2, r, rfl, hlast, hb⟩

end SpinState

/-! ## Steps that leave the queues as they are -/

namespace SpinInv

variable {s s' : SpinState τ ι ε} {Q : ι → List (τ × ε)} {own own' : ε → Option (τ ⊕ ι)}
variable {t : τ} {q : SpinPc ι ε} {l : ι} {e p : ε}

theorem own_of_holds (h : SpinInv s Q own) (ht : s.holds l t = true) (hl : s.last l = some e) :
    own e = some (.inr l) := by
  obtain ⟨e', r, hq, hl', -⟩ := (h.queue l).of_holds ht
  rw [hl] at hl'
  obtain ⟨⟩ := hl'
  exact h.queued l (t, e) (by rw [hq]; simp)

/-- What is known of a context stays, if its own entries stay and the
queue it is at only grows. -/
theorem pcOk_congr {Q' : ι → List (τ × ε)} (h : SpinInv s Q own) (hq : s.PcOk Q own t q)
    (hown : ∀ e, own e = some (.inl t) →
      own' e = some (.inl t) ∧ s'.next e = s.next e ∧ s'.state e = s.state e)
    (hlink : ∀ l e, own e = some (.inr l) → s.next e ≠ none → s'.next e = s.next e)
    (hat : ∀ l, q.At l → s'.holds l = s.holds l ∧ s'.last l = s.last l ∧ Q l <+: Q' l) :
    s'.PcOk Q' own' t q := by
  cases q with
  | idle | alloc l => trivial
  | storeNext l e | release l e => exact (hown e hq).1
  | storeState l e =>
    obtain ⟨ho, hn, -⟩ := hown e hq.1
    exact ⟨ho, hn.trans hq.2⟩
  | exchange l e =>
    obtain ⟨ho, hn, hs⟩ := hown e hq.1
    exact ⟨ho, hn.trans hq.2.1, hs.trans hq.2.2⟩
  | link l e cur =>
    obtain ⟨-, -, q, hQ⟩ := hat l rfl
    obtain ⟨l₁, x, l₂, hq⟩ := hq
    exact ⟨l₁, x, l₂ ++ q, by rw [← hQ, hq]; simp⟩
  | spin l e =>
    obtain ⟨-, -, hQ⟩ := hat l rfl
    exact hQ.subset hq
  | storeLast l e =>
    obtain ⟨hh, -, q, hQ⟩ := hat l rfl
    obtain ⟨⟨r, hr⟩, hno⟩ := hq
    rw [PcOk, hh]
    exact ⟨⟨r ++ q, by rw [← hQ, hr]; rfl⟩, hno⟩
  | loadLast l =>
    obtain ⟨hh, -⟩ := hat l rfl
    rw [PcOk, hh]
    exact hq
  | casTail l e =>
    obtain ⟨hh, hl, -⟩ := hat l rfl
    rw [PcOk, hh, hl]
    exact hq
  | loadNext l e =>
    obtain ⟨hh, hl, q, hQ⟩ := hat l rfl
    obtain ⟨hheld, hlast, y, r, hr⟩ := hq
    rw [PcOk, hh, hl]
    exact ⟨hheld, hlast, y, r ++ q, by rw [← hQ, hr]; rfl⟩
  | handOver l e p =>
    obtain ⟨hh, hl, -⟩ := hat l rfl
    rw [PcOk, hh, hl]
    refine ⟨hq.1, hq.2.1, (hlink l e (h.own_of_holds hq.1 hq.2.1) ?_).trans hq.2.2⟩
    rw [hq.2.2]
    exact Option.some_ne_none p

/-- The context finds its `m_state` cleared: it is at the front, and nobody
has the lock. -/
theorem front_of_state (h : SpinInv s Q own) (hpc : s.pc t = .spin l e) (hst : s.state e = false) :
    ∃ r, Q l = (t, e) :: r ∧ s.Behind l (t, e) r ∧
      ∀ t', s.holds l t' = false := by
  have hmem : (t, e) ∈ Q l := h.pcOk_of hpc
  have hqueue := h.queue l
  obtain ⟨x, r, hxr⟩ := List.exists_cons_of_ne_nil (List.ne_nil_of_mem hmem)
  rw [hxr] at hqueue hmem
  obtain ⟨hf, hb⟩ := hqueue
  rcases List.mem_cons.mp hmem with rfl | hmem
  · rcases hf with ⟨-, hno⟩ | ⟨-, -, hne⟩
    · exact ⟨r, hxr, hb, hno⟩
    · exact absurd hpc hne
  · rw [(hb.pc_of_mem hmem).2] at hst
    cases hst

/-- Another context that is at the queue of a lock with a front is about
to link its entry, or spins. -/
theorem pc_of_at {x : τ × ε} {r : List (τ × ε)} (h : SpinInv s Q own) (hQ : Q l = x :: r)
    (ht : t ≠ x.1) (hat : (s.pc t).At l) :
    (∃ e cur, s.pc t = .link l e cur) ∨ ∃ e, s.pc t = .spin l e := by
  have hnot : s.holds l t = false := by
    by_contra hh
    obtain ⟨e, r', hq, -⟩ := (h.queue l).of_holds (Bool.eq_true_of_not_eq_false hh)
    exact ht (Prod.mk.inj (List.cons.inj (hq.symm.trans hQ)).1).1
  have hpc := h.pc t
  generalize s.pc t = q at hpc hat
  cases q with
  | link l' e cur =>
    obtain rfl : l' = l := hat
    exact Or.inl ⟨e, cur, rfl⟩
  | spin l' e =>
    obtain rfl : l' = l := hat
    exact Or.inr ⟨e, rfl⟩
  | storeLast l' e =>
    obtain rfl : l' = l := hat
    obtain ⟨⟨r', hr'⟩, -⟩ := hpc
    exact absurd (Prod.mk.inj (List.cons.inj (hr'.symm.trans hQ)).1).1 ht
  | loadLast l' =>
    obtain rfl : l' = l := hat
    cases hnot.symm.trans hpc
  | casTail l' e | loadNext l' e | handOver l' e p =>
    obtain rfl : l' = l := hat
    cases hnot.symm.trans hpc.1
  | idle | alloc l | storeNext l e | storeState l e | exchange l e | release l e => cases hat

variable [DecidableEq τ]

section

variable (h : SpinInv s Q own) (hpc : s'.pc = update s.pc t q)

include h hpc

/-- **A step of `t` that leaves the queues as they are.** -/
theorem move
    (htail : s'.tail = s.tail) (hl : s'.last = s.last) (hh : s'.holds = s.holds)
    (harr : s'.arrivals = s.arrivals) (hacq : s'.acquired = s.acquired)
    (hused : ∀ e, own' e ≠ none → s'.use e = true)
    (hqueued : ∀ l e, own e = some (.inr l) → own' e = some (.inr l))
    (hown : ∀ t', t' ≠ t → ∀ e, own e = some (.inl t') →
      own' e = some (.inl t') ∧ s'.next e = s.next e ∧ s'.state e = s.state e)
    (hlink : ∀ l e, own e = some (.inr l) → s.next e ≠ none → s'.next e = s.next e)
    (hqueue : ∀ l, s'.QueueOk l (Q l)) (hq : s'.PcOk Q own' t q) : SpinInv s' Q own' where
  used := hused
  queued l x hx := hqueued l x.2 (h.queued l x hx)
  nodup := h.nodup
  tail l := by
    rw [htail]
    exact h.tail l
  queue := hqueue
  pc t' := by
    rw [hpc]
    rcases eq_or_ne t' t with rfl | ht
    · rw [update_self]
      exact hq
    · rw [update_of_ne ht]
      exact h.pcOk_congr (h.pc t') (hown t' ht) hlink fun l _ =>
        ⟨congrFun hh l, congrFun hl l, List.prefix_rfl⟩
  order l := by
    rw [harr, hacq, hh]
    exact h.order l

/-- The queue of a lock stays, if `t` waits for it neither before the step
nor after it. -/
theorem queue_same (hl : s'.last l = s.last l)
    (hh : s'.holds l = s.holds l) (hn : ∀ e, own e = some (.inr l) → s'.next e = s.next e)
    (hs : ∀ e, own e = some (.inr l) → s'.state e = s.state e) (hw : ¬ (s.pc t).Waits l)
    (hw' : ¬ q.Waits l) : s'.QueueOk l (Q l) := by
  refine (h.queue l).congr (fun y hy => hn y.2 (h.queued l y hy))
    (fun y hy => hs y.2 (h.queued l y hy)) hh hl fun t' ht' => ?_
  rw [hpc] at ht' ⊢
  rcases eq_or_ne t' t with rfl | ht
  · rw [update_self] at ht'
    exact absurd ht' (not_or.mpr ⟨hw, hw'⟩)
  · rw [update_of_ne ht]

/-- A step of `t` that touches no memory that another one reads. -/
theorem move_private
    (htail : s'.tail = s.tail) (hl : s'.last = s.last) (hh : s'.holds = s.holds)
    (harr : s'.arrivals = s.arrivals) (hacq : s'.acquired = s.acquired)
    (hused : ∀ e, own' e ≠ none → s'.use e = true)
    (hown : ∀ e o, own e = some o → o ≠ .inl t →
      own' e = some o ∧ s'.next e = s.next e ∧ s'.state e = s.state e)
    (hw : ∀ l, ¬ (s.pc t).Waits l ∧ ¬ q.Waits l) (hq : s'.PcOk Q own' t q) : SpinInv s' Q own' := by
  have hquiet : ∀ l e, own e = some (.inr l) →
      own' e = some (.inr l) ∧ s'.next e = s.next e ∧ s'.state e = s.state e :=
    fun l e he => hown e (.inr l) he (by simp)
  exact h.move hpc htail hl hh harr hacq hused (fun l e he => (hquiet l e he).1)
    (fun t' ht e he => hown e (.inl t') he (by simpa using ht))
    (fun l e he _ => (hquiet l e he).2.1)
    (fun l => h.queue_same hpc (congrFun hl l) (congrFun hh l) (fun e he => (hquiet l e he).2.1)
      (fun e he => (hquiet l e he).2.2) (hw l).1 (hw l).2) hq

end

end SpinInv

end ShmDos64
