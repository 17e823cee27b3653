import ShmDos64.SpinLock.Steps
/-!
# Runs of the queued spin lock

In every interleaving a lock has one holder at most, the lock is obtained
in the order in which `m_tail` was exchanged, and no entry that is given
back to its pool can still be come across from a lock.
-/

namespace ShmDos64

open Function (update)
open SpinState

section Reach

variable {τ ι ε : Type*} {s : SpinState τ ι ε} {Q : ι → List (τ × ε)}
variable {own : ε → Option (τ ⊕ ι)} {l : ι} {e : ε}

/-- The entries that can be come across from a lock: the one in `m_tail`,
the one in `m_lastLockEntry` of a held lock, those of the contexts that
wait for it, and what the `m_next` of one of them leads to. -/
inductive SpinState.Linked (s : SpinState τ ι ε) (l : ι) : ε → Prop
  | tail {e : ε} : s.tail l = some e → Linked s l e
  | last {t : τ} {e : ε} : s.holds l t = true → s.last l = some e → Linked s l e
  | link {t : τ} {e cur : ε} : s.pc t = .link l e cur → Linked s l e
  | cur {t : τ} {e cur : ε} : s.pc t = .link l e cur → Linked s l cur
  | spin {t : τ} {e : ε} : s.pc t = .spin l e → Linked s l e
  | storeLast {t : τ} {e : ε} : s.pc t = .storeLast l e → Linked s l e
  | next {e e' : ε} : Linked s l e → s.next e = some e' → Linked s l e'

/-- They are in the queue of the lock. -/
theorem SpinInv.mem_of_linked (h : SpinInv s Q own) (hl : s.Linked l e) : ∃ x ∈ Q l, x.2 = e := by
  induction hl with
  | tail htail =>
    have htl := h.tail l
    rw [htail] at htl
    obtain ⟨x, hx, rfl⟩ := Option.map_eq_some_iff.mp htl.symm
    exact ⟨x, List.mem_of_getLast? hx, rfl⟩
  | @last t e hh hlast =>
    obtain ⟨e', r, hQ, hlast', -⟩ := (h.queue l).of_holds hh
    exact ⟨(t, e'), by rw [hQ]; simp, Option.some.inj (hlast'.symm.trans hlast)⟩
  | @link t e cur hpc =>
    obtain ⟨l₁, x, l₂, hQ⟩ := h.pcOk_of hpc
    exact ⟨(t, e), by rw [hQ]; simp, rfl⟩
  | @cur t e cur hpc =>
    obtain ⟨l₁, x, l₂, hQ⟩ := h.pcOk_of hpc
    exact ⟨(x, cur), by rw [hQ]; simp, rfl⟩
  | @spin t e hpc =>
    exact ⟨(t, e), h.pcOk_of hpc, rfl⟩
  | @storeLast t e hpc =>
    obtain ⟨⟨r, hQ⟩, -⟩ := h.pcOk_of hpc
    exact ⟨(t, e), by rw [hQ]; simp, rfl⟩
  | next _ hnext ih =>
    obtain ⟨x, hx, rfl⟩ := ih
    have hqueue := h.queue l
    cases hQ : Q l with
    | nil =>
      rw [hQ] at hx
      cases hx
    | cons y r =>
      rw [hQ] at hx hqueue
      obtain ⟨z, hz, hze⟩ := hqueue.2.next_mem hx hnext
      exact ⟨z, by simp [hz], hze⟩

end Reach

section Runs

variable {κ τ ι : Type*} [DecidableEq κ] [DecidableEq τ] [DecidableEq ι]
variable {s s' : SpinState τ ι (SpinEntry κ)} {Q : ι → List (τ × SpinEntry κ)}
variable {own : SpinEntry κ → Option (τ ⊕ ι)} {t : τ}

/-- **One access**: it is through no null pointer, and keeps the
invariant. -/
theorem SpinInv.exec (h : SpinInv s Q own) (cpu : κ) (index : Fin spinLimitAlign) :
    ∃ s' Q' own', s.exec cpu t index = some s' ∧ SpinInv s' Q' own' := by
  have hpc := h.pc t
  rw [SpinState.exec]
  cases hq : s.pc t with
  | idle => exact ⟨s, Q, own, rfl, h⟩
  | alloc l =>
    cases hu : s.use (cpu, index) with
    | true => exact ⟨s, Q, own, by simp, h⟩
    | false => exact ⟨_, _, _, by simp, h.alloc hq hu⟩
  | storeNext l e => exact ⟨_, _, _, rfl, h.storeNext hq⟩
  | storeState l e => exact ⟨_, _, _, rfl, h.storeState hq⟩
  | exchange l e => exact ⟨_, _, _, rfl, h.exchange hq⟩
  | link l e cur => exact ⟨_, _, _, rfl, h.link hq⟩
  | spin l e =>
    cases hst : s.state e with
    | true => exact ⟨s, Q, own, by simp [hst], h⟩
    | false => exact ⟨_, _, _, by simp [hst], h.spin hq hst⟩
  | storeLast l e => exact ⟨_, _, _, rfl, h.storeLast hq⟩
  | loadLast l =>
    rw [hq] at hpc
    obtain ⟨e, r, -, hlast, -⟩ := (h.queue l).of_holds hpc
    refine ⟨s.goto t (.casTail l e), Q, own, by simp [hlast], h.goto ?_ ⟨hpc, hlast⟩⟩
    rw [hq]
    exact fun _ => ⟨id, id⟩
  | casTail l e =>
    rw [hq] at hpc
    by_cases htail : s.tail l = some e
    · exact ⟨_, _, _, by simp [htail], h.casTail hq htail⟩
    · refine ⟨s.goto t (.loadNext l e), Q, own, by simp [htail], h.goto ?_ ?_⟩
      · rw [hq]
        exact fun _ => ⟨id, id⟩
      · obtain ⟨e', r, hQ, hlast, -⟩ := (h.queue l).of_holds hpc.1
        obtain rfl : e = e' := Option.some.inj (hpc.2.symm.trans hlast)
        cases r with
        | nil =>
          have htl := h.tail l
          rw [hQ] at htl
          exact absurd htl htail
        | cons y r => exact ⟨hpc.1, hlast, y, r, hQ⟩
  | loadNext l e =>
    rw [hq] at hpc
    cases hn : s.next e with
    | none => exact ⟨s, Q, own, by simp [hn], h⟩
    | some p =>
      refine ⟨s.goto t (.handOver l e p), Q, own, by simp [hn], h.goto ?_ ⟨hpc.1, hpc.2.1, hn⟩⟩
      rw [hq]
      exact fun _ => ⟨id, id⟩
  | handOver l e p =>
    obtain ⟨r, hinv⟩ := h.handOver hq
    exact ⟨_, _, _, rfl, hinv⟩
  | release l e => exact ⟨_, _, _, rfl, h.release hq⟩

theorem SpinInv.apply {cpu : τ → κ} {a : τ × SpinAct ι} (h : SpinInv s Q own)
    (hs : s.apply cpu a = some s') : ∃ Q' own', SpinInv s' Q' own' := by
  obtain ⟨t, a⟩ := a
  cases a with
  | lock l =>
    rw [SpinState.apply] at hs
    split_ifs at hs with hidle
    obtain ⟨⟩ := hs
    refine ⟨Q, own, h.goto ?_ trivial⟩
    rw [hidle]
    exact fun _ => ⟨id, id⟩
  | unlock l =>
    rw [SpinState.apply] at hs
    split_ifs at hs with hidle
    obtain ⟨⟩ := hs
    refine ⟨Q, own, h.goto ?_ hidle.2⟩
    rw [hidle.1]
    exact fun _ => ⟨id, id⟩
  | run index =>
    obtain ⟨s₁, Q', own', hs₁, hinv⟩ := h.exec (t := t) (cpu t) index
    obtain rfl := Option.some.inj (hs₁.symm.trans hs)
    exact ⟨Q', own', hinv⟩

omit [DecidableEq κ] [DecidableEq τ] [DecidableEq ι] in
theorem SpinInv.initial (next : SpinEntry κ → Option (SpinEntry κ)) (state : SpinEntry κ → Bool) :
    SpinInv (SpinState.initial next state : SpinState τ ι (SpinEntry κ)) (fun _ => [])
      fun _ => none where
  used _ he := absurd rfl he
  queued _ _ hx := by cases hx
  nodup _ := .nil
  tail _ := rfl
  queue _ _ := rfl
  pc _ := trivial
  order _ := ⟨[], rfl, Or.inl ⟨fun _ => rfl, rfl⟩⟩

theorem SpinInv.exists_of_reachable {cpu : τ → κ} (h : (spinMachine cpu).Reachable s) :
    ∃ Q own, SpinInv s Q own := by
  refine h.invariant (I := fun s => ∃ Q own, SpinInv s Q own) ?_ ?_
  · rintro s ⟨next, state, rfl⟩
    exact ⟨_, _, SpinInv.initial next state⟩
  · rintro s a s' ⟨Q, own, hinv⟩ hstep
    exact hinv.apply hstep

/-- The first of two contexts obtains the lock while the second, which
came after it, spins. -/
theorem exists_contended : ∃ s : SpinState Bool Unit (SpinEntry Bool),
    (spinMachine id).Reachable s ∧ s.holds () false = true ∧ s.pc true = .spin () (true, 0) := by
  obtain ⟨s, hs, hok⟩ := Machine.Reachable.exists_of_foldlM (M := spinMachine id)
    (f := SpinState.apply id) (s := SpinState.initial (fun _ => none) fun _ => false)
    (P := fun s => s.holds () false && decide (s.pc true = .spin () (true, 0)))
    (fun _ _ _ h => h)
    [(false, .lock ()), (true, .lock ()), (false, .run 0), (true, .run 0), (false, .run 0),
      (true, .run 0), (false, .run 0), (true, .run 0), (false, .run 0), (true, .run 0),
      (true, .run 0), (false, .run 0)] (.init ⟨_, _, rfl⟩) (by decide +kernel)
  rw [Bool.and_eq_true, decide_eq_true_iff] at hok
  exact ⟨s, hs, hok⟩

/-- **The lock is never lost**: while a context waits in `lock`, the front of
the queue has it or has been given it. -/
theorem spin_lock_not_lost {cpu : τ → κ} {l : ι} (h : (spinMachine cpu).Reachable s)
    (hwaits : (s.pc t).Waits l) : ∃ x, s.Front l x := by
  obtain ⟨Q, own, hinv⟩ := SpinInv.exists_of_reachable h
  have hpc := hinv.pc t
  have hqueue := hinv.queue l
  cases hQ : Q l with
  | nil =>
    -- a context that waits is in the queue
    cases hq : s.pc t <;> rw [hq] at hwaits hpc <;> cases hwaits <;>
      simp [SpinState.PcOk, hQ] at hpc
  | cons x r =>
    rw [hQ] at hqueue
    exact ⟨x, hqueue.1⟩

/-- One context spins, and the other is the front. -/
theorem spin_lock_not_lost_contended : ∃ s : SpinState Bool Unit (SpinEntry Bool),
    (s.holds () false = true ∧ (s.pc true).Waits ()) ∧ ∃ x, s.Front () x := by
  obtain ⟨s, hs, hholds, hpc⟩ := exists_contended
  have hwaits : (s.pc true).Waits () := by rw [hpc]; rfl
  exact ⟨s, ⟨hholds, hwaits⟩, spin_lock_not_lost hs hwaits⟩

/-- **The queued spin lock.** In every interleaving of `lock` and `unlock`,
on any number of locks: a lock has one holder at most; the contexts that
obtained it did so in the order of their exchanges of `m_tail`; an entry
that can be come across from a lock is in use; and the next access of any
context is through no null pointer. -/
theorem spin_lock_safe {cpu : τ → κ} (h : (spinMachine cpu).Reachable s) :
    (∀ l t t', s.holds l t = true → s.holds l t' = true → t = t') ∧
    (∀ l, s.acquired l <+: s.arrivals l) ∧
    (∀ l e, s.Linked l e → s.use e = true) ∧
    ∀ t index, (s.exec (cpu t) t index).isSome := by
  obtain ⟨Q, own, hinv⟩ := SpinInv.exists_of_reachable h
  refine ⟨fun l t t' ht ht' => ?_, fun l => ?_, fun l e he => ?_, fun t index => ?_⟩
  · obtain ⟨e, r, hQ, -⟩ := (hinv.queue l).of_holds ht
    obtain ⟨e', r', hQ', -⟩ := (hinv.queue l).of_holds ht'
    exact (Prod.mk.inj (List.cons.inj (hQ.symm.trans hQ')).1).1
  · obtain ⟨done, harr, ⟨-, hacq⟩ | ⟨x, r, hQ, -, hacq⟩⟩ := hinv.order l
    · rw [harr, hacq]
      exact List.prefix_append ..
    · rw [harr, hacq, hQ]
      exact ⟨r, by simp⟩
  · obtain ⟨x, hx, rfl⟩ := hinv.mem_of_linked he
    refine hinv.used x.2 ?_
    rw [hinv.queued l x hx]
    exact Option.some_ne_none _
  · obtain ⟨s', -, -, hs', -⟩ := hinv.exec (t := t) (cpu t) index
    rw [hs']
    rfl

end Runs

theorem spin_lock_safe_contended : ∃ s : SpinState Bool Unit (SpinEntry Bool),
    (spinMachine id).Reachable s ∧ s.holds () false = true ∧
    s.pc true = .spin () (true, 0) ∧ s.acquired () <+: s.arrivals () := by
  obtain ⟨s, hs, hholds, hpc⟩ := exists_contended
  exact ⟨s, hs, hholds, hpc, (spin_lock_safe hs).2.1 ()⟩

end ShmDos64
