import Mathlib.Data.Fintype.Card
import ShmDos64.InterruptQueue.Fifo
import ShmDos64.InterruptQueue.Places
/-!
# No wake-up is lost

`push` takes a task off the wait list for each item, as long as there is one,
and only a task that finds no item goes to sleep. So when consumers sleep,
there are no more items than tasks on their way back to the queue: a task that
finds its item gone goes to sleep only when there is none left.
-/

namespace ShmDos64

open Function (update update_of_ne update_self)
open InterruptQueue

namespace ConsumerState

variable {κ ω τ ε ι : Type*} {s s' : ConsumerState κ ω τ ε ι}
variable [DecidableEq τ] [DecidableEq ε] {lists lists' : ε → List τ}

section

variable [Fintype τ]

/-- The tasks in `pop` of the queue that are not in the list: `push` has taken
them off, and they have not entered the next critical section. -/
def removed (s : ConsumerState κ ω τ ε ι) (queue : ε) (list : List τ) : Finset τ :=
  Finset.univ.filter fun task => (s.pc task).queue = some queue ∧ task ∉ list

variable {list : List τ} {queue : ε}

theorem mem_removed {task : τ} :
    task ∈ s.removed queue list ↔ s.InPop queue task ∧ task ∉ list := by
  simp [removed, InPop]

/-- The queue has the items, and no more than tasks on their way if others
sleep. -/
def Counted (s : ConsumerState κ ω τ ε ι) (queue : ε) (list : List τ) : Prop :=
  ∃ items, (s.queue queue).Holds items ∧
    (list ≠ [] → items.length ≤ (s.removed queue list).card)

/-- Where neither the items nor who is in `pop` change. -/
theorem Counted.congr (h : s.Counted queue list)
    (hqueue : s'.queue queue = s.queue queue)
    (hpop : ∀ t, t ∉ list → (s'.InPop queue t ↔ s.InPop queue t)) : s'.Counted queue list := by
  obtain ⟨items, hholds, hcount⟩ := h
  refine ⟨items, hqueue ▸ hholds, fun hne => ?_⟩
  have hremoved : s'.removed queue list = s.removed queue list := by
    ext t
    rw [mem_removed, mem_removed]
    exact and_congr_left fun ht => hpop t ht
  rw [hremoved]
  exact hcount hne

/-- A task gets an item: it is one of those on their way, or comes anew. -/
theorem Counted.pops (h : s.Counted queue list) {task : τ} {item : ι}
    {rest : InterruptQueue ι} (hpop : (s.queue queue).pop = some (item, rest))
    (hqueue : s'.queue queue = rest) (hpc : s'.pc = update s.pc task .outside) :
    s'.Counted queue list := by
  obtain ⟨items, hholds, hcount⟩ := h
  have hitems := pop_holds hholds
  cases items with
  | nil =>
    rw [hpop] at hitems
    cases hitems
  | cons first items =>
    obtain ⟨q', heq, hholds', -⟩ := hitems
    rw [hpop] at heq
    obtain ⟨-, rfl⟩ := Prod.mk.inj (Option.some.inj heq)
    refine ⟨items, hqueue ▸ hholds', fun hne => ?_⟩
    have hremoved : s'.removed queue list = (s.removed queue list).erase task := by
      ext t
      rw [Finset.mem_erase, mem_removed, mem_removed, InPop, InPop, hpc]
      by_cases ht : t = task
      · rw [ht, update_self]
        exact iff_of_false (fun hc => by cases hc.1) fun hc => hc.1 rfl
      · rw [update_of_ne ht]
        exact (and_iff_right ht).symm
    have hle := hcount hne
    have herase := Finset.pred_card_le_card_erase (s := s.removed queue list) (a := task)
    rw [List.length_cons] at hle
    rw [hremoved]
    omega

/-- `push` takes a task for the item, if one sleeps. -/
theorem Counted.pushes (h : s.Counted queue list) {item : ι}
    {longer : InterruptQueue ι} (hpush : (s.queue queue).push item = some longer)
    (hqueue : s'.queue queue = longer) (hpc : s'.pc = s.pc) (hnd : list.Nodup)
    (hlisted : ∀ t ∈ list, s.InPop queue t) : s'.Counted queue list.tail := by
  obtain ⟨items, hholds, hcount⟩ := h
  obtain ⟨hholds', -⟩ := (push_holds hholds item).2 longer hpush
  refine ⟨items ++ [item], hqueue ▸ hholds', fun hne => ?_⟩
  cases list with
  | nil => exact absurd rfl hne
  | cons head list =>
    have hhead := (List.nodup_cons.mp hnd).1
    have hremoved : s'.removed queue list = insert head (s.removed queue (head :: list)) := by
      ext t
      rw [Finset.mem_insert, mem_removed, mem_removed, InPop, InPop, hpc]
      by_cases ht : t = head
      · subst ht
        exact iff_of_true ⟨hlisted t List.mem_cons_self, hhead⟩ (.inl rfl)
      · simp [ht]
    have hnew : head ∉ s.removed queue (head :: list) := fun hm =>
      (mem_removed.mp hm).2 List.mem_cons_self
    rw [List.tail_cons, hremoved, Finset.card_insert_of_notMem hnew, List.length_append,
      List.length_singleton]
    exact Nat.succ_le_succ (hcount (List.cons_ne_nil head list))

omit [DecidableEq ε] [Fintype τ] in
theorem inPop_update {task : τ} {pc : PopPc ε} {q queue : ε}
    (htask : s.pc task = .outside ∨ s.InPop queue task) (hpc : s'.pc = update s.pc task pc)
    (hnew : pc.queue ≠ some q) (hq : q ≠ queue) (t : τ) : s'.InPop q t ↔ s.InPop q t := by
  rw [InPop, InPop, hpc]
  by_cases ht : t = task
  · rw [ht, update_self]
    refine iff_of_false hnew fun hin => ?_
    rcases htask with hout | hin'
    · rw [hout] at hin
      cases hin
    · exact hq (Option.some.inj (hin.symm.trans hin'))
  · rw [update_of_ne ht]

/-- **Each step keeps the count**, in every queue. -/
theorem Moves.counted (hm : Moves s s' lists lists') (h : ∀ q, s.Counted q (lists q))
    (hnd : ∀ q, (lists q).Nodup) (hlisted : ∀ q, ∀ t ∈ lists q, s.InPop q t) (q : ε) :
    s'.Counted q (lists' q) := by
  cases hm with
  | stays hqueue hpc hlists =>
    subst hlists
    refine (h q).congr (congrFun hqueue q) fun t _ => ?_
    rw [InPop, InPop, hpc]
  | pops task queue item rest hpop hqueue htask hpc hlists =>
    subst hlists
    by_cases hq : q = queue
    · subst hq
      exact (h q).pops hpop (by rw [hqueue, update_self]) hpc
    · refine (h q).congr (by rw [hqueue, update_of_ne hq]) fun t _ => ?_
      exact inPop_update htask hpc (by rintro ⟨⟩) hq t
  | sleeps task queue timeout hpop hqueue htask hpc hlists =>
    subst hlists
    by_cases hq : q = queue
    · subst hq
      -- there is no item, as `pop` has found none
      obtain ⟨items, hholds, -⟩ := h q
      have hitems := pop_holds hholds
      cases items with
      | nil => exact ⟨[], hqueue ▸ hholds, fun _ => Nat.zero_le _⟩
      | cons item items =>
        obtain ⟨_, heq, -⟩ := hitems
        rw [hpop] at heq
        cases heq
    · rw [update_of_ne hq]
      refine (h q).congr (congrFun hqueue q) fun t _ => inPop_update htask hpc ?_ hq t
      exact fun heq => hq (Option.some.inj heq).symm
  | pushes queue item longer hpush hqueue hpc hlists =>
    subst hlists
    by_cases hq : q = queue
    · subst hq
      rw [update_self]
      exact (h q).pushes hpush (by rw [hqueue, update_self]) hpc (hnd q) (hlisted q)
    · rw [update_of_ne hq]
      refine (h q).congr (by rw [hqueue, update_of_ne hq]) fun t _ => ?_
      rw [InPop, InPop, hpc]

end

/-! ## Without timeouts -/

variable [DecidableEq κ] [DecidableEq ω]

/-- All calls of `pop` are with `WaitInfinite`. -/
def Infinite (_ : ConsumerState κ ω τ ε ι) : ConsumerAct κ ω τ ε ι → Prop
  | .pop _ _ timeout => timeout = waitInfinite
  | _ => True

/-- No task is in a timed sleep, or in `pop` with a timeout. -/
structure Untimed (s : ConsumerState κ ω τ ε ι) : Prop where
  state : ∀ t, s.state t ≠ .timedSleep
  pc : ∀ t queue timeout, s.pc t = .waiting queue timeout → timeout = waitInfinite

omit [DecidableEq τ] [DecidableEq ε] [DecidableEq κ] [DecidableEq ω] in
theorem Untimed.of_changes (h : s.Untimed)
    (hstate : ∀ t, s'.state t = s.state t ∨ s'.state t ≠ .timedSleep)
    (hpc : ∀ t queue timeout, s'.pc t = .waiting queue timeout →
      s.pc t = .waiting queue timeout ∨ timeout = waitInfinite) : s'.Untimed := by
  refine ⟨fun t => ?_, fun t queue timeout ht => ?_⟩
  · rcases hstate t with heq | hne
    · exact heq ▸ h.state t
    · exact hne
  · rcases hpc t queue timeout ht with heq | hinf
    · exact h.pc t queue timeout heq
    · exact hinf

theorem update_state {f : τ → TaskState} {task : τ} {v : TaskState} (hv : v ≠ .timedSleep) (t : τ) :
    update f task v t = f t ∨ update f task v t ≠ .timedSleep := by
  by_cases ht : t = task
  · rw [ht, update_self]
    exact .inr hv
  · exact .inl (update_of_ne ht ..)

omit [DecidableEq κ] [DecidableEq ω] in
theorem Untimed.popRound (h : s.Untimed) (task : τ) (queue : ε) :
    (s.popRound task queue waitInfinite).Untimed := by
  unfold ConsumerState.popRound
  split
  · refine h.of_changes (fun t => .inl rfl) fun t q timeout ht => ?_
    dsimp only at ht
    by_cases heq : t = task
    · rw [heq, update_self] at ht
      cases ht
    · rw [update_of_ne heq] at ht
      exact .inl ht
  · have hs := sleepOn_sleeps s task queue waitInfinite
    refine h.of_changes (fun t => ?_) fun t q timeout ht => ?_
    · rw [hs.state]
      exact update_state (by simp) t
    · rw [hs.pc] at ht
      by_cases heq : t = task
      · rw [heq, update_self] at ht
        exact .inr (PopPc.waiting.inj ht).2.symm
      · rw [update_of_ne heq] at ht
        exact .inl ht

/-- With no timed sleep there is no timeout. -/
theorem Untimed.step (h : s.Untimed) {a : ConsumerAct κ ω τ ε ι} (ha : s.Infinite a)
    (hs : s.apply a = some s') : s.NoTimeout a ∧ s'.Untimed := by
  cases a with
  | pop task queue timeout =>
    simp only [apply, Option.ite_some_none_eq_some] at hs
    obtain ⟨-, rfl⟩ := hs
    obtain rfl : timeout = waitInfinite := ha
    exact ⟨trivial, h.popRound task queue⟩
  | resume task =>
    refine ⟨trivial, ?_⟩
    simp only [apply] at hs
    split at hs
    · cases hs
    · rename_i queue timeout hpc
      obtain rfl := h.pc task queue timeout hpc
      simp only [Option.ite_none_right_eq_some] at hs
      obtain ⟨-, hs⟩ := hs
      split at hs <;> obtain ⟨⟩ := hs
      · refine h.of_changes (fun t => .inl rfl) fun t q timeout ht => ?_
        dsimp only at ht
        by_cases heq : t = task
        · rw [heq, update_self] at ht
          cases ht
        · rw [update_of_ne heq] at ht
          exact .inl ht
      · exact h.popRound task queue
  | push call queue item =>
    refine ⟨trivial, ?_⟩
    simp only [apply, Option.ite_some_none_eq_some] at hs
    obtain ⟨-, rfl⟩ := hs
    unfold pushItem
    split
    · exact h
    · cases s.waitHead queue <;> exact ⟨h.state, h.pc⟩
  | call call =>
    refine ⟨trivial, ?_⟩
    simp only [apply, execCall] at hs
    split at hs
    · cases hs
    · obtain ⟨⟩ := hs
      exact ⟨h.state, h.pc⟩
    · obtain ⟨⟩ := hs
      exact h.of_changes (update_state (by simp)) fun _ _ _ => .inl
    · obtain ⟨⟩ := hs
      exact ⟨h.state, h.pc⟩
  | cpu cpu =>
    refine ⟨trivial, ?_⟩
    simp only [apply, execCpu] at hs
    split at hs
    · obtain ⟨_, -, rfl⟩ := Option.map_eq_some_iff.mp hs
      exact ⟨h.state, h.pc⟩
    · obtain ⟨⟩ := hs
      exact ⟨h.state, h.pc⟩
    · obtain ⟨⟩ := hs
      exact h.of_changes (update_state (by simp)) fun _ _ _ => .inl
  | timeout cpu task =>
    simp only [apply, Option.ite_none_right_eq_some] at hs
    exact absurd hs.1.2 (h.state task)
  | preempt task | dispatch task =>
    simp only [apply, Option.ite_some_none_eq_some] at hs
    obtain ⟨-, rfl⟩ := hs
    exact ⟨trivial, h.of_changes (update_state (by simp)) fun _ _ _ => .inl⟩

theorem counted_reachable [Fintype τ]
    (h : ((consumerMachine κ ω τ ε ι).guard Infinite).Reachable s) :
    s.Untimed ∧ ∃ lists realtime place, s.Placed lists realtime place ∧
      ∀ q, s.Counted q (lists q) := by
  refine h.invariant (I := fun s => s.Untimed ∧ ∃ lists realtime place,
    s.Placed lists realtime place ∧ ∀ q, s.Counted q (lists q)) ?_ ?_
  · rintro s ⟨hqueue, hrealtime, htask, hcall, hcpu⟩
    refine ⟨⟨fun t ht => ?_, fun t queue timeout ht => ?_⟩, _, _, _,
      init_placed (fun q => (hqueue q).2) hrealtime htask hcall hcpu, fun q => ?_⟩
    · rcases (htask t).2 with hs | hs <;> rw [hs] at ht <;> cases ht
    · rw [(htask t).1] at ht
      cases ht
    · obtain ⟨size, item, hq⟩ := (hqueue q).1
      exact ⟨[], hq ▸ new_holds size item, fun hne => absurd rfl hne⟩
  · rintro s a s' ⟨hu, lists, realtime, place, hp, hcount⟩ ⟨ha, hs⟩
    obtain ⟨hno, hu'⟩ := hu.step ha hs
    obtain ⟨lists', realtime', place', hp', hm⟩ := step_placed hp hno hs
    refine ⟨hu', lists', realtime', place', hp', hm.counted hcount hp.nodup fun q t ht => ?_⟩
    exact (hp.ok_at ((hp.listed q t).mp ht)).1

/-- **No wake-up is lost.** When all consumers wait without timeout, then in
every reachable state each queue has its items and its wait list, and if both
are not empty, there are at most as many items as tasks that `push` has taken
off the list and that have not entered their critical section again. -/
theorem pop_wakeups_suffice [Fintype τ]
    (h : ((consumerMachine κ ω τ ε ι).guard Infinite).Reachable s) (queue : ε) :
    ∃ items list, (s.queue queue).Holds items ∧
      Chain s.realtimeNext (s.waitHead queue) list ∧
      (items ≠ [] → list ≠ [] → items.length ≤ (s.removed queue list).card) := by
  obtain ⟨-, lists, realtime, place, hp, hcount⟩ := counted_reachable h
  obtain ⟨items, hholds, hle⟩ := hcount queue
  exact ⟨items, lists queue, hholds, hp.chain queue, fun _ => hle⟩

instance (s : ConsumerState κ ω τ ε ι) (a : ConsumerAct κ ω τ ε ι) : Decidable (s.Infinite a) :=
  match a with
  | .pop _ _ timeout => inferInstanceAs (Decidable (timeout = waitInfinite))
  | .resume _ | .push _ _ _ | .call _ | .cpu _ | .timeout _ _ | .preempt _ | .dispatch _ =>
    isTrue trivial

/-- Two consumers sleep, and one `push` has come: there is one item, and one
task on its way. -/
theorem pop_wakeups_suffice_push : ∃ s : ConsumerState Unit Unit Bool Unit ℕ,
    ((s.queue ()).head ≠ none ∧ s.waitHead () = some true) ∧
    ∃ items list, (s.queue ()).Holds items ∧ Chain s.realtimeNext (s.waitHead ()) list ∧
      (items ≠ [] → list ≠ [] → items.length ≤ (s.removed () list).card) := by
  obtain ⟨s, hs, hend⟩ := Machine.Reachable.exists_of_guard
    (M := consumerMachine Unit Unit Bool Unit ℕ) Infinite
    (P := fun s => decide ((s.queue ()).head ≠ none ∧ s.waitHead () = some true)) (fun _ _ _ h => h)
    [.pop false () waitInfinite, .pop true () waitInfinite, .push () () 7]
    (.init twoConsumers_init) (by decide +kernel)
  exact ⟨s, of_decide_eq_true hend, pop_wakeups_suffice hs ()⟩

end ConsumerState

end ShmDos64
