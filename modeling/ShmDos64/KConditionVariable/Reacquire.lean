import ShmDos64.Common.Total
import ShmDos64.KConditionVariable.Places
/-!
# The mutex is held again when `wait` returns

In the runs in which no wait runs out of time. `m_waitCount` is what the list of
the condition variable holds, less the notifiers that have counted a task out
and not yet taken it off; so a notifier never finds the list empty, and the
event's `m_set`, which would admit a thread without the mutex, stays clear.
-/

namespace ShmDos64

open Function (update update_of_ne update_self)

namespace CvPc

variable {τ : Type*}

/-- The test flag is there for the thread. -/
def flagged : CvPc τ → Bool
  | test _ _ | clearFlag | count _ => true
  | _ => false

/-- The thread is counted in `m_waitCount`, and not yet in the list. -/
def counted : CvPc τ → Bool
  | release _ | insert _ => true
  | _ => false

/-- The thread has counted a task out, which is still in the list. -/
def claims : CvPc τ → Bool
  | set _ | move _ _ => true
  | _ => false

/-- The wait of the thread has run out of time, or is about to. -/
def outOfTime : CvPc τ → Bool
  | count timeout | release timeout | insert timeout => timeout = 0
  | returns result => !result
  | _ => false

/-- What the thread has in `m_waitCount` for the test flag. -/
def flagWeight (p : CvPc τ) : ℕ := if p.flagged then CvState.testFlag else 0

def countWeight (p : CvPc τ) : ℕ := if p.counted then 1 else 0

def claimWeight (p : CvPc τ) : ℕ := if p.claims then 1 else 0

theorem flagWeight_eq_zero {p : CvPc τ} (h : p.inSection = false) : p.flagWeight = 0 := by
  cases p <;> first | rfl | cases h

theorem countWeight_eq_zero {p : CvPc τ} (h : p.inSection = false) : p.countWeight = 0 := by
  cases p <;> first | rfl | cases h

/-- The move of a thread that has the same part in the counts before and after,
is in no list, and neither takes nor gives back `m_spin`. -/
structure Quiet (p q : CvPc τ) : Prop where
  listed : p.listed = false
  woken : p ≠ .woken
  flag : q.flagWeight = p.flagWeight
  claim : q.claimWeight = p.claimWeight
  count : q.countWeight = p.countWeight
  inSection : q.inSection = p.inSection
  move : ∀ all task, q ≠ .move all task
  inTime : q.outOfTime = false

end CvPc

namespace CvState

variable {τ : Type*}

/-- The task is blocked in `wait`, or about to be, and was not taken off the
list. -/
def Blocked (s : CvState τ) (t : τ) : Prop := t ∈ s.waitTasks ∨ (s.pc t).counted = true

instance [DecidableEq τ] (s : CvState τ) : DecidablePred s.Blocked :=
  fun _ => inferInstanceAs (Decidable (_ ∨ _))

variable [Fintype τ] {s s' : CvState τ} {t : τ} {q : CvPc τ}

/-- `m_waitCount` is the test flag and the count `n`. -/
def Tally (s : CvState τ) (n : ℕ) : Prop :=
  s.waitCount = n + total CvPc.flagWeight s.pc ∧
    n + total CvPc.claimWeight s.pc = s.waitTasks.length + total CvPc.countWeight s.pc

/-- **What is counted.** -/
structure Counts (s : CvState τ) : Prop where
  notSet : s.set = false
  inTime : ∀ t, (s.pc t).outOfTime = false
  tally : ∃ n, s.Tally n

theorem Placed.total_of_inSection (h : Placed s) {w : CvPc τ → ℕ}
    (hw : ∀ {p : CvPc τ}, p.inSection = false → w p = 0) (ht : (s.pc t).inSection = true) :
    total w s.pc = w (s.pc t) := by
  refine total_eq_of_only fun u hu => hw ?_
  by_contra hin
  have hspin := (h.spin u).mp (by simpa using hin)
  rw [(h.spin t).mp ht] at hspin
  exact hu (Option.some.inj hspin).symm

theorem Placed.total_of_spin (h : Placed s) {w : CvPc τ → ℕ}
    (hw : ∀ {p : CvPc τ}, p.inSection = false → w p = 0) (hspin : s.spin = none) :
    total w s.pc = 0 :=
  total_eq_zero fun u => hw (h.not_inSection hspin u)

variable [DecidableEq τ]

/-- The threads that are blocked are those of the list, and the one that is about
to be inserted. -/
theorem Placed.card_blocked (h : Placed s) :
    (Finset.univ.filter s.Blocked).card = s.waitTasks.length + total CvPc.countWeight s.pc := by
  have hnd : s.waitTasks.Nodup := (List.nodup_append.mp h.nodup).1
  have hsplit : Finset.univ.filter s.Blocked =
      s.waitTasks.toFinset ∪ Finset.univ.filter fun t => (s.pc t).counted = true := by
    ext t
    simp [Blocked]
  have hdisj : Disjoint s.waitTasks.toFinset
      (Finset.univ.filter fun t => (s.pc t).counted = true) := by
    refine Finset.disjoint_left.mpr fun t ht ht' => ?_
    have hasleep := h.asleep t (List.mem_toFinset.mp ht)
    have hcount := (Finset.mem_filter.mp ht').2
    cases hp : s.pc t <;> simp_all [CvPc.isAsleep, CvPc.counted]
  rw [hsplit, Finset.card_union_of_disjoint hdisj, List.toFinset_card_of_nodup hnd]
  exact congrArg _ (total_ite (fun p : CvPc τ => p.counted = true) s.pc).symm

/-- The count leaves the flag alone. -/
theorem Tally.lt {n : ℕ} (hn : s.Tally n) (h : Placed s) (hτ : Fintype.card τ < testFlag) :
    n < testFlag := by
  have hle := Finset.card_le_univ (Finset.univ.filter s.Blocked)
  have := h.card_blocked
  have := hn.2
  omega

namespace Counts

/-- One thread moves. -/
theorem moved (h : Counts s) (hpc : s'.pc = update s.pc t q) (hset : s'.set = s.set)
    (hq : q.outOfTime = false)
    (htally : ∀ n, s.Tally n → ∃ m,
      s'.waitCount + n + (s.pc t).flagWeight = s.waitCount + m + q.flagWeight ∧
      m + q.claimWeight + (s.pc t).countWeight + s.waitTasks.length =
        n + (s.pc t).claimWeight + q.countWeight + s'.waitTasks.length) : Counts s' := by
  refine ⟨hset.trans h.notSet, fun u => ?_, ?_⟩
  · by_cases hut : u = t
    · rwa [hut, hpc, update_self]
    · rw [hpc, update_of_ne hut]
      exact h.inTime u
  · obtain ⟨n, hn⟩ := h.tally
    obtain ⟨m, hcount, hlen⟩ := htally n hn
    obtain ⟨hn, hn'⟩ := hn
    have hf := total_update CvPc.flagWeight s.pc t q
    have hc := total_update CvPc.claimWeight s.pc t q
    have hb := total_update CvPc.countWeight s.pc t q
    refine ⟨m, ?_, ?_⟩ <;> rw [hpc] <;> omega

/-- One thread moves that is not counted, before or after. -/
theorem plain (h : Counts s) (hpc : s'.pc = update s.pc t q) (hset : s'.set = s.set)
    (hq : q.outOfTime = false) (hcount : s'.waitCount = s.waitCount)
    (hlist : s'.waitTasks.length = s.waitTasks.length) (hf : q.flagWeight = (s.pc t).flagWeight)
    (hc : q.claimWeight = (s.pc t).claimWeight) (hb : q.countWeight = (s.pc t).countWeight) :
    Counts s' :=
  h.moved hpc hset hq fun n _ => ⟨n, by omega, by omega⟩

/-- A notifier takes a task off the list for the one that it has counted out. -/
theorem claimed (h : Counts s) {task : τ} {all : Bool} (hclaims : (s.pc t).claims = true)
    (htask : task ∈ s.waitTasks) (hpc : s'.pc = update s.pc t (.notified all))
    (hset : s'.set = s.set) (hcount : s'.waitCount = s.waitCount)
    (hlist : s'.waitTasks = s.waitTasks.erase task) : Counts s' := by
  have hlen := List.length_erase_of_mem htask
  have hpos := List.length_pos_of_mem htask
  have hw : (s.pc t).flagWeight = 0 ∧ (s.pc t).claimWeight = 1 ∧ (s.pc t).countWeight = 0 := by
    cases hp : s.pc t <;> first | exact ⟨rfl, rfl, rfl⟩ | (rw [hp] at hclaims; cases hclaims)
  have hq : (CvPc.notified all : CvPc τ).flagWeight = 0 ∧
      (CvPc.notified all : CvPc τ).claimWeight = 0 ∧
      (CvPc.notified all : CvPc τ).countWeight = 0 := by
    cases all <;> exact ⟨rfl, rfl, rfl⟩
  refine h.moved hpc hset (by cases all <;> rfl) fun n _ => ⟨n, ?_, ?_⟩
  · omega
  · rw [hlist]
    omega

/-- A task that sleeps is woken. -/
theorem woken (h : Counts s) (task : τ) (hasleep : (s.pc task).isAsleep = true)
    (hpc : s'.pc = update s.pc task .woken) (hset : s'.set = s.set)
    (hcount : s'.waitCount = s.waitCount) (hlist : s'.waitTasks = s.waitTasks) : Counts s' := by
  refine h.plain hpc hset rfl hcount (by rw [hlist]) ?_ ?_ ?_ <;>
    cases hp : s.pc task <;> first | rfl | (rw [hp] at hasleep; cases hasleep)

theorem mutexUnlock (h : Counts s) : Counts s.mutexUnlock := by
  rw [CvState.mutexUnlock]
  split
  · exact ⟨h.notSet, h.inTime, h.tally⟩
  · split
    next hasleep => exact h.woken _ hasleep rfl rfl rfl rfl
    next => exact ⟨h.notSet, h.inTime, h.tally⟩

end Counts

/-! ## The steps -/

/-- Both invariants. -/
structure Inv (s : CvState τ) : Prop where
  placed : Placed s
  counts : Counts s

omit [Fintype τ] [DecidableEq τ] in
/-- Every task of the list sleeps. -/
theorem Placed.dropWhile_eq (h : Placed s) :
    (s.waitTasks.dropWhile fun task => !(s.pc task).isAsleep) = s.waitTasks := by
  cases hw : s.waitTasks with
  | nil => rfl
  | cons task rest =>
    have := h.asleep task (by simp [hw])
    simp [this]

omit [DecidableEq τ] in
/-- A notifier that has counted a task out finds one in the list. -/
theorem Inv.waitTasks_ne_nil (h : Inv s) (hspin : s.spin = none)
    (hclaims : (s.pc t).claims = true) : s.waitTasks ≠ [] := by
  obtain ⟨n, -, hn⟩ := h.counts.tally
  have hle := le_total CvPc.claimWeight s.pc t
  rw [h.placed.total_of_spin CvPc.countWeight_eq_zero hspin] at hn
  rw [CvPc.claimWeight, if_pos hclaims] at hle
  intro hnil
  rw [hnil, List.length_nil] at hn
  omega

omit [Fintype τ] in
/-- A notifier leaves `set`. -/
theorem Placed.notified (h : Placed s) (all : Bool) (hpc : (s.pc t).claims = true) :
    Placed { s.goto t (.notified all) with
      spin := if (s.pc t).inSection then none else s.spin } := by
  refine h.plain (t := t) (q := .notified all) ?_ ?_ rfl rfl rfl rfl rfl ?_ (.inr ⟨?_, rfl⟩) ?_
  · cases hp : s.pc t <;> first | rfl | (rw [hp] at hpc; cases hpc)
  · intro hp
    rw [hp] at hpc
    cases hpc
  · cases all <;> nofun
  · cases all <;> rfl
  · cases all <;> nofun

/-- `set` of a notifier, which has counted a task out. -/
theorem Inv.eventSet (h : Inv s) {all : Bool} (hspin : s.spin = none) (hpc : s.pc t = .set all) :
    Inv (s.eventSet t all) := by
  have hclaims : (s.pc t).claims = true := by rw [hpc]; rfl
  rw [CvState.eventSet, if_neg (by simp [h.counts.notSet]), h.placed.dropWhile_eq]
  split
  next hnil => exact absurd hnil (h.waitTasks_ne_nil hspin hclaims)
  next task rest hlist =>
    have htask : task ∈ s.waitTasks := by simp [hlist]
    have hne : task ≠ t := by
      rintro rfl
      have := h.placed.asleep task htask
      rw [hpc] at this
      cases this
    split
    next hfree =>
      constructor
      · have hleft := h.placed.notified all hclaims
        rw [hpc] at hleft
        rw [← hlist]
        exact hleft.wakeOwner hspin htask hfree
      · have hleft : Counts { s.goto t (.notified all) with waitTasks := s.waitTasks.erase task } :=
          h.counts.claimed hclaims htask rfl rfl rfl rfl
        rw [← hlist]
        refine hleft.woken task ?_ rfl rfl rfl rfl
        simp only [goto, update_of_ne hne]
        exact h.placed.asleep task htask
    next =>
      rw [← hlist]
      constructor
      · refine h.placed.plain (t := t) (q := .move all task) (by rw [hpc]; rfl) (by simp [hpc])
          rfl rfl rfl rfl rfl (by rintro _ ⟨⟩) (.inl ⟨rfl, rfl, .inr hspin⟩) ?_
        intro _ _ hmove
        cases hmove
        exact htask
      · exact h.counts.plain (t := t) (q := .move all task) rfl rfl rfl rfl rfl (by rw [hpc]; rfl)
          (by rw [hpc]; rfl) (by rw [hpc]; rfl)

/-- The rest of `set` when `try_lock` has failed. -/
theorem Inv.move (h : Inv s) {all : Bool} {task : τ} (hpc : s.pc t = .move all task) :
    Inv (if s.mutex = .free then
      { s.goto t (.notified all) with spin := none }.wakeOwner task
    else { s.goto t (.notified all) with spin := none }.moveTask task) := by
  have hclaims : (s.pc t).claims = true := by rw [hpc]; rfl
  have htask := h.placed.moves t all task hpc
  have hne : task ≠ t := by
    rintro rfl
    have := h.placed.asleep task htask
    rw [hpc] at this
    cases this
  have hleft := h.placed.notified all hclaims
  rw [hpc] at hleft
  have hcounts : Counts { s.goto t (.notified all) with
      spin := none, waitTasks := s.waitTasks.erase task } :=
    h.counts.claimed hclaims htask rfl rfl rfl rfl
  split
  next hfree =>
    refine ⟨hleft.wakeOwner rfl htask hfree, hcounts.woken task ?_ rfl rfl rfl rfl⟩
    simp only [goto, update_of_ne hne]
    exact h.placed.asleep task htask
  next => exact ⟨hleft.moveTask rfl htask, ⟨hcounts.notSet, hcounts.inTime, hcounts.tally⟩⟩

section

variable (h : Inv s) (hτ : Fintype.card τ < testFlag)

include h hτ

/-- The test flag is set. -/
theorem Inv.setFlag {timeout notifyCount : ℕ} (hpc : s.pc t = .setFlag timeout notifyCount) :
    Inv { s.goto t (.test timeout notifyCount) with waitCount := s.waitCount ||| testFlag } := by
  have hin : (s.pc t).inSection = true := by rw [hpc]; rfl
  constructor
  · exact h.placed.plain (t := t) (by rw [hpc]; rfl) (by rw [hpc]; nofun) rfl rfl rfl rfl rfl
      (fun o ho => h.placed.needs t o (by rw [hpc]; exact ho))
      (.inl ⟨rfl, (h.placed.spin t).mp hin, .inl hin⟩) nofun
  · refine h.counts.moved (t := t) (q := .test timeout notifyCount) rfl rfl rfl fun n hn =>
      ⟨n, ?_, ?_⟩
    · -- nobody else has the flag, so the bit is clear
      have hp : (s.pc t).flagWeight = 0 := by rw [hpc]; rfl
      have hq : (CvPc.test timeout notifyCount : CvPc τ).flagWeight = testFlag := rfl
      have hw := hn.1
      rw [h.placed.total_of_inSection CvPc.flagWeight_eq_zero hin, hp, Nat.add_zero] at hw
      have hor := Nat.two_pow_add_eq_or_of_lt (hn.lt h.placed hτ) 1
      rw [Nat.mul_one, Nat.or_comm] at hor
      rw [hp, hq]
      simp only [hw, testFlag, ← hor]
      omega
    · rw [hpc]
      rfl

/-- The wait has been notified: the flag is cleared, and the mutex is kept. -/
theorem Inv.clearFlag (hpc : s.pc t = .clearFlag) : Inv { s.goto t .woken with
      waitCount := s.waitCount &&& (testFlag - 1)
      mutexLock := update s.mutexLock t true
      spin := none } := by
  have hin : (s.pc t).inSection = true := by rw [hpc]; rfl
  have hown : s.mutex = .owned t := h.placed.needs t _ (by rw [hpc]; rfl)
  constructor
  · refine h.placed.moved (t := t) (q := .woken) (h.placed.not_mem (by rw [hpc]; rfl)) rfl rfl rfl
      (fun u hu => update_of_ne hu ..) (.inl rfl) (fun o ho => ?_) (fun _ => .inr rfl)
      (.inr ⟨rfl, by rw [if_pos hin]⟩) nofun
    simp only [CvPc.needs, update_self, if_true, Option.some.injEq] at ho
    rw [← ho]
    exact hown
  · refine h.counts.moved (t := t) (q := .woken) rfl rfl rfl fun n hn => ⟨n, ?_, ?_⟩
    · have hp : (s.pc t).flagWeight = testFlag := by rw [hpc]; rfl
      have hq : (CvPc.woken : CvPc τ).flagWeight = 0 := rfl
      have hw := hn.1
      rw [h.placed.total_of_inSection CvPc.flagWeight_eq_zero hin, hp] at hw
      have hlt := hn.lt h.placed hτ
      rw [hp, hq]
      simp only [hw, testFlag, Nat.and_two_pow_sub_one_eq_mod] at hlt ⊢
      omega
    · rw [hpc]
      rfl

/-- The thread is counted. The flag is carried out of the word. -/
theorem Inv.count {timeout : ℕ} (hpc : s.pc t = .count timeout) :
    Inv { s.goto t (.release timeout) with
      waitCount := (s.waitCount + (testFlag + 1)) % 2 ^ 32 } := by
  have hin : (s.pc t).inSection = true := by rw [hpc]; rfl
  constructor
  · exact h.placed.plain (t := t) (by rw [hpc]; rfl) (by rw [hpc]; nofun) rfl rfl rfl rfl rfl
      (fun o ho => h.placed.needs t o (by rw [hpc]; exact ho))
      (.inl ⟨rfl, (h.placed.spin t).mp hin, .inl hin⟩) nofun
  · have htime := h.counts.inTime t
    rw [hpc] at htime
    refine h.counts.moved (t := t) (q := .release timeout) rfl rfl htime fun n hn => ⟨n + 1, ?_, ?_⟩
    · have hp : (s.pc t).flagWeight = testFlag := by rw [hpc]; rfl
      have hq : (CvPc.release timeout : CvPc τ).flagWeight = 0 := rfl
      have hw := hn.1
      rw [h.placed.total_of_inSection CvPc.flagWeight_eq_zero hin, hp] at hw
      have hlt := hn.lt h.placed hτ
      rw [hp, hq]
      simp only [hw, testFlag] at hlt ⊢
      omega
    · rw [hpc]
      simp [CvPc.claimWeight, CvPc.countWeight, CvPc.claims, CvPc.counted, goto]

/-- A notifier counts a task out. -/
theorem Inv.claim {all : Bool} (hpc : s.pc t = .claim all) (hne : s.waitCount ≠ 0)
    (hflag : s.waitCount.testBit 31 = false) :
    Inv { s.goto t (.set all) with waitCount := s.waitCount - 1 } := by
  constructor
  · exact h.placed.plain (t := t) (by rw [hpc]; rfl) (by rw [hpc]; nofun) rfl rfl rfl rfl rfl nofun
      (.inr ⟨rfl, by simp [hpc, CvPc.inSection, goto]⟩) nofun
  · refine h.counts.moved (t := t) (q := .set all) rfl rfl rfl fun n hn => ?_
    have hzero : total CvPc.flagWeight s.pc = 0 := by
      cases hspin : s.spin with
      | none => exact h.placed.total_of_spin CvPc.flagWeight_eq_zero hspin
      | some u =>
        have hw := hn.1
        rw [h.placed.total_of_inSection CvPc.flagWeight_eq_zero ((h.placed.spin u).mpr hspin)]
          at hw ⊢
        rw [CvPc.flagWeight] at hw ⊢
        split
        next hu =>
          rw [if_pos hu, Nat.add_comm] at hw
          rw [hw, Nat.testBit_two_pow_add_eq, Nat.testBit_lt_two_pow (hn.lt h.placed hτ)] at hflag
          cases hflag
        next => rfl
    have hw := hn.1
    rw [hzero] at hw
    have hp : (s.pc t).flagWeight = 0 ∧ (s.pc t).claimWeight = 0 ∧ (s.pc t).countWeight = 0 := by
      rw [hpc]
      exact ⟨rfl, rfl, rfl⟩
    have hq : (CvPc.set all : CvPc τ).flagWeight = 0 ∧ (CvPc.set all : CvPc τ).claimWeight = 1 ∧
        (CvPc.set all : CvPc τ).countWeight = 0 := ⟨rfl, rfl, rfl⟩
    refine ⟨n - 1, ?_, ?_⟩
    · simp only
      omega
    · simp only [goto]
      omega

end

/-- A quiet move, to where the thread does not rely on the mutex or owns it. -/
theorem Inv.quiet (h : Inv s) {notifyCount : ℕ} (hpc : s.pc t = p) (hquiet : p.Quiet q)
    (hneeds : q.needs t (s.mutexLock t) = none ∨ s.mutex = .owned t ∧ q ≠ .woken) :
    Inv { s.goto t q with notifyCount } := by
  subst hpc
  refine ⟨h.placed.plain hquiet.listed hquiet.woken rfl rfl rfl rfl rfl (fun o ho => ?_) ?_
    fun all task hq => absurd hq (hquiet.move all task),
    h.counts.plain rfl rfl hquiet.inTime rfl rfl hquiet.flag hquiet.claim hquiet.count⟩
  · rcases hneeds with hn | ⟨hn, hq⟩
    · rw [hn] at ho
      cases ho
    · rw [hn]
      cases q <;> simp_all [CvPc.needs]
  · cases hin : (s.pc t).inSection with
    | true =>
      exact .inl ⟨hquiet.inSection.trans hin, (h.placed.spin t).mp hin, .inl rfl⟩
    | false => exact .inr ⟨hquiet.inSection.trans hin, rfl⟩

/-- **The step lemma** for a thread inside a routine. -/
theorem Inv.exec (h : Inv s) (hτ : Fintype.card τ < testFlag) (hok : s.Untimed (t, .run))
    (hst : s.exec t = some s') : Inv s' := by
  simp only [CvState.exec] at hst
  split at hst
  case h_1 | h_2 => cases hst
  case h_3 hpc =>
    split at hst
    next hg =>
      obtain ⟨⟩ := hst
      have hnot : t ∉ s.waitTasks := fun ht => by
        have := h.placed.asleep t ht
        rw [hpc] at this
        cases this
      exact ⟨h.placed.moved (t := t) (q := .idle) ⟨hnot, (h.placed.granted t hg).2⟩ rfl rfl rfl
          (fun _ _ => rfl) (.inr ⟨rfl, .inr hg⟩) (by rintro _ ⟨⟩) (by simp)
          (.inr ⟨rfl, by simp [hpc, CvPc.inSection, goto]⟩) (by simp),
        h.counts.plain (t := t) (q := .idle) rfl rfl rfl rfl rfl (by rw [hpc]; rfl)
          (by rw [hpc]; rfl) (by rw [hpc]; rfl)⟩
    next => cases hst
  case h_4 timeout hpc =>
    obtain ⟨⟩ := hst
    have hown : s.mutex = .owned t := h.placed.needs t _ (by rw [hpc]; rfl)
    exact h.quiet hpc ⟨rfl, by simp, rfl, rfl, rfl, rfl, by simp, rfl⟩ (.inr ⟨hown, by simp⟩)
  case h_5 timeout notifyCount hpc =>
    split at hst
    · cases hst
    next hspin =>
    rw [if_neg (by simp [h.counts.notSet])] at hst
    obtain ⟨⟩ := hst
    have hown : s.mutex = .owned t := h.placed.needs t _ (by rw [hpc]; rfl)
    refine ⟨h.placed.plain (t := t) (q := .setFlag timeout notifyCount) (by rw [hpc]; rfl)
        (by simp [hpc]) rfl rfl rfl rfl rfl (fun o ho => ?_)
        (.inl ⟨rfl, rfl, .inr (by simpa using hspin)⟩) (by simp),
      h.counts.plain (t := t) (q := .setFlag timeout notifyCount) rfl rfl rfl rfl rfl
        (by rw [hpc]; rfl) (by rw [hpc]; rfl) (by rw [hpc]; rfl)⟩
    cases ho
    exact hown
  case h_6 timeout notifyCount hpc =>
    obtain ⟨⟩ := hst
    exact h.setFlag hτ hpc
  case h_7 timeout notifyCount hpc =>
    obtain ⟨⟩ := hst
    have hown : s.mutex = .owned t := h.placed.needs t _ (by rw [hpc]; rfl)
    split
    next =>
      exact h.quiet hpc ⟨rfl, by simp, rfl, rfl, rfl, rfl, by simp, rfl⟩ (.inr ⟨hown, by simp⟩)
    next heq =>
      have htime : timeout ≠ 0 := by
        rintro rfl
        rw [← not_not.mp heq] at hpc
        exact hok hpc
      exact h.quiet hpc ⟨rfl, by simp, rfl, rfl, rfl, rfl, by simp,
        by simp [CvPc.outOfTime, htime]⟩ (.inr ⟨hown, by simp⟩)
  case h_8 hpc =>
    obtain ⟨⟩ := hst
    exact h.clearFlag hτ hpc
  case h_9 timeout hpc =>
    obtain rfl := Option.some.inj hst
    exact h.count hτ hpc
  case h_10 timeout hpc =>
    obtain ⟨⟩ := hst
    have hown : s.mutex = .owned t := h.placed.needs t _ (by rw [hpc]; rfl)
    have htime := h.counts.inTime t
    rw [hpc] at htime
    have hmoved : Inv (s.goto t (.insert timeout)) :=
      h.quiet hpc ⟨rfl, by simp, rfl, rfl, rfl, rfl, by simp, htime⟩ (.inl rfl)
    exact ⟨hmoved.placed.mutexUnlock (t := t) hown (by simp [goto, CvPc.needs]),
      hmoved.counts.mutexUnlock⟩
  case h_11 timeout hpc =>
    have htime := h.counts.inTime t
    rw [hpc] at htime
    rw [if_neg (by simpa [CvPc.outOfTime] using htime)] at hst
    obtain ⟨⟩ := hst
    refine ⟨h.placed.slept hpc, h.counts.moved (t := t) rfl rfl rfl fun n _ => ⟨n, ?_, ?_⟩⟩
    · rw [hpc]
      rfl
    · rw [hpc]
      simp [CvPc.claimWeight, CvPc.countWeight, CvPc.claims, CvPc.counted]
      omega
  case h_12 hpc =>
    have hneeds := h.placed.needs t _
      (show (s.pc t).needs t (s.mutexLock t) = some _ by rw [hpc]; rfl)
    have hout : (s.pc t).inSection = false := by rw [hpc]; rfl
    have hnot := h.placed.not_mem (t := t) (by rw [hpc]; rfl)
    have hspin : (s.goto t (.returns true)).spin =
        if (s.pc t).inSection then none else s.spin := by simp [hout, goto]
    split at hst
    next hlock =>
      obtain ⟨⟩ := hst
      rw [if_pos hlock] at hneeds
      refine ⟨h.placed.moved (t := t) (q := .returns true) hnot rfl rfl rfl (fun _ _ => rfl)
        (.inl rfl) (fun o ho => ?_) (fun hg => ?_) (.inr ⟨rfl, hspin⟩) (by simp),
        h.counts.plain (t := t) (q := .returns true) rfl rfl rfl rfl rfl (by rw [hpc]; rfl)
          (by rw [hpc]; rfl) (by rw [hpc]; rfl)⟩
      · cases ho
        exact hneeds
      · rw [show s.mutex = .granted t from hg] at hneeds
        cases hneeds
    next hlock =>
      obtain ⟨⟩ := hst
      rw [if_neg hlock] at hneeds
      rw [if_pos hneeds]
      refine ⟨h.placed.moved (t := t) (q := .returns true) hnot rfl rfl rfl (fun _ _ => rfl)
        (.inr ⟨rfl, .inr hneeds⟩) (fun o ho => ?_) (by simp) (.inr ⟨rfl, hspin⟩) (by simp),
        h.counts.plain (t := t) (q := .returns true) rfl rfl rfl rfl rfl (by rw [hpc]; rfl)
          (by rw [hpc]; rfl) (by rw [hpc]; rfl)⟩
      cases ho
      rfl
  case h_13 result hpc | h_14 all hpc =>
    obtain ⟨⟩ := hst
    exact h.quiet hpc ⟨rfl, by simp, rfl, rfl, rfl, rfl, by simp, rfl⟩ (.inl rfl)
  case h_15 all hpc =>
    split at hst
    next =>
      obtain ⟨⟩ := hst
      cases all <;>
        exact h.quiet hpc ⟨rfl, by simp, rfl, rfl, rfl, rfl, by rintro _ _ ⟨⟩, rfl⟩ (.inl rfl)
    next hne =>
      split at hst
      · obtain ⟨⟩ := hst
        exact h
      next hflag =>
        obtain ⟨⟩ := hst
        exact h.claim hτ hpc hne (by simpa using hflag)
  case h_16 all hpc =>
    split at hst
    · cases hst
    next hspin =>
      obtain ⟨⟩ := hst
      exact h.eventSet (by simpa using hspin) hpc
  case h_17 all task hpc =>
    obtain ⟨⟩ := hst
    exact h.move hpc
  case h_18 hpc =>
    obtain ⟨⟩ := hst
    split <;>
      exact h.quiet hpc ⟨rfl, by simp, rfl, rfl, rfl, rfl, by simp, rfl⟩ (.inl rfl)

theorem Inv.apply (h : Inv s) (hτ : Fintype.card τ < testFlag) {a : τ × CvAct} (hok : s.Untimed a)
    (hst : s.apply a = some s') : Inv s' := by
  obtain ⟨t, a⟩ := a
  cases a with
  | lock =>
    simp only [CvState.apply] at hst
    split at hst
    next hcan =>
      split at hst <;> obtain ⟨⟩ := hst
      next hfree =>
        refine ⟨h.placed.moved (t := t) (q := .idle) (h.placed.not_mem (by rw [hcan.1]; rfl)) ?_
          rfl rfl (fun _ _ => rfl) (.inr ⟨rfl, .inl hfree⟩) (by rintro _ ⟨⟩) (by simp)
          (.inr ⟨rfl, by simp [hcan.1, CvPc.inSection]⟩) (by simp),
          ⟨h.counts.notSet, h.counts.inTime, h.counts.tally⟩⟩
        rw [← hcan.1, Function.update_eq_self]
      next =>
        exact ⟨h.placed.locked hcan.1, h.counts.plain (t := t) (q := .locking) rfl rfl rfl rfl rfl
          (by rw [hcan.1]; rfl) (by rw [hcan.1]; rfl) (by rw [hcan.1]; rfl)⟩
    next => cases hst
  | unlock =>
    simp only [CvState.apply] at hst
    split at hst
    next hcan =>
      obtain ⟨⟩ := hst
      exact ⟨h.placed.mutexUnlock hcan.2 (by rw [hcan.1]; rfl), h.counts.mutexUnlock⟩
    next => cases hst
  | wait timeout =>
    simp only [CvState.apply] at hst
    split at hst
    next hcan =>
      obtain ⟨⟩ := hst
      exact h.quiet hcan.1 ⟨rfl, by simp, rfl, rfl, rfl, rfl, by simp, rfl⟩
        (.inr ⟨hcan.2, by simp⟩)
    next => cases hst
  | notifyOne | notifyAll =>
    simp only [CvState.apply] at hst
    split at hst
    next hpc =>
      obtain ⟨⟩ := hst
      exact h.quiet hpc ⟨rfl, by simp, rfl, rfl, rfl, rfl, by simp, rfl⟩ (.inl rfl)
    next => cases hst
  | run => exact h.exec hτ hok hst
  | timeout => exact absurd hok id

omit [DecidableEq τ] in
theorem inv_initial (notifyCount : ℕ) (mutexLock : τ → Bool) :
    Inv (initial notifyCount mutexLock) := by
  have hidle : ∀ w : CvPc τ → ℕ, w .idle = 0 → total w (initial notifyCount mutexLock).pc = 0 :=
    fun w hw => total_eq_zero fun _ => hw
  refine ⟨⟨nofun, nofun, List.nodup_nil, nofun, nofun, fun t => ⟨nofun, nofun⟩, nofun⟩,
    rfl, fun _ => rfl, 0, ?_, ?_⟩
  · rw [hidle _ rfl]
    rfl
  · rw [hidle _ rfl, hidle _ rfl]
    rfl

/-- **`wait` returns with the mutex, and `m_waitCount` is right.** In every run of
fewer than `m_testFlag` threads in which no wait runs out of time, a thread owns
the mutex whenever its `wait` returns, and the count, less its flag, is the number
of threads that are blocked in `wait` and not claimed by a notifier. -/
theorem wait_reacquires (hτ : Fintype.card τ < testFlag)
    (hs : ((cvMachine τ).guard Untimed).Reachable s) :
    (∀ t result, s.pc t = .returns result → s.mutex = .owned t) ∧
      s.waitCount % testFlag + (Finset.univ.filter fun t => (s.pc t).claims = true).card =
        (Finset.univ.filter s.Blocked).card := by
  have h : Inv s := hs.invariant
    (fun s ⟨notifyCount, mutexLock, h⟩ => by
      subst h
      exact inv_initial notifyCount mutexLock)
    fun _ _ _ h hst => h.apply hτ hst.1 hst.2
  refine ⟨fun t result ht => h.placed.needs t _ (by rw [ht]; rfl), ?_⟩
  obtain ⟨n, hn⟩ := h.counts.tally
  have hlt := hn.lt h.placed hτ
  have hcount : s.waitCount % testFlag = n := by
    rw [hn.1]
    cases hspin : s.spin with
    | none =>
      rw [h.placed.total_of_spin CvPc.flagWeight_eq_zero hspin]
      exact Nat.mod_eq_of_lt hlt
    | some u =>
      rw [h.placed.total_of_inSection CvPc.flagWeight_eq_zero ((h.placed.spin u).mpr hspin),
        CvPc.flagWeight]
      split
      · rw [Nat.add_mod_right, Nat.mod_eq_of_lt hlt]
      · exact Nat.mod_eq_of_lt hlt
  have hclaims := total_ite (fun p : CvPc τ => p.claims = true) s.pc
  rw [hcount, h.placed.card_blocked, ← hn.2, ← hclaims]
  rfl

/-- A thread waits, and another notifies it while it owns the mutex. -/
theorem wait_reacquires_moved : ∃ s : CvState Bool,
    (s.pc true = .returns true ∧ s.mutex = .owned true) ∧
      s.waitCount % testFlag + (Finset.univ.filter fun t => (s.pc t).claims = true).card =
        (Finset.univ.filter s.Blocked).card := by
  obtain ⟨s, hs, hend⟩ := Machine.Reachable.exists_of_guard (M := cvMachine Bool) Untimed
    (P := fun s => decide (s.pc true = .returns true)) (fun _ _ _ h => h)
    ([(true, .lock), (true, .wait waitInfinite)] ++ List.replicate 7 (true, .run) ++
      [(false, .lock), (false, .notifyOne), (false, .run), (false, .run), (false, .run),
        (false, .run), (false, .unlock), (true, .run)])
    (.init ⟨0, fun _ => true, rfl⟩) (by decide +kernel)
  have hret := of_decide_eq_true hend
  have h := wait_reacquires (by decide) hs
  exact ⟨s, ⟨hret, h.1 true true hret⟩, h.2⟩

/-- **`wait` returns without the mutex.** The thread sleeps with a timeout, and
`shedule` ends its sleep. Nothing takes the mutex for it, and it stays counted. -/
theorem wait_timeout_without_mutex : ∃ s : CvState Bool,
    (cvMachine Bool).Reachable s ∧ s.pc true = .returns false ∧ s.mutex = .free ∧
      s.waitCount = 1 ∧ ¬ s.Blocked true := by
  obtain ⟨s, hs, hend⟩ := Machine.Reachable.exists_of_foldlM (M := cvMachine Bool)
    (P := fun s => decide (s.pc true = .returns false ∧ s.mutex = .free ∧ s.waitCount = 1 ∧
      ¬ s.Blocked true))
    (fun _ _ _ h => h)
    ([(true, .lock), (true, .wait 10)] ++ List.replicate 7 (true, .run) ++ [(true, .timeout)])
    (.init ⟨0, fun _ => true, rfl⟩) (by decide +kernel)
  exact ⟨s, hs, of_decide_eq_true hend⟩

end CvState

end ShmDos64
