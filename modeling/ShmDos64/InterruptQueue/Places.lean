import ShmDos64.InterruptQueue.Consumers
/-!
# Where a consumer is

As long as no timeout fires, a task in `pop` that does not run is in one
place: in the wait list of its queue, taken by a call of `push`, in the
realtime list, or found by a processor. It sleeps in the first, and until the
call of `push` writes its state. A timeout takes a task from none of them:
it runs and may leave `pop`, and the wait list still has it.
-/

namespace ShmDos64

open Function (update update_of_ne update_self)

/-- The task sleeps. -/
def TaskState.asleep : TaskState → Bool
  | sleep => true
  | timedSleep => true
  | _ => false

section

variable {τ π : Type*} [DecidableEq τ] {place : τ → π} {task : τ} {p p' : π} {A A' : τ → Prop}

/-- Only the task comes to the place, or leaves it. -/
theorem moved (h : ∀ t, A t ↔ place t = p) (hother : ∀ t, t ≠ task → (A' t ↔ A t))
    (htask : A' task ↔ p' = p) (t : τ) : A' t ↔ update place task p' t = p := by
  by_cases ht : t = task
  · rw [ht, update_self]
    exact htask
  · rw [update_of_ne ht, hother t ht]
    exact h t

/-- The task is in the place neither before nor after. -/
theorem unmoved (h : ∀ t, A t ↔ place t = p) (hp : place task ≠ p) (hp' : p' ≠ p) (t : τ) :
    A t ↔ update place task p' t = p :=
  moved h (fun _ _ => Iff.rfl) (iff_of_false (fun ha => hp ((h task).mp ha)) hp') t

end

/-- Where a task can be. -/
inductive ConsumerPlace (κ ω ε : Type*) where
  /-- It runs, or waits for a processor. -/
  | free
  | listed (queue : ε)
  | taken (call : ω) (stage : PushStage)
  | realtime
  | found (cpu : κ) (stage : SheduleStage)

namespace ConsumerState

variable {κ ω τ ε ι : Type*} {s s' : ConsumerState κ ω τ ε ι}

section

variable (s : ConsumerState κ ω τ ε ι)

/-- The task is in `pop` of the queue. -/
def InPop (queue : ε) (task : τ) : Prop :=
  (s.pc task).queue = some queue

/-- The task is blocked in `pop` of the queue: it sleeps there, and no call of
`push` has come to wake it. -/
def Blocked (queue : ε) (task : τ) : Prop :=
  s.InPop queue task ∧ (s.state task).asleep = true ∧
    ∀ call stage, s.call call ≠ some (stage, task)

/-- The wait lists hold the tasks that are blocked, each once, and a task that
`push` is about to wake sleeps. -/
structure ListsBlocked (s : ConsumerState κ ω τ ε ι) : Prop where
  lists : ∀ queue, ∃ l, Chain s.realtimeNext (s.waitHead queue) l ∧
    s.waitTail queue = l.getLast? ∧ l.Nodup ∧ ∀ task, task ∈ l ↔ s.Blocked queue task
  wakes : ∀ call stage task, s.call call = some (stage, task) → stage ≠ .insert →
    (s.state task).asleep = true

/-- What is known of a task in a place. -/
def TaskOk (task : τ) : ConsumerPlace κ ω ε → Prop
  | .free => (s.state task = .active ∨ s.state task = .wait) ∧
      ((s.pc task).queue ≠ none → s.waitEventResult task = 0)
  | .listed queue => s.InPop queue task ∧ (s.state task).asleep = true
  | .taken _ .result => (s.pc task).queue ≠ none ∧ (s.state task).asleep = true
  | .taken _ .state => (s.pc task).queue ≠ none ∧ (s.state task).asleep = true ∧
      s.waitEventResult task = 0
  | .taken _ .insert | .realtime | .found _ _ => (s.pc task).queue ≠ none ∧
      s.state task = .priorityWait ∧ s.waitEventResult task = 0

end

/-- A task in a place sleeps or waits with priority. -/
theorem TaskOk.state {task : τ} {p : ConsumerPlace κ ω ε} (h : s.TaskOk task p) (hp : p ≠ .free) :
    (s.state task).asleep = true ∨ s.state task = .priorityWait := by
  cases p with
  | free => exact absurd rfl hp
  | listed => exact .inl h.2
  | taken call stage =>
    cases stage with
    | result => exact .inl h.2
    | state => exact .inl h.2.1
    | insert => exact .inr h.2.1
  | realtime | found => exact .inr h.2.1

theorem TaskOk.inPop {task : τ} {p : ConsumerPlace κ ω ε} (h : s.TaskOk task p) (hp : p ≠ .free) :
    (s.pc task).queue ≠ none := by
  cases p with
  | free => exact absurd rfl hp
  | listed queue => exact fun hnone => nomatch h.1.symm.trans hnone
  | taken call stage => cases stage <;> exact h.1
  | realtime | found => exact h.1

theorem TaskOk.congr {task : τ} {p : ConsumerPlace κ ω ε} (h : s.TaskOk task p)
    (hstate : s'.state task = s.state task) (hpc : s'.pc task = s.pc task)
    (hresult : s'.waitEventResult task = s.waitEventResult task) : s'.TaskOk task p := by
  rcases p with _ | _ | ⟨_, _ | _ | _⟩ | _ | _ <;>
    simpa only [TaskOk, InPop, hstate, hpc, hresult] using h

/-- The wait lists and the realtime list are the lists, and each task is in
its place and in no other. -/
structure Placed (s : ConsumerState κ ω τ ε ι) (lists : ε → List τ) (realtime : List τ)
    (place : τ → ConsumerPlace κ ω ε) : Prop where
  chain : ∀ queue, Chain s.realtimeNext (s.waitHead queue) (lists queue)
  tail : ∀ queue, s.waitTail queue = (lists queue).getLast?
  nodup : ∀ queue, (lists queue).Nodup
  listed : ∀ queue task, task ∈ lists queue ↔ place task = .listed queue
  realtimeChain : Chain s.realtimeNext s.realtimeListHead realtime
  realtimeNodup : realtime.Nodup
  realtime : ∀ task, task ∈ realtime ↔ place task = .realtime
  taken : ∀ call stage task,
    s.call call = some (stage, task) ↔ place task = .taken call stage
  found : ∀ cpu stage task, s.cpu cpu = some (stage, task) ↔ place task = .found cpu stage
  ok : ∀ task, s.TaskOk task (place task)

section

variable [DecidableEq τ] [DecidableEq ε]

/-- What a task that goes to sleep changes. -/
structure Sleeps (s s' : ConsumerState κ ω τ ε ι) (task : τ) (queue : ε) (timeout : ℕ) :
    Prop where
  next : s'.realtimeNext = Chain.linkTail s.realtimeNext (s.waitTail queue) task
  head : s'.waitHead = update s.waitHead queue
    (if s.waitTail queue = none then some task else s.waitHead queue)
  tail : s'.waitTail = update s.waitTail queue (some task)
  state : s'.state =
    update s.state task (if timeout ≠ waitInfinite then .timedSleep else .sleep)
  result : s'.waitEventResult = update s.waitEventResult task waitError
  pc : s'.pc = update s.pc task (.waiting queue timeout)
  queue : s'.queue = s.queue
  listHead : s'.realtimeListHead = s.realtimeListHead
  call : s'.call = s.call
  cpu : s'.cpu = s.cpu

theorem sleepOn_sleeps (s : ConsumerState κ ω τ ε ι) (task : τ) (queue : ε) (timeout : ℕ) :
    Sleeps s (s.sleepOn task queue timeout) task queue timeout := by
  unfold sleepOn enqueue prepareToSleep
  constructor <;> dsimp only <;> cases s.waitTail queue
  all_goals first
    | rfl
    | simp

end

namespace Placed

variable {lists : ε → List τ} {realtime : List τ} {place : τ → ConsumerPlace κ ω ε}
variable {task : τ} {queue : ε}

/-! ## What the places say -/

section

variable (h : s.Placed lists realtime place)

include h

theorem ok_at {p : ConsumerPlace κ ω ε} (hp : place task = p) :
    s.TaskOk task p :=
  hp ▸ h.ok task

/-- A task that runs, or waits for a processor, is in no other place. -/
theorem free_of_state
    (hstate : s.state task = .active ∨ s.state task = .wait) : place task = .free := by
  by_contra hp
  rcases (h.ok task).state hp with hasleep | hwait
  · rcases hstate with hs | hs <;> rw [hs] at hasleep <;> cases hasleep
  · rcases hstate with hs | hs <;> rw [hs] at hwait <;> cases hwait

/-- **The lists hold the blocked tasks.** -/
theorem listsBlocked : s.ListsBlocked := by
  refine ⟨fun q => ⟨lists q, h.chain q, h.tail q, h.nodup q, fun t => ?_⟩, ?_⟩
  · rw [h.listed]
    constructor
    · intro hp
      obtain ⟨hpop, hasleep⟩ := h.ok_at hp
      refine ⟨hpop, hasleep, fun w stage hw => ?_⟩
      have := (h.taken w stage t).mp hw
      rw [hp] at this
      cases this
    · rintro ⟨hpop, hasleep, hcall⟩
      have hok := h.ok t
      cases hp : place t with
      | free =>
        rw [hp] at hok
        rcases hok.1 with hs | hs <;> rw [hs] at hasleep <;> cases hasleep
      | listed q' =>
        rw [hp] at hok
        have hq : some q' = some q := hok.1.symm.trans hpop
        rw [Option.some.inj hq]
      | taken w stage => exact absurd ((h.taken w stage t).mpr hp) (hcall w stage)
      | realtime | found =>
        rw [hp] at hok
        rw [hok.2.1] at hasleep
        cases hasleep
  · intro w stage t hw hstage
    have hok := h.ok_at ((h.taken w stage t).mp hw)
    cases stage with
    | result => exact hok.2
    | state => exact hok.2.1
    | insert => exact absurd rfl hstage

end

/-! ## Moves -/

section

variable [DecidableEq τ] {p p' : ConsumerPlace κ ω ε}

/-- What one call or processor has changes: it had nothing or the task, and it
has nothing or the task. -/
theorem slot {α β : Type*} [DecidableEq α] {f : α → Option (β × τ)} {a : α} {v : Option (β × τ)}
    {g : α → β → ConsumerPlace κ ω ε} (h : ∀ b stage t, f b = some (stage, t) ↔ place t = g b stage)
    (hold : ∀ stage t, f a = some (stage, t) → t = task)
    (hnew : ∀ stage t, v = some (stage, t) ↔ t = task ∧ p' = g a stage)
    (hother : ∀ b, b ≠ a → ∀ stage, place task ≠ g b stage ∧ p' ≠ g b stage) (b : α) (stage : β) :
    ∀ t, update f a v b = some (stage, t) ↔ update place task p' t = g b stage := by
  by_cases hb : b = a
  · subst hb
    rw [update_self]
    refine moved (h b stage) (fun t ht => ?_) ((hnew stage task).trans (and_iff_right rfl))
    exact iff_of_false (fun hv => ht ((hnew stage t).mp hv).1) fun hf => ht (hold stage t hf)
  · rw [update_of_ne hb]
    exact unmoved (h b stage) (hother b hb stage).1 (hother b hb stage).2

theorem ok_update (h : s.Placed lists realtime place)
    (hstate : ∀ t, t ≠ task → s'.state t = s.state t) (hpc : ∀ t, t ≠ task → s'.pc t = s.pc t)
    (hresult : ∀ t, t ≠ task → s'.waitEventResult t = s.waitEventResult t) (hok : s'.TaskOk task p')
    (t : τ) : s'.TaskOk t (update place task p' t) := by
  by_cases ht : t = task
  · rw [ht, update_self]
    exact hok
  · rw [update_of_ne ht]
    exact (h.ok t).congr (hstate t ht) (hpc t ht) (hresult t ht)

end

variable [DecidableEq τ] {stage : PushStage} {call : ω} {cpu : κ}

section

variable (h : s.Placed lists realtime place)

include h

/-- The task falls asleep, at the end of the wait list. -/
theorem sleeps [DecidableEq ε] (htask : place task = .free) {timeout : ℕ}
    (hs : Sleeps s s' task queue timeout) :
    s'.Placed (update lists queue (lists queue ++ [task])) realtime
      (update place task (.listed queue)) := by
  have hunlisted : ∀ q, task ∉ lists q := fun q hm => by
    rw [h.listed, htask] at hm
    cases hm
  have hqtail : ∀ t, s.waitTail queue = some t → place t = .listed queue := fun t ht => by
    rw [h.tail] at ht
    exact (h.listed queue t).mp (List.mem_of_mem_getLast? ht)
  -- only the task and the old tail have new links
  have hlink : ∀ t, place t ≠ .free → place t ≠ .listed queue →
      s'.realtimeNext t = s.realtimeNext t := fun t hfree hp => by
    have ht : t ≠ task := fun heq => hfree (heq ▸ htask)
    rw [hs.next, Chain.linkTail_of_ne ht, if_neg fun hc => hp (hqtail t hc)]
  refine ⟨fun q => ?_, fun q => ?_, fun q => ?_, fun q => ?_, ?_, h.realtimeNodup, ?_, ?_, ?_, ?_⟩
  · rw [hs.head]
    by_cases hq : q = queue
    · subst hq
      rw [update_self, update_self, h.tail]
      refine (h.chain q).append (h.nodup q) ?_ fun t ht => ?_
      · rw [hs.next]
        exact Chain.linkTail_self fun hc => hunlisted q ((h.listed q task).mpr (hqtail task hc))
      · rw [hs.next, Chain.linkTail_of_ne (ne_of_mem_of_not_mem ht (hunlisted q)), h.tail]
    · rw [update_of_ne hq, update_of_ne hq]
      refine (h.chain q).congr fun t ht => ?_
      rw [h.listed] at ht
      refine hlink t (by rw [ht]; exact nofun) ?_
      rw [ht]
      exact fun heq => hq (ConsumerPlace.listed.inj heq)
  · rw [hs.tail]
    by_cases hq : q = queue
    · rw [hq, update_self, update_self, List.getLast?_concat]
    · rw [update_of_ne hq, update_of_ne hq, h.tail]
  · by_cases hq : q = queue
    · rw [hq, update_self]
      exact List.nodup_append_comm.mp (List.nodup_cons.mpr ⟨hunlisted queue, h.nodup queue⟩)
    · rw [update_of_ne hq]
      exact h.nodup q
  · by_cases hq : q = queue
    · rw [hq, update_self]
      refine moved (h.listed queue) (fun t ht => ?_) ?_
      · simp [ht]
      · simp
    · rw [update_of_ne hq]
      refine unmoved (h.listed q) (by rw [htask]; exact nofun) ?_
      exact fun heq => hq (ConsumerPlace.listed.inj heq).symm
  · rw [hs.listHead]
    refine h.realtimeChain.congr fun t ht => ?_
    rw [h.realtime] at ht
    exact hlink t (by rw [ht]; exact nofun) (by rw [ht]; exact nofun)
  · exact unmoved h.realtime (by rw [htask]; exact nofun) nofun
  · rw [hs.call]
    exact fun w stage => unmoved (h.taken w stage) (by rw [htask]; exact nofun) nofun
  · rw [hs.cpu]
    exact fun c stage => unmoved (h.found c stage) (by rw [htask]; exact nofun) nofun
  · refine h.ok_update (fun t ht => ?_) (fun t ht => ?_) (fun t ht => ?_) ⟨?_, ?_⟩
    · rw [hs.state, update_of_ne ht]
    · rw [hs.pc, update_of_ne ht]
    · rw [hs.result, update_of_ne ht]
    · rw [InPop, hs.pc, update_self]
      rfl
    · rw [hs.state, update_self]
      split <;> rfl

variable {state : τ → TaskState}

/-- A task that is free gets an item or leaves `pop`, or changes between
active and waiting. -/
theorem runs (htask : place task = .free) (queues : ε → InterruptQueue ι)
    {pc : τ → PopPc ε} (hstate : ∀ t, t ≠ task → state t = s.state t)
    (hpc : ∀ t, t ≠ task → pc t = s.pc t)
    (hok : TaskOk { s with queue := queues, state := state, pc := pc } task .free) :
    Placed { s with queue := queues, state := state, pc := pc } lists realtime place := by
  have hself : update place task .free = place := by rw [← htask, Function.update_eq_self]
  refine ⟨h.chain, h.tail, h.nodup, h.listed, h.realtimeChain, h.realtimeNodup, h.realtime,
    h.taken, h.found, ?_⟩
  rw [← hself]
  exact h.ok_update hstate hpc (fun _ _ => rfl) hok

omit [DecidableEq τ] in
/-- An item is pushed and no task woken. -/
theorem pushes (queues : ε → InterruptQueue ι) :
    Placed { s with queue := queues } lists realtime place :=
  ⟨h.chain, h.tail, h.nodup, h.listed, h.realtimeChain, h.realtimeNodup, h.realtime, h.taken,
    h.found, h.ok⟩

/-- `push` takes the first task of the wait list. -/
theorem takes [DecidableEq ε] [DecidableEq ω] (hcall : s.call call = none)
    (hhead : s.waitHead queue = some task) (queues : ε → InterruptQueue ι) : Placed { s with
      queue := queues
      waitHead := update s.waitHead queue (s.realtimeNext task)
      waitTail :=
        if s.realtimeNext task = none then update s.waitTail queue none else s.waitTail
      call := update s.call call (some (.result, task)) }
      (update lists queue (lists queue).tail) realtime
      (update place task (.taken call .result)) := by
  obtain ⟨l, hl⟩ : ∃ l, lists queue = task :: l := by
    have hfirst := (h.chain queue).head_eq
    rw [hhead] at hfirst
    exact ⟨_, (List.head?_eq_some_iff.mp hfirst.symm).choose_spec⟩
  have hchain := h.chain queue
  have hnd := h.nodup queue
  rw [hl] at hchain hnd
  have htask : place task = .listed queue := by
    rw [← h.listed, hl]
    exact List.mem_cons_self
  have hrest := hchain.2.head_eq
  refine ⟨fun q => ?_, fun q => ?_, fun q => ?_, fun q => ?_, h.realtimeChain, h.realtimeNodup, ?_,
    fun w stage => ?_, ?_, ?_⟩
  · by_cases hq : q = queue
    · subst hq
      simp only [update_self, hl, List.tail_cons]
      exact hchain.2
    · simp only [update_of_ne hq]
      exact h.chain q
  · by_cases hq : q = queue
    · subst hq
      simp only [update_self, hl, List.tail_cons, hrest]
      cases l with
      | nil => simp
      | cons y l =>
        simp only [List.head?_cons, reduceCtorEq, ↓reduceIte, h.tail, hl, List.getLast?_cons_cons]
    · simp only [update_of_ne hq]
      split
      · rw [update_of_ne hq]
        exact h.tail q
      · exact h.tail q
  · by_cases hq : q = queue
    · rw [hq, update_self, hl]
      exact (List.nodup_cons.mp hnd).2
    · rw [update_of_ne hq]
      exact h.nodup q
  · by_cases hq : q = queue
    · rw [hq, update_self]
      refine moved (h.listed queue) (fun t ht => ?_) ?_
      · simp [hl, ht]
      · rw [hl]
        exact iff_of_false (List.nodup_cons.mp hnd).1 nofun
    · rw [update_of_ne hq]
      refine unmoved (h.listed q) ?_ nofun
      rw [htask]
      exact fun heq => hq (ConsumerPlace.listed.inj heq).symm
  · exact unmoved h.realtime (by rw [htask]; exact nofun) nofun
  · refine slot h.taken (by simp [hcall]) (fun stage t => ?_) (fun b hb stage => ?_) w stage
    · simp [eq_comm, and_comm]
    · exact ⟨by rw [htask]; exact nofun, by simp [Ne.symm hb]⟩
  · exact fun c stage => unmoved (h.found c stage) (by rw [htask]; exact nofun) nofun
  · refine h.ok_update (fun _ _ => rfl) (fun _ _ => rfl) (fun _ _ => rfl) ?_
    obtain ⟨hpop, hasleep⟩ := h.ok_at htask
    exact ⟨by rw [show (s.pc task).queue = some queue from hpop]; exact nofun, hasleep⟩

/-- `push` goes on with the task it has taken. -/
theorem advances [DecidableEq ω] {next : PushStage} (hcall : s.call call = some (stage, task))
    {result : τ → ℕ} (hstate : ∀ t, t ≠ task → state t = s.state t)
    (hresult : ∀ t, t ≠ task → result t = s.waitEventResult t)
    (hok : TaskOk { s with state := state, waitEventResult := result } task (.taken call next)) :
    Placed { s with
      state := state, waitEventResult := result
      call := update s.call call (some (next, task)) }
      lists realtime (update place task (.taken call next)) := by
  have htask := (h.taken call stage task).mp hcall
  refine ⟨h.chain, h.tail, h.nodup, fun q => ?_, h.realtimeChain, h.realtimeNodup, ?_, ?_,
    fun c st => ?_, ?_⟩
  · exact unmoved (h.listed q) (by rw [htask]; exact nofun) nofun
  · exact unmoved h.realtime (by rw [htask]; exact nofun) nofun
  · refine slot h.taken (fun st t ht => ?_) (fun st t => ?_) (fun b hb st => ?_)
    · rw [hcall] at ht
      exact (Prod.mk.inj (Option.some.inj ht)).2.symm
    · simp [eq_comm, and_comm]
    · rw [htask]
      exact ⟨by simp [Ne.symm hb], by simp [Ne.symm hb]⟩
  · exact unmoved (h.found c st) (by rw [htask]; exact nofun) nofun
  · exact h.ok_update hstate (fun _ _ => rfl) hresult (hok.congr rfl rfl rfl)

/-- `addWaitTaskRealtime` puts the task into the realtime list. -/
theorem inserts [DecidableEq ω] (hcall : s.call call = some (.insert, task)) : Placed { s with
      realtimeNext := update s.realtimeNext task s.realtimeListHead
      realtimeListHead := some task
      call := update s.call call none }
      lists (task :: realtime) (update place task .realtime) := by
  have htask := (h.taken call .insert task).mp hcall
  have hnotin : task ∉ realtime := fun hm => by
    rw [h.realtime, htask] at hm
    cases hm
  refine ⟨fun q => ?_, h.tail, h.nodup, fun q => ?_, ?_, ?_, ?_, ?_, fun c st => ?_, ?_⟩
  · refine (h.chain q).congr fun t ht => update_of_ne ?_ ..
    rintro rfl
    rw [h.listed, htask] at ht
    cases ht
  · exact unmoved (h.listed q) (by rw [htask]; exact nofun) nofun
  · refine h.realtimeChain.push (update_self ..) fun t ht => ?_
    exact update_of_ne (ne_of_mem_of_not_mem ht hnotin) ..
  · exact List.nodup_cons.mpr ⟨hnotin, h.realtimeNodup⟩
  · exact moved h.realtime (fun t ht => by simp [ht]) (by simp)
  · refine slot h.taken (fun st t ht => ?_) (fun st t => ?_) (fun b hb st => ?_)
    · rw [hcall] at ht
      exact (Prod.mk.inj (Option.some.inj ht)).2.symm
    · simp
    · rw [htask]
      exact ⟨by simp [Ne.symm hb], nofun⟩
  · exact unmoved (h.found c st) (by rw [htask]; exact nofun) nofun
  · refine h.ok_update (fun _ _ => rfl) (fun _ _ => rfl) (fun _ _ => rfl) ?_
    exact h.ok_at htask

/-- A processor takes the first task of the realtime list. -/
theorem finds [DecidableEq κ] (hcpu : s.cpu cpu = none) (hhead : s.realtimeListHead = some task) :
    Placed { s with
      realtimeListHead := s.realtimeNext task
      cpu := update s.cpu cpu (some (.popped, task)) }
      lists realtime.tail (update place task (.found cpu .popped)) := by
  obtain ⟨l, rfl⟩ : ∃ l, realtime = task :: l := by
    have hfirst := h.realtimeChain.head_eq
    rw [hhead] at hfirst
    exact ⟨_, (List.head?_eq_some_iff.mp hfirst.symm).choose_spec⟩
  have htask : place task = .realtime := (h.realtime task).mp List.mem_cons_self
  obtain ⟨hnotin, hnd⟩ := List.nodup_cons.mp h.realtimeNodup
  refine ⟨h.chain, h.tail, h.nodup, fun q => ?_, h.realtimeChain.2, hnd, ?_, fun w st => ?_, ?_, ?_⟩
  · exact unmoved (h.listed q) (by rw [htask]; exact nofun) nofun
  · exact moved h.realtime (fun t ht => by simp [ht]) (iff_of_false hnotin nofun)
  · exact unmoved (h.taken w st) (by rw [htask]; exact nofun) nofun
  · refine slot h.found (by simp [hcpu]) (fun st t => ?_) (fun b hb st => ?_)
    · simp [eq_comm, and_comm]
    · exact ⟨by rw [htask]; exact nofun, by simp [Ne.symm hb]⟩
  · refine h.ok_update (fun _ _ => rfl) (fun _ _ => rfl) (fun _ _ => rfl) ?_
    exact h.ok_at htask

/-- The task a processor has found changes its stage, or is free again. -/
theorem leaves [DecidableEq κ] {stage : SheduleStage} (hcpu : s.cpu cpu = some (stage, task))
    {p : ConsumerPlace κ ω ε} {v : Option (SheduleStage × τ)}
    (hv : v = some (.chosen, task) ∧ p = .found cpu .chosen ∨ v = none ∧ p = .free)
    (hstate : ∀ t, t ≠ task → state t = s.state t)
    (hok : TaskOk { s with state := state } task p) :
    Placed { s with state := state, cpu := update s.cpu cpu v } lists realtime
      (update place task p) := by
  have htask := (h.found cpu stage task).mp hcpu
  have hp : ∀ b, b ≠ cpu → ∀ st, p ≠ .found b st := by
    rintro b hb st rfl
    rcases hv with ⟨-, hv⟩ | ⟨-, hv⟩ <;> simp_all
  refine ⟨h.chain, h.tail, h.nodup, fun q => ?_, h.realtimeChain, h.realtimeNodup, ?_,
    fun w st => ?_, ?_, ?_⟩
  · refine unmoved (h.listed q) (by rw [htask]; exact nofun) ?_
    rcases hv with ⟨-, rfl⟩ | ⟨-, rfl⟩ <;> exact nofun
  · refine unmoved h.realtime (by rw [htask]; exact nofun) ?_
    rcases hv with ⟨-, rfl⟩ | ⟨-, rfl⟩ <;> exact nofun
  · refine unmoved (h.taken w st) (by rw [htask]; exact nofun) ?_
    rcases hv with ⟨-, rfl⟩ | ⟨-, rfl⟩ <;> exact nofun
  · refine slot h.found (fun st t ht => ?_) (fun st t => ?_) (fun b hb st => ?_)
    · rw [hcpu] at ht
      exact (Prod.mk.inj (Option.some.inj ht)).2.symm
    · rcases hv with ⟨rfl, rfl⟩ | ⟨rfl, rfl⟩
      · simp [eq_comm, and_comm]
      · simp
    · rw [htask]
      exact ⟨by simp [Ne.symm hb], hp b hb st⟩
  · exact h.ok_update hstate (fun _ _ => rfl) (fun _ _ => rfl) (hok.congr rfl rfl rfl)

end

end Placed

/-! ## Runs -/

section

variable [DecidableEq κ] [DecidableEq ω] [DecidableEq τ] [DecidableEq ε]
variable {lists lists' : ε → List τ} {realtime : List τ} {place : τ → ConsumerPlace κ ω ε}

/-- What a step does to the items, and to the tasks in `pop`. -/
inductive Moves (s s' : ConsumerState κ ω τ ε ι) (lists lists' : ε → List τ) : Prop
  | stays (hqueue : s'.queue = s.queue) (hpc : s'.pc = s.pc) (hlists : lists' = lists)
  /-- A task gets an item. -/
  | pops (task : τ) (queue : ε) (item : ι) (rest : InterruptQueue ι)
      (hpop : (s.queue queue).pop = some (item, rest))
      (hqueue : s'.queue = update s.queue queue rest)
      (htask : s.pc task = .outside ∨ s.InPop queue task)
      (hpc : s'.pc = update s.pc task .outside) (hlists : lists' = lists)
  /-- A task goes to sleep. -/
  | sleeps (task : τ) (queue : ε) (timeout : ℕ) (hpop : (s.queue queue).pop = none)
      (hqueue : s'.queue = s.queue) (htask : s.pc task = .outside ∨ s.InPop queue task)
      (hpc : s'.pc = update s.pc task (.waiting queue timeout))
      (hlists : lists' = update lists queue (lists queue ++ [task]))
  /-- An item comes, and the first task that sleeps is taken. -/
  | pushes (queue : ε) (item : ι) (longer : InterruptQueue ι)
      (hpush : (s.queue queue).push item = some longer)
      (hqueue : s'.queue = update s.queue queue longer) (hpc : s'.pc = s.pc)
      (hlists : lists' = update lists queue (lists queue).tail)

/-- No timeout fires for a task in `pop`. -/
def NoTimeout (s : ConsumerState κ ω τ ε ι) : ConsumerAct κ ω τ ε ι → Prop
  | .timeout _ task => (s.pc task).queue = none
  | _ => True

omit [DecidableEq κ] [DecidableEq ω] in
theorem popRound_placed (h : s.Placed lists realtime place) {task : τ} {queue : ε} (timeout : ℕ)
    (hactive : s.state task = .active) (htask : s.pc task = .outside ∨ s.InPop queue task) :
    ∃ lists' place', (s.popRound task queue timeout).Placed lists' realtime place' ∧
      Moves s (s.popRound task queue timeout) lists lists' := by
  have hfree := h.free_of_state (.inl hactive)
  unfold popRound
  split
  · rename_i item rest hpop
    refine ⟨lists, place, h.runs hfree _ (fun _ _ => rfl) (fun t ht => ?_) ⟨.inl hactive, ?_⟩,
      .pops task queue item rest hpop rfl htask rfl rfl⟩
    · exact update_of_ne ht ..
    · intro hne
      dsimp only at hne
      rw [update_self] at hne
      exact absurd rfl hne
  · rename_i hpop
    have hsleeps := sleepOn_sleeps s task queue timeout
    exact ⟨_, _, h.sleeps hfree hsleeps,
      .sleeps task queue timeout hpop hsleeps.queue htask hsleeps.pc rfl⟩

/-- **Each step but a timeout keeps the tasks in their places.** -/
theorem step_placed (h : s.Placed lists realtime place) {a : ConsumerAct κ ω τ ε ι}
    (hno : s.NoTimeout a) (hs : s.apply a = some s') :
    ∃ lists' realtime' place', s'.Placed lists' realtime' place' ∧ Moves s s' lists lists' := by
  cases a with
  | pop task queue timeout =>
    simp only [apply, Option.ite_some_none_eq_some] at hs
    obtain ⟨⟨hout, hactive⟩, rfl⟩ := hs
    obtain ⟨lists', place', hp, hm⟩ := popRound_placed h timeout hactive (.inl hout)
    exact ⟨lists', _, place', hp, hm⟩
  | resume task =>
    simp only [apply] at hs
    split at hs
    · cases hs
    · rename_i queue timeout hpc
      have hin : s.InPop queue task := by rw [InPop, hpc]; rfl
      simp only [Option.ite_none_right_eq_some] at hs
      obtain ⟨hactive, hs⟩ := hs
      have hresult : s.waitEventResult task = 0 :=
        (h.ok_at (h.free_of_state (.inl hactive))).2 (by rw [hpc]; exact nofun)
      rw [if_neg (not_not.mpr hresult), Option.some.injEq] at hs
      subst hs
      obtain ⟨lists', place', hp, hm⟩ := popRound_placed h timeout hactive (.inr hin)
      exact ⟨lists', _, place', hp, hm⟩
  | push call queue item =>
    simp only [apply, Option.ite_some_none_eq_some] at hs
    obtain ⟨hcall, rfl⟩ := hs
    unfold pushItem
    split
    · exact ⟨_, _, _, h, .stays rfl rfl rfl⟩
    · rename_i longer hpush
      cases hhead : s.waitHead queue with
      | none =>
        refine ⟨_, _, _, h.pushes _, .pushes queue item longer hpush rfl rfl ?_⟩
        have hnil : lists queue = [] := by
          have := (h.chain queue).head_eq
          rw [hhead] at this
          exact List.head?_eq_none_iff.mp this.symm
        rw [hnil, List.tail_nil, ← hnil, Function.update_eq_self]
      | some task =>
        exact ⟨_, _, _, h.takes hcall hhead _, .pushes queue item longer hpush rfl rfl rfl⟩
  | call call =>
    simp only [apply, execCall] at hs
    split at hs
    · cases hs
    · rename_i task hcall
      obtain ⟨⟩ := hs
      obtain ⟨hpop, hasleep⟩ := h.ok_at ((h.taken _ _ _).mp hcall)
      refine ⟨_, _, _, h.advances hcall (fun _ _ => rfl) (fun t ht => ?_) ⟨hpop, hasleep, ?_⟩,
        .stays rfl rfl rfl⟩
      · exact update_of_ne ht ..
      · exact update_self ..
    · rename_i task hcall
      obtain ⟨⟩ := hs
      obtain ⟨hpop, hasleep, hresult⟩ := h.ok_at ((h.taken _ _ _).mp hcall)
      refine ⟨_, _, _, h.advances hcall (fun t ht => ?_) (fun _ _ => rfl) ⟨hpop, ?_, hresult⟩,
        .stays rfl rfl rfl⟩
      · exact update_of_ne ht ..
      · exact update_self ..
    · rename_i task hcall
      obtain ⟨⟩ := hs
      exact ⟨_, _, _, h.inserts hcall, .stays rfl rfl rfl⟩
  | cpu cpu =>
    simp only [apply, execCpu] at hs
    split at hs
    · rename_i hcpu
      obtain ⟨task, hhead, rfl⟩ := Option.map_eq_some_iff.mp hs
      exact ⟨_, _, _, h.finds hcpu hhead, .stays rfl rfl rfl⟩
    · rename_i task hcpu
      obtain ⟨⟩ := hs
      have hok := h.ok_at ((h.found _ _ _).mp hcpu)
      refine ⟨_, _, _, h.leaves hcpu (.inl ⟨?_, rfl⟩) (fun _ _ => rfl) hok, .stays rfl rfl rfl⟩
      exact if_pos hok.2.1
    · rename_i task hcpu
      obtain ⟨⟩ := hs
      have hok := h.ok_at ((h.found _ _ _).mp hcpu)
      refine ⟨_, _, _, h.leaves hcpu (.inr ⟨rfl, rfl⟩) (fun t ht => ?_) ⟨.inl ?_, fun _ => ?_⟩,
        .stays rfl rfl rfl⟩
      · exact update_of_ne ht ..
      · exact update_self ..
      · exact hok.2.2
  | timeout cpu task =>
    simp only [apply, Option.ite_some_none_eq_some] at hs
    obtain ⟨⟨-, hstate⟩, rfl⟩ := hs
    -- a task outside `pop` does not sleep
    have hfree : place task = .free := by
      by_contra hp
      exact (h.ok task).inPop hp hno
    rcases (h.ok_at hfree).1 with hs | hs <;> rw [hs] at hstate <;> cases hstate
  | preempt task =>
    simp only [apply, Option.ite_some_none_eq_some] at hs
    obtain ⟨hactive, rfl⟩ := hs
    have hfree := h.free_of_state (.inl hactive)
    refine ⟨_, _, _, h.runs hfree _ (fun t ht => ?_) (fun _ _ => rfl) ⟨.inr ?_, ?_⟩,
      .stays rfl rfl rfl⟩
    · exact update_of_ne ht ..
    · exact update_self ..
    · exact (h.ok_at hfree).2
  | dispatch task =>
    simp only [apply, Option.ite_some_none_eq_some] at hs
    obtain ⟨hwait, rfl⟩ := hs
    have hfree := h.free_of_state (.inr hwait)
    refine ⟨_, _, _, h.runs hfree _ (fun t ht => ?_) (fun _ _ => rfl) ⟨.inl ?_, ?_⟩,
      .stays rfl rfl rfl⟩
    · exact update_of_ne ht ..
    · exact update_self ..
    · exact (h.ok_at hfree).2

omit [DecidableEq κ] [DecidableEq ω] [DecidableEq τ] [DecidableEq ε] in
/-- At first all tasks are free. -/
theorem init_placed (hlist : ∀ q, s.waitHead q = none ∧ s.waitTail q = none)
    (hrealtime : s.realtimeListHead = none)
    (htask : ∀ t, s.pc t = .outside ∧ (s.state t = .active ∨ s.state t = .wait))
    (hcall : ∀ w, s.call w = none) (hcpu : ∀ c, s.cpu c = none) :
    s.Placed (fun _ => []) [] fun _ => .free := by
  refine ⟨fun q => (hlist q).1, fun q => (hlist q).2, fun _ => List.nodup_nil, fun _ _ => ?_,
    hrealtime, List.nodup_nil, fun _ => ?_, fun w _ _ => ?_, fun c _ _ => ?_, fun t => ?_⟩
  · exact iff_of_false List.not_mem_nil nofun
  · exact iff_of_false List.not_mem_nil nofun
  · rw [hcall]
    exact iff_of_false nofun nofun
  · rw [hcpu]
    exact iff_of_false nofun nofun
  · refine ⟨(htask t).2, fun hne => ?_⟩
    rw [(htask t).1] at hne
    exact absurd rfl hne

/-- **Without timeouts, the wait lists hold the blocked consumers.** In every
run in which no timeout fires for a task in `pop`, each wait list holds exactly
the tasks that are blocked in `pop` of its queue, each once, and `push` wakes
only tasks that sleep. -/
theorem pop_lists_blocked (h : ((consumerMachine κ ω τ ε ι).guard NoTimeout).Reachable s) :
    s.ListsBlocked := by
  have hplaced : ∃ lists realtime place, s.Placed lists realtime place := by
    refine h.invariant (I := fun s => ∃ lists realtime place, s.Placed lists realtime place) ?_ ?_
    · rintro s ⟨hqueue, hrealtime, htask, hcall, hcpu⟩
      exact ⟨_, _, _, init_placed (fun q => (hqueue q).2) hrealtime htask hcall hcpu⟩
    · rintro s a s' ⟨lists, realtime, place, hp⟩ ⟨hno, hs⟩
      obtain ⟨lists', realtime', place', hp', -⟩ := step_placed hp hno hs
      exact ⟨lists', realtime', place', hp'⟩
  obtain ⟨lists, realtime, place, hp⟩ := hplaced
  exact hp.listsBlocked

instance (s : ConsumerState κ ω τ ε ι) (a : ConsumerAct κ ω τ ε ι) : Decidable (s.NoTimeout a) :=
  match a with
  | .timeout _ task => inferInstanceAs (Decidable ((s.pc task).queue = none))
  | .pop _ _ _ | .resume _ | .push _ _ _ | .call _ | .cpu _ | .preempt _ | .dispatch _ =>
    isTrue trivial

end

/-- Two consumers and a producer, with one processor and a queue of two
nodes. -/
def twoConsumers : ConsumerState Unit Unit Bool Unit ℕ where
  queue _ := .new 2 fun _ => 0
  waitHead _ := none
  waitTail _ := none
  state _ := .active
  waitEventResult _ := 0
  realtimeNext _ := none
  realtimeListHead := none
  pc _ := .outside
  call _ := none
  cpu _ := none

theorem twoConsumers_init : (consumerMachine Unit Unit Bool Unit ℕ).init twoConsumers :=
  ⟨fun _ => ⟨⟨2, _, rfl⟩, rfl, rfl⟩, rfl, fun _ => ⟨rfl, .inl rfl⟩, fun _ => rfl, fun _ => rfl⟩

/-- Both sleep, one with a timeout, and a `push` has taken the first. -/
theorem pop_lists_blocked_push : ∃ s : ConsumerState Unit Unit Bool Unit ℕ,
    (s.waitHead () = some true ∧ s.call () = some (.result, false)) ∧ s.ListsBlocked := by
  obtain ⟨s, hs, hend⟩ := Machine.Reachable.exists_of_guard
    (M := consumerMachine Unit Unit Bool Unit ℕ) NoTimeout
    (P := fun s => decide (s.waitHead () = some true ∧ s.call () = some (.result, false)))
    (fun _ _ _ h => h)
    [.pop false () waitInfinite, .pop true () 5, .push () () 7]
    (.init twoConsumers_init) (by decide +kernel)
  exact ⟨s, of_decide_eq_true hend, pop_lists_blocked hs⟩

/-- **A task that timed out stays in the wait list.** It calls `pop` with a
timeout, and `pop` returns false: the task is not in `pop` any more, and is
the head of the list. -/
theorem pop_timeout_stays_listed : ∃ s : ConsumerState Unit Unit Bool Unit ℕ,
    (consumerMachine Unit Unit Bool Unit ℕ).Reachable s ∧ s.pc false = .outside ∧
      s.waitHead () = some false ∧ ¬ s.ListsBlocked := by
  obtain ⟨s, hs, hend⟩ := Machine.Reachable.exists_of_foldlM
    (M := consumerMachine Unit Unit Bool Unit ℕ)
    (P := fun s => decide (s.pc false = .outside ∧ s.waitHead () = some false))
    (fun _ _ _ hst => hst) [.pop false () 5, .timeout () false, .cpu (), .resume false]
    (.init twoConsumers_init) (by decide +kernel)
  obtain ⟨hout, hhead⟩ := of_decide_eq_true hend
  refine ⟨s, hs, hout, hhead, fun hb => ?_⟩
  obtain ⟨l, hchain, -, -, hmem⟩ := hb.lists ()
  have hfirst := hchain.head_eq
  rw [hhead] at hfirst
  have hpop : s.InPop () false := ((hmem false).mp (List.mem_of_mem_head? hfirst.symm)).1
  rw [InPop, hout] at hpop
  cases hpop

end ConsumerState

end ShmDos64
