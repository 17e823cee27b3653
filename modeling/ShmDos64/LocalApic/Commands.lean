import ShmDos64.Common.Run
/-!
# Commands of the local APIC

`sendCommand` waits until the last command is delivered, writes the destination
to the high half of the interrupt command register and the command to the low
half, which sends it. Interrupts are not disabled, so that a handler can come in
between with commands of its own; what runs on one processor is a stack of calls,
of which the last goes on.
-/

namespace ShmDos64

/-- `apicIcrModeAll`. -/
abbrev apicIcrModeAll : BitVec 32 := 3#32 <<< 18

/-- `apicIcrModeFixed`. -/
abbrev apicIcrModeFixed : BitVec 32 := 0#32 <<< 8

/-- `apicIcrLevelAssert`. -/
abbrev apicIcrLevelAssert : BitVec 32 := 1#32 <<< 14

/-- The calls that handlers make. -/
inductive IpiCall where
  | sendIpi (cpuId : BitVec 32) (vector : BitVec 8)
  | sendBroadcastIpi (vector : BitVec 8)
  deriving DecidableEq

namespace IpiCall

/-- What `sendCommand` writes to `InterruptCommandHi`. -/
def destination : IpiCall → BitVec 32
  | sendIpi cpuId _ => cpuId <<< 24
  | sendBroadcastIpi _ => 0xFF#32 <<< 24

/-- What `sendCommand` writes to `InterruptCommandLo`. -/
def command : IpiCall → BitVec 32
  | sendIpi _ vector => apicIcrModeFixed ||| apicIcrLevelAssert ||| vector.setWidth 32
  | sendBroadcastIpi vector =>
    apicIcrModeAll ||| apicIcrModeFixed ||| apicIcrLevelAssert ||| vector.setWidth 32

/-- The destination counts: a broadcast goes to all. -/
def isIpi : IpiCall → Bool
  | sendIpi _ _ => true
  | sendBroadcastIpi _ => false

end IpiCall

/-- What a call is about to do. -/
inductive IpiStage where
  /-- `waitIpi`. -/
  | wait
  | writeHi
  | writeLo
  deriving DecidableEq

/-- A call in progress. -/
structure IpiFrame where
  call : IpiCall
  stage : IpiStage
  deriving DecidableEq

/-- One processor: its command register, and its calls with the innermost
first. -/
structure IcrState where
  /-- `InterruptCommandHi`. -/
  hi : BitVec 32
  /-- `InterruptCommandLo`, as it was written last. -/
  lo : BitVec 32
  /-- `apicIcrStatusPending`. -/
  pending : Bool
  calls : List IpiFrame

/-- The steps of the processor and of its local APIC. -/
inductive IcrAct where
  /-- A call, of a handler when others are in progress. -/
  | call (call : IpiCall)
  /-- The next step of the innermost call. -/
  | run
  /-- The local APIC has delivered the command. -/
  | delivered

namespace IcrState

/-- A step of a call that has others below it. -/
def exec (s : IcrState) (frame : IpiFrame) (below : List IpiFrame) : IcrState :=
  match frame.stage with
  | .wait =>
    if s.pending then s else { s with calls := { frame with stage := .writeHi } :: below }
  | .writeHi =>
    { s with
      hi := frame.call.destination
      calls := { frame with stage := .writeLo } :: below }
  | .writeLo => { s with lo := frame.call.command, pending := true, calls := below }

/-- A step. -/
def apply (s : IcrState) : IcrAct → Option IcrState
  | .call call => some { s with calls := ⟨call, .wait⟩ :: s.calls }
  | .run =>
    match s.calls with
    | [] => none
    | frame :: below => some (s.exec frame below)
  | .delivered => some { s with pending := false }

/-- A command that interrupts a `sendIpi` between its two writes has the same
destination. -/
def KeepsHi (s : IcrState) : IcrAct → Prop
  | .run =>
    match s.calls with
    | ⟨call, .writeHi⟩ :: below => ∀ frame ∈ below, frame.stage = .writeLo →
        frame.call.isIpi = true → frame.call.destination = call.destination
    | _ => True
  | _ => True

instance (s : IcrState) (a : IcrAct) : Decidable (s.KeepsHi a) := by
  unfold KeepsHi
  split
  · split <;> infer_instance
  · infer_instance

end IcrState

/-- The nestings of calls on one processor. -/
def icrMachine : Machine IcrState IcrAct where
  init s := s.calls = []
  step s a t := s.apply a = some t

namespace IcrState

variable {s t : IcrState}

/-- **The invariant.** Each `sendIpi` that has written the high half, interrupted
or not, still has its destination there. -/
def HiHeld (s : IcrState) : Prop :=
  ∀ frame ∈ s.calls, frame.stage = .writeLo → frame.call.isIpi = true →
    s.hi = frame.call.destination

theorem HiHeld.exec {frame : IpiFrame} {below : List IpiFrame} (h : s.HiHeld)
    (hcalls : s.calls = frame :: below) (hkeep : s.KeepsHi .run) : (s.exec frame below).HiHeld := by
  have hbelow : ∀ f ∈ below, f ∈ s.calls := fun f hf => by simp [hcalls, hf]
  obtain ⟨call, stage⟩ := frame
  intro f hf hstage hipi
  cases stage with
  | wait =>
    by_cases hpending : s.pending = true
    · simp only [IcrState.exec, hpending, if_true] at hf ⊢
      exact h f hf hstage hipi
    · simp only [IcrState.exec, hpending] at hf ⊢
      rcases List.mem_cons.mp hf with rfl | hf
      · cases hstage
      · exact h f (hbelow f hf) hstage hipi
  | writeHi =>
    rcases List.mem_cons.mp hf with rfl | hf
    · rfl
    · simp only [KeepsHi, hcalls] at hkeep
      exact (hkeep f hf hstage hipi).symm
  | writeLo => exact h f (hbelow f hf) hstage hipi

/-- **The step lemma.** -/
theorem HiHeld.apply (h : s.HiHeld) {a : IcrAct} (hkeep : s.KeepsHi a) (hst : s.apply a = some t) :
    t.HiHeld := by
  cases a with
  | call call =>
    obtain ⟨⟩ := hst
    intro frame hframe hstage hipi
    rcases List.mem_cons.mp hframe with rfl | hframe
    · cases hstage
    · exact h frame hframe hstage hipi
  | run =>
    simp only [IcrState.apply] at hst
    split at hst
    next => cases hst
    next frame below hcalls =>
      obtain ⟨⟩ := hst
      exact h.exec hcalls hkeep
  | delivered =>
    obtain ⟨⟩ := hst
    exact h

/-- **An IPI goes where it was sent.** In every nesting in which no `sendIpi` is
interrupted between its two writes by a command for another destination, the high
half holds the destination of a `sendIpi` whenever it writes the low half. -/
theorem sendIpi_reaches (hs : (icrMachine.guard KeepsHi).Reachable s) {cpuId : BitVec 32}
    {vector : BitVec 8} {below : List IpiFrame}
    (hcalls : s.calls = ⟨.sendIpi cpuId vector, .writeLo⟩ :: below) : s.hi = cpuId <<< 24 := by
  have h : s.HiHeld := hs.invariant
    (fun s h frame hframe => by
      rw [show s.calls = [] from h] at hframe
      cases hframe)
    fun _ _ _ h hst => h.apply hst.1 hst.2
  have hdest := h ⟨.sendIpi cpuId vector, .writeLo⟩ (by simp [hcalls]) rfl rfl
  rwa [IpiCall.destination] at hdest

/-- No call is in progress. -/
def idle : IcrState := ⟨0, 0, false, []⟩

/-- A broadcast interrupts a `sendIpi` before its first write. -/
theorem sendIpi_reaches_interrupted : ∃ s : IcrState,
    s.calls = [⟨.sendIpi 3 0xF4, .writeLo⟩] ∧ s.hi = 3#32 <<< 24 := by
  obtain ⟨s, hs, hend⟩ := Machine.Reachable.exists_of_guard (M := icrMachine) KeepsHi
    (P := fun s => decide (s.calls = [⟨.sendIpi 3 0xF4, .writeLo⟩])) (fun _ _ _ h => h)
    [.call (.sendIpi 3 0xF4), .run, .call (.sendBroadcastIpi 0xF2), .run, .run, .run, .delivered,
      .run]
    (.init (s := idle) rfl) (by decide +kernel)
  have hcalls := of_decide_eq_true hend
  exact ⟨s, hcalls, sendIpi_reaches hs hcalls⟩

/-- **An IPI goes astray.** The broadcast of the timer comes between the two writes
of a `sendIpi`, and leaves its own destination behind. -/
theorem sendIpi_astray : ∃ s : IcrState,
    icrMachine.Reachable s ∧ s.calls = [⟨.sendIpi 3 0xF4, .writeLo⟩] ∧
      s.hi = 0xFF#32 <<< 24 ∧ s.hi ≠ 3#32 <<< 24 := by
  obtain ⟨s, hs, hend⟩ := Machine.Reachable.exists_of_foldlM (M := icrMachine)
    (P := fun s => decide (s.calls = [⟨.sendIpi 3 0xF4, .writeLo⟩] ∧ s.hi = 0xFF#32 <<< 24 ∧
      s.hi ≠ 3#32 <<< 24))
    (fun _ _ _ h => h)
    [.call (.sendIpi 3 0xF4), .run, .run, .call (.sendBroadcastIpi 0xF2), .run, .run, .run]
    (.init (s := idle) rfl) (by decide +kernel)
  exact ⟨s, hs, of_decide_eq_true hend⟩

end IcrState

end ShmDos64
