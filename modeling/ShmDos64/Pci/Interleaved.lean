import ShmDos64.Common.Run
import ShmDos64.Pci.Legacy
/-!
# Legacy accesses side by side

Every `PciLegacy` has a mutex of its own, which it holds during a call; the
two ports are the same for all. So the operations of calls of different
objects can come in any order, and a call can find the register of another
device selected. `Separate` says when that does not happen.
-/

namespace ShmDos64

namespace PortProg

variable {α : Type*}

/-- The next port operation. -/
def next : PortProg α → PciPorts → Option (PortProg α × PciPorts)
  | .ret _, _ => none
  | .outAddress addr rest, hw => some (rest, { hw with address := addr })
  | .inData rest, hw => some (rest (hw.inData false), hw)
  | .outData value rest, hw => some (rest, hw.outData false value)

/-- The value of a program that has come to its end. -/
def returned : PortProg α → Option α
  | .ret a => some a
  | .outAddress _ _ | .inData _ | .outData _ _ => none

/-- The next operation reads or writes a register. -/
def Transfers : PortProg α → Prop
  | .ret _ | .outAddress _ _ => False
  | .inData _ | .outData _ _ => True

theorem next_alone {p p' : PortProg α} {hw hw' : PciPorts} (h : p.next hw = some (p', hw')) :
    p.run false hw = p'.run false hw' ∧ ∀ n, p.Own n hw → p'.Own n hw' := by
  cases p with
  | ret a => cases h
  | outAddress addr rest =>
    obtain ⟨⟩ := h
    exact ⟨rfl, fun n hown => hown⟩
  | inData rest | outData value rest =>
    obtain ⟨⟩ := h
    exact ⟨rfl, fun n hown => hown.2⟩

theorem Own.transfers {n : ℕ} {p : PortProg α} {hw : PciPorts} (h : p.Own n hw) (hp : p.Transfers) :
    hw.function = n := by
  cases p with
  | ret a | outAddress addr rest => exact hp.elim
  | inData rest | outData value rest => exact h.1

end PortProg

/-- A call in progress, with the registers as they were when it began. -/
structure RunningCall where
  call : PciCall
  start : ℕ → ℕ → BitVec 8
  prog : PortProg PciCall.Result

/-- The ports, and the call each `PciLegacy` has in progress: its `m_mutex`
lets in one at a time. -/
structure PciState (ω : Type*) where
  hw : PciPorts
  running : ω → Option RunningCall

/-- The steps of the calls. -/
inductive PciAct (ω : Type*) where
  /-- A call takes the mutex of its object. -/
  | start (o : ω) (c : PciCall)
  /-- Its next port operation. -/
  | port (o : ω)
  /-- It returns. -/
  | ret (o : ω)

namespace PciState

open Function (update update_of_ne update_self)

variable {ω : Type*} [DecidableEq ω] {dev : ω → PciAddress} {s t : PciState ω} {o : ω}

def setRunning (s : PciState ω) (o : ω) (r : Option RunningCall) : PciState ω :=
  { s with running := update s.running o r }

theorem setRunning_self (s : PciState ω) (o : ω) (r : Option RunningCall) :
    (s.setRunning o r).running o = r :=
  update_self ..

theorem setRunning_of_ne {o o' : ω} (h : o' ≠ o) (s : PciState ω) (r : Option RunningCall) :
    (s.setRunning o r).running o' = s.running o' :=
  update_of_ne h ..

/-- A call at its beginning. -/
def beginCall (dev : ω → PciAddress) (s : PciState ω) (o : ω) (c : PciCall) : RunningCall :=
  ⟨c, s.hw.config, c.legacy (dev o).address⟩

/-- A step; `dev o` is the device of the object `o`. -/
def apply (dev : ω → PciAddress) (s : PciState ω) : PciAct ω → Option (PciState ω)
  | .start o c =>
    match s.running o with
    | some _ => none
    | none => some (s.setRunning o (some (beginCall dev s o c)))
  | .port o =>
    match s.running o with
    | none => none
    | some r => (r.prog.next s.hw).map fun q =>
        { s with hw := q.2 }.setRunning o (some { r with prog := q.1 })
  | .ret o =>
    match (s.running o).bind fun r => r.prog.returned with
    | none => none
    | some _ => some (s.setRunning o none)

end PciState

/-- The runs of the calls of some objects. -/
def pciMachine {ω : Type*} [DecidableEq ω] (dev : ω → PciAddress) :
    Machine (PciState ω) (PciAct ω) where
  init s := ∀ o, s.running o = none
  step s a t := s.apply dev a = some t

namespace PciState

open Function (update)

variable {ω : Type*} [DecidableEq ω] {dev : ω → PciAddress} {s t : PciState ω} {o : ω}

/-- A call begins when no other is in progress, and its register lies as
`PciLegacy` expects. -/
def Separate (s : PciState ω) : PciAct ω → Prop
  | .start _ c => (∀ o, s.running o = none) ∧ c.Fits
  | .port _ | .ret _ => True

/-- A call in progress is the only one, and what is left of it does what the
call is to do. -/
structure OnTrack (dev : ω → PciAddress) (s : PciState ω) (o : ω) (r : RunningCall) : Prop where
  only : ∀ o', o' ≠ o → s.running o' = none
  own : r.prog.Own (dev o).number s.hw
  result : (r.prog.run false s.hw).1 = r.call.value (r.start (dev o).number)
  config : (r.prog.run false s.hw).2.config =
    update r.start (dev o).number (r.call.effect (r.start (dev o).number))

theorem onTrack_start {c : PciCall} (hnone : ∀ o, s.running o = none) (hc : c.Fits) (o : ω) :
    OnTrack dev (s.setRunning o (some (beginCall dev s o c))) o (beginCall dev s o c) := by
  have h := legacy_alone (a := dev o) c hc s.hw
  refine ⟨fun o' ho' => ?_, h.own, h.result, h.config⟩
  rw [setRunning_of_ne ho', hnone]

theorem onTrack_port {r : RunningCall} {p : PortProg PciCall.Result} {hw : PciPorts}
    (h : OnTrack dev s o r) (hnext : r.prog.next s.hw = some (p, hw)) :
    OnTrack dev ({ s with hw := hw }.setRunning o (some { r with prog := p })) o
      { r with prog := p } := by
  obtain ⟨hrun, hown⟩ := PortProg.next_alone hnext
  refine ⟨fun o' ho' => ?_, hown _ h.own, ?_, ?_⟩
  · rw [setRunning_of_ne ho']
    exact h.only o' ho'
  · exact (congrArg Prod.fst hrun).symm.trans h.result
  · exact (congrArg (fun q => q.2.config) hrun).symm.trans h.config

/-- Every call in progress is on track. -/
def AllOnTrack (dev : ω → PciAddress) (s : PciState ω) : Prop :=
  ∀ o r, s.running o = some r → OnTrack dev s o r

theorem AllOnTrack.step (h : AllOnTrack dev s) {a : PciAct ω} (ha : s.Separate a)
    (hst : s.apply dev a = some t) : AllOnTrack dev t := by
  intro o' r' hr'
  cases a with
  | start o c =>
    obtain ⟨hnone, hc⟩ := ha
    simp only [apply, hnone o, Option.some.injEq] at hst
    subst hst
    by_cases ho : o' = o
    · subst ho
      rw [setRunning_self] at hr'
      obtain ⟨⟩ := hr'
      exact onTrack_start hnone hc o'
    · rw [setRunning_of_ne ho, hnone o'] at hr'
      cases hr'
  | port o =>
    simp only [apply] at hst
    split at hst
    · cases hst
    · rename_i r hr
      obtain ⟨⟨p, hw⟩, hnext, rfl⟩ := Option.map_eq_some_iff.mp hst
      have ho : o' = o := by
        by_contra ho
        rw [setRunning_of_ne ho] at hr'
        cases hr'.symm.trans ((h o r hr).only o' ho)
      subst ho
      rw [setRunning_self] at hr'
      obtain ⟨⟩ := hr'
      exact onTrack_port (h o' r hr) hnext
  | ret o =>
    simp only [apply] at hst
    split at hst
    · cases hst
    · obtain ⟨⟩ := hst
      by_cases ho : o' = o
      · rw [ho, setRunning_self] at hr'
        cases hr'
      · rw [setRunning_of_ne ho] at hr'
        have hr := h o' r' hr'
        refine ⟨fun o'' ho'' => ?_, hr.own, hr.result, hr.config⟩
        by_cases heq : o'' = o
        · rw [heq, setRunning_self]
        · rw [setRunning_of_ne heq, hr.only o'' ho'']

/-- **Calls that are kept apart do not mix devices.** In every run in which a
call begins only when no other is in progress, each operation on the data port
is on a register of the call's own device; and a call that has come to its end
returns the value its register had, or has written its register and no other. -/
theorem legacy_calls_apart (h : ((pciMachine dev).guard Separate).Reachable s) {r : RunningCall}
    (hr : s.running o = some r) : (r.prog.Transfers → s.hw.function = (dev o).number) ∧
    ∀ v, r.prog.returned = some v → v = r.call.value (r.start (dev o).number) ∧
      s.hw.config = update r.start (dev o).number (r.call.effect (r.start (dev o).number)) := by
  have hall : AllOnTrack dev s := by
    refine h.invariant (I := AllOnTrack dev) (fun s hs o r hr => ?_) ?_
    · rw [hs o] at hr
      cases hr
    · rintro s a t hs ⟨ha, hst⟩
      exact hs.step ha hst
  have hon := hall o r hr
  refine ⟨hon.own.transfers, fun v hv => ?_⟩
  obtain ⟨c, start, p⟩ := r
  cases p with
  | ret a =>
    obtain ⟨⟩ := hv
    exact ⟨hon.result, hon.config⟩
  | outAddress addr rest | inData rest | outData value rest => cases hv

/-- Two devices of bus 0. -/
def twoDevices : Bool → PciAddress
  | false => ⟨0, 0, 0⟩
  | true => ⟨0, 1, 0⟩

/-- All registers hold the number of their function. -/
def numbered : PciState Bool :=
  ⟨⟨0, fun n _ => BitVec.ofNat 8 n⟩, fun _ => none⟩

instance (s : PciState Bool) (a : PciAct Bool) : Decidable (s.Separate a) :=
  match a with
  | .start _ (.read w reg) =>
    inferInstanceAs (Decidable ((∀ o, s.running o = none) ∧
      (reg + w.bits / 8 ≤ 256 ∧ (w ≠ .w8 → reg % 4 = 0))))
  | .start _ (.write w reg _) =>
    inferInstanceAs (Decidable ((∀ o, s.running o = none) ∧
      (reg + w.bits / 8 ≤ 256 ∧ (w ≠ .w8 → reg % 4 = 0))))
  | .port _ | .ret _ => isTrue trivial

/-- One device is written, and then the other read. -/
theorem legacy_calls_apart_read : ∃ (s : PciState Bool) (r : RunningCall),
    s.running true = some r ∧
    r.prog.returned = some (r.call.value (r.start (twoDevices true).number)) := by
  obtain ⟨s, hs, hP⟩ := Machine.Reachable.exists_of_guard (M := pciMachine twoDevices) Separate
    (P := fun s => (s.running true).any fun r => r.prog.returned.isSome) (fun _ _ _ h => h)
    [.start false (.write .w8 1 0xAB), .port false, .port false, .port false, .ret false,
      .start true (.read .w32 4), .port true, .port true]
    (.init (s := numbered) fun _ => rfl) (by decide +kernel)
  obtain ⟨r, hr, hv⟩ := (Option.any_eq_true ..).mp hP
  obtain ⟨v, hv⟩ := Option.isSome_iff_exists.mp hv
  obtain ⟨rfl, -⟩ := (legacy_calls_apart hs hr).2 v hv
  exact ⟨s, r, hr, hv⟩

/-- **A call returns a register of the other device.** The second selects its
register before the first has read. -/
theorem legacy_call_mixed : ∃ (s : PciState Bool) (r : RunningCall) (v : PciCall.Result),
    (pciMachine twoDevices).Reachable s ∧ s.running false = some r ∧
    r.prog.returned = some v ∧ v ≠ r.call.value (r.start (twoDevices false).number) := by
  obtain ⟨s, hs, hP⟩ := Machine.Reachable.exists_of_foldlM (M := pciMachine twoDevices)
    (P := fun s => (s.running false).any fun r => r.prog.returned.any fun v =>
      decide (v ≠ r.call.value (r.start (twoDevices false).number)))
    (fun _ _ _ h => h)
    [.start false (.read .w8 0), .port false, .start true (.read .w8 0), .port true, .port false]
    (.init (s := numbered) fun _ => rfl) (by decide +kernel)
  obtain ⟨r, hr, hv⟩ := (Option.any_eq_true ..).mp hP
  obtain ⟨v, hv, hne⟩ := (Option.any_eq_true ..).mp hv
  exact ⟨s, r, v, hs, hr, hv, of_decide_eq_true hne⟩

end PciState

end ShmDos64
