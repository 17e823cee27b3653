import ShmDos64.ExternalInterrupts.Model
/-!
# The mask of a line follows its handlers

`installHandler` locks the line when it has handlers and unlocks it at the
end; `deleteHandler` locks it always and unlocks it when a handler is left.
So the counter of a line with handlers is 0 between the calls, and of one
without 1, as long as nothing is deleted from an empty list: such a call
locks the line once more, and the next handler is installed on a line that
stays masked. And a handler that is installed on an emptied list must not
be linked behind an erased node, where nobody finds it.
-/

namespace ShmDos64

open Function (update)

variable {η : Type*}

/-- The calls for one interrupt. -/
inductive IrqAct (η : Type*) where
  | install (handler : η)
  | delete (id : ℕ)

namespace ExternalInterrupts

/-- The mask bit last written to the IO-APIC of the interrupt's line. -/
def maskBit (s : ExternalInterrupts η) (irq : ℕ) : Option Bool :=
  let line := s.remapTable irq
  (s.data line).mmio.map fun apic =>
    (s.reg apic (irqRegBase line (s.data line).irqOffset)).getLsbD 16

/-- The line of an interrupt that an IO-APIC has. -/
structure Line (s : ExternalInterrupts η) (irq counter : ℕ) (masked : Bool)
    (handlers : List (IrqHandlerEntry η)) : Prop where
  irq_lt : irq < maxIrq
  maskBit : s.maskBit irq = some masked
  lockCounter : (s.data (s.remapTable irq)).lockCounter = counter
  irqHandlers : (s.data (s.remapTable irq)).irqHandlers.toList = handlers

/-- A call for `irq`, up to what it returns. -/
def call (s : ExternalInterrupts η) (irq : ℕ) :
    IrqAct η → Except IrqError (ExternalInterrupts η)
  | .install handler => (s.installHandler irq handler).map Prod.fst
  | .delete id => (s.deleteHandler irq id).map Prod.fst

end ExternalInterrupts

/-- The runs of calls for the interrupt `irq`, from the initial state of its
line. -/
def irqMachine (η : Type*) (irq : ℕ) : Machine (ExternalInterrupts η) (IrqAct η) where
  init s := s.Line irq 1 true []
  step s a t := s.call irq a = .ok t

namespace ExternalInterrupts

variable {s t : ExternalInterrupts η} {irq : ℕ} {masked : Bool}
  {handlers : List (IrqHandlerEntry η)}

theorem mask_set (value : BitVec 32) : (value ||| ioApicMaskIrq).getLsbD 16 = true := by
  rw [BitVec.getLsbD_or]
  simp [ioApicMaskIrq]

theorem mask_clear (value : BitVec 32) : (value &&& ~~~ioApicMaskIrq).getLsbD 16 = false := by
  rw [BitVec.getLsbD_and]
  simp [ioApicMaskIrq]

variable {counter : ℕ}

theorem Line.mmio (h : s.Line irq counter masked handlers) :
    ∃ apic, (s.data (s.remapTable irq)).mmio = some apic := by
  obtain ⟨apic, happ, -⟩ := Option.map_eq_some_iff.mp h.maskBit
  exact ⟨apic, happ⟩

theorem Line.mmio_ne (h : s.Line irq counter masked handlers) :
    (s.data (s.remapTable irq)).mmio ≠ none := by
  obtain ⟨apic, happ⟩ := h.mmio
  exact happ ▸ Option.some_ne_none apic

/-- A register write, and the counter and the cache with it. -/
theorem writeLine (h : s.Line irq counter masked handlers) (counter' : ℕ)
    (value : BitVec 32) : ∃ t,
    (s.setData (s.remapTable irq) { s.data (s.remapTable irq) with
      lockCounter := counter', loCache := value }).writeData (s.data (s.remapTable irq)).mmio
      (irqRegBase (s.remapTable irq) (s.data (s.remapTable irq)).irqOffset) value = .ok t ∧
    t.Line irq counter' (value.getLsbD 16) handlers ∧ t.remapTable = s.remapTable := by
  obtain ⟨apic, happ⟩ := h.mmio
  rw [happ]
  refine ⟨_, rfl, ⟨h.irq_lt, ?_, ?_, ?_⟩, rfl⟩
  · simp [ExternalInterrupts.maskBit, setData, happ]
  · simp [setData]
  · simp [setData, h.irqHandlers]

/-- The first lock masks the line. -/
theorem lockIrq_free (h : s.Line irq 0 masked handlers) : ∃ t,
    s.lockIrq irq = .ok t ∧ t.Line irq 1 true handlers ∧ t.remapTable = s.remapTable := by
  obtain ⟨t, ht, hline, hremap⟩ :=
    writeLine h 1 ((s.data (s.remapTable irq)).loCache ||| ioApicMaskIrq)
  refine ⟨t, ?_, by rwa [mask_set] at hline, hremap⟩
  unfold lockIrq
  rw [if_neg (Nat.not_le.mpr h.irq_lt)]
  simp only [h.lockCounter]
  exact ht

/-- The last unlock unmasks the line. -/
theorem unlockIrq_last (h : s.Line irq 1 masked handlers) : ∃ t,
    s.unlockIrq irq = .ok t ∧ t.Line irq 0 false handlers := by
  obtain ⟨t, ht, hline, -⟩ :=
    writeLine h 0 ((s.data (s.remapTable irq)).loCache &&& ~~~ioApicMaskIrq)
  refine ⟨t, ?_, by rwa [mask_clear] at hline⟩
  unfold unlockIrq
  rw [if_neg (Nat.not_le.mpr h.irq_lt)]
  simp only [h.lockCounter]
  exact ht

theorem line_addHandler (h : s.Line irq counter masked handlers) (handler : η)
    (id : ℕ) : (s.addHandler (s.remapTable irq) handler id).Line irq counter masked
      (handlers ++ [⟨handler, id⟩]) where
  irq_lt := h.irq_lt
  maskBit := by
    rw [← h.maskBit]
    simp [ExternalInterrupts.maskBit, addHandler, setData]
  lockCounter := by simp [addHandler, setData, h.lockCounter]
  irqHandlers := by simp [addHandler, setData, h.irqHandlers]

theorem line_eraseHandler (h : s.Line irq counter masked handlers) (id : ℕ) :
    (s.eraseHandler (s.remapTable irq) id).Line irq counter masked
      (handlers.eraseP fun e => e.id = id) where
  irq_lt := h.irq_lt
  maskBit := by
    rw [← h.maskBit]
    simp [ExternalInterrupts.maskBit, eraseHandler, setData]
  lockCounter := by simp [eraseHandler, setData, h.lockCounter]
  irqHandlers := by simp [eraseHandler, setData, IrqHandlers.erase, h.irqHandlers]

/-! ## The calls -/

/-- The line is locked once, and masked, exactly when it has no handlers. -/
def Follows (s : ExternalInterrupts η) (irq : ℕ) : Prop :=
  s.Line irq 1 true [] ∨ ∃ handlers, handlers ≠ [] ∧ s.Line irq 0 false handlers

/-- The first handler is added to a line that is locked once. -/
theorem installHandler_first (h : s.Line irq 1 masked [])
    (hend : (s.data (s.remapTable irq)).irqHandlers.trapped = false) (handler : η) : ∃ t id,
    s.installHandler irq handler = .ok (t, id) ∧ t.Line irq 0 false [⟨handler, id⟩] := by
  obtain ⟨t, ht, hline⟩ := unlockIrq_last (line_addHandler h handler ((s.idCounter + 1) % 2 ^ 32))
  refine ⟨t, (s.idCounter + 1) % 2 ^ 32, ?_, hline⟩
  unfold installHandler
  rw [if_neg h.irq_lt.not_ge, if_neg h.mmio_ne, if_neg (by simp [hend])]
  simp only [bind, Except.bind, h.irqHandlers, List.isEmpty_nil, ↓reduceIte, ht]
  rfl

/-- `installHandler` leaves the line with handlers and unlocked. -/
theorem installHandler_follows (h : s.Follows irq)
    (hend : (s.data (s.remapTable irq)).irqHandlers.trapped = false) (handler : η) : ∃ t id,
    s.installHandler irq handler = .ok (t, id) ∧ t.Follows irq := by
  rcases h with h | ⟨handlers, hne, h⟩
  · obtain ⟨t, id, ht, hline⟩ := installHandler_first h hend handler
    exact ⟨t, id, ht, .inr ⟨_, List.cons_ne_nil _ _, hline⟩⟩
  · -- the line is locked once when the handler is added
    obtain ⟨u, hu, hline, hremap⟩ := lockIrq_free h
    obtain ⟨t, ht, hline⟩ :=
      unlockIrq_last (line_addHandler hline handler ((u.idCounter + 1) % 2 ^ 32))
    refine ⟨t, (u.idCounter + 1) % 2 ^ 32, ?_, .inr ⟨_, List.concat_ne_nil _ _, hline⟩⟩
    rw [hremap] at ht
    unfold installHandler
    rw [if_neg h.irq_lt.not_ge, if_neg h.mmio_ne, if_neg (by simp [hend])]
    simp only [bind, Except.bind, h.irqHandlers, List.isEmpty_iff, hne, ↓reduceIte, hu, ht]
    rfl

/-- `deleteHandler` masks the line with its last handler. -/
theorem deleteHandler_follows (h : s.Follows irq)
    (hne : (s.data (s.remapTable irq)).irqHandlers.toList ≠ []) (id : ℕ) : ∃ t result,
    s.deleteHandler irq id = .ok (t, result) ∧ t.Follows irq := by
  rcases h with h | ⟨handlers, -, h⟩
  · exact absurd h.irqHandlers hne
  obtain ⟨u, hu, hline, hremap⟩ := lockIrq_free h
  have herase := line_eraseHandler hline id
  have hleft := herase.irqHandlers
  rw [show (u.eraseHandler (u.remapTable irq) id).remapTable = s.remapTable from hremap] at hleft
  rw [hremap] at herase hleft
  unfold deleteHandler
  rw [if_neg h.irq_lt.not_ge, if_neg h.mmio_ne]
  simp only [bind, Except.bind, hu, hleft]
  -- the handlers that are left decide
  cases hl : handlers.eraseP fun e => e.id = id with
  | nil =>
    rw [hl] at herase
    exact ⟨_, _, rfl, .inl herase⟩
  | cons e l =>
    rw [hl] at herase
    obtain ⟨t, ht, hline⟩ := unlockIrq_last herase
    simp only [List.isEmpty_cons, Bool.false_eq_true, ↓reduceIte, ht]
    exact ⟨t, _, rfl, .inr ⟨e :: l, List.cons_ne_nil e l, hline⟩⟩

/-- A handler is deleted from a list that has some, and installed on no
empty list whose end cursor is that of an erased node. -/
def Regular (irq : ℕ) (s : ExternalInterrupts η) : IrqAct η → Prop
  | .install _ => (s.data (s.remapTable irq)).irqHandlers.trapped = false
  | .delete _ => (s.data (s.remapTable irq)).irqHandlers.toList ≠ []

instance (irq : ℕ) (s : ExternalInterrupts η) (a : IrqAct η) :
    Decidable (s.Regular irq a) :=
  match a with
  | .install _ => inferInstanceAs (Decidable (_ = _))
  | .delete _ =>
    decidable_of_iff (¬ (s.data (s.remapTable irq)).irqHandlers.toList.isEmpty)
      (not_congr List.isEmpty_iff)

theorem call_follows (h : s.Follows irq) (a : IrqAct η) (ha : s.Regular irq a) :
    ∃ t, s.call irq a = .ok t ∧ t.Follows irq := by
  cases a with
  | install handler =>
    obtain ⟨t, id, ht, hfollows⟩ := installHandler_follows h ha handler
    exact ⟨t, congrArg (Except.map Prod.fst) ht, hfollows⟩
  | delete id =>
    obtain ⟨t, result, ht, hfollows⟩ := deleteHandler_follows h ha id
    exact ⟨t, congrArg (Except.map Prod.fst) ht, hfollows⟩

theorem follows_reachable (h : ((irqMachine η irq).guard (Regular irq)).Reachable s) :
    s.Follows irq := by
  refine h.invariant (I := fun s => s.Follows irq) (fun s hs => .inl hs) ?_
  rintro s a t hs ⟨ha, hst⟩
  obtain ⟨t', ht', hfollows⟩ := call_follows hs a ha
  obtain rfl := Except.ok.inj (hst.symm.trans ht')
  exact hfollows

/-- **The mask of a line follows its handlers**, in every run that deletes
from lists with handlers only and adds to lists with a right end; and every
such call returns. -/
theorem irq_mask_follows_handlers (h : ((irqMachine η irq).guard (Regular irq)).Reachable s) :
    (((s.data (s.remapTable irq)).lockCounter = 0 ∧ s.maskBit irq = some false) ↔
      (s.data (s.remapTable irq)).irqHandlers.toList ≠ []) ∧
    ((s.data (s.remapTable irq)).irqHandlers.toList = [] →
      (s.data (s.remapTable irq)).lockCounter = 1 ∧ s.maskBit irq = some true) ∧
    ∀ a, Regular irq s a → ∃ t, (irqMachine η irq).step s a t := by
  have hf := follows_reachable h
  refine ⟨?_, ?_, fun a hok => ?_⟩
  · rcases hf with hline | ⟨handlers, hne, hline⟩
    · rw [hline.lockCounter, hline.irqHandlers]
      simp
    · rw [hline.lockCounter, hline.maskBit, hline.irqHandlers]
      simp [hne]
  · intro hempty
    rcases hf with hline | ⟨handlers, hne, hline⟩
    · exact ⟨hline.lockCounter, hline.maskBit⟩
    · exact absurd (hline.irqHandlers.symm.trans hempty) hne
  · obtain ⟨t, ht, -⟩ := call_follows hf a hok
    exact ⟨t, ht⟩

/-- One IO-APIC has all lines, which are masked and have no handlers. -/
def allMasked : ExternalInterrupts Unit where
  data _ := { mmio := some 0, loCache := ioApicMaskIrq, irqHandlers := .empty, irqOffset := 0,
              lockCounter := 1 }
  remapTable irq := irq
  irqHasBeenRedirected _ := false
  idCounter := 0
  reg _ _ := ioApicMaskIrq

theorem allMasked_init : (irqMachine Unit 5).init allMasked where
  irq_lt := by decide
  maskBit := by simp [maskBit, allMasked, ioApicMaskIrq]
  lockCounter := rfl
  irqHandlers := rfl

theorem step_of_call (s : ExternalInterrupts Unit) (a : IrqAct Unit) (t : ExternalInterrupts Unit)
    (h : (s.call 5 a).toOption = some t) : (irqMachine Unit 5).step s a t := by
  change s.call 5 a = .ok t
  cases hc : s.call 5 a with
  | error e => rw [hc] at h; cases h
  | ok u => rw [hc] at h; rw [Option.some.inj h]

/-- Two handlers are installed and one deleted: the line is unmasked. -/
theorem irq_mask_follows_handlers_install : ∃ s : ExternalInterrupts Unit,
    ((s.data (s.remapTable 5)).lockCounter = 0 ∧ s.maskBit 5 = some false) ∧
      (s.data (s.remapTable 5)).irqHandlers.toList ≠ [] := by
  obtain ⟨s, hs, hP⟩ := Machine.Reachable.exists_of_foldlM
    (M := (irqMachine Unit 5).guard (Regular 5))
    (f := fun s a => if s.Regular 5 a then (s.call 5 a).toOption else none)
    (P := fun s => !(s.data (s.remapTable 5)).irqHandlers.toList.isEmpty)
    (fun s a t h => by
      split_ifs at h with hok
      exact ⟨hok, step_of_call s a t h⟩)
    [.install (), .install (), .delete 1] (.init allMasked_init) (by decide +kernel)
  have hne : (s.data (s.remapTable 5)).irqHandlers.toList ≠ [] := fun hempty => by
    rw [hempty] at hP
    cases hP
  exact ⟨s, (irq_mask_follows_handlers hs).1.mpr hne, hne⟩

/-- **A line with a handler stays masked** after a deletion from its empty
list: the handler is installed on a line that was locked twice. -/
theorem irq_masked_with_handler : ∃ s, (irqMachine Unit 5).Reachable s ∧
    (s.data (s.remapTable 5)).irqHandlers.toList ≠ [] ∧
    (s.data (s.remapTable 5)).lockCounter = 1 ∧ s.maskBit 5 = some true := by
  obtain ⟨s, hs, hP⟩ := Machine.Reachable.exists_of_foldlM
    (M := irqMachine Unit 5) (f := fun s a => (s.call 5 a).toOption)
    (P := fun s => !(s.data (s.remapTable 5)).irqHandlers.toList.isEmpty &&
      decide ((s.data (s.remapTable 5)).lockCounter = 1) && decide (s.maskBit 5 = some true))
    step_of_call [.delete 7, .install ()] (.init allMasked_init) (by decide +kernel)
  simp only [Bool.and_eq_true, decide_eq_true_eq] at hP
  obtain ⟨⟨hhandlers, hcounter⟩, hmask⟩ := hP
  refine ⟨s, hs, fun hempty => ?_, hcounter, hmask⟩
  rw [hempty] at hhandlers
  cases hhandlers

end ExternalInterrupts

end ShmDos64
