import ShmDos64.ExternalInterrupts.Model
/-!
# The interrupt handlers of the devices

An `AbstractDevice` keeps the id of its handler and the number of its
interrupt, `m_irq`: the one it deletes the handler from and acknowledges.
`installInterruptHandler` stores the id only. No constructor and no call sets
`m_irq`, so a device has in it what its memory held before.

A handler is taken off the list it is in, and the right interrupt is
acknowledged, as long as each device that installs a handler happens to have
an `m_irq` that leads to the line of the interrupt it asks for, and the list of
the line takes the handler.
-/

namespace ShmDos64

open Function (update update_of_ne update_self)

/-- The fields of `AbstractDevicePrivate` that say where its handler is. -/
structure AbstractDevice where
  irq : ℕ
  interruptHandlerId : ℕ
  deriving DecidableEq

/-- The devices, by their address, and the handlers. -/
structure DeviceState (δ : Type*) where
  irqs : ExternalInterrupts δ
  device : δ → Option AbstractDevice
  /-- The interrupt the handler of a device was installed on. -/
  installedOn : δ → ℕ

/-- The calls. -/
inductive DeviceAct (δ : Type*) where
  /-- The constructor; `m_irq` is what the memory holds. -/
  | construct (d : δ) (irq : ℕ)
  | install (d : δ) (irq : ℕ)
  | remove (d : δ)
  | destroy (d : δ)

namespace ExternalInterrupts

variable {η : Type*}

/-- `ExternalInterrupts::eoi`, as the line it acknowledges. -/
def eoi (s : ExternalInterrupts η) (irq : ℕ) : Option ℕ :=
  if maxIrq ≤ irq then none else some (s.remapTable irq)

/-- The handlers of a line. -/
def listOf (s : ExternalInterrupts η) (line : ℕ) : List (IrqHandlerEntry η) :=
  (s.data line).irqHandlers.toList

/-- How many entries for `handler` are in the list of a line. -/
def entries [DecidableEq η] (s : ExternalInterrupts η) (handler : η) (line : ℕ) : ℕ :=
  (s.listOf line).countP fun e => e.handler = handler

end ExternalInterrupts

namespace DeviceState

variable {δ : Type*} [DecidableEq δ]

section

variable (s : DeviceState δ)

/-- `installInterruptHandler`. -/
def installInterruptHandler (d : δ) (irq : ℕ) : Option (DeviceState δ) :=
  match s.device d with
  | none => none
  | some dev =>
    if dev.interruptHandlerId ≠ 0 then some s
    else match s.irqs.installHandler irq d with
      | .error _ => none
      | .ok (irqs, id) =>
        if id = 0 then some { s with irqs := irqs }
        else some {
          irqs := irqs
          device := update s.device d (some { dev with interruptHandlerId := id })
          installedOn := update s.installedOn d irq }

/-- `removeInterruptHandler`. -/
def removeInterruptHandler (d : δ) : Option (DeviceState δ) :=
  match s.device d with
  | none => none
  | some dev =>
    if dev.interruptHandlerId ≠ 0 then
      match s.irqs.deleteHandler dev.irq dev.interruptHandlerId with
      | .error _ => none
      | .ok (irqs, _) => some { s with
          irqs := irqs
          device := update s.device d (some { dev with interruptHandlerId := 0 }) }
    else some s

/-- What the calls do. A constructor is for memory no device is in. -/
def apply : DeviceAct δ → Option (DeviceState δ)
  | .construct d irq =>
    if s.device d = none then some { s with device := update s.device d (some ⟨irq, 0⟩) }
    else none
  | .install d irq => s.installInterruptHandler d irq
  | .remove d => s.removeInterruptHandler d
  | .destroy d =>
    (s.removeInterruptHandler d).map fun s => { s with device := update s.device d none }

/-- A handler is installed only by a device whose `m_irq` leads to the line of the
interrupt, not on an empty list whose end cursor is that of an erased node, and
`idCointer` does not wrap. -/
def Leads : DeviceAct δ → Prop
  | .install d irq => ∀ dev ∈ s.device d, dev.interruptHandlerId = 0 → irq < maxIrq →
      (s.irqs.data (s.irqs.remapTable irq)).mmio ≠ none →
      dev.irq < maxIrq ∧ s.irqs.remapTable dev.irq = s.irqs.remapTable irq ∧
        (s.irqs.data (s.irqs.remapTable irq)).irqHandlers.trapped = false ∧
        s.irqs.idCounter + 1 < 2 ^ 32
  | _ => True

instance : (a : DeviceAct δ) → Decidable (s.Leads a)
  | .install _ _ => inferInstanceAs (Decidable (∀ _ ∈ _, _))
  | .construct _ _ | .remove _ | .destroy _ => .isTrue trivial

end

/-- The handler of a device is in the list of the interrupt it was installed on, once
and in no other, and that interrupt is acknowledged; a device without a handler, or
none, has no entry. -/
structure Registered (s : DeviceState δ) : Prop where
  installed : ∀ d dev, s.device d = some dev → dev.interruptHandlerId ≠ 0 →
    (∀ line, s.irqs.entries d line =
      if line = s.irqs.remapTable (s.installedOn d) then 1 else 0) ∧
    s.irqs.eoi dev.irq = some (s.irqs.remapTable (s.installedOn d))
  gone : ∀ d, (∀ dev, s.device d = some dev → dev.interruptHandlerId = 0) →
    ∀ line, s.irqs.entries d line = 0

end DeviceState

/-- The runs of the calls, from lines without handlers and no device. -/
def deviceMachine (δ : Type*) [DecidableEq δ] : Machine (DeviceState δ) (DeviceAct δ) where
  init s := (∀ line, (s.irqs.data line).irqHandlers = .empty) ∧ s.irqs.idCounter = 0 ∧
    ∀ d, s.device d = none
  step s a t := s.apply a = some t

/-! ## What the calls do to the lists -/

/-- The lists of the lines, and what leads to them. -/
structure HandlerLists (η : Type*) where
  remapTable : ℕ → ℕ
  mmio : ℕ → Option ℕ
  listOf : ℕ → List (IrqHandlerEntry η)
  idCounter : ℕ

namespace HandlerLists

variable {η : Type*} (v : HandlerLists η)

/-- One more entry on a line, with a new id. -/
def add (line : ℕ) (e : IrqHandlerEntry η) : HandlerLists η :=
  { v with listOf := update v.listOf line (v.listOf line ++ [e]), idCounter := e.id }

/-- The first entry with the id is taken off a line. -/
def erase (line id : ℕ) : HandlerLists η :=
  { v with listOf := update v.listOf line ((v.listOf line).eraseP fun e => e.id = id) }

end HandlerLists

namespace ExternalInterrupts

variable {η : Type*} {s t : ExternalInterrupts η} {irq id : ℕ}

/-- The lists, without counters, caches and registers. -/
def lists (s : ExternalInterrupts η) : HandlerLists η :=
  ⟨s.remapTable, fun line => (s.data line).mmio, s.listOf, s.idCounter⟩

theorem lists_setData (s : ExternalInterrupts η) {line : ℕ} {d : InterruptData η}
    (hmmio : d.mmio = (s.data line).mmio) : (s.setData line d).lists =
      { s.lists with listOf := update s.listOf line d.irqHandlers.toList } := by
  simp only [lists, setData, HandlerLists.mk.injEq, true_and, and_true]
  constructor <;> funext l <;> rcases eq_or_ne l line with rfl | hl <;> simp [*, listOf]

theorem lists_setLock (s : ExternalInterrupts η) (line counter : ℕ) (value : BitVec 32) :
    (s.setData line { s.data line with lockCounter := counter, loCache := value }).lists =
      s.lists := by
  refine (lists_setData s (by rfl)).trans ?_
  exact congrArg (fun l => { s.lists with listOf := l }) (Function.update_eq_self line s.listOf)

theorem lists_writeData {mmio : Option ℕ} {reg : ℕ} {value : BitVec 32}
    (h : s.writeData mmio reg value = .ok t) : t.lists = s.lists := by
  cases mmio with
  | none => cases h
  | some apic =>
    obtain rfl := Except.ok.inj h
    rfl

theorem lists_lockIrq (h : s.lockIrq irq = .ok t) : t.lists = s.lists := by
  unfold lockIrq at h
  dsimp only at h
  split_ifs at h
  · rw [Except.ok.inj h]
  · rw [lists_writeData h, lists_setLock]
  · rw [← Except.ok.inj h, lists_setLock]

theorem lists_unlockIrq (h : s.unlockIrq irq = .ok t) : t.lists = s.lists := by
  unfold unlockIrq at h
  dsimp only at h
  split_ifs at h
  · rw [Except.ok.inj h]
  · rw [lists_writeData h, lists_setLock]
  · rw [← Except.ok.inj h, lists_setLock]

theorem lists_addHandler (line : ℕ) (handler : η) :
    (s.addHandler line handler id).lists = s.lists.add line ⟨handler, id⟩ :=
  congrArg (fun v : HandlerLists η => { v with idCounter := id })
    (lists_setData s (by rfl) : (s.setData line { s.data line with irqHandlers :=
      ⟨s.listOf line ++ [⟨handler, id⟩], (s.data line).irqHandlers.stale⟩ }).lists = _)

theorem lists_eraseHandler (line : ℕ) :
    (s.eraseHandler line id).lists = s.lists.erase line id :=
  lists_setData s rfl

/-- **What `installHandler` can do**: nothing, or one more entry, with a new id. -/
theorem installHandler_cases {handler : η} (h : s.installHandler irq handler = .ok (t, id)) :
    (t = s ∧ id = 0) ∨
      (irq < maxIrq ∧ (s.data (s.remapTable irq)).mmio ≠ none ∧
        id = (s.idCounter + 1) % 2 ^ 32 ∧
        t.lists = s.lists.add (s.remapTable irq) ⟨handler, id⟩) := by
  unfold installHandler at h
  dsimp only at h
  by_cases hirq : maxIrq ≤ irq
  · rw [if_pos hirq] at h
    obtain ⟨⟩ := h
    exact .inl ⟨rfl, rfl⟩
  rw [if_neg hirq] at h
  split_ifs at h with hmmio hend hempty
  · obtain ⟨⟩ := h
    exact .inl ⟨rfl, rfl⟩
  all_goals
    refine .inr ⟨Nat.not_le.mp hirq, hmmio, ?_⟩
    simp only [bind, Except.bind] at h
    split at h
    next => cases h
  · next v hv =>
      obtain ⟨⟩ := h
      exact ⟨rfl, (lists_unlockIrq hv).trans (lists_addHandler _ _)⟩
  · next u hu =>
      have hlists := lists_lockIrq hu
      split at h
      next => cases h
      next v hv =>
        obtain ⟨⟩ := h
        have hid : u.idCounter = s.idCounter := congrArg HandlerLists.idCounter hlists
        refine ⟨by rw [hid], ?_⟩
        rw [lists_unlockIrq hv, lists_addHandler, hlists]

/-- **What `deleteHandler` does** on a line an IO-APIC has. -/
theorem deleteHandler_lists {result : Bool} (hirq : irq < maxIrq)
    (hmmio : (s.data (s.remapTable irq)).mmio ≠ none)
    (h : s.deleteHandler irq id = .ok (t, result)) :
    t.lists = s.lists.erase (s.remapTable irq) id := by
  unfold deleteHandler at h
  rw [if_neg (Nat.not_le.mpr hirq), if_neg hmmio] at h
  simp only [bind, Except.bind] at h
  split at h
  next => cases h
  next u hu =>
    rw [← lists_lockIrq hu, ← lists_eraseHandler]
    split_ifs at h
    · obtain ⟨rfl, -⟩ := Prod.mk.inj (Except.ok.inj h)
      rfl
    · split at h
      next => cases h
      next v hv =>
        obtain ⟨rfl, -⟩ := Prod.mk.inj (Except.ok.inj h)
        exact lists_unlockIrq hv

end ExternalInterrupts

/-! ## The invariant -/

/-- The entry with an id is the only one, so that what is left are the others. -/
theorem eraseP_id_eq_filter {η : Type*} {id : ℕ} {l : List (IrqHandlerEntry η)}
    (h : (l.map IrqHandlerEntry.id).Nodup) :
    l.eraseP (fun e => e.id = id) = l.filter fun e => e.id ≠ id := by
  induction l with
  | nil => rfl
  | cons e l ih =>
    obtain ⟨he, hl⟩ := List.nodup_cons.mp h
    by_cases hid : e.id = id
    · rw [List.eraseP_cons_of_pos (by simpa using hid),
        List.filter_cons_of_neg (by simpa using hid), List.filter_eq_self.mpr]
      intro x hx
      have hne : x.id ≠ e.id := fun heq => he (heq ▸ List.mem_map_of_mem hx)
      simpa [hid] using hne
    · rw [List.eraseP_cons_of_neg (by simpa using hid),
        List.filter_cons_of_pos (by simpa using hid), ih hl]

namespace DeviceState

variable {δ : Type*} [DecidableEq δ] {s t : DeviceState δ} {d : δ}

/-- The device has no handler, or is not there. -/
def Idle (device : δ → Option AbstractDevice) (d : δ) : Prop :=
  ∀ dev, device d = some dev → dev.interruptHandlerId = 0

/-- The entries of a line are those of the devices whose handlers were installed on
it, one of each id, and a device with a handler finds its entry by its own `m_irq`. -/
structure Inv (v : HandlerLists δ) (device : δ → Option AbstractDevice) (installedOn : δ → ℕ) :
    Prop where
  mem : ∀ line e, e ∈ v.listOf line ↔ ∃ dev, device e.handler = some dev ∧
    dev.interruptHandlerId = e.id ∧ e.id ≠ 0 ∧ line = v.remapTable (installedOn e.handler)
  nodup : ∀ line, ((v.listOf line).map IrqHandlerEntry.id).Nodup
  bound : ∀ d dev, device d = some dev → dev.interruptHandlerId ≤ v.idCounter
  leads : ∀ d dev, device d = some dev → dev.interruptHandlerId ≠ 0 →
    dev.irq < maxIrq ∧ v.remapTable dev.irq = v.remapTable (installedOn d) ∧
    v.mmio (v.remapTable dev.irq) ≠ none

/-- The lists and the devices agree, seen from outside. -/
theorem Inv.registered (h : Inv s.irqs.lists s.device s.installedOn) : s.Registered where
  installed d dev hdev hne := by
    obtain ⟨hlt, hremap, -⟩ := h.leads d dev hdev hne
    refine ⟨fun line => ?_, ?_⟩
    · -- the entries of the device are all the one with its id
      have hcount : s.irqs.entries d line =
          (s.irqs.listOf line).count ⟨d, dev.interruptHandlerId⟩ := by
        refine List.countP_congr fun e he => ?_
        obtain ⟨dev', hdev', hid, -⟩ := (h.mem line e).mp he
        cases e
        grind
      have hmem := h.mem line ⟨d, dev.interruptHandlerId⟩
      rw [hcount]
      split
      next hline =>
        exact List.count_eq_one_of_mem (h.nodup line).of_map
          (hmem.mpr ⟨dev, hdev, rfl, hne, hline⟩)
      next hline =>
        refine List.count_eq_zero.mpr fun hin => ?_
        obtain ⟨-, -, -, -, hl⟩ := hmem.mp hin
        exact hline hl
    · rw [ExternalInterrupts.eoi, if_neg (Nat.not_le.mpr hlt)]
      exact congrArg some hremap
  gone d hidle line := by
    refine List.countP_eq_zero.mpr fun e he => ?_
    obtain ⟨dev, hdev, hid, hne, -⟩ := (h.mem line e).mp he
    rw [decide_eq_true_iff]
    rintro rfl
    exact hne (hid ▸ hidle dev hdev)

section

variable {v : HandlerLists δ} {device : δ → Option AbstractDevice} {installedOn : δ → ℕ}
  {dev : AbstractDevice} (h : Inv v device installedOn)

include h

/-- A device without a handler comes or goes. -/
theorem Inv.set_idle (hidle : Idle device d) {o : Option AbstractDevice}
    (ho : ∀ dev, o = some dev → dev.interruptHandlerId = 0) :
    Inv v (update device d o) installedOn := by
  unfold Idle at hidle
  refine ⟨fun line e => (h.mem line e).trans ?_, h.nodup, fun e dev => ?_, fun e dev => ?_⟩
  all_goals simp only [Function.update_apply]
  · grind
  · have := h.bound e dev
    grind
  · have := h.leads e dev
    grind

variable (hdev : device d = some dev)

include hdev

/-- A handler is installed by a device whose `m_irq` leads to the line. -/
theorem Inv.install (hidle : dev.interruptHandlerId = 0) {irq : ℕ} (hlt : dev.irq < maxIrq)
    (hremap : v.remapTable dev.irq = v.remapTable irq) (hmmio : v.mmio (v.remapTable irq) ≠ none) :
    Inv (v.add (v.remapTable irq) ⟨d, v.idCounter + 1⟩)
      (update device d (some { dev with interruptHandlerId := v.idCounter + 1 }))
      (update installedOn d irq) := by
  refine ⟨fun line e => ?_, fun line => ?_, fun e dev' => ?_, fun e dev' => ?_⟩
  all_goals simp only [HandlerLists.add, Function.update_apply]
  · have hmem := h.mem line e
    cases e
    grind
  · split_ifs with hline
    · -- the new id is above those of the list
      rw [List.map_append, List.nodup_append]
      refine ⟨h.nodup _, List.nodup_singleton _, fun id hid id' hid' => ?_⟩
      obtain ⟨e, he, rfl⟩ := List.mem_map.mp hid
      obtain ⟨dev', hdev', hid, -⟩ := (h.mem _ e).mp he
      have := h.bound e.handler dev' hdev'
      have hnew : id' = v.idCounter + 1 := by simpa using hid'
      omega
    · exact h.nodup line
  · have := h.bound e dev'
    grind
  · have := h.leads e dev'
    grind

/-- A device takes its handler off the list its `m_irq` leads to. -/
theorem Inv.remove (hne : dev.interruptHandlerId ≠ 0) :
    Inv (v.erase (v.remapTable dev.irq) dev.interruptHandlerId)
      (update device d (some { dev with interruptHandlerId := 0 })) installedOn := by
  obtain ⟨-, hline, -⟩ := h.leads d dev hdev hne
  refine ⟨fun line e => ?_, fun line => ?_, fun e dev' => ?_, fun e dev' => ?_⟩
  all_goals simp only [HandlerLists.erase, Function.update_apply]
  · have hmem := h.mem line e
    by_cases hl : line = v.remapTable dev.irq
    · -- an entry of the line with the id is that of the device
      have hown := (h.mem line ⟨d, dev.interruptHandlerId⟩).mpr
        ⟨dev, hdev, rfl, hne, hl.trans hline⟩
      have hthe : e ∈ v.listOf line → e.id = dev.interruptHandlerId → e.handler = d :=
        fun he hid => congrArg _ (List.inj_on_of_nodup_map (h.nodup line) he hown hid)
      rw [if_pos hl, ← hl, eraseP_id_eq_filter (h.nodup _), List.mem_filter]
      grind
    · grind
  · split_ifs with hl
    · exact (h.nodup _).sublist (List.eraseP_sublist.map _)
    · exact h.nodup line
  · have := h.bound e dev'
    grind
  · have := h.leads e dev'
    grind

end

/-! ## The runs -/

/-- The invariant of a state. -/
abbrev Agrees (s : DeviceState δ) : Prop := Inv s.irqs.lists s.device s.installedOn

/-- **What `removeInterruptHandler` does** to a state with the invariant. -/
theorem Agrees.removeInterruptHandler (h : s.Agrees)
    (hst : s.removeInterruptHandler d = some t) : t.Agrees ∧ Idle t.device d := by
  unfold DeviceState.removeInterruptHandler at hst
  split at hst
  next => cases hst
  next dev hdev =>
    split_ifs at hst with hne
    · split at hst
      next => cases hst
      next irqs result hdel =>
        obtain ⟨⟩ := hst
        obtain ⟨hlt, -, hmmio⟩ := h.leads d dev hdev hne
        refine ⟨?_, fun dev' hdev' => ?_⟩
        · rw [Agrees, ExternalInterrupts.deleteHandler_lists hlt hmmio hdel]
          exact h.remove hdev hne
        · simp only [update_self] at hdev'
          exact Option.some.inj hdev' ▸ rfl
    · obtain ⟨⟩ := hst
      refine ⟨h, fun dev' hdev' => ?_⟩
      rw [hdev] at hdev'
      exact Option.some.inj hdev' ▸ Decidable.not_not.mp hne

/-- **The step lemma.** -/
theorem Agrees.apply (h : s.Agrees) {a : DeviceAct δ} (hleads : s.Leads a)
    (hst : s.apply a = some t) : t.Agrees := by
  cases a with
  | construct d irq =>
    simp only [DeviceState.apply] at hst
    split_ifs at hst with hnone
    obtain ⟨⟩ := hst
    refine h.set_idle (fun dev hdev => ?_) fun dev hdev => ?_
    · rw [hnone] at hdev
      cases hdev
    · exact Option.some.inj hdev ▸ rfl
  | install d irq =>
    simp only [DeviceState.apply, installInterruptHandler] at hst
    split at hst
    next => cases hst
    next dev hdev =>
      split_ifs at hst with hne
      · obtain ⟨⟩ := hst
        exact h
      · have hidle : dev.interruptHandlerId = 0 := Decidable.not_not.mp hne
        split at hst
        next => cases hst
        next irqs id hins =>
          rcases ExternalInterrupts.installHandler_cases hins with
            ⟨rfl, rfl⟩ | ⟨hirq, hmmio, rfl, hlist⟩
          · obtain ⟨⟩ := hst
            exact h
          · obtain ⟨hlt, hremap, -, hwrap⟩ := hleads dev hdev hidle hirq hmmio
            rw [Nat.mod_eq_of_lt hwrap] at hst hlist
            rw [if_neg (Nat.succ_ne_zero _)] at hst
            obtain ⟨⟩ := hst
            rw [Agrees, hlist]
            exact h.install hdev hidle hlt hremap hmmio
  | remove d => exact (h.removeInterruptHandler hst).1
  | destroy d =>
    obtain ⟨u, hu, rfl⟩ := Option.map_eq_some_iff.mp hst
    obtain ⟨hinv, hidle⟩ := h.removeInterruptHandler hu
    exact hinv.set_idle hidle fun dev hdev => by cases hdev

theorem agrees_of_init (h : (deviceMachine δ).init s) : s.Agrees := by
  have hnil : ∀ line, s.irqs.lists.listOf line = [] := fun line =>
    congrArg IrqHandlers.toList (h.1 line)
  constructor <;> simp [hnil, h.2.2]

/-- **A device takes its handler with it.** In every run in which a device that
installs a handler has an `m_irq` that leads to the same line, the lists and the
devices agree. -/
theorem handlers_registered (hs : ((deviceMachine δ).guard Leads).Reachable s) : s.Registered :=
  Inv.registered (hs.invariant (I := Agrees) (fun _ => agrees_of_init)
    fun _ _ _ h hst => h.apply hst.1 hst.2)

/-- One IO-APIC, and no device yet. -/
def oneApic : DeviceState ℕ where
  irqs := {
    data := fun _ => ⟨some 0, ioApicMaskIrq, .empty, 0, 1⟩
    remapTable := id
    irqHasBeenRedirected := fun _ => false
    idCounter := 0
    reg := fun _ _ => ioApicMaskIrq }
  device := fun _ => none
  installedOn := fun _ => 0

theorem oneApic_init : (deviceMachine ℕ).init oneApic :=
  ⟨fun _ => rfl, rfl, fun _ => rfl⟩

/-- Two devices share a line, and the first is destroyed. -/
theorem handlers_registered_shared : ∃ s : DeviceState ℕ,
    s.Registered ∧ s.device 0 = none ∧ s.device 1 = some ⟨9, 2⟩ ∧
      (s.irqs.listOf 9).length = 1 := by
  obtain ⟨s, hs, hend⟩ := Machine.Reachable.exists_of_guard (M := deviceMachine ℕ) Leads
    (P := fun s => decide (s.device 0 = none ∧ s.device 1 = some ⟨9, 2⟩ ∧
      (s.irqs.listOf 9).length = 1)) (fun _ _ _ h => h)
    [.construct 0 9, .install 0 9, .construct 1 9, .install 1 9, .destroy 0]
    (.init oneApic_init) (by decide +kernel)
  exact ⟨s, handlers_registered hs, of_decide_eq_true hend⟩

/-- **A device leaves its handler behind.** Its memory was zero, so the destructor
looks for the handler on interrupt 0 and not on 9, where it was installed. -/
theorem handler_left_behind : ∃ s : DeviceState ℕ,
    (deviceMachine ℕ).Reachable s ∧ s.device 0 = none ∧ s.irqs.entries 0 9 = 1 := by
  obtain ⟨s, hs, hend⟩ := Machine.Reachable.exists_of_foldlM (M := deviceMachine ℕ)
    (P := fun s => decide (s.device 0 = none ∧ s.irqs.entries 0 9 = 1))
    (fun _ _ _ h => h) [.construct 0 0, .install 0 9, .destroy 0]
    (.init oneApic_init) (by decide +kernel)
  exact ⟨s, hs, of_decide_eq_true hend⟩

end DeviceState

end ShmDos64
