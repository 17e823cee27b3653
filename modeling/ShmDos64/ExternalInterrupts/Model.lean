import ShmDos64.Common.Run
/-!
# External interrupts

`ExternalInterrupts` keeps, for each of 64 interrupt lines, the IO-APIC it
is wired to, the handlers and a counter of locks: the line is masked while
the counter is not 0. `m_remapTable` leads from the number of an ISA
interrupt to its line. A write to a redirection register goes through the
line's `m_mmio`, which is null for a line no IO-APIC has.

The waits for `m_irqActiveCounter` in `installHandler` and `deleteHandler`
change nothing and are left out, as are the mutexes: the calls come one
after another.
-/

namespace ShmDos64

open Function (update)

/-- `ExternalInterrupts::MaxIrq`. -/
abbrev maxIrq : ℕ := 64

/-- `ExternalInterrupts::MaxIsaIrq`. -/
abbrev maxIsaIrq : ℕ := 16

/-- `IoApicActivLow`. -/
abbrev ioApicActivLow : BitVec 32 := 1#32 <<< 13

/-- `IoApicLevelSv`. -/
abbrev ioApicLevelSv : BitVec 32 := 1#32 <<< 15

/-- `IoApicMaskIrq`. -/
abbrev ioApicMaskIrq : BitVec 32 := 1#32 <<< 16

/-- `CPU_IRQ0_VECTOR`. -/
abbrev cpuIrq0Vector : ℕ := 0xB0

/-- `IrqHandlerEntry`; the handler is its `m_proc` and `m_obj`. -/
structure IrqHandlerEntry (η : Type*) where
  handler : η
  id : ℕ
  deriving DecidableEq

/-- `m_irqHandlers`, a `klist`: its elements, and whether the back link of
its first node, or the end cursor if it is empty, is that of an erased node. -/
structure IrqHandlers (η : Type*) where
  toList : List (IrqHandlerEntry η)
  stale : Bool

namespace IrqHandlers

variable {η : Type*} (l : IrqHandlers η)

/-- The list of the constructor. -/
abbrev empty : IrqHandlers η := ⟨[], false⟩

/-- `emplace_back` would link the element behind an erased node: the trap
of `push_back` in `KListState.Sound`. -/
def trapped : Bool := l.toList.isEmpty && l.stale

/-- `erase` of the first element with the id. It does not touch the back
link of the node behind the first, which becomes the end cursor when that
node is erased as the last one. -/
def erase (id : ℕ) : IrqHandlers η :=
  ⟨l.toList.eraseP fun e => e.id = id,
    l.stale || (decide (1 < l.toList.length) && l.toList.head?.any fun e => e.id = id)⟩

end IrqHandlers

/-- `InterruptData`. -/
structure InterruptData (η : Type*) where
  /-- Which IO-APIC's registers `m_mmio` leads to; `none` is null. -/
  mmio : Option ℕ
  loCache : BitVec 32
  irqHandlers : IrqHandlers η
  irqOffset : ℕ
  lockCounter : ℕ

/-- `ExternalInterrupts`, with `idCointer` and the registers of the
IO-APICs. -/
structure ExternalInterrupts (η : Type*) where
  data : ℕ → InterruptData η
  remapTable : ℕ → ℕ
  irqHasBeenRedirected : ℕ → Bool
  idCounter : ℕ
  reg : ℕ → ℕ → BitVec 32

/-- How a call ends that does not return. -/
inductive IrqError where
  | panic
  /-- A write through a null `m_mmio`. -/
  | nullMmio
  /-- A write through the end cursor of an erased node. -/
  | staleEnd
  deriving DecidableEq

/-- `AcpiTables::IoApic`, with what its version register reads. -/
structure IoApic where
  mmioBase : ℕ
  irqBase : ℕ
  version : BitVec 32

/-- `irqEnd` before it is cut, an `unsigned int`. -/
def IoApic.irqEnd (apic : IoApic) : ℕ :=
  (apic.irqBase + (((apic.version >>> 16) &&& 0xFF#32).toNat + 1)) % 2 ^ 32

/-- `ApicIsaRemappingEntry`. -/
structure ApicIsaRemappingEntry where
  sourceIrq : ℕ
  apicIrq : ℕ
  polarity : ℕ
  triggerMode : ℕ

/-- `ActiveLow` and `LevelTriggered`. -/
abbrev activeLow : ℕ := 3

@[inherit_doc activeLow]
abbrev levelTriggered : ℕ := 3

/-- `irqRegBase`. -/
def irqRegBase (irq offset : ℕ) : ℕ :=
  (2 * (irq + 2 ^ 32 - offset) + 0x10) % 2 ^ 32

namespace ExternalInterrupts

variable {η : Type*}

section

variable (s : ExternalInterrupts η) (irq : ℕ)

def setData (line : ℕ) (d : InterruptData η) : ExternalInterrupts η :=
  { s with data := update s.data line d }

/-- `writeData`. -/
def writeData (mmio : Option ℕ) (reg : ℕ) (value : BitVec 32) :
    Except IrqError (ExternalInterrupts η) :=
  match mmio with
  | none => .error .nullMmio
  | some apic => .ok { s with reg := update s.reg apic (update (s.reg apic) reg value) }

/-- `lockIrq`. -/
def lockIrq : Except IrqError (ExternalInterrupts η) :=
  if maxIrq ≤ irq then .ok s
  else
    let line := s.remapTable irq
    let intData := s.data line
    let counter := (intData.lockCounter + 1) % 2 ^ 32
    if counter = 1 then
      let value := intData.loCache ||| ioApicMaskIrq
      (s.setData line { intData with lockCounter := counter, loCache := value }).writeData
        intData.mmio (irqRegBase line intData.irqOffset) value
    else .ok (s.setData line { intData with lockCounter := counter })

/-- `unlockIrq`. -/
def unlockIrq : Except IrqError (ExternalInterrupts η) :=
  if maxIrq ≤ irq then .ok s
  else
    let line := s.remapTable irq
    let intData := s.data line
    let counter := (intData.lockCounter + (2 ^ 32 - 1)) % 2 ^ 32
    if counter = 0 then
      let value := intData.loCache &&& ~~~ioApicMaskIrq
      (s.setData line { intData with lockCounter := counter, loCache := value }).writeData
        intData.mmio (irqRegBase line intData.irqOffset) value
    else .ok (s.setData line { intData with lockCounter := counter })

/-- `emplace_back` of a handler. -/
def addHandler (line : ℕ) (handler : η) (id : ℕ) :
    ExternalInterrupts η :=
  let intData := s.data line
  { s.setData line { intData with irqHandlers :=
      ⟨intData.irqHandlers.toList ++ [⟨handler, id⟩], intData.irqHandlers.stale⟩ } with
    idCounter := id }

/-- `installHandler`. -/
def installHandler (handler : η) :
    Except IrqError (ExternalInterrupts η × ℕ) :=
  let line := s.remapTable irq
  if maxIrq ≤ irq then .ok (s, 0)
  else if (s.data line).mmio = none then .ok (s, 0)
  else if (s.data line).irqHandlers.trapped then .error .staleEnd
  else do
    let s ← if (s.data line).irqHandlers.toList.isEmpty then .ok s else s.lockIrq irq
    let id := (s.idCounter + 1) % 2 ^ 32
    let s ← (s.addHandler line handler id).unlockIrq irq
    return (s, id)

/-- The loop of `deleteHandler`. -/
def eraseHandler (line id : ℕ) : ExternalInterrupts η :=
  let intData := s.data line
  s.setData line { intData with irqHandlers := intData.irqHandlers.erase id }

/-- `deleteHandler`. -/
def deleteHandler (irq id : ℕ) :
    Except IrqError (ExternalInterrupts η × Bool) :=
  let line := s.remapTable irq
  if maxIrq ≤ irq then .ok (s, false)
  else if (s.data line).mmio = none then .ok (s, false)
  else do
    let s ← s.lockIrq irq
    let result := (s.data line).irqHandlers.toList.any fun e => e.id = id
    let s := s.eraseHandler line id
    let s ← if (s.data line).irqHandlers.toList.isEmpty then .ok s else s.unlockIrq irq
    return (s, result)

/-! ## `initIoApic` -/

/-- The loop over the interrupts of an IO-APIC. -/
def mapLines (mmio irqBase irqEnd : ℕ) : ExternalInterrupts η :=
  { s with data := fun irq =>
      if irqBase ≤ irq ∧ irq < irqEnd then
        { s.data irq with mmio := some mmio, irqOffset := irqBase }
      else s.data irq }

/-- A round of the loop over the IO-APICs, with the local `maxIrq`. -/
def mapApic (r : ExternalInterrupts η × ℕ) (apic : IoApic × ℕ) :
    Except IrqError (ExternalInterrupts η × ℕ) :=
  if apic.1.mmioBase = 0 then .error .panic
  else
    let irqEnd := apic.1.irqEnd
    if maxIrq < irqEnd ∧ maxIrq ≤ apic.1.irqBase then .ok r
    else
      let irqEnd := if maxIrq < irqEnd then maxIrq else irqEnd
      .ok (r.1.mapLines apic.2 apic.1.irqBase irqEnd, max r.2 irqEnd)

/-- A round of the loop that sets up the redirection registers. The target
is the boot processor, whose id is 0. -/
def setupLine : Except IrqError (ExternalInterrupts η) :=
  let intData := s.data irq
  if intData.mmio = none then .ok s
  else
    let value := BitVec.ofNat 32 (cpuIrq0Vector + irq) ||| ioApicMaskIrq |||
      if maxIsaIrq ≤ irq then ioApicActivLow ||| ioApicLevelSv else 0
    (s.setData irq { intData with loCache := value }).writeData intData.mmio
      (irqRegBase irq intData.irqOffset + 1) 0

/-- The branch of the loop over the remapping entries that redirects. -/
def redirect (sourceIrq apicIrq : ℕ) : ExternalInterrupts η :=
  let intData := s.data apicIrq
  let othIntData := s.data sourceIrq
  { (s.setData apicIrq { intData with irqHandlers := othIntData.irqHandlers }).setData sourceIrq
      { othIntData with irqHandlers := intData.irqHandlers } with
    remapTable := update s.remapTable sourceIrq apicIrq }

/-- A round of the loop over the remapping entries. -/
def remap (entry : ApicIsaRemappingEntry) : ExternalInterrupts η :=
  if maxIrq ≤ entry.sourceIrq ∨ maxIrq ≤ entry.apicIrq then s
  else
    let intData := s.data entry.apicIrq
    if intData.mmio = none then s
    else
      let value := intData.loCache |||
        (if entry.polarity = activeLow then ioApicActivLow else 0) |||
        if entry.triggerMode = levelTriggered then ioApicLevelSv else 0
      let s := s.setData entry.apicIrq { intData with loCache := value }
      let s :=
        if entry.apicIrq ≠ entry.sourceIrq then s.redirect entry.sourceIrq entry.apicIrq else s
      { s with irqHasBeenRedirected := update s.irqHasBeenRedirected entry.sourceIrq true }

/-- A round of the loop that locks the lines. -/
def lockLine : Except IrqError (ExternalInterrupts η) :=
  if (s.data irq).lockCounter = 0 then s.lockIrq irq else .ok s

/-- `initIoApic`. -/
def initIoApic (ioApics : List IoApic)
    (isaRemapping : List ApicIsaRemappingEntry) : Except IrqError (ExternalInterrupts η) := do
  if ioApics.isEmpty then .error .panic
  let r ← ioApics.zipIdx.foldlM mapApic (s, 0)
  let irqTop := r.2
  if irqTop < 24 then .error .panic
  let s ← (List.range irqTop).foldlM setupLine r.1
  (List.range irqTop).foldlM lockLine (isaRemapping.foldl remap s)

end

/-- The constructor has only filled `m_remapTable`. -/
structure Fresh (s : ExternalInterrupts η) : Prop where
  mmio : ∀ irq, (s.data irq).mmio = none
  irqHandlers : ∀ irq, (s.data irq).irqHandlers = .empty
  irqOffset : ∀ irq, (s.data irq).irqOffset = 0
  lockCounter : ∀ irq, (s.data irq).lockCounter = 0
  remapTable : ∀ irq, s.remapTable irq = irq

end ExternalInterrupts

end ShmDos64
