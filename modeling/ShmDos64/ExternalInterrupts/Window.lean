import ShmDos64.ExternalInterrupts.Handlers
/-!
# Redirection registers written side by side

The registers of an IO-APIC are behind a window of two: `writeData` selects a
register and then writes the value. `lockIrq` and `unlockIrq` of different lines
run at the same time on different processors, as nothing but the mutex of each
line is held around them. A line has one call at a time; its counter and its
cache are its own, so that a call is three steps: what it does to these, the
selection, and the write.
-/

namespace ShmDos64

open Function (update update_of_ne update_self)
open ExternalInterrupts

variable {η : Type*}

/-- What the call of a line is about to do. -/
inductive WindowPc where
  | idle
  /-- To write `IoApicAddressReg`. -/
  | select
  /-- To write `IoApicValueReg`. -/
  | write
  deriving DecidableEq

/-- The lines, what is selected in each IO-APIC, and the call of each line. -/
structure WindowState (η : Type*) where
  irqs : ExternalInterrupts η
  /-- `IoApicAddressReg`. -/
  select : ℕ → ℕ
  pc : ℕ → WindowPc

/-- The steps of the calls. -/
inductive WindowAct where
  | lock (irq : ℕ)
  | unlock (irq : ℕ)
  /-- The next access of the call of a line. -/
  | run (line : ℕ)

namespace WindowState

section

variable (s : WindowState η)

/-- A call changes the counter of its line, and the cache when there is something
to write. -/
def count (line counter : ℕ) (value : Option (BitVec 32)) : WindowState η :=
  let intData := s.irqs.data line
  match value with
  | some value =>
    { s with
      irqs := s.irqs.setData line { intData with lockCounter := counter, loCache := value }
      pc := update s.pc line .select }
  | none => { s with irqs := s.irqs.setData line { intData with lockCounter := counter } }

/-- `lockIrq` and `unlockIrq` can be called for the interrupt: an IO-APIC has its
line, and nobody else is in a call for it. -/
def Callable (irq : ℕ) : Prop :=
  irq < maxIrq ∧ (s.irqs.data (s.irqs.remapTable irq)).mmio ≠ none ∧
    s.pc (s.irqs.remapTable irq) = .idle

instance (irq : ℕ) : Decidable (s.Callable irq) :=
  inferInstanceAs (Decidable (_ ∧ _ ∧ _))

/-- An access of the call of `line`. -/
def access (line : ℕ) : Option (WindowState η) :=
  let intData := s.irqs.data line
  intData.mmio.bind fun apic =>
    match s.pc line with
    | .idle => none
    | .select => some { s with
        select := update s.select apic (irqRegBase line intData.irqOffset)
        pc := update s.pc line .write }
    | .write => some { s with
        irqs := { s.irqs with
          reg := update s.irqs.reg apic
            (update (s.irqs.reg apic) (s.select apic) intData.loCache) }
        pc := update s.pc line .idle }

/-- A step. -/
def apply : WindowAct → Option (WindowState η)
  | .lock irq =>
    if s.Callable irq then
      let line := s.irqs.remapTable irq
      let counter := ((s.irqs.data line).lockCounter + 1) % 2 ^ 32
      let value := (s.irqs.data line).loCache ||| ioApicMaskIrq
      some (s.count line counter (if counter = 1 then some value else none))
    else none
  | .unlock irq =>
    if s.Callable irq then
      let line := s.irqs.remapTable irq
      let counter := ((s.irqs.data line).lockCounter + (2 ^ 32 - 1)) % 2 ^ 32
      let value := (s.irqs.data line).loCache &&& ~~~ioApicMaskIrq
      some (s.count line counter (if counter = 0 then some value else none))
    else none
  | .run line => s.access line

/-- A register is selected while no other line of the IO-APIC is about to write,
and the counter does not leave its range. -/
def Apart : WindowAct → Prop
  | .lock irq => (s.irqs.data (s.irqs.remapTable irq)).lockCounter ≠ 2 ^ 32 - 1
  | .unlock irq => (s.irqs.data (s.irqs.remapTable irq)).lockCounter ≠ 0
  | .run line => s.pc line = .select → ∀ other < maxIrq,
      (s.irqs.data other).mmio = (s.irqs.data line).mmio → s.pc other ≠ .write

instance (a : WindowAct) : Decidable (s.Apart a) :=
  match a with
  | .lock _ | .unlock _ => inferInstanceAs (Decidable (_ ≠ _))
  | .run line => inferInstanceAs (Decidable (s.pc line = .select → ∀ other < maxIrq,
      (s.irqs.data other).mmio = (s.irqs.data line).mmio → s.pc other ≠ .write))

end

end WindowState

/-- The runs of calls for the lines of `start`. -/
def windowMachine (start : WindowState η) : Machine (WindowState η) WindowAct where
  init s := s = start
  step s a t := s.apply a = some t

/-- The redirection register of a line that an IO-APIC has, and the IO-APIC. -/
structure InterruptData.At (d : InterruptData η) (line apic reg : ℕ) : Prop where
  line_lt : line < maxIrq
  mmio : d.mmio = some apic
  reg : irqRegBase line d.irqOffset = reg

/-- The value is for the line: it has the line's vector, and the mask bit while
the counter is not 0. -/
structure InterruptData.Value (d : InterruptData η) (line : ℕ) (value : BitVec 32) : Prop where
  vector : value.setWidth 8 = BitVec.ofNat 8 (cpuIrq0Vector + line)
  mask : value.getLsbD 16 = decide (d.lockCounter ≠ 0)

namespace WindowState

/-- How the lines have to be set up: an interrupt leads to a place of the table,
and the lines of an IO-APIC have one offset, which is not above them. The
counters are `unsigned int`. -/
structure Wired (s : WindowState η) : Prop where
  counter : ∀ line, (s.irqs.data line).lockCounter < 2 ^ 32
  line : ∀ irq < maxIrq, s.irqs.remapTable irq < maxIrq
  offset_le : ∀ line < maxIrq, (s.irqs.data line).irqOffset ≤ line
  offset : ∀ line < maxIrq, ∀ other < maxIrq, (s.irqs.data line).mmio ≠ none →
    (s.irqs.data line).mmio = (s.irqs.data other).mmio →
      (s.irqs.data line).irqOffset = (s.irqs.data other).irqOffset

/-- The redirection register of the line holds what was last written for it. -/
structure InSync (s : WindowState η) (line apic reg : ℕ) : Prop where
  own : (s.irqs.data line).At line apic reg
  cache : s.irqs.reg apic reg = (s.irqs.data line).loCache
  value : (s.irqs.data line).Value line (s.irqs.reg apic reg)

/-! ## The registers of different lines -/

variable {start s t : WindowState η} {line other apic reg : ℕ}

/-- No two lines share a register. -/
theorem Wired.inj (h : start.Wired) (hl : (start.irqs.data line).At line apic reg)
    (ho : (start.irqs.data other).At other apic reg) : line = other := by
  have hoff := h.offset line hl.line_lt other ho.line_lt (by simp [hl.mmio])
    (hl.mmio.trans ho.mmio.symm)
  have hle := h.offset_le line hl.line_lt
  have hle' := h.offset_le other ho.line_lt
  have hlt := hl.line_lt
  have hlt' := ho.line_lt
  have hreg := hl.reg.trans ho.reg.symm
  simp only [irqRegBase, maxIrq] at hlt hlt' hreg
  omega

theorem vector_set (value : BitVec 32) :
    (value ||| ioApicMaskIrq).setWidth 8 = value.setWidth 8 := by
  rw [BitVec.setWidth_or, show (ioApicMaskIrq).setWidth 8 = 0#8 by decide, BitVec.or_zero]

theorem vector_clear (value : BitVec 32) :
    (value &&& ~~~ioApicMaskIrq).setWidth 8 = value.setWidth 8 := by
  rw [BitVec.setWidth_and, show (~~~ioApicMaskIrq).setWidth 8 = BitVec.allOnes 8 by decide,
    BitVec.and_allOnes]

/-! ## The invariant -/

/-- **The invariant.** Of a line that was in sync the cache is always right, and
the register when nobody is in a call for it; a call that is about to write has
its register selected. -/
structure Inv (start s : WindowState η) : Prop where
  remap : s.irqs.remapTable = start.irqs.remapTable
  mmio : ∀ line, (s.irqs.data line).mmio = (start.irqs.data line).mmio
  offset : ∀ line, (s.irqs.data line).irqOffset = (start.irqs.data line).irqOffset
  lt : ∀ line, s.pc line ≠ .idle → line < maxIrq
  counter : ∀ line, (s.irqs.data line).lockCounter < 2 ^ 32
  value : ∀ line apic reg, start.InSync line apic reg →
    (s.irqs.data line).Value line (s.irqs.data line).loCache
  reg : ∀ line apic reg, start.InSync line apic reg → s.pc line = .idle →
    s.irqs.reg apic reg = (s.irqs.data line).loCache
  select : ∀ line apic reg, (start.irqs.data line).At line apic reg → s.pc line = .write →
    s.select apic = reg
  other : ∀ apic reg, (∀ line, ¬ (start.irqs.data line).At line apic reg) →
    s.irqs.reg apic reg = start.irqs.reg apic reg

section

variable (h : Inv start s)

include h

theorem Inv.at_iff :
    (s.irqs.data line).At line apic reg ↔ (start.irqs.data line).At line apic reg := by
  constructor
  · rintro ⟨hlt, hm, hr⟩
    exact ⟨hlt, h.mmio line ▸ hm, h.offset line ▸ hr⟩
  · rintro ⟨hlt, hm, hr⟩
    exact ⟨hlt, (h.mmio line).trans hm, by rw [h.offset line, hr]⟩

omit h in
theorem count_eq (hidle : s.pc line = .idle) {counter : ℕ} {value : Option (BitVec 32)} :
    s.count line counter value = { s with
      irqs := s.irqs.setData line { s.irqs.data line with
        lockCounter := counter, loCache := value.getD (s.irqs.data line).loCache }
      pc := update s.pc line (if value.isSome then .select else .idle) } := by
  cases value with
  | none => simp [WindowState.count, ← hidle]
  | some v => rfl

/-- The call has changed the counter, and there is nothing to write or the cache
has the new value. -/
theorem Inv.count (hline : line < maxIrq) (hidle : s.pc line = .idle)
    {counter : ℕ} {value : Option (BitVec 32)} (hcounter : counter < 2 ^ 32)
    (hvalue : ∀ v, (s.irqs.data line).Value line (s.irqs.data line).loCache →
      v = value.getD (s.irqs.data line).loCache →
      v.setWidth 8 = BitVec.ofNat 8 (cpuIrq0Vector + line) ∧
        v.getLsbD 16 = decide (counter ≠ 0)) :
    Inv start (s.count line counter value) := by
  rw [count_eq hidle]
  refine ⟨h.remap, fun l => ?_, fun l => ?_, fun l hl => ?_, fun l => ?_, fun l apic reg hat => ?_,
    fun l apic reg hat hl => ?_, fun l apic reg hat hl => ?_, h.other⟩
  all_goals
    rcases eq_or_ne l line with rfl | hne
    rotate_left
    · -- the other lines are as before
      simp only [setData, update_of_ne hne] at *
      first
      | exact h.mmio l
      | exact h.offset l
      | exact h.lt l hl
      | exact h.counter l
      | exact h.value l apic reg hat
      | exact h.reg l apic reg hat hl
      | exact h.select l apic reg hat hl
    simp only [setData, update_self] at *
  · exact h.mmio l
  · exact h.offset l
  · exact hline
  · exact hcounter
  · exact ⟨(hvalue _ (h.value l apic reg hat) rfl).1, (hvalue _ (h.value l apic reg hat) rfl).2⟩
  · cases value with
    | none => exact h.reg l apic reg hat hidle
    | some v => cases hl
  · cases value <;> cases hl

/-- The register of the line is selected, and nobody else's was to be written. -/
theorem Inv.selected (hpc : s.pc line = .select) (hapart : s.Apart (.run line))
    (hmmio : (s.irqs.data line).mmio = some apic) : Inv start { s with
      select := update s.select apic (irqRegBase line (s.irqs.data line).irqOffset)
      pc := update s.pc line .write } := by
  have hlt : line < maxIrq := h.lt line (by rw [hpc]; nofun)
  have hself : (start.irqs.data line).At line apic
      (irqRegBase line (s.irqs.data line).irqOffset) :=
    h.at_iff.mp ⟨hlt, hmmio, rfl⟩
  refine ⟨h.remap, h.mmio, h.offset, fun l hl => ?_, h.counter, h.value,
    fun l apic' reg hat hl => ?_, fun l apic' reg hat hl => ?_, h.other⟩
  · by_cases heq : l = line
    · exact heq ▸ hlt
    · exact h.lt l (by simpa only [update_of_ne heq] using hl)
  · by_cases heq : l = line
    · subst heq
      simp at hl
    · exact h.reg l apic' reg hat (by simpa only [update_of_ne heq] using hl)
  · by_cases heq : l = line
    · subst heq
      obtain rfl : apic = apic' := Option.some.inj (hself.mmio.symm.trans hat.mmio)
      simp only [update_self]
      exact hself.reg.symm.trans hat.reg
    · simp only [update_of_ne heq] at hl
      have hapic : apic' ≠ apic := by
        rintro rfl
        refine hapart hpc l hat.line_lt ?_ hl
        rw [h.mmio l, hat.mmio, hmmio]
      simp only [update_of_ne hapic]
      exact h.select l apic' reg hat hl

/-- The value is written, to the register of the line. -/
theorem Inv.written (hwired : start.Wired) (hpc : s.pc line = .write)
    (hmmio : (s.irqs.data line).mmio = some apic) : Inv start { s with
      irqs := { s.irqs with
        reg := update s.irqs.reg apic
          (update (s.irqs.reg apic) (s.select apic) (s.irqs.data line).loCache) }
      pc := update s.pc line .idle } := by
  have hlt : line < maxIrq := h.lt line (by rw [hpc]; nofun)
  have hself : (start.irqs.data line).At line apic (s.select apic) := by
    have hat := h.at_iff.mp ⟨hlt, hmmio, rfl⟩
    rwa [← h.select line apic _ hat hpc] at hat
  refine ⟨h.remap, h.mmio, h.offset, fun l hl => ?_, h.counter, h.value,
    fun l apic' reg hat hl => ?_, fun l apic' reg hat hl => ?_, fun apic' reg hat => ?_⟩
  · by_cases heq : l = line
    · exact heq ▸ hlt
    · exact h.lt l (by simpa only [update_of_ne heq] using hl)
  · by_cases heq : l = line
    · subst heq
      obtain rfl : apic = apic' := Option.some.inj (hself.mmio.symm.trans hat.own.mmio)
      obtain rfl : s.select apic = reg := hself.reg.symm.trans hat.own.reg
      simp
    · simp only [update_of_ne heq] at hl
      have hold := h.reg l apic' reg hat hl
      by_cases hapic : apic' = apic
      · subst hapic
        have hreg : reg ≠ s.select apic' := fun e => heq (hwired.inj hat.own (e ▸ hself))
        simpa [update_of_ne hreg] using hold
      · simpa [update_of_ne hapic] using hold
  · by_cases heq : l = line
    · subst heq
      simp at hl
    · exact h.select l apic' reg hat (by simpa only [update_of_ne heq] using hl)
  · have hold := h.other apic' reg hat
    by_cases hapic : apic' = apic
    · subst hapic
      have hreg : reg ≠ s.select apic' := fun e => hat line (e ▸ hself)
      simpa [update_of_ne hreg] using hold
    · simpa [update_of_ne hapic] using hold

/-- **The step lemma.** -/
theorem Inv.apply (hwired : start.Wired) {a : WindowAct} (hapart : s.Apart a)
    (hst : s.apply a = some t) : Inv start t := by
  cases a with
  | lock irq =>
    simp only [WindowState.apply] at hst
    split at hst
    next hcall =>
      obtain ⟨⟩ := hst
      refine h.count ?_ hcall.2.2 (Nat.mod_lt _ (by decide)) fun v hold hv => ?_
      · rw [h.remap]
        exact hwired.line irq hcall.1
      · have hne : (s.irqs.data (s.irqs.remapTable irq)).lockCounter ≠ 2 ^ 32 - 1 := hapart
        split at hv
        next hone =>
          subst hv
          rw [hone]
          exact ⟨(vector_set _).trans hold.vector, mask_set _⟩
        next hone =>
          subst hv
          refine ⟨hold.vector, hold.mask.trans (decide_eq_decide.mpr ?_)⟩
          have hlt := h.counter (s.irqs.remapTable irq)
          omega
    next => cases hst
  | unlock irq =>
    simp only [WindowState.apply] at hst
    split at hst
    next hcall =>
      obtain rfl := Option.some.inj hst
      refine h.count ?_ hcall.2.2 (Nat.mod_lt _ (by decide)) fun v hold hv => ?_
      · rw [h.remap]
        exact hwired.line irq hcall.1
      · have hne : (s.irqs.data (s.irqs.remapTable irq)).lockCounter ≠ 0 := hapart
        split at hv
        next hzero =>
          subst hv
          rw [hzero]
          exact ⟨(vector_clear _).trans hold.vector, mask_clear _⟩
        next hzero =>
          subst hv
          refine ⟨hold.vector, hold.mask.trans (decide_eq_decide.mpr ?_)⟩
          exact ⟨fun _ => hzero, fun _ => hne⟩
    next => cases hst
  | run line =>
    simp only [WindowState.apply, access] at hst
    obtain ⟨apic, hmmio, hst⟩ := Option.bind_eq_some_iff.mp hst
    split at hst
    next => cases hst
    next hpc =>
      obtain ⟨⟩ := hst
      exact h.selected hpc hapart hmmio
    next hpc =>
      obtain ⟨⟩ := hst
      exact h.written hwired hpc hmmio

end

/-- **Every line has its own value.** From a state with no call in progress, in
every run in which a register is selected only while no other line of the IO-APIC
is about to write, whenever no call is in progress the register of a line holds
what was last written for it, if it did so at the start, and no register but those
of lines has changed. -/
theorem redirection_registers_in_sync (hwired : start.Wired)
    (hstart : ∀ line, start.pc line = .idle) (hs : ((windowMachine start).guard Apart).Reachable s)
    (hidle : ∀ line < maxIrq, s.pc line = .idle) :
    (∀ line apic reg, start.InSync line apic reg → s.InSync line apic reg) ∧
      ∀ apic reg, (∀ line, ¬ (start.irqs.data line).At line apic reg) →
        s.irqs.reg apic reg = start.irqs.reg apic reg := by
  have h : Inv start s := hs.invariant
    (fun s h => by
      obtain rfl : s = start := h
      refine ⟨rfl, fun _ => rfl, fun _ => rfl, fun line hl => absurd (hstart line) hl,
        hwired.counter, fun line apic reg hsync => hsync.cache ▸ hsync.value,
        fun line apic reg hsync _ => hsync.cache, fun line apic reg _ hl => ?_,
        fun _ _ _ => rfl⟩
      rw [hstart line] at hl
      cases hl)
    fun _ _ _ h hst => h.apply hwired hst.1 hst.2
  refine ⟨fun line apic reg hsync => ?_, h.other⟩
  have heq := h.reg line apic reg hsync (hidle line hsync.own.line_lt)
  exact ⟨h.at_iff.mpr hsync.own, heq, heq ▸ h.value line apic reg hsync⟩

/-- One IO-APIC has all lines, which are locked once. -/
def allLocked : WindowState Unit where
  irqs :=
    { data := fun line =>
        { mmio := some 0, loCache := BitVec.ofNat 32 (cpuIrq0Vector + line) ||| ioApicMaskIrq,
          irqHandlers := .empty, irqOffset := 0, lockCounter := 1 }
      remapTable := fun irq => irq
      irqHasBeenRedirected := fun _ => false
      idCounter := 0
      reg := fun _ reg => BitVec.ofNat 32 (cpuIrq0Vector + (reg - 0x10) / 2) ||| ioApicMaskIrq }
  select _ := 0
  pc _ := .idle

theorem allLocked_wired : allLocked.Wired where
  counter _ := show 1 < 2 ^ 32 by decide
  line _ h := h
  offset_le _ _ := Nat.zero_le _
  offset _ _ _ _ _ _ := rfl

theorem allLocked_inSync {line apic reg : ℕ} (hat : (allLocked.irqs.data line).At line apic reg) :
    allLocked.InSync line apic reg := by
  have hlt := hat.line_lt
  have hreg : 2 * line + 0x10 = reg := by
    have hreg : (2 * (line + 2 ^ 32 - 0) + 0x10) % 2 ^ 32 = reg := hat.reg
    simp only [maxIrq] at hlt
    omega
  have heq : allLocked.irqs.reg apic reg = (allLocked.irqs.data line).loCache := by
    simp only [allLocked]
    rw [show (reg - 0x10) / 2 = line by omega]
  refine ⟨hat, heq, heq ▸ ⟨?_, mask_set _⟩⟩
  exact (vector_set _).trans (BitVec.setWidth_ofNat_of_le (by decide) _)

/-- Two lines are unlocked at the same time, and their writes come one after the
other. -/
theorem redirection_registers_in_sync_twoLines : ∃ s : WindowState Unit,
    (s.irqs.data 3).lockCounter = 0 ∧ (s.irqs.data 5).lockCounter = 0 ∧ s.InSync 3 0 0x16 := by
  obtain ⟨s, hs, hend⟩ := Machine.Reachable.exists_of_guard (M := windowMachine allLocked) Apart
    (P := fun s => decide ((s.irqs.data 3).lockCounter = 0 ∧ (s.irqs.data 5).lockCounter = 0 ∧
      ∀ line < maxIrq, s.pc line = .idle)) (fun _ _ _ h => h)
    [.unlock 3, .unlock 5, .run 3, .run 3, .run 5, .run 5] (.init rfl) (by decide +kernel)
  obtain ⟨h3, h5, hidle⟩ := of_decide_eq_true hend
  exact ⟨s, h3, h5, (redirection_registers_in_sync allLocked_wired (fun _ => rfl) hs hidle).1 3 0
    0x16 (allLocked_inSync ⟨by decide, rfl, rfl⟩)⟩

/-- **A line's value in the register of another.** Two lines are unlocked at the
same time. The second selects its register before the first has written, so that
the first writes to it, and stays masked itself. -/
theorem redirection_register_of_other : ∃ s : WindowState Unit,
    (windowMachine allLocked).Reachable s ∧ (∀ line < maxIrq, s.pc line = .idle) ∧
      (s.irqs.data 3).lockCounter = 0 ∧ (s.irqs.reg 0 0x16).getLsbD 16 = true := by
  obtain ⟨s, hs, hend⟩ := Machine.Reachable.exists_of_foldlM (M := windowMachine allLocked)
    (P := fun s => decide ((∀ line < maxIrq, s.pc line = .idle) ∧
      (s.irqs.data 3).lockCounter = 0 ∧ (s.irqs.reg 0 0x16).getLsbD 16 = true))
    (fun _ _ _ h => h)
    [.unlock 3, .unlock 5, .run 3, .run 5, .run 3, .run 5] (.init rfl) (by decide +kernel)
  exact ⟨s, hs, of_decide_eq_true hend⟩

end WindowState

end ShmDos64
