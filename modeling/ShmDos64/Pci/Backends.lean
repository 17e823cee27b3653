import ShmDos64.Pci.Model
/-!
# The two back-ends do not agree

On hardware that asks for bit 31 of the selection, a call of `PciLegacy` never
reaches its device: the constructor of `PciLegacy` leaves the bit out of
`m_address`. Every read returns ones, and no write has an effect. The direct
path of an enhanced segment agrees with that exactly as long as it is used to
read ones and to write what is there already.
-/

namespace ShmDos64

open PciPorts PortProg PciLegacy

namespace PciCall

/-- A naturally aligned access to the first 256 registers. -/
def Aligned : PciCall → Prop
  | .read w reg | .write w reg _ => reg % (w.bits / 8) = 0 ∧ reg < 256

/-- A read of ones, or a write of what is there. -/
def Neutral (b : ℕ → BitVec 8) : PciCall → Prop
  | .read w reg => load w.bits b reg = BitVec.allOnes w.bits
  | .write w reg value => load w.bits b reg = value

/-- What a call returns that does not reach a register. -/
def ones : PciCall → Result
  | .read w _ => result (BitVec.allOnes w.bits)
  | .write _ _ _ => none

end PciCall

/-- What is to be compared: the results of a sequence of calls, each with the
contents after it. -/
def trace {σ : Type*} (call : PciCall → σ → PciCall.Result × σ)
    (contents : σ → Fin 256 → BitVec 8) : List PciCall → σ →
    List (PciCall.Result × (Fin 256 → BitVec 8))
  | [], _ => []
  | c :: calls, s => ((call c s).1, contents (call c s).2) :: trace call contents calls (call c s).2

/-- A sequence of calls of the `PciLegacy` of a device. -/
def legacyTrace (a : PciAddress) : List PciCall → PciPorts →
    List (PciCall.Result × (Fin 256 → BitVec 8)) :=
  trace (fun c hw => (c.legacy a.address).run true hw) fun hw r => hw.config a.number r

/-- A sequence of calls of the memory-mapped resource at `ptr`. -/
def mmioTrace (ptr : ℕ) : List PciCall → (ℕ → BitVec 8) →
    List (PciCall.Result × (Fin 256 → BitVec 8)) :=
  trace (fun c mem => c.mmio ptr mem) fun mem r => mem (ptr + r)

variable {a : PciAddress} {hw : PciPorts} {ptr : ℕ} {mem : ℕ → BitVec 8}

/-! ## The legacy path reaches nothing -/

theorem not_reaches {addr : ℕ} (h : addr < 2 ^ 31) :
    reaches true { hw with address := addr } = false := by
  simp [reaches, Nat.testBit_lt_two_pow h]

theorem inData_ones {addr : ℕ} (h : addr < 2 ^ 31) :
    PciPorts.inData true { hw with address := addr } = BitVec.allOnes 32 := by
  rw [PciPorts.inData, not_reaches h]
  rfl

theorem outData_ignored {addr : ℕ} (h : addr < 2 ^ 31) (value : BitVec 32) :
    PciPorts.outData true { hw with address := addr } value = { hw with address := addr } := by
  rw [PciPorts.outData, not_reaches h]
  rfl

theorem address_or_lt (a : PciAddress) (reg : ℕ) : a.address ||| (reg &&& 0xFC) < 2 ^ 31 := by
  have := a.number_lt
  rw [a.address_or]
  omega

theorem next_address_lt (a : PciAddress) (reg : ℕ) :
    ((a.address ||| (reg &&& 0xFC)) + 4) % 2 ^ 32 < 2 ^ 31 := by
  have := a.number_lt
  rw [a.address_or]
  omega

/-- A part of ones is ones. -/
theorem shift_ones {w : ℕ} {mask : BitVec 32} (hmask : ∀ i < w, mask.getLsbD i = true) {shift : ℕ}
    (hshift : shift + w ≤ 32) :
    ((BitVec.allOnes 32 >>> shift) &&& mask).setWidth w = BitVec.allOnes w := by
  apply BitVec.eq_of_getLsbD_eq
  intro i hi
  rw [BitVec.getLsbD_setWidth, BitVec.getLsbD_and, BitVec.getLsbD_ushiftRight,
    BitVec.getLsbD_allOnes, BitVec.getLsbD_allOnes, hmask i hi]
  simp only [hi, decide_true, Bool.true_and, Bool.and_true, decide_eq_true_eq]
  omega

/-- A call of `PciLegacy` returns ones and leaves the registers. -/
theorem legacy_ones (a : PciAddress) (hw : PciPorts) (c : PciCall) :
    ((c.legacy a.address).run true hw).1 = c.ones ∧
    ((c.legacy a.address).run true hw).2.config = hw.config := by
  have h := address_or_lt a
  have h' := next_address_lt a
  rcases c with ⟨w, reg⟩ | ⟨w, reg, value⟩
  · cases w
    all_goals
      simp only [PciCall.legacy, run_map, in8, in16, in32,
        in64, setAddress, run, inData_ones (h reg),
        inData_ones (h' reg), and_true, PciCall.ones]
    · rw [shift_ones (w := 8) (by decide) (by rw [and_0x03]; omega)]
      rfl
    · rw [shift_ones (w := 16) (by decide) (by rw [and_0x01]; omega)]
      rfl
    · rfl
    · rfl
  · cases w
    all_goals
      simp only [PciCall.legacy, run_map, out8, out16,
        out32, out64, setAddress, run,
        outData_ignored (h reg), outData_ignored (h' reg), and_true, PciCall.ones]
    refine ⟨trivial, ?_⟩
    rw [show PciPorts.outData true _ value = _ from outData_ignored (h reg) value]

/-! ## The direct path -/

theorem load_window (w reg : ℕ) : load w mem (ptr + reg) = load w (fun r => mem (ptr + r)) reg := by
  apply BitVec.eq_of_getLsbD_eq
  intro i hi
  rw [getLsbD_load, getLsbD_load, Nat.add_assoc]

theorem setWidth_inj {w : ℕ} (hw : w ≤ 64) {x y : BitVec w} (h : x.setWidth 64 = y.setWidth 64) :
    x = y := by
  apply BitVec.eq_of_getLsbD_eq
  intro i hi
  have hbit := congrArg (fun v => v.getLsbD i) h
  simpa only [BitVec.getLsbD_setWidth, decide_eq_true (Nat.lt_of_lt_of_le hi hw),
    Bool.true_and] using hbit

/-- A neutral call on the direct path. -/
theorem mmio_of_neutral {c : PciCall} (h : c.Neutral fun r => mem (ptr + r)) :
    c.mmio ptr mem = (c.ones, mem) := by
  rcases c with ⟨w, reg⟩ | ⟨w, reg, value⟩
  · rw [PciCall.mmio_read, load_window, show load w.bits _ reg = _ from h]
    rfl
  · rw [PciCall.mmio_write, ← show load w.bits _ reg = value from h, ← load_window, store_load]
    rfl

/-- An aligned call ends below 256. -/
theorem PciCall.Aligned.end_le {w : Width} {reg : ℕ} (h : reg % (w.bits / 8) = 0 ∧ reg < 256) :
    reg + w.bits / 8 ≤ 256 := by
  obtain ⟨hmod, hreg⟩ := h
  cases w <;> simp only [Width.bits] at hmod ⊢ <;> omega

/-- A call on the direct path that returns ones, if a value, and leaves the
first 256 registers is neutral. -/
theorem neutral_of_mmio {c : PciCall} (hc : c.Aligned) (hones : (c.mmio ptr mem).1 = c.ones)
    (hmem : ∀ r : Fin 256, (c.mmio ptr mem).2 (ptr + r) = mem (ptr + r)) :
    c.Neutral fun r => mem (ptr + r) := by
  rcases c with ⟨w, reg⟩ | ⟨w, reg, value⟩
  · rw [PciCall.mmio_read] at hones
    have hload := setWidth_inj w.bits_le (Option.some.inj hones)
    rwa [load_window] at hload
  · rw [PciCall.mmio_write] at hmem
    have hstore : store mem (ptr + reg) value = mem := by
      funext p
      by_cases hp : ptr + reg ≤ p ∧ p < ptr + reg + w.bits / 8
      · have hend := PciCall.Aligned.end_le hc
        have hlt : p - ptr < 256 := by omega
        have := hmem ⟨p - ptr, hlt⟩
        rwa [show ptr + (p - ptr) = p by omega] at this
      · exact store_of_not hp
    have hload := (store_eq_iff w.eight_dvd).mp hstore
    rwa [load_window] at hload

theorem legacyTrace_eq_iff {calls : List PciCall} (hcalls : ∀ c ∈ calls, c.Aligned)
    (hsame : ∀ r < 256, hw.config a.number r = mem (ptr + r)) :
    legacyTrace a calls hw = mmioTrace ptr calls mem ↔
      ∀ c ∈ calls, c.Neutral fun r => mem (ptr + r) := by
  induction calls generalizing hw with
  | nil => exact iff_of_true rfl nofun
  | cons c calls ih =>
    obtain ⟨hones, hconfig⟩ := legacy_ones a hw c
    have hrest : ∀ d ∈ calls, d.Aligned := fun d hd => hcalls d (List.mem_cons_of_mem c hd)
    have hsame' : ∀ r < 256,
        ((c.legacy a.address).run true hw).2.config a.number r = mem (ptr + r) := by
      rw [hconfig]
      exact hsame
    rw [List.forall_mem_cons]
    simp only [legacyTrace, mmioTrace, trace, List.cons.injEq, Prod.mk.injEq]
    constructor
    · rintro ⟨⟨hvalue, hcontents⟩, htail⟩
      have hneutral : c.Neutral fun r => mem (ptr + r) := by
        refine neutral_of_mmio (hcalls c List.mem_cons_self) (hvalue.symm.trans hones) fun r => ?_
        exact (congrFun hcontents r).symm.trans (hsame' r r.isLt)
      rw [mmio_of_neutral hneutral] at htail
      exact ⟨hneutral, (ih hrest hsame').mp htail⟩
    · rintro ⟨hneutral, htail⟩
      rw [mmio_of_neutral hneutral]
      refine ⟨⟨hones, funext fun r => hsame' r r.isLt⟩, ?_⟩
      exact (ih hrest hsame').mpr htail

theorem neutral_congr {c : PciCall} {b b' : ℕ → BitVec 8} (hc : c.Aligned)
    (hb : ∀ r < 256, b r = b' r) : c.Neutral b ↔ c.Neutral b' := by
  rcases c with ⟨w, reg⟩ | ⟨w, reg, value⟩
  all_goals
    have hend := PciCall.Aligned.end_le hc
    have hload : load w.bits b reg = load w.bits b' reg :=
      load_congr w.eight_dvd fun r _ hr => hb r (by omega)
    rw [PciCall.Neutral, PciCall.Neutral, hload]

/-- **When the two back-ends agree.** For a bus that an enhanced segment
covers, a sequence of aligned calls of the legacy path returns the same values
and leaves the same contents as on the resource that `makeIoResource` returns,
exactly if every call reads ones or writes what is there already. -/
theorem backends_agree_iff (exSegments : List EnhancedPciSegment) (a : PciAddress)
    (hcovered : ∃ exSeg ∈ exSegments, exSeg.startBus ≤ a.bus ∧ a.bus ≤ exSeg.endBus) :
    ∃ ptr size, makeIoResource exSegments a = .mmio ptr size ∧
      ∀ (b : ℕ → BitVec 8) (calls : List PciCall) (hw : PciPorts) (mem : ℕ → BitVec 8),
        (∀ r < 256, hw.config a.number r = b r) → (∀ r < 256, mem (ptr + r) = b r) →
        (∀ c ∈ calls, c.Aligned) →
        (legacyTrace a calls hw = mmioTrace ptr calls mem ↔ ∀ c ∈ calls, c.Neutral b) := by
  obtain ⟨exSeg, hfind⟩ : ∃ exSeg, exSegments.find?
      (fun exSeg => exSeg.startBus ≤ a.bus ∧ a.bus ≤ exSeg.endBus) = some exSeg := by
    rw [← Option.isSome_iff_exists, List.find?_isSome]
    obtain ⟨exSeg, hmem, hbus⟩ := hcovered
    exact ⟨exSeg, hmem, decide_eq_true hbus⟩
  refine ⟨_, _, by rw [makeIoResource, hfind], fun b calls hw mem hhw hmem hcalls => ?_⟩
  rw [legacyTrace_eq_iff hcalls fun r hr => (hhw r hr).trans (hmem r hr).symm]
  exact forall₂_congr fun c hc => neutral_congr (hcalls c hc) hmem

/-- The segment of buses 0 to 255. -/
def segment255 : EnhancedPciSegment := ⟨0xB0000000, 0, 255⟩

/-- A read of a register that no device has, and a write of ones to another. -/
theorem backends_agree_absent : ∃ ptr size,
    makeIoResource [segment255] ⟨0, 0, 0⟩ = .mmio ptr size ∧
    legacyTrace ⟨0, 0, 0⟩ [.read .w16 0, .write .w8 4 0xFF, .read .w8 4] ⟨0, fun _ _ => 0xFF⟩ =
      mmioTrace ptr [.read .w16 0, .write .w8 4 0xFF, .read .w8 4] fun _ => 0xFF := by
  obtain ⟨ptr, size, hres, hagree⟩ :=
    backends_agree_iff [segment255] ⟨0, 0, 0⟩ ⟨_, List.mem_singleton_self _, by decide⟩
  refine ⟨ptr, size, hres,
    (hagree (fun _ => 0xFF) _ _ _ (fun _ _ => rfl) (fun _ _ => rfl) ?_).mpr ?_⟩
  · simp only [List.forall_mem_cons]
    exact ⟨⟨rfl, by decide⟩, ⟨rfl, by decide⟩, ⟨rfl, by decide⟩, List.forall_mem_nil _⟩
  · simp only [List.forall_mem_cons, PciCall.Neutral]
    exact ⟨by decide, by decide, by decide, List.forall_mem_nil _⟩

/-- **The vendor of a device is not read** through the ports: the legacy path
returns ones, where the direct path returns `0x8086`. -/
theorem backends_differ :
    let b : ℕ → BitVec 8 := fun r => if r = 0 then 0x86 else if r = 1 then 0x80 else 0
    makeIoResource [segment255] ⟨0, 0, 0⟩ = .mmio 0xB0000000 0x1000 ∧
    (legacyTrace ⟨0, 0, 0⟩ [.read .w16 0] ⟨0, fun _ => b⟩).map Prod.fst = [some 0xFFFF] ∧
    (mmioTrace 0xB0000000 [.read .w16 0] fun p => b (p - 0xB0000000)).map Prod.fst =
      [some 0x8086] := by
  refine ⟨by decide +kernel, by decide +kernel, by decide +kernel⟩

end ShmDos64
