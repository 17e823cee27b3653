import ShmDos64.Common.Run
import ShmDos64.Cpu
/-!
# TLB shootdown

`flushPagesTlb` tells another processor to invalidate a range: it puts the
range into the processor's ring, or asks for a full flush when the range is
large or the ring is full, and sends an interrupt if the ring was empty.
`tlbShootdownHandler` of that processor flushes all, or what is in the ring,
one item after the other; it leaves `m_spin` while it flushes.

Here is one target processor. A critical section under its `m_spin` is one
step, and so is each flush of a page. An interrupt that a sender has not sent
yet counts as one to come, and the local APIC keeps at most one pending.
The indices only grow between two resets, and are taken not to overflow:
64 divides 2^64.
-/

namespace ShmDos64

open Function (update update_of_ne update_self)

/-- `g_defaultTlbRingBufferSize`. -/
abbrev tlbRingBufferSize : ℕ := 64

/-- `CPU_UPDATE_TLB_LIMIT`. -/
abbrev cpuUpdateTlbLimit : ℕ := 0x400000

/-- `TlbShotdownItem`. -/
structure TlbShotdownItem where
  addr : ℕ
  size : ℕ
  deriving DecidableEq

/-- Where `tlbShootdownHandler` is. -/
inductive ShootdownPc where
  /-- It does not run. -/
  | idle
  /-- To take `m_spin` for the first time. -/
  | start
  /-- `m_needFull` was set, to flush all. -/
  | full
  /-- To read the item in the slot, out of the lock. -/
  | read (slot : ℕ)
  /-- In the loop over the pages. -/
  | flush (addr stop : ℕ)
  /-- Before `cpuFastEio`. -/
  | done
  deriving DecidableEq

/-- The handler is in the loop over the ring. -/
def ShootdownPc.draining : ShootdownPc → Bool
  | read _ | flush _ _ => true
  | idle | start | full | done => false

/-- `CpuTlbShootdownTask` of a processor, with the interrupts that come to
it. -/
structure TlbState (ω : Type*) where
  /-- `m_items`. -/
  items : ℕ → TlbShotdownItem
  /-- `m_readIndex`. -/
  readIndex : ℕ
  /-- `m_writeIndex`. -/
  writeIndex : ℕ
  /-- `m_needFull`. -/
  needFull : Bool
  /-- The interrupt is pending in the local APIC. -/
  pending : Bool
  /-- The senders that have the processor in their `cpuList`. -/
  owes : ω → Bool
  pc : ShootdownPc
  /-- The pages of which a flush was requested and not done since. -/
  stale : ℕ → Prop

/-- The steps of a run. -/
inductive TlbAct (ω : Type*) where
  /-- The critical section of `flushPagesTlb`. -/
  | request (sender : ω) (virtualBase size : ℕ)
  /-- The sender comes to `sendIpi`. -/
  | send (sender : ω)
  /-- The interrupt is delivered. -/
  | deliver
  /-- The next step of the handler. -/
  | handler

namespace TlbState

variable {ω : Type*} [DecidableEq ω]

/-- The pages of a range. -/
def InRange (virtualBase size page : ℕ) : Prop :=
  ∃ i < size, (virtualBase + i) % 2 ^ 64 / pageSize = page

section

variable (s : TlbState ω)

def oldItems : ℕ :=
  (s.writeIndex - s.readIndex) % tlbRingBufferSize

/-- The sender gives up the ring for a full flush. -/
def resets (size : ℕ) : Bool :=
  !s.needFull && (s.oldItems == tlbRingBufferSize - 1 || decide (cpuUpdateTlbLimit ≤ size))

/-- The critical section of `flushPagesTlb`. -/
def request (sender : ω) (virtualBase size : ℕ) : TlbState ω :=
  let s := { s with stale := fun page => s.stale page ∨ InRange virtualBase size page }
  if s.needFull then s
  else
    let s' :=
      if s.oldItems = tlbRingBufferSize - 1 ∨ cpuUpdateTlbLimit ≤ size then
        { s with writeIndex := 0, readIndex := 0, needFull := true }
      else
        { s with
          items := update s.items (s.writeIndex % tlbRingBufferSize) ⟨virtualBase, size⟩
          writeIndex := s.writeIndex + 1 }
    { s' with owes := update s.owes sender (s.oldItems == 0) }

/-- The condition of the loop over the ring, under `m_spin`. -/
def drain : TlbState ω :=
  if s.readIndex ≠ s.writeIndex then
    { s with
      readIndex := s.readIndex + 1
      pc := .read (s.readIndex % tlbRingBufferSize) }
  else { s with pc := .done }

/-- A step of `tlbShootdownHandler`. -/
def handler : Option (TlbState ω) :=
  match s.pc with
  | .idle => none
  | .start => if s.needFull then some { s with needFull := false, pc := .full } else some s.drain
  | .full => some { s with stale := fun _ => False, pc := .done }
  | .read slot =>
    let item := s.items slot
    some { s with pc := .flush item.addr ((item.addr + item.size) % 2 ^ 64) }
  | .flush addr stop =>
    if addr < stop then
      some { s with
        stale := fun page => s.stale page ∧ page ≠ addr / pageSize
        pc := .flush ((addr + pageSize) % 2 ^ 64) stop }
    else some s.drain
  | .done => some { s with pc := .idle }

/-- A step. -/
def apply : TlbAct ω → Option (TlbState ω)
  | .request sender virtualBase size =>
    if s.owes sender then none else some (s.request sender virtualBase size)
  | .send sender =>
    if s.owes sender then
      some { s with owes := update s.owes sender false, pending := true }
    else none
  | .deliver =>
    if s.pending = true ∧ s.pc = .idle then some { s with pending := false, pc := .start } else none
  | .handler => s.handler

end

end TlbState

/-- The runs of the senders and the handler, after `initCpu`. -/
def tlbMachine (ω : Type*) [DecidableEq ω] : Machine (TlbState ω) (TlbAct ω) where
  init s := s.readIndex = 0 ∧ s.writeIndex = 0 ∧ s.needFull = false ∧ s.pending = false ∧
    (∀ w, s.owes w = false) ∧ s.pc = .idle ∧ ∀ page, ¬ s.stale page
  step s a t := s.apply a = some t

namespace TlbState

variable {ω : Type*} {s s' : TlbState ω}

/-- No interrupt is to come, and the handler does not run. -/
def Quiet (s : TlbState ω) : Prop :=
  s.pending = false ∧ (∀ w, s.owes w = false) ∧ s.pc = .idle

/-- Nothing is left to do: no full flush, no item, no page. -/
def Clean (s : TlbState ω) : Prop :=
  s.needFull = false ∧ s.readIndex = s.writeIndex ∧ ∀ page, ¬ s.stale page

/-- The handler will look at `m_needFull` and the ring from the start. -/
def Coming (s : TlbState ω) : Prop :=
  s.pending = true ∨ (∃ w, s.owes w = true) ∨ s.pc = .start

/-- The loop over the pages comes to every page of the range. -/
def Fits (item : TlbShotdownItem) : Prop :=
  pageSize ∣ item.addr ∧ item.addr + item.size < 2 ^ 64

/-- The pages that the loop comes to. -/
def Covers (item : TlbShotdownItem) (page : ℕ) : Prop :=
  item.addr ≤ page * pageSize ∧ page * pageSize < item.addr + item.size

theorem covers_of_inRange {item : TlbShotdownItem} {page : ℕ} (hfits : Fits item)
    (h : InRange item.addr item.size page) : Covers item page := by
  obtain ⟨i, hi, rfl⟩ := h
  obtain ⟨⟨k, hk⟩, hlt⟩ := hfits
  rw [Nat.mod_eq_of_lt (by omega)]
  simp only [Covers, pageSize] at *
  omega

/-- Where a page that is to be flushed is noted. -/
inductive Noted (s : TlbState ω) (page : ℕ) : Prop
  | full (h : s.needFull = true ∨ s.pc = .full)
  | queued (i : ℕ) (hlow : s.readIndex ≤ i) (hhigh : i < s.writeIndex)
      (h : Covers (s.items (i % tlbRingBufferSize)) page)
  | read (slot : ℕ) (hpc : s.pc = .read slot) (h : Covers (s.items slot) page)
  | flush (addr stop : ℕ) (hpc : s.pc = .flush addr stop) (hlow : addr ≤ page * pageSize)
      (hhigh : page * pageSize < stop)

/-- What holds in every state. -/
structure TlbOk (s : TlbState ω) : Prop where
  le : s.readIndex ≤ s.writeIndex
  room : s.writeIndex < s.readIndex + tlbRingBufferSize
  /-- The ring is empty when a full flush is asked for. -/
  full_empty : s.needFull = true → s.readIndex = s.writeIndex
  full_coming : s.needFull = true → s.Coming
  items_coming : s.readIndex ≠ s.writeIndex → s.Coming ∨ s.pc.draining = true
  fits : ∀ i, s.readIndex ≤ i → i < s.writeIndex → Fits (s.items (i % tlbRingBufferSize))
  /-- The slot that is read is not written. -/
  read : ∀ slot, s.pc = .read slot → s.needFull = true ∨ Fits (s.items slot) ∧
    ∃ i, s.readIndex = i + 1 ∧ slot = i % tlbRingBufferSize
  flush : ∀ addr stop, s.pc = .flush addr stop → stop < 2 ^ 64 ∧
    (s.needFull = true ∨ pageSize ∣ addr)
  noted : ∀ page, s.stale page → s.Noted page

/-- **Nothing is left when all is quiet.** -/
theorem TlbOk.clean (h : s.TlbOk) (hquiet : s.Quiet) : s.Clean := by
  obtain ⟨hpending, howes, hpc⟩ := hquiet
  have hcoming : ¬ s.Coming := by
    rintro (hp | ⟨w, hw⟩ | hs)
    · rw [hpending] at hp
      cases hp
    · rw [howes] at hw
      cases hw
    · rw [hpc] at hs
      cases hs
  have hfull : s.needFull = false := by
    by_contra hne
    exact hcoming (h.full_coming (Bool.eq_true_of_not_eq_false hne))
  have hitems : s.readIndex = s.writeIndex := by
    by_contra hne
    rcases h.items_coming hne with hc | hd
    · exact hcoming hc
    · rw [hpc] at hd
      cases hd
  refine ⟨hfull, hitems, fun page hstale => ?_⟩
  cases h.noted page hstale with
  | full hf =>
    rcases hf with hf | hf
    · rw [hfull] at hf
      cases hf
    · rw [hpc] at hf
      cases hf
  | queued i hlow hhigh => omega
  | read slot hr =>
    rw [hpc] at hr
    cases hr
  | flush addr stop hf =>
    rw [hpc] at hf
    cases hf

/-! ## The handler -/

/-- The handler looks at the ring, with nothing in its hands. -/
theorem TlbOk.drain (h : s.TlbOk) (hfull : s.pc ≠ .full) (hread : ∀ slot, s.pc ≠ .read slot)
    (hflush : ∀ addr stop, s.pc = .flush addr stop → stop ≤ addr)
    (hstart : s.pc = .start → s.needFull = false) : s.drain.TlbOk := by
  have hcoming : s.needFull = true → s.pending = true ∨ ∃ w, s.owes w = true := fun hn => by
    rcases h.full_coming hn with hp | hw | hs
    · exact .inl hp
    · exact .inr hw
    · rw [hstart hs] at hn
      cases hn
  -- a page that is noted is in the ring, or a full flush is to come
  have hnoted : ∀ page, s.stale page → s.needFull = true ∨ ∃ i, s.readIndex ≤ i ∧
      i < s.writeIndex ∧ Covers (s.items (i % tlbRingBufferSize)) page := fun page hp => by
    cases h.noted page hp with
    | full hf =>
      rcases hf with hf | hf
      · exact .inl hf
      · exact absurd hf hfull
    | queued i hlow hhigh hi => exact .inr ⟨i, hlow, hhigh, hi⟩
    | read slot hpc => exact absurd hpc (hread slot)
    | flush addr stop hpc hlow hhigh =>
      have := hflush addr stop hpc
      omega
  unfold TlbState.drain
  split
  · rename_i hne
    have hneed : s.needFull = false := by
      by_contra hn
      exact hne (h.full_empty (Bool.eq_true_of_not_eq_false hn))
    have hlt : s.readIndex < s.writeIndex := Nat.lt_of_le_of_ne h.le hne
    have hroom := h.room
    refine ⟨hlt, ?_, ?_, ?_, fun _ => .inr rfl, ?_, ?_, nofun, ?_⟩
    · change s.writeIndex < s.readIndex + 1 + tlbRingBufferSize
      omega
    · intro hn
      rw [show s.needFull = true from hn] at hneed
      cases hneed
    · intro hn
      rw [show s.needFull = true from hn] at hneed
      cases hneed
    · intro i hlow hhigh
      exact h.fits i (Nat.le_of_succ_le hlow) hhigh
    · rintro slot hpc
      obtain rfl := ShootdownPc.read.inj hpc
      exact .inr ⟨h.fits _ le_rfl hlt, s.readIndex, rfl, rfl⟩
    · intro page hp
      rcases hnoted page hp with hn | ⟨i, hlow, hhigh, hi⟩
      · exact .full (.inl hn)
      · rcases hlow.eq_or_lt with rfl | hlow
        · exact .read _ rfl hi
        · exact .queued i hlow hhigh hi
  · rename_i heq
    have heq : s.readIndex = s.writeIndex := not_not.mp heq
    refine ⟨h.le, h.room, fun _ => heq, fun hn => ?_, fun hne => absurd heq hne, h.fits, nofun,
      nofun, fun page hp => ?_⟩
    · rcases hcoming hn with hp | hw
      · exact .inl hp
      · exact .inr (.inl hw)
    · rcases hnoted page hp with hn | ⟨i, hlow, hhigh, -⟩
      · exact .full (.inl hn)
      · omega

/-- The handler goes on out of the lock. -/
theorem TlbOk.goto (h : s.TlbOk) {pc : ShootdownPc} {stale : ℕ → Prop} (hstart : s.pc ≠ .start)
    (hdrain : s.pc.draining = true → pc.draining = true) (hread : ∀ slot, pc ≠ .read slot)
    (hflush : ∀ addr stop, pc = .flush addr stop → stop < 2 ^ 64 ∧
      (s.needFull = true ∨ pageSize ∣ addr))
    (hnoted : ∀ page, stale page → Noted { s with pc := pc, stale := stale } page) :
    TlbOk { s with pc := pc, stale := stale } := by
  have hcoming : s.Coming → Coming { s with pc := pc, stale := stale } := by
    rintro (hp | hw | hs)
    · exact .inl hp
    · exact .inr (.inl hw)
    · exact absurd hs hstart
  refine ⟨h.le, h.room, h.full_empty, fun hn => hcoming (h.full_coming hn), fun hne => ?_, h.fits,
    fun slot hpc => absurd hpc (hread slot), hflush, hnoted⟩
  exact (h.items_coming hne).imp hcoming hdrain

/-- **A step of the handler** loses no page. -/
theorem TlbOk.handler (h : s.TlbOk) (hs : s.handler = some s') : s'.TlbOk := by
  unfold TlbState.handler at hs
  split at hs
  · cases hs
  · rename_i hpc
    split at hs <;> obtain ⟨⟩ := hs
    · rename_i hneed
      have heq := h.full_empty hneed
      exact ⟨h.le, h.room, nofun, nofun, fun hne => absurd heq hne, h.fits, nofun, nofun,
        fun _ _ => .full (.inr rfl)⟩
    · rename_i hneed
      refine h.drain (by rw [hpc]; exact nofun) (by rw [hpc]; exact nofun)
        (by rw [hpc]; exact nofun) fun _ => Bool.eq_false_of_not_eq_true hneed
  · rename_i hpc
    obtain ⟨⟩ := hs
    exact h.goto (by rw [hpc]; exact nofun) (by rw [hpc]; exact nofun) nofun nofun nofun
  · rename_i slot hpc
    obtain ⟨⟩ := hs
    refine h.goto (by rw [hpc]; exact nofun) (fun _ => rfl) nofun (fun addr stop hf => ?_)
      fun page hp => ?_
    · obtain ⟨rfl, rfl⟩ := ShootdownPc.flush.inj hf
      exact ⟨Nat.mod_lt _ (by norm_num), (h.read slot hpc).imp_right fun hr => hr.1.1⟩
    · cases h.noted page hp with
      | full hf => exact .full (.inl (hf.resolve_right (by rw [hpc]; exact nofun)))
      | queued i hlow hhigh hi => exact .queued i hlow hhigh hi
      | read slot' hpc' hi =>
        rw [hpc] at hpc'
        obtain rfl := ShootdownPc.read.inj hpc'
        rcases h.read slot hpc with hneed | ⟨hfits, -⟩
        · exact .full (.inl hneed)
        · refine .flush _ _ rfl hi.1 ?_
          rw [Nat.mod_eq_of_lt hfits.2]
          exact hi.2
      | flush addr stop hf =>
        rw [hpc] at hf
        cases hf
  · rename_i addr stop hpc
    obtain ⟨hstop, halign⟩ := h.flush addr stop hpc
    split at hs <;> obtain ⟨⟩ := hs
    · refine h.goto (by rw [hpc]; exact nofun) (fun _ => rfl) nofun (fun a b hf => ?_)
        fun page hp => ?_
      · obtain ⟨rfl, rfl⟩ := ShootdownPc.flush.inj hf
        refine ⟨hstop, halign.imp_right fun ⟨k, hk⟩ => ?_⟩
        simp only [pageSize] at hk ⊢
        omega
      · obtain ⟨hstale, hpage⟩ := hp
        cases h.noted page hstale with
        | full hf => exact .full (.inl (hf.resolve_right (by rw [hpc]; exact nofun)))
        | queued i hlow hhigh hi => exact .queued i hlow hhigh hi
        | read slot hr =>
          rw [hpc] at hr
          cases hr
        | flush a b hf hlow hhigh =>
          rw [hpc] at hf
          obtain ⟨rfl, rfl⟩ := ShootdownPc.flush.inj hf
          rcases halign with hneed | ⟨k, hk⟩
          · exact .full (.inl hneed)
          · -- the page is a later one, and the address of the next does not wrap
            refine .flush _ _ rfl ?_ hhigh
            simp only [pageSize] at hk hlow hhigh hpage ⊢
            omega
    · rename_i hle
      refine h.drain (by rw [hpc]; exact nofun) (by rw [hpc]; exact nofun) (fun a b hf => ?_)
        (by rw [hpc]; exact nofun)
      rw [hpc] at hf
      obtain ⟨rfl, rfl⟩ := ShootdownPc.flush.inj hf
      exact Nat.le_of_not_lt hle
  · rename_i hpc
    obtain ⟨⟩ := hs
    refine h.goto (by rw [hpc]; exact nofun) (by rw [hpc]; exact nofun) nofun nofun
      fun page hp => ?_
    cases h.noted page hp with
    | full hf => exact .full (.inl (hf.resolve_right (by rw [hpc]; exact nofun)))
    | queued i hlow hhigh hi => exact .queued i hlow hhigh hi
    | read slot hr =>
      rw [hpc] at hr
      cases hr
    | flush addr stop hf =>
      rw [hpc] at hf
      cases hf

/-! ## The senders -/

variable [DecidableEq ω]

/-- The range is such that the handler's loop over its pages is right, or is
large enough for a full flush; and a sender gives up a ring that is not empty
only when the handler does not read it, or will be called once more. -/
def Heeded (s : TlbState ω) : TlbAct ω → Prop
  | .request _ virtualBase size =>
    (cpuUpdateTlbLimit ≤ size ∨ Fits ⟨virtualBase, size⟩) ∧
    (s.resets size = true → s.readIndex ≠ s.writeIndex → s.pc.draining = true →
      s.pending = true ∨ ∃ w, s.owes w = true)
  | _ => True

omit [DecidableEq ω] in
theorem TlbOk.oldItems_eq (h : s.TlbOk) : s.oldItems = s.writeIndex - s.readIndex := by
  have := h.le
  have := h.room
  exact Nat.mod_eq_of_lt (by omega)

variable {sender : ω}

/-- Who was to send an interrupt still is. -/
theorem coming_update {b : Bool} (howes : s.owes sender = false)
    (h : s.pending = true ∨ ∃ w, s.owes w = true) :
    s.pending = true ∨ ∃ w, update s.owes sender b w = true := by
  rcases h with hp | ⟨w, hw⟩
  · exact .inl hp
  · have hne : w ≠ sender := fun heq => by
      rw [heq, howes] at hw
      cases hw
    exact .inr ⟨w, (update_of_ne hne ..).trans hw⟩

/-- A full flush is asked for. -/
theorem TlbOk.reset (h : s.TlbOk) (howes : s.owes sender = false)
    (hcoming : s.readIndex ≠ s.writeIndex → s.pc.draining = true →
      s.pending = true ∨ ∃ w, s.owes w = true) (stale : ℕ → Prop) :
    TlbOk { s with
      stale := stale, writeIndex := 0, readIndex := 0, needFull := true
      owes := update s.owes sender (s.oldItems == 0) } := by
  refine ⟨le_rfl, by norm_num, fun _ => rfl, fun _ => ?_, fun hne => absurd rfl hne,
    fun i _ hi => absurd hi (Nat.not_lt_zero i), fun _ _ => .inl rfl, fun addr stop hf => ?_,
    fun _ _ => .full (.inl rfl)⟩
  · by_cases heq : s.readIndex = s.writeIndex
    · refine .inr (.inl ⟨sender, (update_self ..).trans ?_⟩)
      rw [beq_iff_eq, h.oldItems_eq, heq, Nat.sub_self]
    · rcases h.items_coming heq with (hp | hw | hs) | hd
      · exact .inl hp
      · exact (coming_update howes (.inr hw)).imp_right .inl
      · exact .inr (.inr hs)
      · exact (coming_update howes (hcoming heq hd)).imp_right .inl
  · exact ⟨(h.flush addr stop hf).1, .inl rfl⟩

/-- The range comes to the ring. -/
theorem TlbOk.push (h : s.TlbOk) (howes : s.owes sender = false)
    (hneed : s.needFull = false) (hroom : s.oldItems ≠ tlbRingBufferSize - 1)
    {item : TlbShotdownItem} (hfits : Fits item) : TlbOk { s with
      stale := fun page => s.stale page ∨ InRange item.addr item.size page
      items := update s.items (s.writeIndex % tlbRingBufferSize) item
      writeIndex := s.writeIndex + 1
      owes := update s.owes sender (s.oldItems == 0) } := by
  have hle := h.le
  have hlt : s.writeIndex - s.readIndex < tlbRingBufferSize - 1 := by
    have := h.room
    rw [h.oldItems_eq] at hroom
    omega
  -- neither a queued item nor the one that is read is overwritten
  have hkept : ∀ i, s.readIndex ≤ i + 1 → i < s.writeIndex →
      update s.items (s.writeIndex % tlbRingBufferSize) item (i % tlbRingBufferSize) =
        s.items (i % tlbRingBufferSize) := fun i hlow hhigh => by
    refine update_of_ne ?_ ..
    simp only [tlbRingBufferSize] at hlt ⊢
    omega
  have hcoming : s.Coming → Coming { s with
      stale := fun page => s.stale page ∨ InRange item.addr item.size page
      items := update s.items (s.writeIndex % tlbRingBufferSize) item
      writeIndex := s.writeIndex + 1
      owes := update s.owes sender (s.oldItems == 0) } := by
    rintro (hp | hw | hs)
    · exact .inl hp
    · exact (coming_update howes (.inr hw)).imp_right .inl
    · exact .inr (.inr hs)
  have hread : ∀ slot, s.pc = .read slot → Fits (s.items slot) ∧
      update s.items (s.writeIndex % tlbRingBufferSize) item slot = s.items slot ∧
      ∃ i, s.readIndex = i + 1 ∧ slot = i % tlbRingBufferSize := fun slot hpc => by
    rcases h.read slot hpc with hn | ⟨hf, i, hi, rfl⟩
    · rw [hneed] at hn
      cases hn
    · exact ⟨hf, hkept i hi.le (by omega), i, hi, rfl⟩
  refine ⟨Nat.le_succ_of_le hle, ?_, fun hn => ?_, fun hn => hcoming (h.full_coming hn),
    fun _ => ?_, fun i hlow hhigh => ?_, fun slot hpc => ?_, h.flush, fun page hp => ?_⟩
  · change s.writeIndex + 1 < s.readIndex + tlbRingBufferSize
    omega
  · rw [show s.needFull = true from hn] at hneed
    cases hneed
  · by_cases heq : s.readIndex = s.writeIndex
    · refine .inl (.inr (.inl ⟨sender, (update_self ..).trans ?_⟩))
      rw [beq_iff_eq, h.oldItems_eq, heq, Nat.sub_self]
    · exact (h.items_coming heq).imp_left hcoming
  · rcases Nat.lt_succ_iff_lt_or_eq.mp hhigh with hlt' | rfl
    · dsimp only at hlow ⊢
      rw [hkept i (Nat.le_succ_of_le hlow) hlt']
      exact h.fits i hlow hlt'
    · dsimp only
      rw [update_self]
      exact hfits
  · obtain ⟨hf, hsame, hi⟩ := hread slot hpc
    refine .inr ⟨?_, hi⟩
    dsimp only
    rw [hsame]
    exact hf
  · rcases hp with hp | hp
    · cases h.noted page hp with
      | full hf => exact .full hf
      | queued i hlow hhigh hi =>
        refine .queued i hlow (Nat.lt_succ_of_lt hhigh) ?_
        dsimp only
        rw [hkept i (Nat.le_succ_of_le hlow) hhigh]
        exact hi
      | read slot hpc hi =>
        refine .read slot hpc ?_
        dsimp only
        rw [(hread slot hpc).2.1]
        exact hi
      | flush addr stop hpc hlow hhigh => exact .flush addr stop hpc hlow hhigh
    · refine .queued s.writeIndex hle (Nat.lt_succ_self _) ?_
      dsimp only
      rw [update_self]
      exact covers_of_inRange hfits hp

/-- **A request is noted.** -/
theorem TlbOk.request (h : s.TlbOk) {virtualBase size : ℕ}
    (hheed : s.Heeded (.request sender virtualBase size)) (howes : s.owes sender = false) :
    (s.request sender virtualBase size).TlbOk := by
  obtain ⟨hsize, hreset⟩ := hheed
  simp only [TlbState.request]
  split
  · rename_i hneed
    exact ⟨h.le, h.room, h.full_empty, h.full_coming, h.items_coming, h.fits, h.read, h.flush,
      fun _ _ => .full (.inl hneed)⟩
  · rename_i hneed
    have hneed : s.needFull = false := Bool.eq_false_of_not_eq_true hneed
    split
    · rename_i hfull
      have hfull : s.oldItems = tlbRingBufferSize - 1 ∨ cpuUpdateTlbLimit ≤ size := hfull
      refine h.reset howes (hreset ?_) _
      simpa [resets, hneed] using hfull
    · rename_i hfull
      obtain ⟨hroom, hlarge⟩ := not_or.mp hfull
      exact h.push howes hneed hroom (hsize.resolve_left hlarge)

/-- **Each step keeps what is to be flushed noted.** -/
theorem TlbOk.step (h : s.TlbOk) {a : TlbAct ω} (hheed : s.Heeded a) (hs : s.apply a = some s') :
    s'.TlbOk := by
  cases a with
  | request sender virtualBase size =>
    simp only [apply, Option.ite_none_left_eq_some, Option.some.injEq] at hs
    obtain ⟨howes, rfl⟩ := hs
    exact h.request hheed (Bool.eq_false_of_not_eq_true howes)
  | send sender =>
    simp only [apply, Option.ite_some_none_eq_some] at hs
    obtain ⟨-, rfl⟩ := hs
    refine ⟨h.le, h.room, h.full_empty, fun _ => .inl rfl, fun _ => .inl (.inl rfl), h.fits, h.read,
      h.flush, fun page hp => ?_⟩
    cases h.noted page hp with
    | full hf => exact .full hf
    | queued i hlow hhigh hi => exact .queued i hlow hhigh hi
    | read slot hpc hi => exact .read slot hpc hi
    | flush addr stop hpc hlow hhigh => exact .flush addr stop hpc hlow hhigh
  | deliver =>
    simp only [apply, Option.ite_some_none_eq_some] at hs
    obtain ⟨⟨-, hidle⟩, rfl⟩ := hs
    refine ⟨h.le, h.room, h.full_empty, fun _ => .inr (.inr rfl), fun _ => .inl (.inr (.inr rfl)),
      h.fits, nofun, nofun, fun page hp => ?_⟩
    cases h.noted page hp with
    | full hf => exact .full (.inl (hf.resolve_right (by rw [hidle]; exact nofun)))
    | queued i hlow hhigh hi => exact .queued i hlow hhigh hi
    | read slot hpc | flush addr stop hpc => rw [hidle] at hpc; cases hpc
  | handler => exact h.handler hs

/-- **No request is lost, if no ring is given up behind the handler's back.**
In every run whose requests are heeded, when no interrupt is to come and the
handler does not run, no full flush is asked for, the ring is empty, and every
page of which a flush was requested has been flushed since. -/
theorem tlb_shootdown_loses_none (h : ((tlbMachine ω).guard Heeded).Reachable s)
    (hquiet : s.Quiet) : s.Clean := by
  have hok : s.TlbOk := by
    refine h.invariant (I := TlbOk) ?_ fun _ _ _ hok hs => hok.step hs.1 hs.2
    rintro s ⟨hread, hwrite, hneed, -, -, hpc, hstale⟩
    have heq : s.readIndex = s.writeIndex := hread.trans hwrite.symm
    refine ⟨heq.le, heq ▸ Nat.lt_add_of_pos_right (by norm_num), fun _ => heq, fun hn => ?_,
      fun hne => absurd heq hne, fun i hlow hhigh => ?_, fun slot hr => ?_, fun addr stop hf => ?_,
      fun page hp => absurd hp (hstale page)⟩
    · rw [hneed] at hn
      cases hn
    · omega
    · rw [hpc] at hr
      cases hr
    · rw [hpc] at hf
      cases hf
  exact hok.clean hquiet

/-- A processor that nobody has sent anything. -/
def freshTlb : TlbState Bool where
  items _ := ⟨0, 0⟩
  readIndex := 0
  writeIndex := 0
  needFull := false
  pending := false
  owes _ := false
  pc := .idle
  stale _ := False

theorem freshTlb_init : (tlbMachine Bool).init freshTlb :=
  ⟨rfl, rfl, rfl, rfl, fun _ => rfl, rfl, fun _ => id⟩

instance (item : TlbShotdownItem) : Decidable (Fits item) :=
  inferInstanceAs (Decidable (_ ∧ _))

instance [Fintype ω] (s : TlbState ω) (a : TlbAct ω) : Decidable (s.Heeded a) :=
  match a with
  | .request _ _ _ => inferInstanceAs (Decidable ((_ ∨ Fits _) ∧ (_ → _ → _ → _ ∨ _)))
  | .send _ | .deliver | .handler => isTrue trivial

instance [Fintype ω] (s : TlbState ω) : Decidable s.Quiet :=
  inferInstanceAs (Decidable (_ ∧ _ ∧ _))

/-- A request of two pages, up to the end of the handler. -/
theorem tlb_shootdown_loses_none_twoPages : ∃ s : TlbState Bool,
    (s.Quiet ∧ s.readIndex = 1) ∧ s.Clean := by
  obtain ⟨s, hs, hend⟩ := Machine.Reachable.exists_of_guard (M := tlbMachine Bool) Heeded
    (P := fun s => decide (s.Quiet ∧ s.readIndex = 1)) (fun _ _ _ h => h)
    [.request true 0x1000 0x2000, .send true, .deliver, .handler, .handler, .handler, .handler,
      .handler, .handler]
    (.init freshTlb_init) (by decide +kernel)
  obtain ⟨hquiet, hread⟩ := of_decide_eq_true hend
  exact ⟨s, ⟨hquiet, hread⟩, tlb_shootdown_loses_none hs hquiet⟩

/-- **A request is lost.** Two ranges are in the ring when the handler starts.
While it flushes the first, a large range makes the sender give up the ring;
as there is one item in it, the sender sends no interrupt. The handler finds
the ring empty and is done, and the full flush is never made. -/
theorem tlb_shootdown_loses_full : ∃ s : TlbState Bool,
    (tlbMachine Bool).Reachable s ∧ s.Quiet ∧ ¬ s.Clean := by
  obtain ⟨s, hs, hend⟩ := Machine.Reachable.exists_of_foldlM (M := tlbMachine Bool)
    (P := fun s => decide (s.Quiet ∧ s.needFull = true)) (fun _ _ _ hst => hst)
    [.request true 0x1000 0x1000, .send true, .request true 0x2000 0x1000, .deliver, .handler,
      .request false 0x400000 0x400000, .handler, .handler, .handler, .handler]
    (.init freshTlb_init) (by decide +kernel)
  obtain ⟨hquiet, hneed⟩ := of_decide_eq_true hend
  refine ⟨s, hs, hquiet, fun hclean => ?_⟩
  rw [hclean.1] at hneed
  cases hneed

end TlbState

end ShmDos64
