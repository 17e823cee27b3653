import Mathlib.Data.List.Fold
import Mathlib.Data.List.MinMax
import ShmDos64.Common.Loop
import ShmDos64.ExternalInterrupts.Handlers
import ShmDos64.ExternalInterrupts.Locks
/-!
# `initIoApic` leaves every line usable

The last loop of `initIoApic` tests the counter of an interrupt's own number
and locks the line the number is redirected to. So a line can be locked
twice, by its own number and then by the one that is redirected to it, or
never; and a number that no IO-APIC has and that is not redirected is locked
through a null `m_mmio`. `InitOrder` says when none of this happens.
-/

namespace ShmDos64

variable {η : Type*}

/-- The end of the interrupts an IO-APIC counts for; 0 when it is skipped. -/
def IoApic.cut (apic : IoApic) : ℕ :=
  if maxIrq < apic.irqEnd ∧ maxIrq ≤ apic.irqBase then 0 else min apic.irqEnd maxIrq

/-- An IO-APIC has the interrupt. -/
def Mapped (ioApics : List IoApic) (irq : ℕ) : Prop :=
  ∃ apic ∈ ioApics, apic.irqBase ≤ irq ∧ irq < apic.cut

/-- The end of all interrupts. -/
def topIrq (ioApics : List IoApic) : ℕ :=
  (ioApics.map IoApic.cut).foldl max 0

/-- An entry leads from one interrupt to another one that is mapped. -/
def Redirects (mapped : ℕ → Prop) (isaRemapping : List ApicIsaRemappingEntry) (p l : ℕ) : Prop :=
  (∃ entry ∈ isaRemapping, entry.sourceIrq = p ∧ entry.apicIrq = l) ∧ p < maxIrq ∧ p ≠ l ∧
    mapped l

/-- What ACPI tells: IO-APICs with registers and for at least 24 interrupts,
and redirections of different interrupts to different lines. -/
structure AcpiOk (ioApics : List IoApic) (isaRemapping : List ApicIsaRemappingEntry) : Prop where
  mmioBase : ∀ apic ∈ ioApics, apic.mmioBase ≠ 0
  enough : 24 ≤ topIrq ioApics
  sources : (isaRemapping.map ApicIsaRemappingEntry.sourceIrq).Nodup
  targets : (isaRemapping.map ApicIsaRemappingEntry.apicIrq).Nodup

namespace ExternalInterrupts

variable {s t : ExternalInterrupts η} {ioApics : List IoApic}
  {isaRemapping : List ApicIsaRemappingEntry} {mapped : ℕ → Prop}

/-- No line has a handler or a lock, and those of `mapped` have an IO-APIC. -/
structure Idle (s : ExternalInterrupts η) (mapped : ℕ → Prop) : Prop where
  mmio : ∀ irq, (s.data irq).mmio ≠ none ↔ mapped irq
  irqHandlers : ∀ irq, (s.data irq).irqHandlers = .empty
  lockCounter : ∀ irq, (s.data irq).lockCounter = 0

/-! ## The first three loops -/

section

variable (h : s.Idle mapped)

include h

theorem mapApic_idle (top : ℕ) {apic : IoApic} (idx : ℕ) (hmmio : apic.mmioBase ≠ 0) :
    ∃ t, mapApic (s, top) (apic, idx) = .ok (t, max top apic.cut) ∧
      t.Idle (fun irq => mapped irq ∨ (apic.irqBase ≤ irq ∧ irq < apic.cut)) ∧
      t.remapTable = s.remapTable := by
  unfold mapApic
  rw [if_neg hmmio]
  by_cases hskip : maxIrq < apic.irqEnd ∧ maxIrq ≤ apic.irqBase
  · have hcut : apic.cut = 0 := if_pos hskip
    refine ⟨s, ?_, ?_, rfl⟩
    · rw [if_pos hskip, hcut, Nat.max_zero]
    · refine ⟨fun irq => ?_, h.irqHandlers, h.lockCounter⟩
      rw [h.mmio, hcut]
      simp
  · have hcut : (if maxIrq < apic.irqEnd then maxIrq else apic.irqEnd) = apic.cut := by
      rw [IoApic.cut, if_neg hskip]
      split <;> omega
    refine ⟨s.mapLines idx apic.irqBase apic.cut, ?_, ?_, rfl⟩
    · simp only [if_neg hskip, hcut]
    · refine ⟨fun irq => ?_, fun irq => ?_, fun irq => ?_⟩
      all_goals
        simp only [mapLines]
        split <;> rename_i hirq
      · simp [hirq]
      · simp [hirq, h.mmio]
      · exact h.irqHandlers irq
      · exact h.irqHandlers irq
      all_goals exact h.lockCounter irq

theorem mapApics_idle (top : ℕ) (idx : ℕ) (hmmio : ∀ apic ∈ ioApics, apic.mmioBase ≠ 0) : ∃ t,
      (ioApics.zipIdx idx).foldlM mapApic (s, top) =
        .ok (t, (ioApics.map IoApic.cut).foldl max top) ∧
      t.Idle (fun irq => mapped irq ∨ Mapped ioApics irq) ∧ t.remapTable = s.remapTable := by
  induction ioApics generalizing s mapped top idx with
  | nil =>
    refine ⟨s, rfl, ⟨fun irq => ?_, h.irqHandlers, h.lockCounter⟩, rfl⟩
    simp [h.mmio, Mapped]
  | cons apic ioApics ih =>
    obtain ⟨u, hu, hidle, hremap⟩ := mapApic_idle h top idx (hmmio apic List.mem_cons_self)
    obtain ⟨t, ht, hidle, hremap'⟩ := ih hidle (max top apic.cut) (idx + 1)
      fun a ha => hmmio a (List.mem_cons_of_mem apic ha)
    refine ⟨t, ?_, ⟨fun irq => ?_, hidle.irqHandlers, hidle.lockCounter⟩, hremap'.trans hremap⟩
    · rw [List.zipIdx_cons, List.foldlM_cons, hu]
      exact ht
    · simp only [hidle.mmio, Mapped, List.mem_cons, exists_eq_or_imp, or_assoc]

theorem Idle.setData {l : ℕ} {d : InterruptData η} (hmmio : d.mmio = (s.data l).mmio)
    (hhandlers : d.irqHandlers = .empty) (hcounter : d.lockCounter = 0) :
    (s.setData l d).Idle mapped := by
  refine ⟨fun irq => ?_, fun irq => ?_, fun irq => ?_⟩
  all_goals
    by_cases heq : irq = l
    · subst heq
      simp [ExternalInterrupts.setData, hmmio, h.mmio, hhandlers, hcounter]
    · simp [ExternalInterrupts.setData, heq, h.mmio, h.irqHandlers, h.lockCounter]

theorem Idle.of_data (ht : t.data = s.data) : t.Idle mapped :=
  ⟨by rw [ht]; exact h.mmio, by rw [ht]; exact h.irqHandlers, by rw [ht]; exact h.lockCounter⟩

theorem Idle.setRedirected (b : ℕ → Bool) : { s with irqHasBeenRedirected := b }.Idle mapped :=
  h.of_data rfl

theorem setupLine_idle (irq : ℕ) :
    ∃ t, s.setupLine irq = .ok t ∧ t.Idle mapped ∧ t.remapTable = s.remapTable := by
  unfold setupLine
  by_cases hmmio : (s.data irq).mmio = none
  · exact ⟨s, if_pos hmmio, h, rfl⟩
  · obtain ⟨apic, happ⟩ := Option.ne_none_iff_exists'.mp hmmio
    simp only [happ, reduceCtorEq, ↓reduceIte]
    refine ⟨_, rfl, Idle.of_data (h.setData ?_ ?_ ?_) rfl, rfl⟩
    · exact happ.symm
    · exact h.irqHandlers irq
    · exact h.lockCounter irq

theorem redirect_idle (p l : ℕ) (hne : l ≠ p) : (s.redirect p l).Idle mapped := by
  have hset := h.setData (l := l)
    (d := { s.data l with irqHandlers := (s.data p).irqHandlers }) rfl (h.irqHandlers p)
    (h.lockCounter l)
  refine Idle.of_data (hset.setData (l := p)
    (d := { s.data p with irqHandlers := (s.data l).irqHandlers }) ?_ (h.irqHandlers l)
    (h.lockCounter p)) rfl
  simp [ExternalInterrupts.setData, hne.symm]

/-- A round of the loop over the entries keeps the lines idle. -/
theorem remap_idle (entry : ApicIsaRemappingEntry) : (s.remap entry).Idle mapped := by
  unfold remap
  split
  · exact h
  simp only
  split
  · exact h
  refine Idle.setRedirected ?_ _
  split <;> rename_i hne
  · refine redirect_idle (h.setData ?_ ?_ ?_) _ _ hne
    · rfl
    · exact h.irqHandlers _
    · exact h.lockCounter _
  · exact h.setData rfl (h.irqHandlers _) (h.lockCounter _)

end

variable {entry : ApicIsaRemappingEntry}

theorem redirects_one {p l : ℕ} :
    Redirects mapped [entry] p l ↔ entry.sourceIrq = p ∧ entry.apicIrq = l ∧ p < maxIrq ∧ p ≠ l ∧
      mapped l := by
  simp only [Redirects, List.mem_singleton, exists_eq_left, and_assoc]

/-- It redirects its interrupt if that is to be redirected. -/
theorem remap_remapTable (h : s.Idle mapped) (hmapped : ∀ irq, mapped irq → irq < maxIrq)
    (entry : ApicIsaRemappingEntry) (p : ℕ) :
    (∀ l, Redirects mapped [entry] p l → (s.remap entry).remapTable p = l) ∧
    ((¬ ∃ l, Redirects mapped [entry] p l) → (s.remap entry).remapTable p = s.remapTable p) := by
  by_cases hentry : entry.sourceIrq < maxIrq ∧ entry.sourceIrq ≠ entry.apicIrq ∧
      mapped entry.apicIrq
  · obtain ⟨hsource, hne, happ⟩ := hentry
    have hlarge : ¬ (maxIrq ≤ entry.sourceIrq ∨ maxIrq ≤ entry.apicIrq) := by
      have := hmapped entry.apicIrq happ
      omega
    have htable : (s.remap entry).remapTable =
        Function.update s.remapTable entry.sourceIrq entry.apicIrq := by
      unfold remap
      simp only [if_neg hlarge, if_neg ((h.mmio _).mpr happ), if_pos hne.symm]
      rfl
    rw [htable]
    refine ⟨fun l hl => ?_, fun hnone => ?_⟩
    · obtain ⟨rfl, rfl, -⟩ := redirects_one.mp hl
      exact Function.update_self ..
    · refine Function.update_of_ne (fun heq => ?_) ..
      exact hnone ⟨entry.apicIrq, redirects_one.mpr ⟨heq.symm, rfl, heq ▸ hsource, heq ▸ hne, happ⟩⟩
  · have htable : (s.remap entry).remapTable = s.remapTable := by
      unfold remap
      split
      · rfl
      · rename_i hlarge
        simp only
        split
        · rfl
        · rename_i hmmio
          have heq : entry.apicIrq = entry.sourceIrq := by
            by_contra hne
            exact hentry ⟨by omega, Ne.symm hne, (h.mmio _).mp hmmio⟩
          rw [if_neg (not_not.mpr heq)]
          rfl
    rw [htable]
    refine ⟨fun l hl => ?_, fun _ => rfl⟩
    obtain ⟨rfl, rfl, hp⟩ := redirects_one.mp hl
    exact absurd hp hentry

theorem redirects_cons {p l : ℕ} :
    Redirects mapped (entry :: isaRemapping) p l ↔
      Redirects mapped [entry] p l ∨ Redirects mapped isaRemapping p l := by
  simp only [Redirects, List.mem_cons, List.not_mem_nil, or_false, or_and_right, exists_or]

/-- The loop over the entries redirects who is to be redirected. -/
theorem remaps_idle (h : s.Idle mapped) (hmapped : ∀ irq, mapped irq → irq < maxIrq)
    (hsources : (isaRemapping.map ApicIsaRemappingEntry.sourceIrq).Nodup) :
    (isaRemapping.foldl remap s).Idle mapped ∧ ∀ p,
    (∀ l, Redirects mapped isaRemapping p l → (isaRemapping.foldl remap s).remapTable p = l) ∧
    ((¬ ∃ l, Redirects mapped isaRemapping p l) →
      (isaRemapping.foldl remap s).remapTable p = s.remapTable p) := by
  induction isaRemapping generalizing s with
  | nil => exact ⟨h, fun p => ⟨fun l hl => by simp [Redirects] at hl, fun _ => rfl⟩⟩
  | cons entry isaRemapping ih =>
    rw [List.map_cons, List.nodup_cons] at hsources
    obtain ⟨hidle, htable⟩ := ih (remap_idle h entry) hsources.2
    refine ⟨hidle, fun p => ⟨fun l hl => ?_, fun hnone => ?_⟩⟩
    · rcases redirects_cons.mp hl with hone | hrest
      · -- no later entry has the same interrupt
        have hlast : ¬ ∃ l', Redirects mapped isaRemapping p l' := by
          rintro ⟨l', ⟨e, he, hep, -⟩, -⟩
          obtain ⟨hp, -⟩ := redirects_one.mp hone
          exact hsources.1 (hp.trans hep.symm ▸ List.mem_map_of_mem he)
        exact ((htable p).2 hlast).trans ((remap_remapTable h hmapped entry p).1 l hone)
      · exact (htable p).1 l hrest
    · have hone : ¬ ∃ l, Redirects mapped [entry] p l := fun ⟨l, hl⟩ =>
        hnone ⟨l, redirects_cons.mpr (.inl hl)⟩
      have hrest : ¬ ∃ l, Redirects mapped isaRemapping p l := fun ⟨l, hl⟩ =>
        hnone ⟨l, redirects_cons.mpr (.inr hl)⟩
      exact ((htable p).2 hrest).trans ((remap_remapTable h hmapped entry p).2 hone)

/-! ## The last loop -/

/-- The last loop is before round `n`. -/
structure Locked (s : ExternalInterrupts η) (mapped : ℕ → Prop) (line : ℕ → ℕ) (n : ℕ) :
    Prop where
  mmio : ∀ irq, (s.data irq).mmio ≠ none ↔ mapped irq
  irqHandlers : ∀ irq, (s.data irq).irqHandlers = .empty
  remapTable : ∀ irq, s.remapTable irq = line irq
  lockCounter : ∀ irq, (s.data irq).lockCounter = locks line n irq

variable {line : ℕ → ℕ} {n : ℕ}

section

variable (h : s.Locked mapped line n)

include h

/-- The counter and the cache of a line change, and nothing else of it. -/
theorem Locked.setData {l : ℕ} {d : InterruptData η}
    (hfires : Fires line n) (hl : line n = l) (hmmio : d.mmio = (s.data l).mmio)
    (hhandlers : d.irqHandlers = .empty) (hcounter : d.lockCounter = locks line n l + 1) :
    (s.setData l d).Locked mapped line (n + 1) := by
  refine ⟨fun irq => ?_, fun irq => ?_, h.remapTable, fun irq => ?_⟩
  all_goals by_cases heq : irq = l
  · subst heq
    simp [ExternalInterrupts.setData, hmmio, h.mmio]
  · simp [ExternalInterrupts.setData, heq, h.mmio]
  · subst heq
    simp [ExternalInterrupts.setData, hhandlers]
  · simp [ExternalInterrupts.setData, heq, h.irqHandlers]
  · subst heq
    simp only [ExternalInterrupts.setData, Function.update_self, hcounter]
    rw [locks, if_pos ⟨hfires, hl⟩]
  · simp only [ExternalInterrupts.setData, Function.update_of_ne heq, h.lockCounter]
    rw [locks, if_neg (fun hn => heq (hn.2.symm.trans hl)), Nat.add_zero]

theorem Locked.setReg (r : ℕ → ℕ → BitVec 32) :
    { s with reg := r }.Locked mapped line n :=
  ⟨h.mmio, h.irqHandlers, h.remapTable, h.lockCounter⟩

/-- A round of the last loop succeeds unless it is the first to lock a line
that no IO-APIC has. -/
theorem lockLine_locked (hn : n < maxIrq)
    (hmapped : Fires line n → locks line n (line n) = 0 → mapped (line n)) :
    ∃ t, s.lockLine n = .ok t ∧ t.Locked mapped line (n + 1) := by
  unfold lockLine
  by_cases hfires : Fires line n
  · have hle := locks_le line n (line n)
    have hcounter : ((s.data (line n)).lockCounter + 1) % 2 ^ 32 = locks line n (line n) + 1 := by
      rw [h.lockCounter]
      exact Nat.mod_eq_of_lt (by unfold maxIrq at hn; omega)
    rw [if_pos ((h.lockCounter n).trans hfires), lockIrq, if_neg (Nat.not_le.mpr hn)]
    simp only [h.remapTable, hcounter]
    by_cases hzero : locks line n (line n) = 0
    · obtain ⟨apic, happ⟩ :=
        Option.ne_none_iff_exists'.mp ((h.mmio (line n)).mpr (hmapped hfires hzero))
      rw [if_pos (by omega)]
      simp only [happ]
      refine ⟨_, rfl, Locked.setReg (h.setData hfires rfl ?_ ?_ ?_) _⟩
      · exact happ.symm
      · exact h.irqHandlers _
      · rfl
    · rw [if_neg (by omega)]
      exact ⟨_, rfl, h.setData hfires rfl rfl (h.irqHandlers _) rfl⟩
  · rw [if_neg (by rw [h.lockCounter]; exact hfires)]
    refine ⟨s, rfl, h.mmio, h.irqHandlers, h.remapTable, fun irq => ?_⟩
    rw [h.lockCounter, locks, if_neg (fun hn => hfires hn.1), Nat.add_zero]

/-- Otherwise it writes through null. -/
theorem lockLine_null (hn : n < maxIrq) (hfires : Fires line n)
    (hzero : locks line n (line n) = 0) (hmapped : ¬ mapped (line n)) :
    s.lockLine n = .error .nullMmio := by
  have hcounter : ((s.data (line n)).lockCounter + 1) % 2 ^ 32 = 1 := by
    rw [h.lockCounter, hzero]
    rfl
  have hmmio : (s.data (line n)).mmio = none := by
    by_contra hne
    exact hmapped ((h.mmio (line n)).mp hne)
  rw [lockLine, if_pos ((h.lockCounter n).trans hfires), lockIrq, if_neg (Nat.not_le.mpr hn)]
  simp only [h.remapTable, hcounter, ↓reduceIte, hmmio]
  rfl

end

/-- The last loop, if it comes to its end. -/
theorem lockLoop_inv (h : s.Locked mapped line 0) (hn : n ≤ maxIrq)
    (ht : (List.range n).foldlM lockLine s = .ok t) : t.Locked mapped line n ∧
    ∀ m < n, Fires line m → locks line m (line m) = 0 → mapped (line m) := by
  refine range_foldlM_inv (P := fun n t => t.Locked mapped line n ∧
    ∀ m < n, Fires line m → locks line m (line m) = 0 → mapped (line m))
    ⟨h, fun m hm => absurd hm (Nat.not_lt_zero m)⟩ (fun i hi a b ha hb => ?_) ht
  have hlast : Fires line i → locks line i (line i) = 0 → mapped (line i) := by
    intro hfires hzero
    by_contra hmapped
    rw [lockLine_null ha.1 (hi.trans_le hn) hfires hzero hmapped] at hb
    cases hb
  obtain ⟨b', hb', hlocked⟩ := lockLine_locked ha.1 (hi.trans_le hn) hlast
  obtain rfl := Except.ok.inj (hb'.symm.trans hb)
  refine ⟨hlocked, fun m hm => ?_⟩
  rcases Nat.lt_succ_iff_lt_or_eq.mp hm with hm | rfl
  · exact ha.2 m hm
  · exact hlast

/-! ## `initIoApic` -/

theorem cut_le (apic : IoApic) : apic.cut ≤ maxIrq := by
  unfold IoApic.cut
  split
  · exact Nat.zero_le _
  · exact Nat.min_le_right _ _

theorem topIrq_le (ioApics : List IoApic) : topIrq ioApics ≤ maxIrq := by
  rw [topIrq, List.foldl_eq_foldr]
  refine List.max_le_of_forall_le _ _ fun x hx => ?_
  obtain ⟨apic, -, rfl⟩ := List.mem_map.mp hx
  exact cut_le apic

theorem mapped_lt_topIrq {irq : ℕ} (h : Mapped ioApics irq) : irq < topIrq ioApics := by
  obtain ⟨apic, hmem, -, hlt⟩ := h
  rw [topIrq, List.foldl_eq_foldr]
  exact List.le_max_of_le' 0 (List.mem_map_of_mem hmem) hlt

theorem mapped_lt {irq : ℕ} (h : Mapped ioApics irq) : irq < maxIrq :=
  (mapped_lt_topIrq h).trans_le (topIrq_le ioApics)

theorem Fresh.idle (hs : s.Fresh) : s.Idle fun _ => False :=
  ⟨fun irq => by simp [hs.mmio], hs.irqHandlers, hs.lockCounter⟩

/-- Before its last loop `initIoApic` has mapped and redirected the lines. -/
theorem initIoApic_eq (hs : s.Fresh) (hok : AcpiOk ioApics isaRemapping) : ∃ u,
    s.initIoApic ioApics isaRemapping = (List.range (topIrq ioApics)).foldlM lockLine u ∧
    u.Locked (Mapped ioApics) u.remapTable 0 ∧
    Redirection (Redirects (Mapped ioApics) isaRemapping) u.remapTable := by
  obtain ⟨a, ha, hidle, hremap⟩ := mapApics_idle hs.idle 0 0 hok.mmioBase
  simp only [false_or] at hidle
  obtain ⟨b, hb, hidle, hremap'⟩ := range_foldlM_ok (f := setupLine) (n := topIrq ioApics)
    (P := fun _ t => t.Idle (Mapped ioApics) ∧ t.remapTable = a.remapTable) ⟨hidle, rfl⟩
    fun irq _ u hu => by
      obtain ⟨t, ht, hidle, hremap⟩ := setupLine_idle hu.1 irq
      exact ⟨t, ht, hidle, hremap.trans hu.2⟩
  have hself : ∀ p, b.remapTable p = p := fun p => by
    rw [hremap', hremap, hs.remapTable]
  obtain ⟨hidle, htable⟩ := remaps_idle hidle (fun irq => mapped_lt) hok.sources
  refine ⟨isaRemapping.foldl remap b, ?_, ?_, ?_⟩
  · have hne : ¬ ioApics.isEmpty = true := fun hempty => by
      have := hok.enough
      rw [List.isEmpty_iff.mp hempty] at this
      exact absurd this (by decide)
    unfold initIoApic
    rw [if_neg hne, ha]
    change (if topIrq ioApics < 24 then _ else _) = _
    rw [if_neg (Nat.not_lt.mpr hok.enough)]
    change (List.foldlM setupLine a (List.range (topIrq ioApics)) >>= _) = _
    rw [hb]
    rfl
  · exact ⟨hidle.mmio, hidle.irqHandlers, fun _ => rfl, hidle.lockCounter⟩
  · refine ⟨fun p hp => hp.2.2.1 rfl, fun p q l hp hq => ?_, fun p => (htable p).1, fun p hp => ?_⟩
    · obtain ⟨⟨e, he, rfl, hel⟩, -⟩ := hp
      obtain ⟨⟨e', he', rfl, hel'⟩, -⟩ := hq
      rw [List.inj_on_of_nodup_map hok.targets he he' (hel.trans hel'.symm)]
    · exact ((htable p).2 hp).trans (hself p)

/-- The first handler of a line that is locked once unmasks it. -/
theorem Locked.installHandler_unmasks (h : s.Locked mapped line n) {irq : ℕ} (hirq : irq < maxIrq)
    (hmmio : (s.data (s.remapTable irq)).mmio ≠ none)
    (hone : (s.data (s.remapTable irq)).lockCounter = 1) (handler : η) : ∃ u id,
    s.installHandler irq handler = .ok (u, id) ∧ u.maskBit irq = some false := by
  obtain ⟨apic, happ⟩ := Option.ne_none_iff_exists'.mp hmmio
  have hline : s.Line irq 1 _ [] :=
    ⟨hirq, congrArg (Option.map _) happ, hone, by rw [h.irqHandlers]⟩
  obtain ⟨u, id, hu, hunlocked⟩ :=
    installHandler_first hline (by rw [h.irqHandlers]; rfl) handler
  exact ⟨u, id, hu, hunlocked.maskBit⟩

/-- **When `initIoApic` leaves every line usable.** It does not write through
null, and locks every line once, exactly if there is no gap and the
redirected interrupts come in order. -/
theorem initIoApic_usable_iff (hs : s.Fresh) (hok : AcpiOk ioApics isaRemapping) :
    (∃ t, s.initIoApic ioApics isaRemapping = .ok t ∧
      ∀ irq < maxIrq, (t.data (t.remapTable irq)).mmio ≠ none →
        (t.data (t.remapTable irq)).lockCounter = 1 ∧
        ∀ handler, ∃ u id, t.installHandler irq handler = .ok (u, id) ∧
          u.maskBit irq = some false) ↔
    (∀ irq < topIrq ioApics,
      Mapped ioApics irq ∨ ∃ l, Redirects (Mapped ioApics) isaRemapping irq l) ∧
    InOrder (Redirects (Mapped ioApics) isaRemapping) (topIrq ioApics) := by
  obtain ⟨u, hinit, hlocked, hR⟩ := initIoApic_eq hs hok
  rw [hinit]
  have hmapped : ∀ p l, Redirects (Mapped ioApics) isaRemapping p l → Mapped ioApics l :=
    fun p l hl => hl.2.2.2
  constructor
  · rintro ⟨t, ht, husable⟩
    obtain ⟨hend, hnull⟩ := lockLoop_inv hlocked (topIrq_le ioApics) ht
    refine ⟨fun irq hirq => ?_, hR.inOrder (fun p l hl => mapped_lt_topIrq (hmapped p l hl)) ?_⟩
    · by_cases hnone : ∃ l, Redirects (Mapped ioApics) isaRemapping irq l
      · exact .inr hnone
      · left
        by_contra hgap
        -- nobody else locks a line that no IO-APIC has
        have hself := hR.line_self irq hnone
        have hfires : Fires u.remapTable irq :=
          hR.fires_iff.mpr fun p _ hp _ => hgap (hmapped p irq hp)
        have := hnull irq hirq hfires (by rw [hself]; exact hfires)
        rw [hself] at this
        exact hgap this
    · intro p l hl
      have hline : t.remapTable p = l := (hend.remapTable p).trans (hR.line_eq p l hl)
      have hone := (husable p hl.2.1 (by rw [hline]; exact (hend.mmio l).mpr (hmapped p l hl))).1
      rw [hline, hend.lockCounter] at hone
      exact hone
  · rintro ⟨hgap, horder⟩
    have hline : ∀ irq < topIrq ioApics, Mapped ioApics (u.remapTable irq) := fun irq hirq => by
      by_cases hnone : ∃ l, Redirects (Mapped ioApics) isaRemapping irq l
      · obtain ⟨l, hl⟩ := hnone
        rw [hR.line_eq irq l hl]
        exact hmapped irq l hl
      · rw [hR.line_self irq hnone]
        exact (hgap irq hirq).resolve_right hnone
    obtain ⟨t, ht, hend⟩ := range_foldlM_ok (f := lockLine) (n := topIrq ioApics)
      (P := fun n t => t.Locked (Mapped ioApics) u.remapTable n) hlocked
      fun irq hirq a ha => lockLine_locked ha (hirq.trans_le (topIrq_le ioApics))
        fun _ _ => hline irq hirq
    refine ⟨t, ht, fun irq hirq hmmio => ?_⟩
    have hlt := mapped_lt_topIrq ((hend.mmio _).mp hmmio)
    have hone : (t.data (t.remapTable irq)).lockCounter = 1 := by
      rw [hend.lockCounter]
      exact hR.locks_eq_one horder hlt (hend.remapTable irq).symm
    exact ⟨hone, hend.installHandler_unmasks hirq hmmio hone⟩

/-- The object before `initIoApic`. -/
def unmapped : ExternalInterrupts Unit where
  data _ := { mmio := none, loCache := 0, irqHandlers := .empty, irqOffset := 0, lockCounter := 0 }
  remapTable irq := irq
  irqHasBeenRedirected _ := false
  idCounter := 0
  reg _ _ := 0

theorem unmapped_fresh : unmapped.Fresh :=
  ⟨fun _ => rfl, fun _ => rfl, fun _ => rfl, fun _ => rfl, fun _ => rfl⟩

/-- An IO-APIC with 24 interrupts. -/
def apic24 : IoApic := ⟨0xFEC00000, 0, 0x170011⟩

/-- The timer interrupt 0 is redirected to line 2. -/
theorem initIoApic_usable_timer : ∃ t, unmapped.initIoApic [apic24] [⟨0, 2, 0, 0⟩] = .ok t ∧
    ∀ irq < maxIrq, (t.data (t.remapTable irq)).mmio ≠ none →
      (t.data (t.remapTable irq)).lockCounter = 1 ∧
      ∀ handler, ∃ u id, t.installHandler irq handler = .ok (u, id) ∧
        u.maskBit irq = some false := by
  have hok : AcpiOk [apic24] [⟨0, 2, 0, 0⟩] := by
    refine ⟨?_, ?_, ?_, ?_⟩ <;> decide
  have hR : ∀ p l, Redirects (Mapped [apic24]) [⟨0, 2, 0, 0⟩] p l → p = 0 ∧ l = 2 :=
    fun p l hl => by
      obtain ⟨hp, hl, -⟩ := redirects_one.mp hl
      exact ⟨hp.symm, hl.symm⟩
  refine (initIoApic_usable_iff unmapped_fresh hok).mpr ⟨fun irq hirq => .inl ?_, ?_, ?_⟩
  · exact ⟨apic24, List.mem_singleton_self _, Nat.zero_le irq, hirq⟩
  · intro p l hl _
    obtain ⟨rfl, rfl⟩ := hR p l hl
    exact .inl (by decide)
  · intro p l t hp hl
    obtain ⟨rfl, rfl⟩ := hR p l hp
    exact absurd (hR 2 t hl).1 (by decide)

/-- Interrupt 9 is redirected to line 5, which is then locked twice. -/
theorem initIoApic_locks_twice : ∃ t, unmapped.initIoApic [apic24] [⟨9, 5, 0, 0⟩] = .ok t ∧
    (t.data (t.remapTable 9)).mmio ≠ none ∧ (t.data (t.remapTable 9)).lockCounter = 2 := by
  have h : (unmapped.initIoApic [apic24] [⟨9, 5, 0, 0⟩]).toOption.any (fun t =>
      decide ((t.data (t.remapTable 9)).mmio ≠ none) &&
      decide ((t.data (t.remapTable 9)).lockCounter = 2)) = true := by decide +kernel
  cases ht : unmapped.initIoApic [apic24] [⟨9, 5, 0, 0⟩] with
  | error e =>
    rw [ht] at h
    cases h
  | ok t =>
    rw [ht] at h
    simp only [Except.toOption, Option.any_some, Bool.and_eq_true, decide_eq_true_eq] at h
    exact ⟨t, rfl, h⟩

end ExternalInterrupts

end ShmDos64
