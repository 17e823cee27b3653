import ShmDos64.Common.Bytes
import ShmDos64.ExternalInterrupts.Model
/-!
# The tables of ACPI

`AcpiTables` walks three tables whose lengths are what the firmware says.
The entries of the XSDT and the items of the MCFG are counted by a 64-bit
subtraction from the length; the entries of the MADT are walked from one
length byte to the next.
-/

namespace ShmDos64

variable {b : ℕ → BitVec 8} {length xsdt mcfg p q : ℕ}

/-- `numTables`; none where the constructor panics. The check is against the
size of `Rsdp`, not that of `AcpiTableHeader`. -/
def numTables (length : ℕ) : Option ℕ :=
  if length < 36 - 4 then none else some ((length + 2 ^ 64 - 36) % 2 ^ 64 / 8)

/-- The index of the `end` of `parseMcfg`. -/
def mcfgEnd (length : ℕ) : ℕ := (length + 2 ^ 64 - 44) % 2 ^ 64 / 16

/-- The offsets of the items `parseMcfg` visits, the first of index `i` and
`n` at most: it returns at an invalid one. -/
def mcfgItems (valid : ℕ → Bool) : ℕ → ℕ → List ℕ
  | _, 0 => []
  | i, n + 1 => (44 + 16 * i) :: if valid i then mcfgItems valid (i + 1) n else []

theorem mcfgItems_lt {valid : ℕ → Bool} {i n : ℕ} (h : q ∈ mcfgItems valid i n) :
    q < 44 + 16 * (i + n) ∧ q % 16 = 44 % 16 := by
  induction n generalizing i with
  | zero => cases h
  | succ n ih =>
    rw [mcfgItems, List.mem_cons] at h
    rcases h with rfl | h
    · omega
    · split_ifs at h
      · have hq := ih h
        omega
      · cases h

/-- Unless the constructor panics, both counts are those of the entries
behind the header, and what is visited is inside the table. -/
def CountsExact (xsdt mcfg : ℕ) : Prop :=
  ∀ n, numTables xsdt = some n →
    (36 ≤ xsdt ∧ n = (xsdt - 36) / 8 ∧ ∀ i < n, 36 + 8 * i + 8 ≤ xsdt) ∧
    44 ≤ mcfg ∧ mcfgEnd mcfg = (mcfg - 44) / 16 ∧
      ∀ valid, ∀ a ∈ mcfgItems valid 0 (mcfgEnd mcfg), a + 16 ≤ mcfg

/-- **The counts are exact but for short tables.** -/
theorem acpi_counts_exact_iff (hxsdt : xsdt < 2 ^ 32) (hmcfg : mcfg < 2 ^ 32) :
    CountsExact xsdt mcfg ↔ xsdt < 32 ∨ 36 ≤ xsdt ∧ 44 ≤ mcfg := by
  refine ⟨fun h => ?_, fun h n hn => ?_⟩
  · by_cases hlt : xsdt < 32
    · exact .inl hlt
    · obtain ⟨⟨hle, -⟩, hle', -⟩ := h _ (if_neg (by omega))
      exact .inr ⟨hle, hle'⟩
  rw [numTables] at hn
  split_ifs at hn with hlt
  obtain rfl := Option.some.inj hn
  refine ⟨⟨by omega, by omega, fun i hi => by omega⟩, by omega, ?_, fun valid a ha => ?_⟩
  · rw [mcfgEnd]
    omega
  · have hlt := mcfgItems_lt ha
    rw [mcfgEnd] at hlt
    omega

/-- A table of 32 bytes has 2⁶¹ - 1 entries. -/
theorem acpi_counts_underflow : numTables 32 = some (2 ^ 61 - 1) ∧ ¬ CountsExact 32 44 :=
  ⟨by decide, fun h => absurd (h _ rfl).1.1 (by decide)⟩

/-- Tables of two entries and of one item. -/
theorem acpi_counts_exact_small : CountsExact 52 60 :=
  (acpi_counts_exact_iff (by decide) (by decide)).mpr (by decide)

/-- What `parseApic` records, and the offsets and sizes of its reads. -/
structure ApicTables where
  cpuApicIds : List (BitVec 8) := []
  ioApics : List (BitVec 32 × BitVec 32) := []
  isaRemapping : List ApicIsaRemappingEntry := []
  reads : List (ℕ × ℕ) := []

namespace ApicTables

variable {s t : ApicTables}

section

variable (b : ℕ → BitVec 8) (p : ℕ)

/-- `apicHeader->m_length`. -/
def lengthAt : ℕ := (b (p + 1)).toNat

/-- The entry at `p` has the type and the length of a handled one. -/
def IsEntry (type : BitVec 8) (size p : ℕ) : Prop :=
  b p = type ∧ lengthAt b p = size

instance (type : BitVec 8) (size p : ℕ) : Decidable (IsEntry b type size p) :=
  inferInstanceAs (Decidable (_ ∧ _))

/-- The entry is a local APIC, enabled. -/
def EnabledAt : Prop := load 32 b (p + 4) &&& 1 ≠ 0

instance : Decidable (EnabledAt b p) :=
  inferInstanceAs (Decidable (_ ≠ _))

def ioApicAt : BitVec 32 × BitVec 32 :=
  (load 32 b (p + 4), load 32 b (p + 8))

def remappingAt : ApicIsaRemappingEntry where
  sourceIrq := (b (p + 3)).toNat
  apicIrq := (load 32 b (p + 4)).toNat
  polarity := (load 16 b (p + 8) &&& 3).toNat
  triggerMode := (load 16 b (p + 8) >>> 2 &&& 3).toNat

/-- A round of the loop. -/
def entry (s : ApicTables) : ApicTables :=
  if IsEntry b 0#8 8 p then
    if EnabledAt b p then
      { s with cpuApicIds := s.cpuApicIds ++ [b (p + 3)]
               reads := s.reads ++ [(p, 2), (p + 4, 4), (p + 2, 2)] }
    else { s with reads := s.reads ++ [(p, 2), (p + 4, 4)] }
  else if IsEntry b 1#8 12 p then
    { s with ioApics := s.ioApics ++ [ioApicAt b p], reads := s.reads ++ [(p, 2), (p + 4, 8)] }
  else if IsEntry b 2#8 10 p then
    if b (p + 2) = 0#8 then
      { s with isaRemapping := s.isaRemapping ++ [remappingAt b p]
               reads := s.reads ++ [(p, 2), (p + 2, 1), (p + 3, 7)] }
    else { s with reads := s.reads ++ [(p, 2), (p + 2, 1)] }
  else { s with reads := s.reads ++ [(p, 2)] }

/-- The loop of `parseApic` from the offset `p`; none is a panic. -/
def parseLoop (b : ℕ → BitVec 8) (length p : ℕ) (s : ApicTables) : Option ApicTables :=
  if p < length then
    if lengthAt b p < 2 then none else parseLoop b length (p + lengthAt b p) (entry b p s)
  else some s
termination_by length - p

/-- `parseApic` of a table of `length` bytes, the first entry behind the
header of `Madt`. -/
def parseApic (length : ℕ) : Option ApicTables := parseLoop b length 44 {}

/-- The walk goes from the entry at `p` to that at `q`. -/
def Reaches : ℕ → ℕ → Prop :=
  Relation.ReflTransGen fun p q => q = p + lengthAt b p

/-- The table has the header of the entry, the bus of a source override,
and all of an entry that is handled. -/
def Fits (length : ℕ) : Prop :=
  p + 2 ≤ length ∧ (IsEntry b 2#8 10 p → p + 3 ≤ length) ∧
    (IsEntry b 0#8 8 p ∨ IsEntry b 1#8 12 p ∨ IsEntry b 2#8 10 p ∧ b (p + 2) = 0#8 →
      p + lengthAt b p ≤ length)

end

theorem Reaches.le (h : Reaches b p q) : p ≤ q := by
  induction h with
  | refl => exact le_rfl
  | tail _ hq ih => omega

theorem entry_reads : (∀ r ∈ (entry b p s).reads, r.1 + r.2 ≤ length) ↔
    (∀ r ∈ s.reads, r.1 + r.2 ≤ length) ∧ Fits b p length := by
  unfold entry
  split_ifs <;> simp only [List.forall_mem_append, List.forall_mem_cons, List.not_mem_nil,
    false_imp_iff, implies_true, and_true] <;>
    exact and_congr_right fun _ => by grind [Fits, IsEntry]

/-- An entry that ends inside the table fits. -/
theorem fits_of_le (hlen : 2 ≤ lengthAt b p) (h : p + lengthAt b p ≤ length) : Fits b p length :=
  ⟨by omega, fun hentry => by rw [hentry.2] at h; omega, fun _ => h⟩

/-- The walk panics at an entry that is too short for its header. -/
theorem parseLoop_eq_none_iff :
    parseLoop b length p s = none ↔ ∃ q < length, Reaches b p q ∧ lengthAt b q < 2 := by
  fun_induction parseLoop with
  | case1 p s hp hlen => exact iff_of_true rfl ⟨p, hp, .refl, hlen⟩
  | case2 p s hp hlen ih =>
    rw [ih]
    constructor
    · rintro ⟨q, hq, hpq, hshort⟩
      exact ⟨q, hq, .head rfl hpq, hshort⟩
    · rintro ⟨q, hq, hpq, hshort⟩
      rcases Relation.ReflTransGen.cases_head hpq with rfl | ⟨_, rfl, hpq⟩
      · exact absurd hshort hlen
      · exact ⟨q, hq, hpq, hshort⟩
  | case3 p s hp =>
    refine iff_of_false (by simp) ?_
    rintro ⟨q, hq, hpq, -⟩
    exact absurd hpq.le (by omega)

theorem parseLoop_reads (h : parseLoop b length p s = some t) :
    (∀ r ∈ t.reads, r.1 + r.2 ≤ length) ↔ (∀ r ∈ s.reads, r.1 + r.2 ≤ length) ∧
      ∀ q < length, Reaches b p q → Fits b q length := by
  fun_induction parseLoop with
  | case1 => cases h
  | case2 p s hp hlen ih =>
    rw [ih h, entry_reads, and_assoc]
    refine and_congr_right fun _ => ⟨fun ⟨hfst, hrest⟩ q hq hpq => ?_, fun hall => ?_⟩
    · rcases Relation.ReflTransGen.cases_head hpq with rfl | ⟨_, rfl, hpq⟩
      · exact hfst
      · exact hrest q hq hpq
    · exact ⟨hall p hp .refl, fun q hq hpq => hall q hq (.head rfl hpq)⟩
  | case3 p s hp =>
    obtain rfl := Option.some.inj h
    refine ⟨fun hs => ⟨hs, fun q hq hpq => absurd hpq.le (by omega)⟩, fun hs => hs.1⟩

/-- The entries at `ps` tile the bytes from `p` to `q`; those of the handled
types have their lengths. -/
inductive Tiles (b : ℕ → BitVec 8) : ℕ → List ℕ → ℕ → Prop
  | nil {p : ℕ} : Tiles b p [] p
  | cons {p q : ℕ} {ps : List ℕ} : 2 ≤ lengthAt b p → (b p = 0#8 → lengthAt b p = 8) →
      (b p = 1#8 → lengthAt b p = 12) → (b p = 2#8 → lengthAt b p = 10) →
      Tiles b (p + lengthAt b p) ps q → Tiles b p (p :: ps) q

/-- What is recorded of the entries at `ps`. -/
structure Records (b : ℕ → BitVec 8) (ps : List ℕ) (s t : ApicTables) : Prop where
  cpuApicIds : t.cpuApicIds = s.cpuApicIds ++
    (ps.filter fun p => b p = 0#8 ∧ EnabledAt b p).map fun p => b (p + 3)
  ioApics : t.ioApics = s.ioApics ++ (ps.filter fun p => b p = 1#8).map (ioApicAt b)
  isaRemapping : t.isaRemapping = s.isaRemapping ++
    (ps.filter fun p => b p = 2#8 ∧ b (p + 2) = 0#8).map (remappingAt b)

theorem Records.append {ps qs : List ℕ} {u : ApicTables} (h : Records b ps s t)
    (h' : Records b qs t u) : Records b (ps ++ qs) s u := by
  constructor
  · rw [h'.cpuApicIds, h.cpuApicIds, List.filter_append, List.map_append, List.append_assoc]
  · rw [h'.ioApics, h.ioApics, List.filter_append, List.map_append, List.append_assoc]
  · rw [h'.isaRemapping, h.isaRemapping, List.filter_append, List.map_append, List.append_assoc]

theorem entry_records (h0 : b p = 0#8 → lengthAt b p = 8) (h1 : b p = 1#8 → lengthAt b p = 12)
    (h2 : b p = 2#8 → lengthAt b p = 10) : Records b [p] s (entry b p s) := by
  have hother {type : BitVec 8} {size : ℕ} (h : b p = type → lengthAt b p = size)
      (hnot : ¬ IsEntry b type size p) : b p ≠ type := fun htype => hnot ⟨htype, h htype⟩
  unfold entry
  split_ifs with hcpu hen hio hsource hbus
  · constructor <;> simp [hcpu.1, hen]
  · constructor <;> simp [hcpu.1, hen]
  · constructor <;> simp [hio.1]
  · constructor <;> simp [hsource.1, hbus]
  · constructor <;> simp [hsource.1, hbus]
  · constructor <;> simp [hother h0 hcpu, hother h1 hio, hother h2 hsource]

theorem Tiles.le {ps : List ℕ} (h : Tiles b p ps q) : p ≤ q := by
  induction h with
  | nil => exact le_rfl
  | cons _ _ _ _ _ ih => omega

theorem Tiles.records {ps : List ℕ} (h : Tiles b p ps length) :
    ∃ t, parseLoop b length p s = some t ∧ Records b ps s t := by
  induction h generalizing s with
  | nil =>
    rw [parseLoop, if_neg (Nat.lt_irrefl _)]
    exact ⟨s, rfl, by simp, by simp, by simp⟩
  | @cons p q ps hlen h0 h1 h2 htiles ih =>
    obtain ⟨t, ht, hrec⟩ := ih (s := entry b p s)
    have hle := htiles.le
    rw [parseLoop, if_pos (by omega), if_neg (by omega)]
    exact ⟨t, ht, (entry_records h0 h1 h2).append hrec⟩

/-- **`parseApic` reads inside the table** just when it comes to an entry of
a length below 2, where it panics, or the last entry that starts inside fits;
and it records the entries of a table they tile. -/
theorem madt_inside_iff (b : ℕ → BitVec 8) (length : ℕ) :
    ((∀ t, parseApic b length = some t → ∀ r ∈ t.reads, r.1 + r.2 ≤ length) ↔
      (∃ p < length, Reaches b 44 p ∧ lengthAt b p < 2) ∨
        ∀ p < length, Reaches b 44 p → length ≤ p + lengthAt b p → Fits b p length) ∧
    ∀ ps, Tiles b 44 ps length → ∃ t, parseApic b length = some t ∧ Records b ps {} t := by
  refine ⟨?_, fun ps h => h.records⟩
  rw [parseApic, ← parseLoop_eq_none_iff (s := {})]
  cases h : parseLoop b length 44 {} with
  | none => simp
  | some t =>
    have hlong : ∀ p < length, Reaches b 44 p → 2 ≤ lengthAt b p := by
      intro p hp hreach
      by_contra hshort
      have hnone := parseLoop_eq_none_iff (s := {}).mpr ⟨p, hp, hreach, Nat.not_le.mp hshort⟩
      rw [h] at hnone
      cases hnone
    have hreads : (∀ r ∈ t.reads, r.1 + r.2 ≤ length) ↔
        ∀ p < length, Reaches b 44 p → Fits b p length := by simpa using parseLoop_reads h
    simp only [Option.some.injEq, forall_eq', reduceCtorEq, false_or, hreads]
    refine forall₃_congr fun p hp hreach => ⟨fun hfits _ => hfits, fun hlast => ?_⟩
    rcases Nat.le_total length (p + lengthAt b p) with hle | hle
    · exact hlast hle
    · exact fits_of_le (hlong p hp hreach) hle

/-- A local APIC, an IO-APIC and the override of interrupt 0. -/
def smallMadt (i : ℕ) : BitVec 8 :=
  [0, 8, 1, 7, 1, 0, 0, 0, 1, 12, 2, 0, 0, 0, 0xC0, 0xFE, 0, 0, 0, 0,
    2, 10, 0, 0, 2, 0, 0, 0, 5, 0].getD (i - 44) 0#8

theorem madt_records_small : ∃ t, parseApic smallMadt 74 = some t ∧ t.cpuApicIds = [7#8] ∧
    t.ioApics = [(0xFEC00000#32, 0#32)] ∧
    t.isaRemapping.map (fun e => (e.sourceIrq, e.apicIrq, e.polarity, e.triggerMode)) =
      [(0, 2, 1, 1)] := by
  have htiles : Tiles smallMadt 44 [44, 52, 64] 74 := by
    refine .cons (by decide) (by decide) (by decide) (by decide) (.cons (by decide) (by decide)
      (by decide) (by decide) (.cons (by decide) (by decide) (by decide) (by decide) .nil))
  obtain ⟨t, ht, hcpu, hio, hisa⟩ := (madt_inside_iff smallMadt 74).2 _ htiles
  refine ⟨t, ht, hcpu.trans (by decide), hio.trans (by decide), ?_⟩
  rw [hisa]
  decide

/-- A last byte that is no entry: the length of an entry is read behind it. -/
theorem madt_outside : ∃ t, parseApic (fun _ => 2#8) 45 = some t ∧ (44, 2) ∈ t.reads := by
  have hlen : ∀ p, lengthAt (fun _ => 2#8) p = 2 := fun _ => rfl
  rw [parseApic, parseLoop, if_pos (by decide), hlen, if_neg (by decide), parseLoop,
    if_neg (by decide)]
  exact ⟨_, rfl, by decide +kernel⟩

end ApicTables

end ShmDos64
