import ShmDos64.Common.Run
/-!
# The lock-free ring buffer

`LockFreeRingBuffer` has a counter in every slot. A `push` claims the write index
`i` when the counter of slot `i % m_size` is `i`, fills the slot and sets the
counter to `i + 1`; a `pop` claims the read index `i` when the counter is `i + 1`,
reads the slot and sets the counter to `i + m_size`, which is the next write
index of the slot. With two slots or more the two kinds of counters cannot be
taken for each other.

Every load, compare-exchange, copy and store is a step, and any number of threads
push and pop. The indices are those of a buffer that does not live to see them
wrap around.
-/

namespace ShmDos64

open Function (update update_of_ne update_self)

/-- What a thread is about to do. -/
inductive RingPc (α : Type*) where
  | idle
  /-- `push`, to load `m_writeIndex`. -/
  | pushLoad (data : α)
  /-- `push`, to load the counter of the slot. -/
  | pushCounter (data : α) (index : ℕ)
  | pushExchange (data : α) (index : ℕ)
  /-- `push`, to write the slot it has claimed. -/
  | pushCopy (data : α) (index : ℕ)
  | pushStore (index : ℕ)
  /-- `pop`, to load `m_readIndex`. -/
  | popLoad
  | popCounter (index : ℕ)
  | popExchange (index : ℕ)
  /-- `pop`, to read the slot it has claimed. -/
  | popCopy (index : ℕ)
  | popStore (index : ℕ) (data : α)
  deriving DecidableEq

/-- The index a thread has claimed and not released. -/
def RingPc.claimed {α : Type*} : RingPc α → Option ℕ
  | pushCopy _ index | pushStore index | popCopy index | popStore index _ => some index
  | _ => none

/-- The buffer, where the threads are, and what has gone through. -/
structure RingState (α τ : Type*) where
  counter : ℕ → ℕ
  data : ℕ → α
  writeIndex : ℕ
  readIndex : ℕ
  pc : τ → RingPc α
  /-- The data of the pushes that have claimed an index, in the order of the
  indices. -/
  pushed : List α
  /-- The index and the data of the pops that have returned. -/
  popped : List (ℕ × α)

/-- What a thread does. -/
inductive RingAct (α : Type*) where
  | push (data : α)
  | pop
  /-- The next step of the routine it is in; a weak compare-exchange may fail
  without a reason. -/
  | run (fails : Bool)

namespace RingState

variable {α τ : Type*} [DecidableEq τ]

def goto (s : RingState α τ) (t : τ) (pc : RingPc α) : RingState α τ :=
  { s with pc := update s.pc t pc }

/-- The next step of the routine `t` is in. -/
def exec (size : ℕ) (s : RingState α τ) (t : τ) (fails : Bool) : Option (RingState α τ) :=
  match s.pc t with
  | .idle => none
  | .pushLoad data => some (s.goto t (.pushCounter data s.writeIndex))
  | .pushCounter data index =>
    let cnt := s.counter (index % size)
    if cnt = index then some (s.goto t (.pushExchange data index))
    else if cnt < index then some (s.goto t .idle)
    else some (s.goto t (.pushLoad data))
  | .pushExchange data index =>
    if s.writeIndex = index ∧ fails = false then
      some { s.goto t (.pushCopy data index) with
        writeIndex := index + 1, pushed := s.pushed ++ [data] }
    else some (s.goto t (.pushLoad data))
  | .pushCopy data index =>
    some { s.goto t (.pushStore index) with data := update s.data (index % size) data }
  | .pushStore index =>
    some { s.goto t .idle with counter := update s.counter (index % size) (index + 1) }
  | .popLoad => some (s.goto t (.popCounter s.readIndex))
  | .popCounter index =>
    let cnt := s.counter (index % size)
    let nextIndex := index + 1
    if cnt = nextIndex then some (s.goto t (.popExchange index))
    else if cnt < nextIndex then some (s.goto t .idle)
    else some (s.goto t .popLoad)
  | .popExchange index =>
    if s.readIndex = index ∧ fails = false then
      some { s.goto t (.popCopy index) with readIndex := index + 1 }
    else some (s.goto t .popLoad)
  | .popCopy index => some (s.goto t (.popStore index (s.data (index % size))))
  | .popStore index data =>
    some { s.goto t .idle with
      counter := update s.counter (index % size) (index + size)
      popped := s.popped ++ [(index, data)] }

/-- A step of `t`. -/
def apply (size : ℕ) (s : RingState α τ) : τ × RingAct α → Option (RingState α τ)
  | (t, .push data) =>
    match s.pc t with
    | .idle => some (s.goto t (.pushLoad data))
    | _ => none
  | (t, .pop) =>
    match s.pc t with
    | .idle => some (s.goto t .popLoad)
    | _ => none
  | (t, .run fails) => s.exec size t fails

/-- The constructor's buffer; the data is what the memory holds. -/
structure Fresh (s : RingState α τ) : Prop where
  counter : s.counter = id
  writeIndex : s.writeIndex = 0
  readIndex : s.readIndex = 0
  pc : ∀ t, s.pc t = .idle
  pushed : s.pushed = []
  popped : s.popped = []

/-- Each item is delivered once, to the pop of its own index, and a slot is written
by the only thread that has claimed it. -/
structure Delivers (size : ℕ) (s : RingState α τ) : Prop where
  /-- Each write index has been claimed by one push. -/
  claims : s.pushed.length = s.writeIndex
  matched : ∀ index data, (index, data) ∈ s.popped → s.pushed[index]? = some data
  once : (s.popped.map Prod.fst).Nodup
  apart : ∀ t u data i j, t ≠ u → s.pc t = .pushCopy data i → (s.pc u).claimed = some j →
    i % size ≠ j % size

end RingState

/-- The interleavings of any number of threads on a buffer of `size` slots. -/
def ringMachine (α τ : Type*) [DecidableEq τ] (size : ℕ) :
    Machine (RingState α τ) (τ × RingAct α) where
  init s := s.Fresh
  step s a s' := s.apply size a = some s'

/-! ## The invariant -/

/-- In a ring of two slots or more neighbours are apart. -/
theorem succ_mod_ne {size : ℕ} (hsize : 2 ≤ size) (i : ℕ) : (i + 1) % size ≠ i % size := by
  intro h
  have hdvd : size ∣ i + 1 - i := (Nat.modEq_iff_dvd' (Nat.le_succ i)).mp h.symm
  rw [Nat.add_sub_cancel_left] at hdvd
  have := Nat.le_of_dvd Nat.one_pos hdvd
  omega

namespace RingState

variable {α τ : Type*} {s s' : RingState α τ} {t u : τ} {size : ℕ}

/-- What is so of a thread, by where it is. The counter of a slot that is claimed
says by whom. -/
def Fits (size : ℕ) (s : RingState α τ) (t : τ) : Prop :=
  match s.pc t with
  | .idle | .pushLoad _ | .popLoad => True
  | .pushCounter _ i => i ≤ s.writeIndex
  | .pushExchange _ i => i ≤ s.writeIndex ∧ (s.writeIndex = i → s.counter (i % size) = i)
  | .pushCopy data i => i < s.writeIndex ∧ s.counter (i % size) = i ∧ s.pushed[i]? = some data
  | .pushStore i => i < s.writeIndex ∧ s.counter (i % size) = i ∧
      s.pushed[i]? = some (s.data (i % size))
  | .popCounter i => i ≤ s.readIndex
  | .popExchange i => i ≤ s.readIndex ∧ (s.readIndex = i → s.counter (i % size) = i + 1)
  | .popCopy i => i < s.readIndex ∧ s.counter (i % size) = i + 1 ∧ i ∉ s.popped.map Prod.fst
  | .popStore i data => i < s.readIndex ∧ s.counter (i % size) = i + 1 ∧
      i ∉ s.popped.map Prod.fst ∧ s.pushed[i]? = some data

/-- **The invariant.** -/
structure Inv (size : ℕ) (s : RingState α τ) : Prop where
  length : s.pushed.length = s.writeIndex
  fits : ∀ t, s.Fits size t
  apart : ∀ t u i j, t ≠ u → (s.pc t).claimed = some i → (s.pc u).claimed = some j →
    i % size ≠ j % size
  full : ∀ i, s.counter (i % size) = i + 1 → s.pushed[i]? = some (s.data (i % size))
  popped : ∀ e ∈ s.popped, e.1 < s.readIndex ∧ s.pushed[e.1]? = some e.2
  nodup : (s.popped.map Prod.fst).Nodup

/-- The counter of a slot that is claimed. -/
theorem Fits.counter (h : s.Fits size t) {i : ℕ} (hi : (s.pc t).claimed = some i) :
    s.counter (i % size) = i ∧ i < s.writeIndex ∨
      s.counter (i % size) = i + 1 ∧ i < s.readIndex := by
  unfold Fits at h
  cases hpc : s.pc t with
  | idle | pushLoad _ | pushCounter _ _ | pushExchange _ _ | popLoad | popCounter _
  | popExchange _ =>
    rw [hpc] at hi
    cases hi
  | pushCopy data j | pushStore j =>
    rw [hpc] at hi h
    obtain ⟨⟩ := hi
    exact .inl ⟨h.2.1, h.1⟩
  | popCopy j | popStore j data =>
    rw [hpc] at hi h
    obtain ⟨⟩ := hi
    exact .inr ⟨h.2.1, h.1⟩

/-- Another thread claims an index at most: this one fits as before. -/
theorem Fits.grow (h : s.Fits size u) (hpc : s'.pc u = s.pc u) (hcounter : s'.counter = s.counter)
    (hdata : s'.data = s.data) (hpopped : s'.popped = s.popped)
    (hwrite : s.writeIndex ≤ s'.writeIndex) (hread : s.readIndex ≤ s'.readIndex)
    (hpushed : ∀ (i : ℕ) v, s.pushed[i]? = some v → s'.pushed[i]? = some v) : s'.Fits size u := by
  unfold Fits at h ⊢
  rw [hpc, hcounter, hdata, hpopped]
  cases hcase : s.pc u <;> rw [hcase] at h
  case idle | pushLoad | popLoad => trivial
  case pushCounter => exact h.trans hwrite
  case pushExchange => exact ⟨h.1.trans hwrite, fun hi => h.2 (by omega)⟩
  case pushCopy | pushStore => exact ⟨h.1.trans_le hwrite, h.2.1, hpushed _ _ h.2.2⟩
  case popCounter => exact h.trans hread
  case popExchange => exact ⟨h.1.trans hread, fun hi => h.2 (by omega)⟩
  case popCopy => exact ⟨h.1.trans_le hread, h.2⟩
  case popStore => exact ⟨h.1.trans_le hread, h.2.1, h.2.2.1, hpushed _ _ h.2.2.2⟩

/-- Another thread works on a slot that this one has not claimed. -/
theorem Fits.slot (h : s.Fits size u) {k : ℕ} (hpc : s'.pc u = s.pc u)
    (hcounter : ∀ l, l ≠ k → s'.counter l = s.counter l)
    (hdata : ∀ l, l ≠ k → s'.data l = s.data l) (hwrite : s'.writeIndex = s.writeIndex)
    (hread : s'.readIndex = s.readIndex) (hpushed : s'.pushed = s.pushed)
    (hclaimed : ∀ i, (s.pc u).claimed = some i → i % size ≠ k ∧
      (i ∉ s.popped.map Prod.fst → i ∉ s'.popped.map Prod.fst))
    (hexchange : ∀ i, i % size = k → (s.counter k = i → s.writeIndex ≠ i) ∧
      (s.counter k = i + 1 → s.readIndex ≠ i)) : s'.Fits size u := by
  unfold Fits at h ⊢
  rw [hpc, hwrite, hread, hpushed]
  cases hcase : s.pc u <;> rw [hcase] at h hclaimed
  case idle | pushLoad | popLoad | pushCounter | popCounter => exact h
  case pushExchange data i =>
    refine ⟨h.1, fun hi => ?_⟩
    by_cases hk : i % size = k
    · exact absurd hi ((hexchange i hk).1 (hk ▸ h.2 hi))
    · rw [hcounter _ hk]
      exact h.2 hi
  case popExchange i =>
    refine ⟨h.1, fun hi => ?_⟩
    by_cases hk : i % size = k
    · exact absurd hi ((hexchange i hk).2 (hk ▸ h.2 hi))
    · rw [hcounter _ hk]
      exact h.2 hi
  case pushCopy data i =>
    obtain ⟨hk, -⟩ := hclaimed i rfl
    exact ⟨h.1, (hcounter _ hk).trans h.2.1, h.2.2⟩
  case pushStore i =>
    obtain ⟨hk, -⟩ := hclaimed i rfl
    exact ⟨h.1, (hcounter _ hk).trans h.2.1, (hdata _ hk).symm ▸ h.2.2⟩
  case popCopy i =>
    obtain ⟨hk, hnot⟩ := hclaimed i rfl
    exact ⟨h.1, (hcounter _ hk).trans h.2.1, hnot h.2.2⟩
  case popStore i data =>
    obtain ⟨hk, hnot⟩ := hclaimed i rfl
    exact ⟨h.1, (hcounter _ hk).trans h.2.1, hnot h.2.2.1, h.2.2.2⟩

variable [DecidableEq τ]

variable {q : RingPc α}

section

variable (h : s.Inv size) (hq : q.claimed = none ∨ q.claimed = (s.pc t).claimed)

include h hq

/-- The claims stay apart when a thread keeps its claim or gives it up. -/
theorem Inv.apart_update (u v : τ) (i j : ℕ) (hne : u ≠ v)
    (hu : (update s.pc t q u).claimed = some i) (hv : (update s.pc t q v).claimed = some j) :
    i % size ≠ j % size := by
  have hold : ∀ w k, (update s.pc t q w).claimed = some k → (s.pc w).claimed = some k := by
    intro w k hw
    by_cases hwt : w = t
    · subst hwt
      rw [update_self] at hw
      rcases hq with hq | hq
      · cases hq.symm.trans hw
      · exact hq ▸ hw
    · rwa [update_of_ne hwt] at hw
  exact h.apart u v i j hne (hold u i hu) (hold v j hv)

/-- A thread goes on and nothing else changes. -/
theorem Inv.goto (hfits : (s.goto t q).Fits size t) :
    (s.goto t q).Inv size where
  length := h.length
  fits u := by
    by_cases hu : u = t
    · exact hu ▸ hfits
    · exact (h.fits u).grow (update_of_ne hu ..) rfl rfl rfl le_rfl le_rfl fun _ _ => id
  apart := h.apart_update hq
  full := h.full
  popped := h.popped
  nodup := h.nodup

end

/-- The claims stay apart when a thread claims a slot nobody else has. -/
theorem Inv.apart_claim (h : s.Inv size) {k : ℕ} (hq : q.claimed = some k)
    (hnew : ∀ v j, v ≠ t → (s.pc v).claimed = some j → k % size ≠ j % size) (u v : τ) (i j : ℕ)
    (hne : u ≠ v) (hu : (update s.pc t q u).claimed = some i)
    (hv : (update s.pc t q v).claimed = some j) : i % size ≠ j % size := by
  by_cases hut : u = t
  · subst hut
    rw [update_self, hq] at hu
    rw [update_of_ne hne.symm] at hv
    obtain ⟨⟩ := hu
    exact hnew v j hne.symm hv
  · rw [update_of_ne hut] at hu
    by_cases hvt : v = t
    · subst hvt
      rw [update_self, hq] at hv
      obtain ⟨⟩ := hv
      exact (hnew u i hut hu).symm
    · rw [update_of_ne hvt] at hv
      exact h.apart u v i j hne hu hv

omit [DecidableEq τ] in
theorem getElem?_concat_of_some {l : List α} {i : ℕ} {a v : α} (h : l[i]? = some v) :
    (l ++ [a])[i]? = some v := by
  obtain ⟨hi, -⟩ := List.getElem?_eq_some_iff.mp h
  rwa [List.getElem?_append_left hi]

section

variable (h : s.Inv size) (hsize : 2 ≤ size)

include h hsize

variable {i : ℕ}

/-- A `push` claims the write index. -/
theorem Inv.claimPush {data : α} (hpc : s.pc t = .pushExchange data i)
    (hwrite : s.writeIndex = i) : Inv size { s.goto t (.pushCopy data i) with
      writeIndex := i + 1, pushed := s.pushed ++ [data] } := by
  have hfits := h.fits t
  rw [Fits, hpc] at hfits
  have hcounter := hfits.2 hwrite
  refine ⟨?_, fun u => ?_, ?_, fun j hj => ?_, fun e he => ?_, h.nodup⟩
  · simp only [List.length_append, List.length_singleton, h.length, hwrite]
  · by_cases hu : u = t
    · simp only [Fits, RingState.goto, hu, update_self]
      refine ⟨Nat.lt_succ_self i, hcounter, ?_⟩
      rw [← hwrite, ← h.length, List.getElem?_concat_length]
    · exact (h.fits u).grow (update_of_ne hu ..) rfl rfl rfl
        (hwrite ▸ Nat.le_succ _) le_rfl fun _ _ => getElem?_concat_of_some
  · -- the counter of the slot is the index, as no slot's is that is claimed
    refine h.apart_claim rfl fun v j _ hj heq => ?_
    rcases (h.fits v).counter hj with ⟨hc, hlt⟩ | ⟨hc, -⟩
    · rw [← heq, hcounter] at hc
      omega
    · rw [← heq, hcounter] at hc
      subst hc
      exact succ_mod_ne hsize j heq
  · exact getElem?_concat_of_some (h.full j hj)
  · exact ⟨(h.popped e he).1, getElem?_concat_of_some (h.popped e he).2⟩

/-- A `pop` claims the read index. -/
theorem Inv.claimPop (hpc : s.pc t = .popExchange i) (hread : s.readIndex = i) :
    Inv size { s.goto t (.popCopy i) with readIndex := i + 1 } := by
  have hfits := h.fits t
  rw [Fits, hpc] at hfits
  have hcounter := hfits.2 hread
  refine ⟨h.length, fun u => ?_, ?_, h.full, fun e he => ?_, h.nodup⟩
  · by_cases hu : u = t
    · simp only [Fits, RingState.goto, hu, update_self]
      refine ⟨Nat.lt_succ_self i, hcounter, fun hmem => ?_⟩
      obtain ⟨e, he, rfl⟩ := List.mem_map.mp hmem
      exact (h.popped e he).1.ne hread.symm
    · exact (h.fits u).grow (update_of_ne hu ..) rfl rfl rfl le_rfl
        (hread ▸ Nat.le_succ _) fun _ _ => id
  · refine h.apart_claim rfl fun v j _ hj heq => ?_
    rcases (h.fits v).counter hj with ⟨hc, -⟩ | ⟨hc, hlt⟩
    · rw [← heq, hcounter] at hc
      subst hc
      exact succ_mod_ne hsize i heq.symm
    · rw [← heq, hcounter] at hc
      omega
  · exact ⟨((h.popped e he).1.trans_eq hread).trans (Nat.lt_succ_self i), (h.popped e he).2⟩

/-- A `push` writes its slot. -/
theorem Inv.copyPush {data : α} (hpc : s.pc t = .pushCopy data i) :
    Inv size { s.goto t (.pushStore i) with data := update s.data (i % size) data } := by
  have hfits := h.fits t
  rw [Fits, hpc] at hfits
  obtain ⟨hlt, hcounter, hpushed⟩ := hfits
  have hclaimed : (s.pc t).claimed = some i := by rw [hpc]; rfl
  refine ⟨h.length, fun u => ?_, h.apart_update (.inr hclaimed.symm), fun j hj => ?_, h.popped,
    h.nodup⟩
  · by_cases hu : u = t
    · simp only [Fits, RingState.goto, hu, update_self]
      exact ⟨hlt, hcounter, hpushed⟩
    · refine (h.fits u).slot (k := i % size) (update_of_ne hu ..) (fun _ _ => rfl)
        (fun l hl => update_of_ne hl ..) rfl rfl rfl
        (fun j hj => ⟨h.apart u t j i hu hj hclaimed, id⟩)
        fun j hj => ⟨fun hc hw => ?_, fun hc _ => ?_⟩
      · omega
      · rw [hcounter] at hc
        subst hc
        exact succ_mod_ne hsize j hj.symm
  · simp only [RingState.goto] at hj ⊢
    by_cases hslot : j % size = i % size
    · rw [hslot, hcounter] at hj
      subst hj
      exact absurd hslot.symm (succ_mod_ne hsize j)
    · rw [update_of_ne hslot]
      exact h.full j hj

/-- A `push` releases its slot. -/
theorem Inv.storePush (hpc : s.pc t = .pushStore i) :
    Inv size { s.goto t .idle with counter := update s.counter (i % size) (i + 1) } := by
  have hfits := h.fits t
  rw [Fits, hpc] at hfits
  obtain ⟨hlt, hcounter, hpushed⟩ := hfits
  have hclaimed : (s.pc t).claimed = some i := by rw [hpc]; rfl
  refine ⟨h.length, fun u => ?_, h.apart_update (.inl rfl), fun j hj => ?_, h.popped, h.nodup⟩
  · by_cases hu : u = t
    · simp [Fits, RingState.goto, hu]
    · refine (h.fits u).slot (k := i % size) (update_of_ne hu ..)
        (fun l hl => update_of_ne hl ..) (fun _ _ => rfl) rfl rfl rfl
        (fun j hj => ⟨h.apart u t j i hu hj hclaimed, id⟩)
        fun j hj => ⟨fun hc hw => ?_, fun hc _ => ?_⟩
      · omega
      · rw [hcounter] at hc
        subst hc
        exact succ_mod_ne hsize j hj.symm
  · simp only [RingState.goto] at hj ⊢
    by_cases hslot : j % size = i % size
    · rw [hslot, update_self] at hj
      obtain rfl : i = j := by omega
      exact hpushed
    · rw [update_of_ne hslot] at hj
      exact h.full j hj

/-- A `pop` releases its slot, and returns. -/
theorem Inv.storePop {data : α} (hpc : s.pc t = .popStore i data) :
    Inv size { s.goto t .idle with
      counter := update s.counter (i % size) (i + size)
      popped := s.popped ++ [(i, data)] } := by
  have hfits := h.fits t
  rw [Fits, hpc] at hfits
  obtain ⟨hlt, hcounter, hnew, hpushed⟩ := hfits
  have hclaimed : (s.pc t).claimed = some i := by rw [hpc]; rfl
  refine ⟨h.length, fun u => ?_, h.apart_update (.inl rfl), fun j hj => ?_, fun e he => ?_, ?_⟩
  · by_cases hu : u = t
    · simp [Fits, RingState.goto, hu]
    · refine (h.fits u).slot (k := i % size) (update_of_ne hu ..)
        (fun l hl => update_of_ne hl ..) (fun _ _ => rfl) rfl rfl rfl
        (fun j hj => ⟨h.apart u t j i hu hj hclaimed, fun hnot hmem => ?_⟩)
        fun j hj => ⟨fun hc _ => ?_, fun hc hr => ?_⟩
      · rw [List.map_append, List.mem_append] at hmem
        rcases hmem with hmem | hmem
        · exact hnot hmem
        · obtain rfl : j = i := List.mem_singleton.mp hmem
          exact h.apart u t j j hu hj hclaimed rfl
      · rw [hcounter] at hc
        subst hc
        exact succ_mod_ne hsize i hj
      · omega
  · simp only [RingState.goto] at hj ⊢
    by_cases hslot : j % size = i % size
    · rw [hslot, update_self] at hj
      have hwrap : (j + 1) % size = i % size := by rw [← hj, Nat.add_mod_right]
      exact absurd (hwrap.trans hslot.symm) (succ_mod_ne hsize j)
    · rw [update_of_ne hslot] at hj
      exact h.full j hj
  · rcases List.mem_append.mp he with he | he
    · exact h.popped e he
    · rw [List.mem_singleton.mp he]
      exact ⟨hlt, hpushed⟩
  · rw [List.map_append]
    refine List.nodup_append.mpr ⟨h.nodup, List.nodup_singleton _, fun a ha b hb => ?_⟩
    rintro rfl
    obtain rfl : a = i := List.mem_singleton.mp hb
    exact hnew ha

/-- **The step lemma** for a thread inside a routine. -/
theorem Inv.exec {fails : Bool} (hst : s.exec size t fails = some s') : s'.Inv size := by
  have hfits := h.fits t
  unfold Fits at hfits
  simp only [RingState.exec] at hst
  cases hpc : s.pc t <;> rw [hpc] at hst hfits
  case idle => cases hst
  case pushLoad data | popLoad =>
    obtain ⟨⟩ := hst
    exact h.goto (.inl rfl) (by simp [Fits, RingState.goto])
  case pushCounter data i | popCounter i =>
    simp only at hst hfits
    split_ifs at hst with hcnt
    all_goals obtain ⟨⟩ := hst
    · refine h.goto (.inl rfl) ?_
      simp only [Fits, RingState.goto, update_self]
      exact ⟨hfits, fun _ => hcnt⟩
    all_goals exact h.goto (.inl rfl) (by simp [Fits, RingState.goto])
  case pushExchange data i =>
    simp only at hst
    split_ifs at hst with hok
    all_goals obtain ⟨⟩ := hst
    · exact h.claimPush hsize hpc hok.1
    · exact h.goto (.inl rfl) (by simp [Fits, RingState.goto])
  case pushCopy data i =>
    obtain ⟨⟩ := hst
    exact h.copyPush hsize hpc
  case pushStore i =>
    obtain ⟨⟩ := hst
    exact h.storePush hsize hpc
  case popExchange i =>
    simp only at hst
    split_ifs at hst with hok
    all_goals obtain ⟨⟩ := hst
    · exact h.claimPop hsize hpc hok.1
    · exact h.goto (.inl rfl) (by simp [Fits, RingState.goto])
  case popCopy i =>
    obtain ⟨⟩ := hst
    refine h.goto (.inr (by rw [hpc]; rfl)) ?_
    simp only [Fits, RingState.goto, update_self]
    exact ⟨hfits.1, hfits.2.1, hfits.2.2, h.full i hfits.2.1⟩
  case popStore i data =>
    obtain ⟨⟩ := hst
    exact h.storePop hsize hpc

theorem Inv.apply {a : τ × RingAct α} (hst : s.apply size a = some s') : s'.Inv size := by
  obtain ⟨t, a⟩ := a
  cases a with
  | push data | pop =>
    simp only [RingState.apply] at hst
    split at hst
    · obtain ⟨⟩ := hst
      exact h.goto (.inl rfl) (by simp [Fits, RingState.goto])
    · cases hst
  | run fails => exact h.exec hsize hst

end

omit [DecidableEq τ] in
theorem Fresh.inv (h : s.Fresh) : s.Inv size where
  length := by rw [h.pushed, h.writeIndex]; rfl
  fits t := by rw [Fits, h.pc]; trivial
  apart t u i j _ ht := by
    rw [h.pc] at ht
    cases ht
  full i hi := by
    rw [h.counter] at hi
    have := Nat.mod_le i size
    simp only [id] at hi
    omega
  popped e he := by
    rw [h.popped] at he
    cases he
  nodup := by rw [h.popped]; exact List.nodup_nil

/-- **The ring buffer delivers each item once, in order**, for any interleaving of
any threads on two slots or more. -/
theorem ring_delivers (hsize : 2 ≤ size) (hs : (ringMachine α τ size).Reachable s) :
    s.Delivers size := by
  have h : s.Inv size := hs.invariant (fun _ => Fresh.inv) fun _ _ _ h hst => h.apply hsize hst
  refine ⟨h.length, fun i data he => (h.popped _ he).2, h.nodup, fun t u data i j hne ht hu => ?_⟩
  exact h.apart t u i j hne (by rw [ht]; rfl) hu

/-- Two threads push at the same time, the second is through first, and a third pops
what the first has pushed. -/
theorem ring_delivers_overtaken : ∃ s : RingState ℕ (Fin 3),
    s.Delivers 2 ∧ s.pushed = [7, 8] ∧ s.popped = [(0, 7)] := by
  obtain ⟨s, hs, hend⟩ := Machine.Reachable.exists_of_foldlM (M := ringMachine ℕ (Fin 3) 2)
    (P := fun s => decide (s.pushed = [7, 8] ∧ s.popped = [(0, 7)]))
    (fun _ _ _ h => h)
    ([(0, .push 7), (1, .push 8), (0, .run false), (0, .run false), (0, .run false)] ++
      List.replicate 5 (1, .run false) ++ List.replicate 2 (0, .run false) ++
      [(2, .pop)] ++ List.replicate 5 (2, .run false))
    (.init (s := ⟨id, fun _ => 0, 0, 0, fun _ => .idle, [], []⟩)
      ⟨rfl, rfl, rfl, fun _ => rfl, rfl, rfl⟩) (by decide +kernel)
  exact ⟨s, ring_delivers (le_refl 2) hs, of_decide_eq_true hend⟩

end RingState

end ShmDos64
