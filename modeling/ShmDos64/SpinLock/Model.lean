import ShmDos64.Common.Run
/-!
# The queued spin lock

`QueuedSpinLockBase` is a queue of entries, one for each context that has
asked for the lock and not given it back: a context appends its entry by
an exchange of `m_tail`, links it behind the one it found there, and spins
on its own `m_state`. The entries come from a pool per processor that all
locks share and are used again, so that what a stale pointer leads to is
the question. `lock` and `unlock` are modelled one access to shared memory
at a time; a context is a thread of control (a task, or an interrupt
handler on top of one) and a run is any interleaving of contexts.
-/

namespace ShmDos64

open Function (update)

/-- `LocalCpuSpinsData::LimitAlign`. -/
abbrev spinLimitAlign : ℕ := 128

/-- An entry, by its processor and its index in the processor's pool. -/
abbrev SpinEntry (κ : Type*) : Type _ := κ × Fin spinLimitAlign

/-- What a context is about to do. -/
inductive SpinPc (ι ε : Type*) where
  | idle
  /-- `lock`, in the loop of `allocSpinEntry`. -/
  | alloc (l : ι)
  /-- To clear `m_next`. -/
  | storeNext (l : ι) (entry : ε)
  /-- To set `m_state`. -/
  | storeState (l : ι) (entry : ε)
  /-- To exchange `m_tail`. -/
  | exchange (l : ι) (entry : ε)
  /-- To link the entry behind `cur`. -/
  | link (l : ι) (entry cur : ε)
  /-- To load `m_state` in the loop. -/
  | spin (l : ι) (entry : ε)
  /-- To write `m_lastLockEntry`. -/
  | storeLast (l : ι) (entry : ε)
  /-- `unlock`, to read `m_lastLockEntry`. -/
  | loadLast (l : ι)
  /-- To compare and exchange `m_tail`. -/
  | casTail (l : ι) (entry : ε)
  /-- To load `m_next` in the loop. -/
  | loadNext (l : ι) (entry : ε)
  /-- To clear the `m_state` of the next entry. -/
  | handOver (l : ι) (entry p : ε)
  /-- `freeSpinEntry`. -/
  | release (l : ι) (entry : ε)
  deriving DecidableEq

/-- What follows the exchange of `m_tail`, in which `cur` was found. -/
def SpinPc.exchanged {ι ε : Type*} (l : ι) (entry : ε) : Option ε → SpinPc ι ε
  | none => .storeLast l entry
  | some cur => .link l entry cur

/-- The memory of the locks and the entries, and where the contexts are.
The last three fields are the run's record: who has the lock, and the
orders in which contexts exchanged `m_tail` and obtained the lock. -/
structure SpinState (τ ι ε : Type*) where
  pc : τ → SpinPc ι ε
  /-- `m_next`. -/
  next : ε → Option ε
  /-- `m_state`. -/
  state : ε → Bool
  /-- `m_use`. -/
  use : ε → Bool
  /-- `m_tail`. -/
  tail : ι → Option ε
  /-- `m_lastLockEntry`. -/
  last : ι → Option ε
  holds : ι → τ → Bool
  arrivals : ι → List (τ × ε)
  acquired : ι → List (τ × ε)

/-- What a context does next. -/
inductive SpinAct (ι : Type*) where
  | lock (l : ι)
  | unlock (l : ι)
  /-- The next access of the routine the context is in. `index` is that of
  the entry `allocSpinEntry` tries: `m_count` counts the attempts of all
  contexts of the processor, so it is left open. -/
  | run (index : Fin spinLimitAlign)

namespace SpinState

variable {κ τ ι : Type*} [DecidableEq κ] [DecidableEq τ] [DecidableEq ι]

def goto {ε : Type*} (s : SpinState τ ι ε) (t : τ) (q : SpinPc ι ε) : SpinState τ ι ε :=
  { s with pc := update s.pc t q }

/-- One access of `t`, which runs on the processor `cpu`. `none` is the
access through a null pointer. -/
def exec (cpu : κ) (s : SpinState τ ι (SpinEntry κ)) (t : τ) (index : Fin spinLimitAlign) :
    Option (SpinState τ ι (SpinEntry κ)) :=
  match s.pc t with
  | .idle => some s
  | .alloc l =>
    if s.use (cpu, index) then some s
    else some { s.goto t (.storeNext l (cpu, index)) with use := update s.use (cpu, index) true }
  | .storeNext l e => some { s.goto t (.storeState l e) with next := update s.next e none }
  | .storeState l e => some { s.goto t (.exchange l e) with state := update s.state e true }
  | .exchange l e =>
    some { s.goto t (.exchanged l e (s.tail l)) with
      tail := update s.tail l (some e)
      arrivals := update s.arrivals l (s.arrivals l ++ [(t, e)]) }
  | .link l e cur => some { s.goto t (.spin l e) with next := update s.next cur (some e) }
  | .spin l e => some (if s.state e then s else s.goto t (.storeLast l e))
  | .storeLast l e =>
    some { s.goto t .idle with
      last := update s.last l (some e)
      holds := update s.holds l (update (s.holds l) t true)
      acquired := update s.acquired l (s.acquired l ++ [(t, e)]) }
  | .loadLast l => (s.last l).map fun e => s.goto t (.casTail l e)
  | .casTail l e =>
    if s.tail l = some e then
      some { s.goto t (.release l e) with
        tail := update s.tail l none
        holds := update s.holds l (update (s.holds l) t false) }
    else some (s.goto t (.loadNext l e))
  | .loadNext l e =>
    match s.next e with
    | none => some s
    | some p => some (s.goto t (.handOver l e p))
  | .handOver l e p =>
    some { s.goto t (.release l e) with
      state := update s.state p false
      holds := update s.holds l (update (s.holds l) t false) }
  | .release _ e => some { s.goto t .idle with use := update s.use e false }

/-- What happens when `t` does `a`; `unlock` is called by the holder only.
`none` is a step that is not allowed. -/
def apply (cpu : τ → κ) (s : SpinState τ ι (SpinEntry κ)) :
    τ × SpinAct ι → Option (SpinState τ ι (SpinEntry κ))
  | (t, .lock l) => if s.pc t = .idle then some (s.goto t (.alloc l)) else none
  | (t, .unlock l) =>
    if s.pc t = .idle ∧ s.holds l t then some (s.goto t (.loadLast l)) else none
  | (t, .run index) => s.exec (cpu t) t index

/-- No lock is held and no entry is in use. -/
def initial {ε : Type*} (next : ε → Option ε) (state : ε → Bool) : SpinState τ ι ε where
  pc _ := .idle
  next := next
  state := state
  use _ := false
  tail _ := none
  last _ := none
  holds _ _ := false
  arrivals _ := []
  acquired _ := []

end SpinState

/-- The interleavings of any number of contexts on any number of locks. -/
def spinMachine {κ τ ι : Type*} [DecidableEq κ] [DecidableEq τ] [DecidableEq ι] (cpu : τ → κ) :
    Machine (SpinState τ ι (SpinEntry κ)) (τ × SpinAct ι) where
  init s := ∃ next state, s = .initial next state
  step s a t := s.apply cpu a = some t

end ShmDos64
