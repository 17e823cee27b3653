import ShmDos64.Common.Chain
import ShmDos64.Common.LinkedQueue
import ShmDos64.Common.Run
/-!
# The interrupt queue

`InterruptQueuePrivate` is a queue of items for the consumers of interrupt
messages, in a fixed array of nodes. Nodes come from the end of what has been
used of the array, or from a chain of free nodes that uses the `m_next` links
of the queue. `push` and `pop` do all this under `m_spin`; here are the parts
of their critical sections that deal with items.
-/

namespace ShmDos64

open Function (update)

/-- `InterruptQueuePrivate`, without the consumers that wait; a node is its
index in `m_nodes`. -/
structure InterruptQueue (ι : Type*) where
  next : ℕ → Option ℕ
  prev : ℕ → Option ℕ
  item : ℕ → ι
  size : ℕ
  used : ℕ
  free : Option ℕ
  head : Option ℕ
  tail : Option ℕ

namespace InterruptQueue

variable {ι : Type*}

/-- The constructor; what the items of `m_nodes` hold at first is never
read. -/
def new (size : ℕ) (item : ℕ → ι) : InterruptQueue ι where
  next _ := none
  prev _ := none
  item := item
  size := size
  used := 0
  free := none
  head := none
  tail := none

section

variable (q : InterruptQueue ι)

/-- `push`: a node for the item, if there is one. -/
def newNode : Option (ℕ × InterruptQueue ι) :=
  match q.free with
  | some node => some (node, { q with free := q.next node })
  | none => if q.used = q.size then none else some (q.used, { q with used := q.used + 1 })

/-- `push`: the node at the tail. -/
def append (node : ℕ) (item : ι) : InterruptQueue ι :=
  let next := update q.next node none
  let q' :=
    match q.tail with
    | some tail => { q with next := update next tail (some node) }
    | none => { q with next := next, head := some node }
  { q' with prev := update q.prev node q.tail, item := update q.item node item, tail := some node }

/-- The critical section of `push`, for the items; `none` when it returns
false. -/
def push (item : ι) : Option (InterruptQueue ι) :=
  q.newNode.map fun r => r.2.append r.1 item

/-- The critical section of `pop`, for the items; `none` when there is
none. -/
def pop : Option (ι × InterruptQueue ι) :=
  q.head.map fun node =>
    let head := q.next node
    let q' :=
      match head with
      | some head => { q with head := some head, prev := update q.prev head none }
      | none => { q with head := none, tail := none }
    (q.item node, { q' with next := update q.next node q.free, free := some node })

end

end InterruptQueue

/-- A critical section of a queue. -/
inductive QueueOp (ι : Type*) where
  | push (item : ι)
  | pop

/-- What it returns. -/
inductive QueueResult (ι : Type*) where
  | pushed (ok : Bool)
  /-- `none`: `pop` finds no item. -/
  | popped (item : Option ι)

namespace InterruptQueue

variable {ι : Type*}

def apply (q : InterruptQueue ι) : QueueOp ι → QueueResult ι × InterruptQueue ι
  | .push item =>
    match q.push item with
    | some q' => (.pushed true, q')
    | none => (.pushed false, q)
  | .pop =>
    match q.pop with
    | some (item, q') => (.popped (some item), q')
    | none => (.popped none, q)

/-- The results of a sequence of critical sections, and the queue after
it. -/
def run : List (QueueOp ι) → InterruptQueue ι → List (QueueResult ι) × InterruptQueue ι
  | [], q => ([], q)
  | op :: ops, q => (((q.apply op).1 :: (run ops (q.apply op).2).1), (run ops (q.apply op).2).2)

end InterruptQueue

/-! ## What the queue is for -/

/-- A bounded queue, of at most `n` items. -/
def fifo {ι : Type*} (n : ℕ) (items : List ι) : QueueOp ι → QueueResult ι × List ι
  | .push item =>
    if items.length = n then (.pushed false, items) else (.pushed true, items ++ [item])
  | .pop =>
    match items with
    | [] => (.popped none, [])
    | item :: items => (.popped (some item), items)

def fifoRun {ι : Type*} (n : ℕ) : List (QueueOp ι) → List ι → List (QueueResult ι) × List ι
  | [], items => ([], items)
  | op :: ops, items =>
    ((fifo n items op).1 :: (fifoRun n ops (fifo n items op).2).1,
      (fifoRun n ops (fifo n items op).2).2)

namespace InterruptQueue

variable {ι : Type*} {q q' : InterruptQueue ι} {items : List ι}

/-- The queue holds the items: the nodes in use are those queued, which hold
the items, and those of the free chain. -/
structure Spells (q : InterruptQueue ι) (queued free : List ℕ) (items : List ι) : Prop where
  queue : LinkedQueue q.next q.prev q.head q.tail queued
  chain : Chain q.next q.free free
  nodup : (queued ++ free).Nodup
  lt : ∀ node ∈ queued ++ free, node < q.used
  length : queued.length + free.length = q.used
  used_le : q.used ≤ q.size
  items : queued.map q.item = items

/-- The queue holds the items, in some nodes. -/
def Holds (q : InterruptQueue ι) (items : List ι) : Prop :=
  ∃ queued free, q.Spells queued free items

theorem new_holds (size : ℕ) (item : ℕ → ι) : (new size item).Holds [] :=
  ⟨[], [], .nil, .nil, List.nodup_nil, nofun, rfl, Nat.zero_le _, rfl⟩

end InterruptQueue

end ShmDos64
