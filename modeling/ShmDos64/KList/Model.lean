import ShmDos64.Common.Run
/-!
# `klist`

The linked list of `klist.h`: nodes are carved out of areas the list
allocates, and a node that is removed goes to a free list threaded through
the same `next` field. Several lists share the memory, so that `swap` is
an exchange of their fields.
-/

namespace ShmDos64

open Function (update)

/-- `m_default_base_size`. -/
abbrev klistBaseSize : ℕ := 0x10

/-- `m_default_max_size`. -/
abbrev klistMaxSize : ℕ := 0x100000

/-- The nodes' memory, `_node_item` by its fields. Addresses count nodes,
as the source's pointer arithmetic does; `item` is `none` where no object
lives. -/
structure NodeMem (T : Type*) where
  item : ℕ → Option T
  next : ℕ → ℕ
  prev : ℕ → ℕ

namespace NodeMem

variable {T : Type*}

def setItem (m : NodeMem T) (p : ℕ) (x : Option T) : NodeMem T :=
  { m with item := update m.item p x }

def setNext (m : NodeMem T) (p q : ℕ) : NodeMem T := { m with next := update m.next p q }

def setPrev (m : NodeMem T) (p q : ℕ) : NodeMem T := { m with prev := update m.prev p q }

/-- The loop of `_add_free_region`, with the nodes left after `it`. -/
def linkRegion (m : NodeMem T) (it : ℕ) : ℕ → NodeMem T
  | 0 => m.setNext it 0
  | n + 1 => linkRegion (m.setNext it (it + 1)) (it + 1) n

/-- The areas are released: what their nodes hold is not the list's any
more. -/
def release (m : NodeMem T) (areas : List (ℕ × ℕ)) (junk : NodeMem T) : NodeMem T :=
  let gone := fun a => areas.any fun ar => decide (ar.1 ≤ a ∧ a < ar.1 + ar.2)
  { item := fun a => if gone a then none else m.item a
    next := fun a => if gone a then junk.next a else m.next a
    prev := fun a => if gone a then junk.prev a else m.prev a }

end NodeMem

/-- The fields of `klist`. `allocAreas` has the address and the number of
nodes of each area; `m_end_item_ret` is always null. -/
structure KList where
  allocAreas : List (ℕ × ℕ)
  freeList : ℕ
  beginItem : ℕ
  endItem : ℕ
  curArSize : ℕ
  maxSize : ℕ
  deriving DecidableEq, Repr

namespace KList

variable {T : Type*}

/-- `_init`. -/
def init (k : KList) : KList :=
  { k with curArSize := klistBaseSize, maxSize := klistMaxSize, beginItem := 0, endItem := 0 }

/-- The constructor. -/
def constructed : KList := init ⟨[], 0, 0, 0, 0, 0⟩

/-- The nodes of the areas. -/
def nodes (k : KList) : List ℕ := k.allocAreas.flatMap fun ar => List.range' ar.1 ar.2

section

variable (m : NodeMem T) (k : KList)

/-- `_add_free_region`; `ar` is what `new[]` returns. -/
def addFreeRegion (ar arSize : ℕ) : NodeMem T × KList :=
  (m.linkRegion ar (arSize - 1),
    { k with freeList := ar, allocAreas := k.allocAreas ++ [(ar, k.curArSize)] })

/-- `m_cur_ar_size` after an area is added. -/
def grow (k : KList) : KList :=
  if k.curArSize < k.maxSize then
    { k with curArSize := if k.maxSize < k.curArSize * 2 then k.maxSize else k.curArSize * 2 }
  else k

/-- `_alloc_item`. -/
def allocItem (ar : ℕ) : ℕ × NodeMem T × KList :=
  let r := if k.freeList = 0 then
      let r := k.addFreeRegion m ar k.curArSize
      (r.1, r.2.grow)
    else (m, k)
  (r.2.freeList, r.1, { r.2 with freeList := r.1.next r.2.freeList })

/-- `_append_node`. -/
def appendNode (pitem : ℕ) : NodeMem T × KList :=
  if k.endItem = 0 then
    ((m.setPrev pitem 0).setNext pitem 0, { k with endItem := pitem, beginItem := pitem })
  else
    (((m.setNext pitem 0).setPrev pitem k.endItem).setNext k.endItem pitem,
      { k with endItem := pitem })

/-- `push_back`, and `emplace_back` with the object built in place. -/
def pushBack (x : T) (ar : ℕ) : NodeMem T × KList :=
  let r := k.allocItem m ar
  r.2.2.appendNode (r.2.1.setItem r.1 (some x)) r.1

/-- `erase`, with the iterator it returns. The argument is a reference:
`atEnd` is set when it refers to `m_end_item` itself, which `push_back`
returns. `none` is an access through a null link or to a dead object. -/
def erase (cur : ℕ) (atEnd : Bool) :
    Option (ℕ × NodeMem T × KList) :=
  if (m.item cur).isNone then none
  else
    let m := m.setItem cur none
    let next := m.next cur
    let m := m.setNext cur k.freeList
    let k := { k with freeList := cur }
    let k := if k.endItem = cur then { k with endItem := m.prev cur } else k
    let it := if atEnd then k.endItem else cur
    if it = k.beginItem then some (next, m, { k with beginItem := next })
    else
      let prev := m.prev cur
      if prev = 0 then none
      else
        let m := m.setNext prev next
        some (next, if next ≠ 0 then m.setPrev next prev else m, k)

/-- `pop_front`. -/
def popFront : Option (NodeMem T × KList) :=
  let cur := k.beginItem
  if (m.item cur).isNone then none
  else
    let m := m.setItem cur none
    let next := m.next cur
    let m := m.setNext cur k.freeList
    let k := { k with freeList := cur }
    let k := if k.endItem = cur then { k with endItem := 0 } else k
    some (m, { k with beginItem := next })

/-- `clear`. -/
def clear (junk : NodeMem T) : NodeMem T × KList :=
  (m.release k.allocAreas junk, { k with allocAreas := [] }.init)

end

/-- The loop of `clear_no_free`, for as many rounds. -/
def clearNoFree : ℕ → ℕ → NodeMem T → KList → Option (NodeMem T × KList)
  | 0, it, m, k => if it = 0 then some (m, k) else none
  | n + 1, it, m, k =>
    if it = 0 then some (m, k)
    else (k.erase m it false).bind fun r => clearNoFree n r.1 r.2.1 r.2.2

/-- The loop of `remove_first`, for as many rounds. -/
def removeFirst [BEq T] (x : T) (m : NodeMem T) (k : KList) :
    ℕ → ℕ → Option (Bool × NodeMem T × KList)
  | 0, it => if it = 0 then some (false, m, k) else none
  | n + 1, it =>
    if it = 0 then some (false, m, k)
    else (m.item it).bind fun y =>
      if y == x then (k.erase m it false).map fun r => (true, r.2)
      else removeFirst x m k n (m.next it)

/-- What a loop from `it` to `end()` visits, in as many rounds. -/
def iterate (m : NodeMem T) : ℕ → ℕ → Option (List T)
  | 0, it => if it = 0 then some [] else none
  | n + 1, it =>
    if it = 0 then some []
    else (m.item it).bind fun y => (iterate m n (m.next it)).map (y :: ·)

/-- `begin() == end()`. -/
def empty (k : KList) : Bool := k.beginItem = 0

end KList

/-! ## Runs -/

/-- The lists and their memory. -/
structure KListState (ι T : Type*) where
  mem : NodeMem T
  lists : ι → KList

/-- The calls on the lists; `ar` is the area `new[]` returns if the call
needs one, and `junk` what released memory holds. -/
inductive KListCall (ι T : Type*) where
  | pushBack (i : ι) (x : T) (ar : ℕ)
  /-- `erase(it)` with the iterator that many steps past `begin()`. -/
  | erase (i : ι) (n : ℕ)
  /-- `erase` of the reference `push_back` returned. -/
  | eraseEnd (i : ι)
  | popFront (i : ι)
  | removeFirst (i : ι) (x : T)
  | clearNoFree (i : ι)
  | clear (i : ι) (junk : NodeMem T)
  | swap (i j : ι)

namespace KListState

variable {ι T : Type*} [DecidableEq ι] [BEq T]

def set (s : KListState ι T) (i : ι) (r : NodeMem T × KList) : KListState ι T :=
  ⟨r.1, update s.lists i r.2⟩

/-- What a call does. -/
def call (s : KListState ι T) : KListCall ι T → Option (KListState ι T)
  | .pushBack i x ar => some (s.set i ((s.lists i).pushBack s.mem x ar))
  | .erase i n =>
    ((s.lists i).erase s.mem (s.mem.next^[n] (s.lists i).beginItem) false).map fun r => s.set i r.2
  | .eraseEnd i => ((s.lists i).erase s.mem (s.lists i).endItem true).map fun r => s.set i r.2
  | .popFront i => ((s.lists i).popFront s.mem).map (s.set i)
  | .removeFirst i x =>
    (KList.removeFirst x s.mem (s.lists i) (s.lists i).nodes.length (s.lists i).beginItem).map
      fun r => s.set i r.2
  | .clearNoFree i =>
    (KList.clearNoFree (s.lists i).nodes.length (s.lists i).beginItem s.mem (s.lists i)).map
      (s.set i)
  | .clear i junk => some (s.set i ((s.lists i).clear s.mem junk))
  | .swap i j => some { s with lists := s.lists ∘ Equiv.swap i j }

/-- The area is memory no list has. -/
def Fresh (s : KListState ι T) (ar size : ℕ) : Prop :=
  ar ≠ 0 ∧ ∀ j, ∀ a ∈ (s.lists j).nodes, a < ar ∨ ar + size ≤ a

end KListState

/-- What the calls do to the sequences the lists stand for. -/
def klistModel {ι T : Type*} [DecidableEq ι] [BEq T] (xs : ι → List T) :
    KListCall ι T → ι → List T
  | .pushBack i x _ => update xs i (xs i ++ [x])
  | .erase i n => update xs i ((xs i).eraseIdx n)
  | .eraseEnd i => update xs i (xs i).dropLast
  | .popFront i => update xs i (xs i).tail
  | .removeFirst i x => update xs i ((xs i).eraseP (· == x))
  | .clearNoFree i => update xs i []
  | .clear i _ => update xs i []
  | .swap i j => xs ∘ Equiv.swap i j

/-- The calls a run may make: valid positions, no `pop_front` of an empty
list. -/
def KListState.Allowed {ι T : Type*} (s : KListState ι T) (xs : ι → List T) :
    KListCall ι T → Prop
  | .pushBack i _ ar => (s.lists i).freeList = 0 → s.Fresh ar (s.lists i).curArSize
  | .erase i n => n < (xs i).length
  | .eraseEnd i => xs i ≠ []
  | .popFront i => xs i ≠ []
  | _ => True

/-- The lists beside the sequences they stand for. -/
def klistMachine (ι T : Type*) [DecidableEq ι] [BEq T] :
    Machine (KListState ι T × (ι → List T)) (KListCall ι T) where
  init s := (∀ i, s.1.lists i = .constructed) ∧ ∀ i, s.2 i = []
  step s c t := s.1.Allowed s.2 c ∧ s.1.call c = some t.1 ∧ t.2 = klistModel s.2 c

end ShmDos64
