import ShmDos64.Common.Buckets
import ShmDos64.Common.Run
/-!
# `kunordered_map`

The hash map of `kunordered_map.h` over the node pool of
`ContainerAllocator.h`. A node is on two lists: the chain of its bucket,
threaded through `m_next`, and the list an iterator walks, threaded
through `m_ext`. A node that is not in the map is on the pool's free list,
threaded through `m_next` too.
-/

namespace ShmDos64

open Function (update)

/-- The nodes' memory, `ContainerAllocator::Node` by its fields. Addresses
count nodes; `data` is `none` where no object lives. -/
structure MapMem (K V : Type*) where
  data : ℕ → Option (K × V)
  /-- `m_next`. -/
  next : ℕ → ℕ
  /-- `m_ext.m_prev`. -/
  extPrev : ℕ → ℕ
  /-- `m_ext.m_next`. -/
  extNext : ℕ → ℕ

/-- The fields of `kunordered_map` and of its `m_allocator`. The pool's
`m_chunk` is left out: nothing is ever put into it. -/
structure KUnorderedMap where
  tableSize : ℕ
  rehashSize : ℕ
  table : ℕ → ℕ
  begin : ℕ
  /-- `m_allocator.m_currentChunkSize`. -/
  currentChunkSize : ℕ
  /-- `m_allocator.m_freeList`. -/
  freeList : ℕ
  /-- `m_allocator.m_size`. -/
  size : ℕ

/-- `m_maxChunkSize`. -/
abbrev maxChunkSize : ℕ := 0x100000

namespace KUnorderedMap

/-- The members as both constructors set them up. -/
def ofTable (tableSize rehashSize : ℕ) : KUnorderedMap :=
  { tableSize, rehashSize, table := fun _ => 0, begin := 0
    currentChunkSize := 0x10, freeList := 0, size := 0 }

/-- `kunordered_map()`. -/
def default : KUnorderedMap := ofTable 16 8

/-- `kunordered_map(std::initializer_list)` on a list of `n` values, before
its loop, which does nothing but `emplace` them. -/
def ofList (n : ℕ) : KUnorderedMap := ofTable ((n + 1) * 2) ((n + 1) * 2 / 2)

end KUnorderedMap

/-- A map and its memory. `chunks` has the address and the number of nodes
of every array `operator new[]` has returned to the pool. -/
structure MapState (K V : Type*) where
  mem : MapMem K V
  map : KUnorderedMap
  chunks : List (ℕ × ℕ)

namespace MapState

variable {K V : Type*} [DecidableEq K] (hash : K → ℕ)

section

variable (s : MapState K V) (k : K)

/-- The nodes there are. A walk along links that visits more of them than
that does not end. -/
def nodes : List ℕ := s.chunks.flatMap fun ch => List.range' ch.1 ch.2

/-- `m_hash(key) % m_tableSize`. -/
def bucket : ℕ := hash k % s.map.tableSize

/-! ## The pool -/

/-- The branch of `ContainerAllocator::add` for an empty free list. -/
def addChunk (ch : ℕ) : MapState K V :=
  { mem := { s.mem with next := linkRange s.mem.next ch (s.map.currentChunkSize - 1) }
    map := { s.map with
      freeList := ch
      currentChunkSize :=
        if s.map.currentChunkSize < maxChunkSize then s.map.currentChunkSize * 2
        else s.map.currentChunkSize }
    chunks := (ch, s.map.currentChunkSize) :: s.chunks }

/-- `ContainerAllocator::add`; `ch` is what `operator new[]` returns if it
is called. -/
def add (ch : ℕ) : ℕ × MapState K V :=
  let s := if s.map.freeList = 0 then s.addChunk ch else s
  (s.map.freeList,
    { s with map := { s.map with
        freeList := s.mem.next s.map.freeList, size := s.map.size + 1 } })

/-- `ContainerAllocator::remove`. -/
def remove (node : ℕ) : MapState K V :=
  { s with
    mem := { s.mem with next := update s.mem.next node s.map.freeList }
    map := { s.map with freeList := node, size := s.map.size - 1 } }

/-! ## Look-up and insertion -/

/-- The loop of `find` and of `emplace` along a chain: the node with the
key, or null. `none` is the access to a dead object, or a walk that does
not end. -/
def findNode (m : MapMem K V) (k : K) : ℕ → ℕ → Option ℕ
  | 0, node => if node = 0 then some 0 else none
  | n + 1, node =>
    if node = 0 then some 0
    else (m.data node).bind fun kv => if kv.1 = k then some node else findNode m k n (m.next node)

/-- `find`: the iterator's node. -/
def find : Option ℕ :=
  findNode s.mem k s.nodes.length (s.map.table (s.bucket hash k))

/-- What `find` leads to: the value, or `end()`. -/
def lookup : Option (Option V) :=
  (s.find hash k).bind fun node =>
    if node = 0 then some none else (s.mem.data node).map fun kv => some kv.2

/-- The loop of `rehash`. -/
def rehashLoop (m : MapMem K V) (tableSize : ℕ) : ℕ → ℕ → (ℕ → ℕ) → Option (ℕ → ℕ)
  | 0, node, table => if node = 0 then some table else none
  | n + 1, node, table =>
    if node = 0 then some table
    else (m.data node).bind fun kv =>
      rehashLoop m tableSize n (m.next node) (update table (hash kv.1 % tableSize) node)

/-- `rehash`, with the two assignments before it. -/
def rehash : Option (MapState K V) :=
  (rehashLoop hash s.mem (s.map.tableSize * 2) s.nodes.length s.map.begin fun _ => 0).map
    fun table => { s with map := { s.map with
      rehashSize := s.map.tableSize, tableSize := s.map.tableSize * 2, table := table } }

/-- The end of `emplace`: a node is taken from the pool and put at the
head of the chain `h` and of the iteration list. -/
def insert (h : ℕ) (k : K) (v : V) (ch : ℕ) : ℕ × MapState K V :=
  let r := s.add ch
  let node := r.1
  let s := r.2
  (node,
    { s with
      mem := {
        data := update s.mem.data node (some (k, v))
        next := update s.mem.next node (s.map.table h)
        extNext := update s.mem.extNext node s.map.begin
        extPrev :=
          let extPrev := update s.mem.extPrev node 0
          if s.map.begin ≠ 0 then update extPrev s.map.begin node else extPrev }
      map := { s.map with table := update s.map.table h node, begin := node } })

/-- `curNode->m_data.second` is replaced. -/
def setValue (node : ℕ) (v : V) : MapState K V :=
  { s with mem := { s.mem with
    data := update s.mem.data node ((s.mem.data node).map fun kv => (kv.1, v)) } }

/-- `emplace`, with the node of the iterator it returns and whether it is
new. The index of the chain is computed before `rehash` and used after
it. -/
def emplace (v : V) (ch : ℕ) : Option ((ℕ × Bool) × MapState K V) :=
  let h := s.bucket hash k
  (findNode s.mem k s.nodes.length (s.map.table h)).bind fun curNode =>
    if curNode ≠ 0 then some ((curNode, false), s.setValue curNode v)
    else (if s.map.rehashSize ≤ s.map.size then s.rehash hash else some s).map fun s =>
      let r := s.insert h k v ch
      ((r.1, true), r.2)

/-- `operator[]`, with the node the reference leads to. -/
def index [Inhabited V] (s : MapState K V) (k : K) (ch : ℕ) : Option (ℕ × MapState K V) :=
  (s.find hash k).bind fun it =>
    if it ≠ 0 then some (it, s)
    else (s.emplace hash k Inhabited.default ch).map fun r => (r.1.1, r.2)

/-! ## Removal -/

/-- `removeFromExtList`; `none` is the access through a null link. -/
def removeFromExtList (node : ℕ) : Option (MapState K V) :=
  let next := s.mem.extNext node
  if node = s.map.begin then
    if next = 0 then none
    else some { s with
      mem := { s.mem with extPrev := update s.mem.extPrev next 0 }
      map := { s.map with begin := next } }
  else
    let prev := s.mem.extPrev node
    if prev = 0 ∨ next = 0 then none
    else some { s with mem := { s.mem with
      extNext := update s.mem.extNext prev next, extPrev := update s.mem.extPrev next prev } }

/-- The object of the node is destroyed. -/
def destroy (node : ℕ) : MapState K V :=
  { s with mem := { s.mem with data := update s.mem.data node none } }

/-- The loop of `erase(key)`: the node with the key, or null, and the one
before it in the chain, null if there is none. -/
def findPrev (m : MapMem K V) (k : K) : ℕ → ℕ → ℕ → Option (ℕ × ℕ)
  | 0, oldNode, node => if node = 0 then some (oldNode, 0) else none
  | n + 1, oldNode, node =>
    if node = 0 then some (oldNode, 0)
    else (m.data node).bind fun kv =>
      if kv.1 = k then some (oldNode, node) else findPrev m k n node (m.next node)

/-- `firstNode = nullptr`. -/
def clearBucket (h : ℕ) : MapState K V :=
  { s with map := { s.map with table := update s.map.table h 0 } }

/-- `erase(key)`, with the number of nodes it removes. -/
def erase : Option (ℕ × MapState K V) :=
  let h := s.bucket hash k
  (findPrev s.mem k s.nodes.length 0 (s.map.table h)).bind fun r =>
    if r.2 = 0 then some (0, s)
    else ((s.destroy r.2).removeFromExtList r.2).map fun s =>
      let s := if r.1 = 0 then s.clearBucket h
        else { s with mem := { s.mem with next := update s.mem.next r.1 (s.mem.next r.2) } }
      (1, s.remove r.2)

/-- The loop of `erase(it)` along a chain, from the node after `oldNode`:
the links it leaves. -/
def unlinkLoop (next : ℕ → ℕ) (target : ℕ) : ℕ → ℕ → ℕ → Option (ℕ → ℕ)
  | 0, _, node => if node = 0 then some next else none
  | n + 1, oldNode, node =>
    if node = 0 then some next
    else if node = target then some (update next oldNode (next node))
    else unlinkLoop next target n node (next node)

/-- `erase(it)` of the iterator to `node`, with the node of the iterator
it returns. The key is hashed when its object is destroyed: `stale` is
what its memory holds then. -/
def eraseIt (node : ℕ) (stale : K) : Option (ℕ × MapState K V) :=
  if (s.mem.data node).isNone then none
  else
    let ret := s.mem.extNext node
    ((s.destroy node).removeFromExtList node).bind fun s =>
      let h := s.bucket hash stale
      let firstNode := s.map.table h
      if firstNode = node then some (ret, (s.clearBucket h).remove node)
      else if firstNode = 0 then none
      else (unlinkLoop s.mem.next node s.nodes.length firstNode (s.mem.next firstNode)).map
        fun next => (ret, MapState.remove { s with mem := { s.mem with next := next } } node)

end

/-- What a loop from the iterator to `end()` visits, in as many rounds. -/
def iterate (m : MapMem K V) : ℕ → ℕ → Option (List (K × V))
  | 0, it => if it = 0 then some [] else none
  | n + 1, it =>
    if it = 0 then some []
    else (m.data it).bind fun kv => (iterate m n (m.extNext it)).map (kv :: ·)

end MapState

/-! ## Runs -/

/-- The calls that change a map; `ch` is the array `operator new[]`
returns if the call needs one. -/
inductive MapCall (K V : Type*) where
  | emplace (k : K) (v : V) (ch : ℕ)
  /-- `map[k]`. -/
  | index (k : K) (ch : ℕ)
  /-- `map[k] = v`. -/
  | assign (k : K) (v : V) (ch : ℕ)
  | erase (k : K)
  /-- `erase(find(k))`. -/
  | eraseIt (k : K) (stale : K)

namespace MapState

variable {K V : Type*} [DecidableEq K] [Inhabited V] (hash : K → ℕ)

/-- What a call does. -/
def call (s : MapState K V) : MapCall K V → Option (MapState K V)
  | .emplace k v ch => (s.emplace hash k v ch).map Prod.snd
  | .index k ch => (s.index hash k ch).map Prod.snd
  | .assign k v ch => (s.index hash k ch).map fun r => r.2.setValue r.1 v
  | .erase k => (s.erase hash k).map Prod.snd
  | .eraseIt k stale => (s.find hash k).bind fun it => (s.eraseIt hash it stale).map Prod.snd

/-- The array is memory the pool does not have. -/
def Fresh (s : MapState K V) (ch : ℕ) : Prop :=
  ch ≠ 0 ∧ ∀ a ∈ s.nodes, a < ch ∨ ch + s.map.currentChunkSize ≤ a

/-- `operator new[]` returns memory that is not in use, and the iterator
that is erased is not `end()`. -/
def Allowed (s : MapState K V) (f : K → Option V) : MapCall K V → Prop
  | .emplace _ _ ch | .index _ ch | .assign _ _ ch => s.map.freeList = 0 → s.Fresh ch
  | .erase _ => True
  | .eraseIt k _ => (f k).isSome

end MapState

/-- What the calls do to the function from keys to values that the map
stands for. -/
def mapModel {K V : Type*} [DecidableEq K] [Inhabited V] (f : K → Option V) :
    MapCall K V → K → Option V
  | .emplace k v _ | .assign k v _ => update f k (some v)
  | .index k _ => update f k (some ((f k).getD default))
  | .erase k | .eraseIt k _ => update f k none

/-- A map next to the function it stands for, from either constructor. -/
def mapMachine (K V : Type*) [DecidableEq K] [Inhabited V] (hash : K → ℕ) :
    Machine (MapState K V × (K → Option V)) (MapCall K V) where
  init s := (s.1.map = .default ∨ ∃ n, s.1.map = .ofList n) ∧ s.1.chunks = [] ∧
    (∀ a, s.1.mem.data a = none) ∧ ∀ k, s.2 k = none
  step s c t := s.1.Allowed s.2 c ∧ s.1.call hash c = some t.1 ∧ t.2 = mapModel s.2 c

end ShmDos64
