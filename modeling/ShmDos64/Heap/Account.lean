import ShmDos64.Heap.Runs
/-!
# The count of virtual memory

`allocNew` and `allocHuge` add what they ask the memory manager for to
`m_virtualMemorySize`; `free` subtracts the distance of a unit's first
and last headers. For a huge region the two differ by what rounding up to
pages has added, so the count is right in the runs that give back only
huge regions which fill their pages.
-/

namespace ShmDos64

/-- The call gives back no huge region that leaves bytes of its last page
unused. -/
def HeapState.Tight (s : HeapState) : HeapCall → Prop
  | .alloc _ _ _ => True
  | .free ptr _ => ∀ b ∈ s.live, b.ptr = ptr → Heap.Tight b.size
  | .write _ => True

namespace Books

variable {s : HeapState} {U : List HeapUnit} {B : ℕ → List ℕ} {c : HeapCall}

/-- **A tight call keeps the books balanced.** -/
theorem call (h : HeapInv s U B) (hs : Books s U) (hc : s.Allowed c) (htight : s.Tight c) :
    ∃ U' B', HeapInv (s.call c) U' B' ∧ Books (s.call c) U' := by
  cases c with
  | alloc size unit junk =>
    obtain ⟨U', B', hinv, hbooks⟩ := h.alloc hc
    exact ⟨U', B', hinv, hbooks hs⟩
  | free ptr junk =>
    obtain ⟨U', B', hinv, -, hbooks⟩ := h.free hc
    exact ⟨U', B', hinv, hbooks htight hs⟩
  | write mem => exact ⟨U, B, h.write hc, hs.full, hs.used, hs.total, hs.blocks⟩

theorem reachable (h : (heapMachine.guard HeapState.Tight).Reachable s) :
    ∃ U B, HeapInv s U B ∧ Books s U := by
  refine h.invariant (I := fun s => ∃ U B, HeapInv s U B ∧ Books s U) (fun s hs => ?_) ?_
  · refine ⟨[], _, HeapInv.init hs, by simp, by simp, ?_, ?_⟩
    · simpa using hs.2.1
    · simp [hs.2.2.2]
  · rintro s c t ⟨U, B, hinv, hs⟩ ⟨htight, hc, rfl⟩
    exact hs.call hinv hc htight

/-- The units are in the address space, so their sizes add up without a
carry. -/
theorem sum_units (h : HeapInv s U B) (hs : Books s U) :
    s.heap.virtualMemorySize = (s.units.map Span.size).sum := by
  have hsum : (U.map HeapUnit.bytes).sum = ((U.map HeapUnit.span).map Span.size).sum := by
    rw [List.map_map]
    rfl
  have hlt : ((U.map HeapUnit.span).map Span.size).sum < 2 ^ 64 := by
    refine sum_size_lt (List.pairwise_map.mpr h.disjoint) ?_ ?_ (by simp)
    · rintro r hr
      obtain ⟨u, hu, rfl⟩ := List.mem_map.mp hr
      exact (h.ok u hu).bound
    · rintro r hr
      obtain ⟨u, hu, rfl⟩ := List.mem_map.mp hr
      exact (h.ok u hu).pos
  rw [(h.units.map _).sum_nat, hs.total, hsum, Nat.mod_eq_of_lt hlt]

/-- A unit has a busy region, and so a block. -/
theorem eq_nil (hs : Books s U) (hlive : s.live = []) : U = [] := by
  refine List.eq_nil_iff_forall_not_mem.mpr fun u hu => ?_
  have hused := hs.used u hu
  have hle := List.le_sum_of_mem (List.mem_map_of_mem
    (f := fun u : HeapUnit => u.regions.countP HeapRegion.busy) hu)
  rw [hs.blocks, hlive, List.length_nil] at hle
  omega

end Books

/-- **`m_virtualMemorySize` is what the heap holds**, in every run that
gives back only huge regions which fill their pages, and null again when there is no block. -/
theorem heap_size_balances {s : HeapState}
    (h : (heapMachine.guard HeapState.Tight).Reachable s) :
    s.heap.virtualMemorySize = (s.units.map Span.size).sum ∧
      (s.live = [] → s.heap.virtualMemorySize = 0) := by
  obtain ⟨U, B, hinv, hs⟩ := Books.reachable h
  refine ⟨hs.sum_units hinv, fun hlive => ?_⟩
  rw [hs.total, hs.eq_nil hlive]
  rfl

/-- A huge region that fills its pages is given back. -/
theorem heap_size_balances_firstBlock : ∃ s t : HeapState,
    (heapMachine.guard HeapState.Tight).Reachable s ∧
    (heapMachine.guard HeapState.Tight).Reachable t ∧
    t = s.call (.free 0x1020 emptyHeap.heap.toHeaderMem) ∧
    s.heap.virtualMemorySize = 0x101000 ∧ s.heap.virtualMemorySize = (s.units.map Span.size).sum ∧
    t.heap.virtualMemorySize = 0 := by
  have hunit : emptyHeap.heap.unitBytes 0x100FC0 = some 0x101000 := by decide +kernel
  have hany : emptyHeap.Tight (.alloc 0x100FC0 (some 0x1000) emptyHeap.heap.toHeaderMem) := trivial
  have h₁ : (heapMachine.guard HeapState.Tight).Reachable (firstBlock 0x100FC0) :=
    .step (.init ⟨fun _ => rfl, rfl, rfl, rfl⟩)
      ⟨hany, allowed_firstBlock (by decide) (by decide) hunit (by decide), rfl⟩
  have hc : (firstBlock 0x100FC0).Allowed (.free 0x1020 emptyHeap.heap.toHeaderMem) :=
    ⟨⟨0x1020, 0x100FC0⟩, by decide +kernel, by rfl⟩
  have hlive : (firstBlock 0x100FC0).live = [⟨0x1020, 0x100FC0⟩] := by decide +kernel
  have hfree : (firstBlock 0x100FC0).Tight (.free 0x1020 emptyHeap.heap.toHeaderMem) := by
    rintro b hb -
    rw [hlive, List.mem_singleton] at hb
    subst hb
    exact fun _ => by decide
  have h₂ := Machine.Reachable.step h₁ ⟨hfree, hc, rfl⟩
  exact ⟨_, _, h₁, h₂, rfl, by decide +kernel, (heap_size_balances h₁).1,
    (heap_size_balances h₂).2 (by decide +kernel)⟩

/-- **A huge region that does not is never quite given back**: `alloc` of
`0x100000` bytes takes `0x101000` bytes of virtual memory, and `free`
subtracts `0x100040`. -/
theorem heap_size_leaks : ∃ s, heapMachine.Reachable s ∧ s.live = [] ∧ s.units = [] ∧
    s.heap.virtualMemorySize = 0xFC0 := by
  have hunit : emptyHeap.heap.unitBytes 0x100000 = some 0x101000 := by decide +kernel
  have h₁ : heapMachine.Reachable (firstBlock 0x100000) :=
    .step (.init ⟨fun _ => rfl, rfl, rfl, rfl⟩)
      ⟨allowed_firstBlock (by decide) (by decide) hunit (by decide), rfl⟩
  have hc : (firstBlock 0x100000).Allowed (.free 0x1020 emptyHeap.heap.toHeaderMem) :=
    ⟨⟨0x1020, 0x100000⟩, by decide +kernel, by rfl⟩
  have h₂ := h₁.step ⟨hc, rfl⟩
  exact ⟨_, h₂, by decide +kernel, by decide +kernel, by decide +kernel⟩

end ShmDos64
