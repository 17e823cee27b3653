import Mathlib.Tactic
/-!
# How often a point is taken

The members of a list each take some of the points. The members are disjoint
when no point is taken twice, so that disjointness and unions of the members can
be followed through changes of the list by counting.
-/

namespace ShmDos64

variable {β ι : Type*} {has : β → ι → Bool} {l m : List β} {b c : β} {i : ℕ} {x : ι}

/-- How many members of the list take the point. -/
def occupancy (has : β → ι → Bool) (l : List β) (x : ι) : ℕ := l.countP fun b => has b x

theorem occupancy_nil : occupancy has [] x = 0 :=
  rfl

theorem occupancy_append :
    occupancy has (l ++ m) x = occupancy has l x + occupancy has m x :=
  List.countP_append

theorem occupancy_cons :
    occupancy has (b :: l) x = occupancy has l x + if has b x then 1 else 0 :=
  List.countP_cons

theorem occupancy_singleton : occupancy has [b] x = if has b x then 1 else 0 := by
  rw [occupancy_cons, occupancy_nil, Nat.zero_add]

/-- A member is replaced. -/
theorem occupancy_set (has : β → ι → Bool) (h : l[i]? = some b) (c : β) (x : ι) :
    occupancy has (l.set i c) x + (if has b x then 1 else 0) =
      occupancy has l x + if has c x then 1 else 0 := by
  obtain ⟨hi, rfl⟩ := List.getElem?_eq_some_iff.mp h
  rw [occupancy, List.countP_set hi]
  split
  next hb =>
    have hpos : 0 < l.countP fun b => has b x :=
      List.countP_pos_iff.mpr ⟨l[i], List.getElem_mem hi, hb⟩
    rw [occupancy]
    omega
  next => rfl

theorem occupancy_pos_iff : 0 < occupancy has l x ↔ ∃ b ∈ l, has b x = true :=
  List.countP_pos_iff

theorem occupancy_eq_zero_iff : occupancy has l x = 0 ↔ ∀ b ∈ l, ¬ has b x = true :=
  List.countP_eq_zero

/-- **Disjoint members**: no point is taken twice. -/
theorem pairwise_iff_occupancy_le_one :
    l.Pairwise (fun b c => ∀ x, ¬ (has b x = true ∧ has c x = true)) ↔
      ∀ x, occupancy has l x ≤ 1 := by
  induction l with
  | nil => simp [occupancy]
  | cons b l ih =>
    rw [List.pairwise_cons, ih]
    constructor
    · rintro ⟨hb, hl⟩ x
      rw [occupancy_cons]
      split
      next hx =>
        have : occupancy has l x = 0 :=
          occupancy_eq_zero_iff.mpr fun c hc hcx => hb c hc x ⟨hx, hcx⟩
        omega
      next => exact hl x
    · intro h
      refine ⟨fun c hc x hx => ?_, fun x => ?_⟩
      · have hle := h x
        have hpos : 0 < occupancy has l x := occupancy_pos_iff.mpr ⟨c, hc, hx.2⟩
        rw [occupancy_cons, if_pos hx.1] at hle
        omega
      · have hle := h x
        rw [occupancy_cons] at hle
        omega

/-- Members that take nothing can be left out. -/
theorem occupancy_filter {p : β → Bool} (h : ∀ b, p b = false → has b x = false) :
    occupancy has (l.filter p) x = occupancy has l x := by
  rw [occupancy, List.countP_filter]
  refine List.countP_congr fun b _ => ?_
  cases hp : p b with
  | true => simp
  | false => simp [h b hp]

end ShmDos64
