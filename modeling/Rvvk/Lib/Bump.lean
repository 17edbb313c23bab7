/-!
# Bump allocation

A bump allocator keeps one pointer. A piece begins where the pointer stands, and
the pointer then moves up by the room the piece takes, which may be rounded.
Nothing here names a particular program.
-/

namespace Bump

variable {room : Nat → Nat} {base ptr : Nat} {pieces : List (Nat × Nat)}

/-- The pieces, oldest first and each an address and a size, handed out from `base`
on until the pointer has reached `ptr`. -/
inductive Placed (room : Nat → Nat) (base : Nat) : List (Nat × Nat) → Nat → Prop
  | nil : Placed room base [] base
  | snoc {pieces : List (Nat × Nat)} {ptr : Nat} (h : Placed room base pieces ptr) (n : Nat) :
      Placed room base (pieces ++ [(ptr, n)]) (ptr + room n)

theorem Placed.le (h : Placed room base pieces ptr) : base ≤ ptr := by
  induction h with
  | nil => exact Nat.le_refl _
  | snoc _ n ih => exact Nat.le_trans ih (Nat.le_add_right _ _)

/-- A piece lies between the base and the pointer, with its room. -/
theorem Placed.bounds (h : Placed room base pieces ptr) {p : Nat × Nat} (hp : p ∈ pieces) :
    base ≤ p.1 ∧ p.1 + room p.2 ≤ ptr := by
  induction h with
  | nil => cases hp
  | snoc h n ih =>
      rcases List.mem_append.mp hp with hp | hp
      · exact ⟨(ih hp).1, Nat.le_trans (ih hp).2 (Nat.le_add_right _ _)⟩
      · obtain rfl := List.mem_singleton.mp hp
        exact ⟨h.le, Nat.le_refl _⟩

theorem Placed.pairwise (hroom : ∀ n, n ≤ room n) (h : Placed room base pieces ptr) :
    pieces.Pairwise fun p q => p.1 + p.2 ≤ q.1 := by
  induction h with
  | nil => exact List.Pairwise.nil
  | snoc h n ih =>
      refine List.pairwise_append.mpr ⟨ih, List.pairwise_singleton _ _, fun p hp q hq => ?_⟩
      obtain rfl := List.mem_singleton.mp hq
      have hb := (h.bounds hp).2
      have hn := hroom p.2
      show p.1 + p.2 ≤ _
      omega

theorem Placed.aligned {d : Nat} (hroom : ∀ n, d ∣ room n) (hbase : d ∣ base)
    (h : Placed room base pieces ptr) : d ∣ ptr := by
  induction h with
  | nil => exact hbase
  | snoc _ n ih => exact Nat.dvd_add ih (hroom n)

end Bump
