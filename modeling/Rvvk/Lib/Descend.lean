import Rvvk.Lib.Span

/-!
# Pieces that grow down

A stack that grows down puts each piece right below the one before. An address is
counted by its depth, the number of addresses between it and the top. Nothing here
names a particular program.
-/

namespace Descend

variable {w : Nat} {top a : BitVec w}

/-- The pieces of the given sizes, each an address and a size. The first ends at `top`. -/
def pieces (top : BitVec w) : List Nat → List (BitVec w × Nat)
  | [] => []
  | n :: ns => (top - BitVec.ofNat w n, n) :: pieces (top - BitVec.ofNat w n) ns

def bottom (top : BitVec w) (ns : List Nat) : BitVec w := top - BitVec.ofNat w ns.sum

def depth (top a : BitVec w) : Nat := (top - BitVec.ofNat w 1 - a).toNat

theorem depth_lt (top a : BitVec w) : depth top a < 2 ^ w := (top - BitVec.ofNat w 1 - a).isLt

/-- Words that agree modulo `2^w` differ by at most one turn. -/
theorem mod_eq_cases {m s n : Nat} (hs : s < 2 * m) (hn : n ≤ m) (h1 : 1 ≤ s)
    (h : s % m = n % m) : s = n ∨ s = n + m := by
  have hmod : n % m = if n = m then 0 else n := by
    split
    · rename_i he
      rw [he, Nat.mod_self]
    · rw [Nat.mod_eq_of_lt (by omega)]
  rcases Nat.lt_or_ge s m with hlt | hge
  · rw [Nat.mod_eq_of_lt hlt, hmod] at h
    split at h <;> omega
  · rw [Nat.mod_eq_sub_mod hge, Nat.mod_eq_of_lt (by omega), hmod] at h
    split at h <;> omega

/-- The `n` addresses below `top` are those of depth less than `n`. -/
theorem mem_below {n : Nat} (hn : n ≤ 2 ^ w) :
    Span.Mem (top - BitVec.ofNat w n) n a ↔ depth top a < n := by
  have h : a - (top - BitVec.ofNat w n) + (top - BitVec.ofNat w 1 - a) + BitVec.ofNat w 1 = BitVec.ofNat w n := by
    grind
  have hd := depth_lt top a
  have hx := (a - (top - BitVec.ofNat w n)).isLt
  unfold Span.Mem
  unfold depth at hd ⊢
  have hsum := congrArg BitVec.toNat h
  rw [BitVec.toNat_add, BitVec.toNat_add, Nat.mod_add_mod, BitVec.toNat_ofNat, Nat.add_mod_mod,
    BitVec.toNat_ofNat] at hsum
  rcases mod_eq_cases (by omega) hn (by omega) hsum with he | he <;> omega

theorem depth_below (top a : BitVec w) {n : Nat} (hn : n ≤ 2 ^ w) :
    depth top a = depth (top - BitVec.ofNat w n) a + n ∨
      depth top a + 2 ^ w = depth (top - BitVec.ofNat w n) a + n := by
  have h : top - BitVec.ofNat w n - BitVec.ofNat w 1 - a + BitVec.ofNat w n = top - BitVec.ofNat w 1 - a := by grind
  have hd := depth_lt top a
  have hd' := depth_lt (top - BitVec.ofNat w n) a
  unfold depth at hd hd' ⊢
  have hsum := congrArg BitVec.toNat h
  rw [BitVec.toNat_add, BitVec.toNat_ofNat, Nat.add_mod_mod] at hsum
  rcases Nat.lt_or_ge ((top - BitVec.ofNat w n - BitVec.ofNat w 1 - a).toNat + n) (2 ^ w) with hlt | hge
  · rw [Nat.mod_eq_of_lt hlt] at hsum
    exact .inl hsum.symm
  · rw [Nat.mod_eq_sub_mod hge] at hsum
    rcases Nat.lt_or_ge ((top - BitVec.ofNat w n - BitVec.ofNat w 1 - a).toNat + n - 2 ^ w) (2 ^ w) with h1 | h1
    · rw [Nat.mod_eq_of_lt h1] at hsum
      exact .inr (by omega)
    · omega

theorem bottom_cons (top : BitVec w) (n : Nat) (ns : List Nat) :
    bottom (top - BitVec.ofNat w n) ns = bottom top (n :: ns) := by
  unfold bottom
  rw [List.sum_cons, BitVec.ofNat_add]
  grind

theorem pieces_append (top : BitVec w) (ns ns' : List Nat) :
    pieces top (ns ++ ns') = pieces top ns ++ pieces (bottom top ns) ns' := by
  induction ns generalizing top with
  | nil => simp [pieces, bottom]
  | cons n ns ih => rw [List.cons_append, pieces, ih, bottom_cons, pieces, List.cons_append]

theorem size_le_sum {ns : List Nat} {p : BitVec w × Nat} (hp : p ∈ pieces top ns) :
    p.2 ≤ ns.sum := by
  induction ns generalizing top with
  | nil => cases hp
  | cons n ns ih =>
      rw [List.sum_cons]
      rcases List.mem_cons.mp hp with rfl | hp
      · exact Nat.le_add_right _ _
      · exact Nat.le_trans (ih hp) (Nat.le_add_left _ _)

theorem depth_of_mem {ns : List Nat} (hs : ns.sum ≤ 2 ^ w) {p : BitVec w × Nat}
    (hp : p ∈ pieces top ns) (ha : Span.Mem p.1 p.2 a) : depth top a < ns.sum := by
  induction ns generalizing top with
  | nil => cases hp
  | cons n ns ih =>
      rw [List.sum_cons] at hs ⊢
      rcases List.mem_cons.mp hp with rfl | hp
      · have hd := (mem_below (by omega)).mp ha
        omega
      · have hd := ih (by omega) hp
        rcases depth_below top a (show n ≤ 2 ^ w by omega) with he | he <;> omega

theorem pieces_pairwise (top : BitVec w) {ns : List Nat} (hs : ns.sum ≤ 2 ^ w) :
    (pieces top ns).Pairwise fun p q => Span.Disjoint p.1 p.2 q.1 q.2 := by
  induction ns generalizing top with
  | nil => exact List.Pairwise.nil
  | cons n ns ih =>
      rw [List.sum_cons] at hs
      refine List.pairwise_cons.mpr ⟨fun q hq a h1 h2 => ?_, ih _ (by omega)⟩
      have hd := (mem_below (by omega)).mp h1
      have hd' := depth_of_mem (by omega) hq h2
      have hlt := depth_lt top a
      rcases depth_below top a (show n ≤ 2 ^ w by omega) with he | he <;> omega

end Descend
