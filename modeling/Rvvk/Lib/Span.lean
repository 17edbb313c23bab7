import Mathlib.Algebra.Order.Ring.Int

/-!
# Spans of a cyclic address space

Addresses are `w`-bit words. A span is a first address and a length; its
addresses are counted modulo `2^w`, so a span may pass the top of the address
space. Nothing here names a particular program.
-/

namespace Span

variable {w : Nat}

/-- The address is one of the `len` addresses from `base` on. -/
def Mem (base : BitVec w) (len : Nat) (a : BitVec w) : Prop :=
  (a - base).toNat < len

instance (base : BitVec w) (len : Nat) (a : BitVec w) : Decidable (Mem base len a) :=
  inferInstanceAs (Decidable (_ < _))

def Disjoint (base₁ : BitVec w) (len₁ : Nat) (base₂ : BitVec w) (len₂ : Nat) : Prop :=
  ∀ a, Mem base₁ len₁ a → ¬ Mem base₂ len₂ a

theorem Mem.mono {base a : BitVec w} {len len' : Nat} (h : Mem base len a) (hl : len ≤ len') :
    Mem base len' a :=
  Nat.lt_of_lt_of_le h hl

/-- A span below the top of the address space is an interval. -/
theorem mem_iff {base a : BitVec w} {len : Nat} (h : base.toNat + len ≤ 2 ^ w) :
    Mem base len a ↔ base.toNat ≤ a.toNat ∧ a.toNat < base.toNat + len := by
  unfold Mem
  by_cases hle : base ≤ a
  · rw [BitVec.toNat_sub_of_le hle]
    have hn : base.toNat ≤ a.toNat := hle
    omega
  · have hlt : a < base := BitVec.not_le.mp hle
    have hn : a.toNat < base.toNat := hlt
    rw [BitVec.toNat_sub_of_lt hlt]
    omega

theorem mem_add_right (base a c : BitVec w) (len : Nat) :
    Mem (base + c) len (a + c) ↔ Mem base len a := by
  have h : a + c - (base + c) = a - base := by grind
  unfold Mem
  rw [h]

theorem mem_offset (base : BitVec w) {len i : Nat} (hi : i < len) :
    Mem base len (base + BitVec.ofNat w i) := by
  have h : base + BitVec.ofNat w i - base = BitVec.ofNat w i := by
    rw [BitVec.add_comm, BitVec.add_sub_cancel]
  unfold Mem
  rw [h, BitVec.toNat_ofNat]
  exact Nat.lt_of_le_of_lt (Nat.mod_le _ _) hi

theorem exists_offset {base a : BitVec w} {len : Nat} (h : Mem base len a) :
    ∃ i < len, a = base + BitVec.ofNat w i := by
  refine ⟨(a - base).toNat, h, ?_⟩
  rw [BitVec.ofNat_toNat, BitVec.setWidth_eq, BitVec.add_comm, BitVec.sub_add_cancel]

theorem mem_shift {base a : BitVec w} {n len : Nat} (hn : n < 2 ^ w) (h : n + len ≤ 2 ^ w) :
    Mem (base + BitVec.ofNat w n) len a ↔ n ≤ (a - base).toNat ∧ (a - base).toNat < n + len := by
  have hsub : a - (base + BitVec.ofNat w n) = a - base - BitVec.ofNat w n := by grind
  have hof : (BitVec.ofNat w n).toNat = n := by rw [BitVec.toNat_ofNat, Nat.mod_eq_of_lt hn]
  have hm : Mem (BitVec.ofNat w n) len (a - base) ↔ _ := mem_iff (by rwa [hof])
  unfold Mem at hm ⊢
  rw [hsub, hm, hof]

/-- The addresses from one to another, where the span does not pass the top. -/
theorem mem_of_between {base a top : BitVec w} (h1 : base ≤ a) (h2 : a < top) :
    Mem base (top - base).toNat a := by
  have h1' : base.toNat ≤ a.toNat := h1
  have h2' : a.toNat < top.toNat := h2
  have hle : base ≤ top := Nat.le_of_lt (Nat.lt_of_le_of_lt h1' h2')
  unfold Mem
  rw [BitVec.toNat_sub_of_le h1, BitVec.toNat_sub_of_le hle]
  omega

/-- One span lies in another when its distance and its length together fit. -/
theorem subset_iff (base b : BitVec w) {len n : Nat} (hn : 0 < n) (hlen : len < 2 ^ w) :
    (∀ a, Mem b n a → Mem base len a) ↔ (b - base).toNat + n ≤ len := by
  constructor
  · intro h
    by_contra hgt
    have hin : Mem base len b := h b (by unfold Mem; rw [BitVec.sub_self]; exact hn)
    unfold Mem at hin
    -- the first address behind the outer span
    have hoff : b + BitVec.ofNat w (len - (b - base).toNat) - base = BitVec.ofNat w len := by
      have hsum : b + BitVec.ofNat w (len - (b - base).toNat) - base =
          (b - base) + BitVec.ofNat w (len - (b - base).toNat) := by
        grind
      refine BitVec.eq_of_toNat_eq ?_
      rw [hsum, BitVec.toNat_add, BitVec.toNat_ofNat, BitVec.toNat_ofNat]
      congr 1
      rw [Nat.mod_eq_of_lt (by omega)]
      omega
    have hout := h _ (mem_offset b (i := len - (b - base).toNat) (by omega))
    unfold Mem at hout
    rw [hoff, BitVec.toNat_ofNat, Nat.mod_eq_of_lt hlen] at hout
    exact absurd hout (Nat.lt_irrefl _)
  · intro h a ha
    have hsum : a - base = (a - b) + (b - base) := by grind
    unfold Mem at ha ⊢
    rw [hsum, BitVec.toNat_add]
    exact Nat.lt_of_le_of_lt (Nat.mod_le _ _) (by omega)

theorem disjoint_of_le {base₁ base₂ : BitVec w} {len₁ len₂ : Nat}
    (h : base₁.toNat + len₁ ≤ base₂.toNat) (h₂ : base₂.toNat + len₂ ≤ 2 ^ w) :
    Disjoint base₁ len₁ base₂ len₂ := by
  intro a h1 h2
  have hlt : base₂.toNat < 2 ^ w := base₂.isLt
  rw [mem_iff (by omega)] at h1
  rw [mem_iff h₂] at h2
  omega

theorem Disjoint.symm {base₁ base₂ : BitVec w} {len₁ len₂ : Nat}
    (h : Disjoint base₁ len₁ base₂ len₂) : Disjoint base₂ len₂ base₁ len₁ :=
  fun a h₂ h₁ => h a h₁ h₂

end Span
