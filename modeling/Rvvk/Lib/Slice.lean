import Mathlib.Algebra.Order.Ring.Int

/-!
# Bit-vector slices

Contiguous fields of a machine word: masking, splitting a word into consecutive
slices, and how zero or sign extension commutes with appending a lower slice.
Nothing here names a particular instruction set or program.
-/

namespace Slice

/-- Ones at the bit positions from `start` up to `start + len`. -/
def mask (w start len : Nat) : BitVec w :=
  (BitVec.allOnes len).setWidth w <<< start

theorem getLsbD_mask (w start len i : Nat) :
    (mask w start len).getLsbD i =
      (decide (i < w) && (decide (start ≤ i) && decide (i < start + len))) := by
  simp only [mask, BitVec.getLsbD_shiftLeft, BitVec.getLsbD_setWidth, BitVec.getLsbD_allOnes]
  by_cases hw : i < w
  · by_cases hs : start ≤ i
    · have h1 : ¬ i < start := by omega
      have h2 : i - start < w := by omega
      have h3 : (i - start < len) = (i < start + len) := by
        apply propext
        omega
      simp [hw, hs, h1, h2, h3]
    · have h1 : i < start := by omega
      simp [hw, hs, h1]
  · simp [hw]

theorem and_mask {w : Nat} (x : BitVec w) (start len : Nat) :
    x &&& mask w start len = (x.extractLsb' start len).setWidth w <<< start := by
  apply BitVec.eq_of_getLsbD_eq
  intro i hi
  simp only [BitVec.getLsbD_and, getLsbD_mask, BitVec.getLsbD_shiftLeft, BitVec.getLsbD_setWidth,
    BitVec.getLsbD_extractLsb', hi, decide_true, Bool.true_and]
  by_cases hs : start ≤ i
  · have h1 : ¬ i < start := by omega
    have h2 : i - start < w := by omega
    have h3 : (i - start < len) = (i < start + len) := by
      apply propext
      omega
    have h4 : start + (i - start) = i := by omega
    simp [hs, h1, h2, h3, h4, Bool.and_comm]
  · have h1 : i < start := by omega
    simp [hs, h1]

theorem and_mask_or {w : Nat} (x : BitVec w) (s₁ l₁ s₂ l₂ : Nat) :
    x &&& (mask w s₁ l₁ ||| mask w s₂ l₂) =
      (x.extractLsb' s₁ l₁).setWidth w <<< s₁ ||| (x.extractLsb' s₂ l₂).setWidth w <<< s₂ := by
  rw [BitVec.and_or_distrib_left, and_mask, and_mask]

theorem extract_place {w len : Nat} (c : BitVec len) (start : Nat) (h : start + len ≤ w) :
    (c.setWidth w <<< start).extractLsb' start len = c := by
  apply BitVec.eq_of_getLsbD_eq
  intro i hi
  have h1 : start + i < w := by omega
  have h3 : start + i - start = i := by omega
  simp [hi, h1, h3]

theorem and_mask_eq_iff {w len : Nat} (x : BitVec w) (start : Nat) (c : BitVec len)
    (h : start + len ≤ w) :
    x &&& mask w start len = c.setWidth w <<< start ↔ x.extractLsb' start len = c := by
  rw [and_mask x start len]
  constructor
  · intro he
    have hx := congrArg (BitVec.extractLsb' start len) he
    rwa [extract_place _ start h, extract_place _ start h] at hx
  · intro he
    rw [he]

theorem extract_extract {w : Nat} (x : BitVec w) (start start' len len' : Nat)
    (h : start' + len' ≤ len) :
    (x.extractLsb' start len).extractLsb' start' len' = x.extractLsb' (start + start') len' := by
  apply BitVec.eq_of_getLsbD_eq
  intro i hi
  have h1 : start' + i < len := by omega
  simp [hi, h1, Nat.add_assoc]

theorem extract_ushiftRight {w : Nat} (x : BitVec w) (k start len : Nat) :
    (x >>> k).extractLsb' start len = x.extractLsb' (k + start) len := by
  apply BitVec.eq_of_getLsbD_eq
  intro i hi
  simp [Nat.add_assoc]

theorem append_inj_iff {n m : Nat} {a c : BitVec n} {b d : BitVec m} :
    a ++ b = c ++ d ↔ a = c ∧ b = d := by
  constructor
  · intro h
    have h1 := congrArg (BitVec.extractLsb' m n) h
    have h2 := congrArg (BitVec.extractLsb' 0 m) h
    rw [BitVec.extractLsb'_append_eq_left, BitVec.extractLsb'_append_eq_left] at h1
    rw [BitVec.extractLsb'_append_eq_right, BitVec.extractLsb'_append_eq_right] at h2
    exact ⟨h1, h2⟩
  · rintro ⟨rfl, rfl⟩
    rfl

/-! ## Extensions -/

theorem setWidth_setWidth {n m w : Nat} (x : BitVec n) (h : n ≤ m) :
    (x.setWidth m).setWidth w = x.setWidth w := by
  apply BitVec.eq_of_getLsbD_eq
  intro i hi
  simp only [BitVec.getLsbD_setWidth, hi, decide_true, Bool.true_and]
  by_cases hm : i < m
  · simp [hm]
  · have hx : x.getLsbD i = false := BitVec.getLsbD_of_ge x i (by omega)
    simp [hm, hx]

/-- Bit `i` of a sign extension. -/
theorem getLsbD_signExtend' {n w : Nat} (x : BitVec n) (i : Nat) (hi : i < w) :
    (x.signExtend w).getLsbD i = x.getLsbD (min i (n - 1)) := by
  rw [BitVec.getLsbD_signExtend]
  by_cases hn : i < n
  · have h1 : min i (n - 1) = i := by omega
    simp [hi, hn, h1]
  · have h1 : min i (n - 1) = n - 1 := by omega
    simp [hi, hn, h1, BitVec.msb_eq_getLsbD_last]

theorem signExtend_signExtend {n m w : Nat} (x : BitVec n) (h : n ≤ m) :
    (x.signExtend m).signExtend w = x.signExtend w := by
  apply BitVec.eq_of_getLsbD_eq
  intro i hi
  rw [getLsbD_signExtend' _ i hi, getLsbD_signExtend' _ i hi]
  by_cases hm : m = 0
  · have hx : ∀ j, x.getLsbD j = false := fun j => BitVec.getLsbD_of_ge x j (by omega)
    simp only [hx]
    exact BitVec.getLsbD_of_ge _ _ (by omega)
  · rw [getLsbD_signExtend' x _ (by omega)]
    congr 1
    omega

theorem extract_signExtend {n w : Nat} (x : BitVec n) (start len : Nat) (hn : start + len ≤ n)
    (hw : start + len ≤ w) :
    (x.signExtend w).extractLsb' start len = x.extractLsb' start len := by
  apply BitVec.eq_of_getLsbD_eq
  intro i hi
  have h1 : min (start + i) (n - 1) = start + i := by omega
  rw [BitVec.getLsbD_extractLsb', BitVec.getLsbD_extractLsb',
    getLsbD_signExtend' x _ (by omega), h1]

/-- Sign-extending a zero extension that left room for the sign is zero extension. -/
theorem signExtend_setWidth {n m w : Nat} (x : BitVec n) (h : n < m) :
    (x.setWidth m).signExtend w = x.setWidth w := by
  apply BitVec.eq_of_getLsbD_eq
  intro i hi
  rw [getLsbD_signExtend' _ i hi, BitVec.getLsbD_setWidth, BitVec.getLsbD_setWidth]
  by_cases hn : i < n
  · have h1 : min i (m - 1) = i := by omega
    simp [h1, hi, show i < m by omega]
  · have hx : x.getLsbD i = false := BitVec.getLsbD_of_ge x i (by omega)
    have hy : x.getLsbD (min i (m - 1)) = false := BitVec.getLsbD_of_ge x _ (by omega)
    simp [hx, hy]

theorem setWidth_shiftLeft {n w : Nat} (x : BitVec n) (k : Nat) :
    x.setWidth w <<< k = (x ++ 0#k : BitVec (n + k)).setWidth w := by
  apply BitVec.eq_of_getLsbD_eq
  intro i hi
  simp only [BitVec.getLsbD_shiftLeft, BitVec.getLsbD_setWidth, BitVec.getLsbD_append, hi,
    decide_true, Bool.true_and]
  by_cases hk : i < k
  · simp [hk]
  · have h1 : i - k < w := by omega
    simp [hk, h1]

theorem signExtend_shiftLeft {n w : Nat} (x : BitVec n) (k : Nat) (hn : 0 < n) :
    x.signExtend w <<< k = (x ++ 0#k : BitVec (n + k)).signExtend w := by
  apply BitVec.eq_of_getLsbD_eq
  intro i hi
  rw [getLsbD_signExtend' _ i hi, BitVec.getLsbD_shiftLeft, BitVec.getLsbD_append]
  by_cases hk : i < k
  · have h1 : min i (n + k - 1) < k := by omega
    simp [hk, h1]
  · have h1 : ¬ min i (n + k - 1) < k := by omega
    have h2 : i - k < w := by omega
    have h3 : min (i - k) (n - 1) = min i (n + k - 1) - k := by omega
    simp only [hi, hk, h1, decide_true, decide_false, Bool.not_false, Bool.true_and,
      getLsbD_signExtend' x _ h2, h3, if_false]

/-! ## Masks at the ends of a word -/

theorem toNat_and_mask_low {w : Nat} (x : BitVec w) (k : Nat) :
    (x &&& mask w 0 k).toNat = x.toNat % 2 ^ k := by
  rw [and_mask, BitVec.toNat_shiftLeft, BitVec.toNat_setWidth, BitVec.extractLsb'_toNat,
    Nat.shiftRight_zero, Nat.shiftLeft_zero, Nat.mod_mod]
  exact Nat.mod_eq_of_lt (Nat.lt_of_le_of_lt (Nat.mod_le _ _) x.isLt)

theorem toNat_and_mask_high {w : Nat} (x : BitVec w) (k : Nat) (hk : k ≤ w) :
    (x &&& mask w k (w - k)).toNat = x.toNat / 2 ^ k * 2 ^ k := by
  have hdiv : x.toNat / 2 ^ k < 2 ^ (w - k) := by
    rw [Nat.div_lt_iff_lt_mul (Nat.two_pow_pos k), ← Nat.pow_add, Nat.sub_add_cancel hk]
    exact x.isLt
  have hmul : x.toNat / 2 ^ k * 2 ^ k < 2 ^ w :=
    Nat.lt_of_le_of_lt (Nat.div_mul_le_self _ _) x.isLt
  have hw : x.toNat / 2 ^ k < 2 ^ w := Nat.lt_of_le_of_lt (Nat.div_le_self _ _) x.isLt
  rw [and_mask, BitVec.toNat_shiftLeft, BitVec.toNat_setWidth, BitVec.extractLsb'_toNat,
    Nat.shiftRight_eq_div_pow, Nat.shiftLeft_eq, Nat.mod_eq_of_lt hdiv, Nat.mod_eq_of_lt hw,
    Nat.mod_eq_of_lt hmul]

end Slice
