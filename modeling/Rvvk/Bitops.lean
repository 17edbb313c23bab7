import Rvvk.Lib.Slice

/-!
# Bit-field helpers

`extract32`, `sextract32` and `deposit32`, and their meaning as slices. Every
call in the decoder satisfies the bounds the source asserts, and every
`deposit32` fills the word up to its top bit. `ROUND_UP` and `ROUND_DOWN` round
to a multiple of a power of two.
-/

namespace Rvvk

def extract32 (value : BitVec 32) (start length : Nat) : BitVec 32 :=
  (value >>> start) &&& (0xffffffff#32 >>> (32 - length))

/-- The right shift of a signed integer is arithmetic. -/
def sextract32 (value : BitVec 32) (start length : Nat) : BitVec 32 :=
  (value <<< (32 - length - start)).sshiftRight (32 - length)

def deposit32 (value : BitVec 32) (start length : Nat) (fieldval : BitVec 32) : BitVec 32 :=
  let mask := (0xffffffff#32 >>> (32 - length)) <<< start
  (value &&& ~~~mask) ||| ((fieldval <<< start) &&& mask)

private theorem getLsbD_ones32 (i : Nat) : (0xffffffff#32).getLsbD i = decide (i < 32) := by
  have h : (0xffffffff#32) = BitVec.allOnes 32 := by decide
  rw [h, BitVec.getLsbD_allOnes]

theorem extract32_eq (v : BitVec 32) (s l : Nat) (h : s + l ≤ 32) :
    extract32 v s l = (v.extractLsb' s l).setWidth 32 := by
  apply BitVec.eq_of_getLsbD_eq
  intro i hi
  simp only [extract32, BitVec.getLsbD_and, BitVec.getLsbD_ushiftRight, getLsbD_ones32,
    BitVec.getLsbD_setWidth, BitVec.getLsbD_extractLsb', hi, decide_true, Bool.true_and]
  have h1 : (32 - l + i < 32) = (i < l) := by
    apply propext
    omega
  simp only [h1]
  exact Bool.and_comm _ _

theorem sextract32_eq (v : BitVec 32) (s l : Nat) (hl : 0 < l) (h : s + l ≤ 32) :
    sextract32 v s l = (v.extractLsb' s l).signExtend 32 := by
  apply BitVec.eq_of_getLsbD_eq
  intro i hi
  rw [Slice.getLsbD_signExtend' _ i hi, BitVec.getLsbD_extractLsb']
  simp only [sextract32, BitVec.getLsbD_sshiftRight, BitVec.getLsbD_shiftLeft,
    BitVec.msb_eq_getLsbD_last]
  by_cases hc : i < l
  · have h1 : min i (l - 1) = i := by omega
    have h2 : ¬ 32 - l + i < 32 - l - s := by omega
    have h3 : 32 - l + i - (32 - l - s) = s + i := by omega
    simp [hc, h1, h2, h3, show ¬ 32 ≤ i by omega, show 32 - l + i < 32 by omega]
  · have h1 : min i (l - 1) = l - 1 := by omega
    have h2 : ¬ 31 < 32 - l - s := by omega
    have h3 : 31 - (32 - l - s) = s + (l - 1) := by omega
    have h4 : l - 1 < l := by omega
    simp [h1, h2, h3, h4, show ¬ 32 ≤ i by omega, show ¬ 32 - l + i < 32 by omega]

theorem getLsbD_deposit32 (v f : BitVec 32) (s l i : Nat) (h : s + l = 32) (hi : i < 32) :
    (deposit32 v s l f).getLsbD i = if i < s then v.getLsbD i else f.getLsbD (i - s) := by
  simp only [deposit32, BitVec.getLsbD_or, BitVec.getLsbD_and, BitVec.getLsbD_not,
    BitVec.getLsbD_shiftLeft, BitVec.getLsbD_ushiftRight, getLsbD_ones32, hi, decide_true,
    Bool.true_and]
  by_cases hs : i < s
  · simp [hs]
  · have h1 : 32 - l + (i - s) < 32 := by omega
    simp [hs, h1]

/-- Depositing a field above `n` low bits appends it. -/
theorem deposit32_setWidth {n m : Nat} (x : BitVec n) (y : BitVec m) (l : Nat) (h : n + l = 32) :
    deposit32 (x.setWidth 32) n l (y.setWidth 32) = (y ++ x : BitVec (m + n)).setWidth 32 := by
  apply BitVec.eq_of_getLsbD_eq
  intro i hi
  rw [getLsbD_deposit32 _ _ n l i h hi]
  simp only [BitVec.getLsbD_setWidth, BitVec.getLsbD_append, hi, decide_true, Bool.true_and]
  by_cases hn : i < n
  · simp [hn]
  · simp [hn, show i - n < 32 by omega]

theorem deposit32_signExtend {n m : Nat} (x : BitVec n) (y : BitVec m) (l : Nat) (h : n + l = 32)
    (hm : 0 < m) :
    deposit32 (x.setWidth 32) n l (y.signExtend 32) = (y ++ x : BitVec (m + n)).signExtend 32 := by
  apply BitVec.eq_of_getLsbD_eq
  intro i hi
  rw [getLsbD_deposit32 _ _ n l i h hi, Slice.getLsbD_signExtend' _ i hi, BitVec.getLsbD_append]
  by_cases hn : i < n
  · have h1 : min i (m + n - 1) = i := by omega
    simp [hn, h1, hi]
  · have h1 : ¬ min i (m + n - 1) < n := by omega
    have h2 : min (i - n) (m - 1) = min i (m + n - 1) - n := by omega
    rw [if_neg hn, if_neg h1, Slice.getLsbD_signExtend' y _ (by omega), h2]

/-! ## Rounding -/

def roundDown (n d : BitVec 64) : BitVec 64 := n &&& -d

def roundUp (n d : BitVec 64) : BitVec 64 := roundDown (n + d - 1) d

theorem toNat_roundDown_page (n : BitVec 64) :
    (roundDown n 4096).toNat = n.toNat / 4096 * 4096 := by
  have h : -(4096 : BitVec 64) = Slice.mask 64 12 (64 - 12) := by decide
  have hs := Slice.toNat_and_mask_high n 12 (by decide)
  rw [← h] at hs
  exact hs

theorem toNat_roundUp_page (n : BitVec 64) :
    (roundUp n 4096).toNat = (n.toNat + 4095) % 2 ^ 64 / 4096 * 4096 := by
  have h : n + 4096 - 1 = n + 4095#64 := by
    rw [BitVec.sub_eq_add_neg, BitVec.add_assoc]
    rfl
  unfold roundUp
  rw [toNat_roundDown_page, h, BitVec.toNat_add]
  rfl

theorem toNat_and_page (n : BitVec 64) : (n &&& 4095#64).toNat = n.toNat % 4096 := by
  have h : 4095#64 = Slice.mask 64 0 12 := by decide
  have hs := Slice.toNat_and_mask_low n 12
  rw [← h] at hs
  exact hs

theorem toNat_roundUp_line (n : BitVec 64) :
    (roundUp n 64).toNat = (n.toNat + 63) % 2 ^ 64 / 64 * 64 := by
  have h : -(64 : BitVec 64) = Slice.mask 64 6 (64 - 6) := by decide
  have hn : n + 64 - 1 = n + 63#64 := by
    rw [BitVec.sub_eq_add_neg, BitVec.add_assoc]
    rfl
  unfold roundUp roundDown
  rw [h, Slice.toNat_and_mask_high _ 6 (by decide), hn, BitVec.toNat_add]
  rfl

theorem toNat_roundDown_word (n : BitVec 64) : (roundDown n 8).toNat = n.toNat / 8 * 8 := by
  have h : -(8 : BitVec 64) = Slice.mask 64 3 (64 - 3) := by decide
  have hs := Slice.toNat_and_mask_high n 3 (by decide)
  rw [← h] at hs
  exact hs

end Rvvk
