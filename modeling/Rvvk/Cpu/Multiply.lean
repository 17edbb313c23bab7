import Rvvk.Cpu.Handlers

/-!
# High multiplication

`wmulu` assembles the product of two words from four products of half words and
one carry; `wmul` and `wmulsu` correct its high word for the signs. The three
results are the exact products, so the handlers leave the exact halves in `rd`.
-/

namespace Rvvk

/-! ## Products of half words -/

theorem toNat_hulong (x : Word) : (hulong x).toNat = x.toNat % 2 ^ 32 := by
  unfold hulong
  rw [BitVec.toNat_setWidth, BitVec.toNat_setWidth]
  exact Nat.mod_eq_of_lt (Nat.lt_trans (Nat.mod_lt _ (by decide)) (by decide))

theorem toNat_high (x : Word) : (x >>> 32).toNat = x.toNat / 2 ^ 32 := by
  rw [BitVec.toNat_ushiftRight, Nat.shiftRight_eq_div_pow]

theorem half_mul_lt {a b : Nat} (ha : a < 2 ^ 32) (hb : b < 2 ^ 32) : a * b < 2 ^ 64 :=
  Nat.lt_of_lt_of_le (Nat.mul_lt_mul'' ha hb) (by decide)

theorem toNat_half_mul {a b : Word} (ha : a.toNat < 2 ^ 32) (hb : b.toNat < 2 ^ 32) :
    (a * b).toNat = a.toNat * b.toNat := by
  rw [BitVec.toNat_mul, Nat.mod_eq_of_lt (half_mul_lt ha hb)]

theorem mul_of_halves (x y : Nat) :
    x * y = (x / 2 ^ 32) * (y / 2 ^ 32) * 2 ^ 64 +
      ((x / 2 ^ 32) * (y % 2 ^ 32) + (x % 2 ^ 32) * (y / 2 ^ 32)) * 2 ^ 32 +
      (x % 2 ^ 32) * (y % 2 ^ 32) := by
  conv => lhs; rw [← Nat.div_add_mod x (2 ^ 32), ← Nat.div_add_mod y (2 ^ 32)]
  generalize x / 2 ^ 32 = x1
  generalize x % 2 ^ 32 = x0
  generalize y / 2 ^ 32 = y1
  generalize y % 2 ^ 32 = y0
  have h64 : (2 : Nat) ^ 64 = 2 ^ 32 * 2 ^ 32 := by decide
  rw [h64, Nat.add_mul, Nat.mul_add, Nat.mul_add, Nat.add_mul]
  have h1 : 2 ^ 32 * x1 * (2 ^ 32 * y1) = x1 * y1 * (2 ^ 32 * 2 ^ 32) := by
    rw [Nat.mul_comm (2 ^ 32) x1, Nat.mul_comm (2 ^ 32) y1, Nat.mul_mul_mul_comm]
  have h2 : 2 ^ 32 * x1 * y0 = x1 * y0 * 2 ^ 32 := by
    rw [Nat.mul_assoc, Nat.mul_comm]
  have h3 : x0 * (2 ^ 32 * y1) = x0 * y1 * 2 ^ 32 := by
    rw [Nat.mul_comm (2 ^ 32) y1, Nat.mul_assoc]
  omega

/-! ## The unsigned product -/

/-- `wmulu` loses nothing. -/
theorem wmulu_spec (x y : Word) :
    (wmulu x y).hi.toNat * 2 ^ 64 + (wmulu x y).lo.toNat = x.toNat * y.toNat := by
  have hx := x.isLt
  have hy := y.isLt
  have hx0 : (hulong x).toNat < 2 ^ 32 := toNat_hulong x ▸ Nat.mod_lt _ (by decide)
  have hy0 : (hulong y).toNat < 2 ^ 32 := toNat_hulong y ▸ Nat.mod_lt _ (by decide)
  have hx1 : (x >>> 32).toNat < 2 ^ 32 := by
    rw [toNat_high]
    omega
  have hy1 : (y >>> 32).toNat < 2 ^ 32 := by
    rw [toNat_high]
    omega
  have hp11 := toNat_half_mul hx1 hy1
  have hp01 := toNat_half_mul hx0 hy1
  have hp10 := toNat_half_mul hx1 hy0
  have hp00 := toNat_half_mul hx0 hy0
  have hprod := mul_of_halves x.toNat y.toNat
  have hlt : x.toNat * y.toNat < 2 ^ 64 * 2 ^ 64 := Nat.mul_lt_mul'' hx hy
  rw [← toNat_high, ← toNat_high, ← toNat_hulong, ← toNat_hulong, ← hp11, ← hp01, ← hp10, ← hp00]
    at hprod
  have hb01 := (hulong x * (y >>> 32)).isLt
  have hb10 := ((x >>> 32) * hulong y).isLt
  have hb00 := (hulong x * hulong y).isLt
  simp only [wmulu, BitVec.toNat_add, BitVec.toNat_ushiftRight, BitVec.toNat_shiftLeft,
    Nat.shiftRight_eq_div_pow, Nat.shiftLeft_eq, toNat_hulong]
  omega

/-! ## The signed products -/

/-- Two words that agree with an integer modulo `2^128` are its two's
complement if it has one of 128 bits. -/
theorem signed_eq_of_mod {hi lo : Word} {p : Int}
    (hmod : ((hi.toNat : Int) * 2 ^ 64 + lo.toNat) % 2 ^ 128 = p % 2 ^ 128)
    (hl : -2 ^ 127 ≤ p) (hu : p < 2 ^ 127) : hi.toInt * 2 ^ 64 + lo.toNat = p := by
  have hhi := hi.isLt
  have hlo := lo.isLt
  rw [BitVec.toInt_eq_toNat_cond]
  split <;> omega

/-- Taking a word off the high word takes its multiple off the number. -/
theorem sub_high_mod {a b : Word} {l p : Int}
    (h : ((a.toNat : Int) * 2 ^ 64 + l) % 2 ^ 128 = p % 2 ^ 128) :
    (((a - b).toNat : Int) * 2 ^ 64 + l) % 2 ^ 128 = (p - 2 ^ 64 * b.toNat) % 2 ^ 128 := by
  have ha := a.isLt
  have hb := b.isLt
  rw [BitVec.toNat_sub]
  omega

theorem toInt_of_slt {x : Word} (h : x.slt 0 = true) : x.toInt = x.toNat - 2 ^ 64 := by
  have hn : x.toInt < 0 := by simpa [BitVec.slt] using h
  have hx := x.isLt
  rw [BitVec.toInt_eq_toNat_cond] at hn ⊢
  split at hn <;> omega

theorem toInt_of_not_slt {x : Word} (h : ¬ x.slt 0 = true) : x.toInt = x.toNat := by
  have hn : ¬ x.toInt < 0 := by simpa [BitVec.slt] using h
  have hx := x.isLt
  rw [BitVec.toInt_eq_toNat_cond] at hn ⊢
  split at hn <;> omega

/-- Magnitudes below `2^m` and `2^n` have a product below `2^(m+n)`. -/
theorem mul_range {a b : Int} {m n : Nat} (ha : a.natAbs ≤ 2 ^ m) (hb : b.natAbs < 2 ^ n) :
    (a * b).natAbs < 2 ^ (m + n) := by
  rw [Int.natAbs_mul, Nat.pow_add]
  exact Nat.lt_of_le_of_lt (Nat.mul_le_mul_right _ ha)
    (Nat.mul_lt_mul_of_pos_left hb (Nat.two_pow_pos m))

theorem natAbs_toInt_le (x : Word) : x.toInt.natAbs ≤ 2 ^ 63 := by
  have h1 := BitVec.toInt_lt (x := x)
  have h2 := BitVec.le_toInt (x := x)
  omega

theorem wmulu_mod (x y : Word) :
    (((wmulu x y).hi.toNat : Int) * 2 ^ 64 + (wmulu x y).lo.toNat) % 2 ^ 128 =
      ((x.toNat : Int) * y.toNat) % 2 ^ 128 := by
  rw [← Int.natCast_mul, ← wmulu_spec]
  rfl

theorem wmulsu_spec (x y : Word) :
    (wmulsu x y).hi.toInt * 2 ^ 64 + (wmulsu x y).lo.toNat = x.toInt * y.toNat := by
  have hu := wmulu_mod x y
  have hr : (x.toInt * y.toNat).natAbs < 2 ^ (63 + 64) :=
    mul_range (natAbs_toInt_le x) (by rw [Int.natAbs_natCast]; exact y.isLt)
  apply signed_eq_of_mod _ (by omega) (by omega)
  unfold wmulsu
  dsimp only
  by_cases hs : x.slt 0 = true
  · rw [if_pos hs, toInt_of_slt hs, Int.sub_mul]
    exact sub_high_mod hu
  · rw [if_neg hs, toInt_of_not_slt hs]
    exact hu

theorem wmul_spec (x y : Word) :
    (wmul x y).hi.toInt * 2 ^ 64 + (wmul x y).lo.toNat = x.toInt * y.toInt := by
  have hu := wmulu_mod x y
  have hr : (x.toInt * y.toInt).natAbs < 2 ^ (63 + 64) :=
    mul_range (natAbs_toInt_le x) (Nat.lt_of_le_of_lt (natAbs_toInt_le y) (by decide))
  apply signed_eq_of_mod _ (by omega) (by omega)
  unfold wmul
  dsimp only
  by_cases hs : x.slt 0 = true <;> by_cases ht : y.slt 0 = true
  · rw [if_pos hs, if_pos ht, toInt_of_slt hs, toInt_of_slt ht, Int.sub_mul, Int.mul_sub,
      Int.mul_comm (x.toNat : Int) (2 ^ 64)]
    have hboth := sub_high_mod (b := x) (sub_high_mod (b := y) hu)
    dsimp only
    omega
  · rw [if_pos hs, if_neg ht, toInt_of_slt hs, toInt_of_not_slt ht, Int.sub_mul]
    exact sub_high_mod hu
  · rw [if_neg hs, if_pos ht, toInt_of_not_slt hs, toInt_of_slt ht, Int.mul_sub,
      Int.mul_comm (x.toNat : Int) (2 ^ 64)]
    exact sub_high_mod hu
  · rw [if_neg hs, if_neg ht, toInt_of_not_slt hs, toInt_of_not_slt ht]
    exact hu

/-! ## The handlers -/

/-- The high word of a two-word number is its quotient by `2^64`. -/
theorem hi_eq_div {hi lo : Word} {p : Int} (h : hi.toInt * 2 ^ 64 + lo.toNat = p) :
    hi = BitVec.ofInt 64 (p / 2 ^ 64) := by
  have hlo := lo.isLt
  have hq : p / 2 ^ 64 = hi.toInt := by omega
  rw [hq, BitVec.ofInt_toInt]

/-- The results of `wmulu`, `wmul` and `wmulsu` are the exact products, and the
handlers leave the halves of the exact products in `rd`. -/
theorem multiplication_exact (x y : Word) (insn : Insn) (m : Machine) :
    (wmulu x y).hi.toNat * 2 ^ 64 + (wmulu x y).lo.toNat = x.toNat * y.toNat ∧
    (wmul x y).hi.toInt * 2 ^ 64 + (wmul x y).lo.toNat = x.toInt * y.toInt ∧
    (wmulsu x y).hi.toInt * 2 ^ 64 + (wmulsu x y).lo.toNat = x.toInt * y.toNat ∧
    let a := m.gpr insn.rs1
    let b := m.gpr insn.rs2
    { insn with handler := .doMul }.run m =
      .ok (m.setGpr insn.rd (BitVec.ofInt 64 (a.toInt * b.toInt))) ∧
    { insn with handler := .doMulh }.run m =
      .ok (m.setGpr insn.rd (BitVec.ofInt 64 (a.toInt * b.toInt / 2 ^ 64))) ∧
    { insn with handler := .doMulhsu }.run m =
      .ok (m.setGpr insn.rd (BitVec.ofInt 64 (a.toInt * b.toNat / 2 ^ 64))) ∧
    { insn with handler := .doMulhu }.run m =
      .ok (m.setGpr insn.rd (BitVec.ofNat 64 (a.toNat * b.toNat / 2 ^ 64))) := by
  refine ⟨wmulu_spec x y, wmul_spec x y, wmulsu_spec x y, ?_, ?_, ?_, ?_⟩
  · have hmul : m.gpr insn.rs1 * m.gpr insn.rs2 =
        BitVec.ofInt 64 ((m.gpr insn.rs1).toInt * (m.gpr insn.rs2).toInt) := by
      rw [BitVec.ofInt_mul, BitVec.ofInt_toInt, BitVec.ofInt_toInt]
    rw [← hmul]
    rfl
  · rw [← hi_eq_div (wmul_spec _ _)]
    rfl
  · rw [← hi_eq_div (wmulsu_spec _ _)]
    rfl
  · have hu := wmulu_spec (m.gpr insn.rs1) (m.gpr insn.rs2)
    have hlo := (wmulu (m.gpr insn.rs1) (m.gpr insn.rs2)).lo.isLt
    have hq : (m.gpr insn.rs1).toNat * (m.gpr insn.rs2).toNat / 2 ^ 64 =
        (wmulu (m.gpr insn.rs1) (m.gpr insn.rs2)).hi.toNat := by omega
    rw [hq, BitVec.ofNat_toNat, BitVec.setWidth_eq]
    rfl

end Rvvk
