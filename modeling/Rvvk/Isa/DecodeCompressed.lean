import Rvvk.Isa.Compressed
import Rvvk.Translate.Decode16

/-!
# Decoding compressed instructions by format

The switch of `decode_insn16` selects by format, and every immediate it puts
together is the one that the format prescribes.
-/

namespace Rvvk.Isa.Rvc

/-! ## Masks -/

section

variable (w : BitVec 16)

theorem and_selector :
    w &&& 0xe003#16 = (funct3 w).setWidth 16 <<< 13 ||| (quadrant w).setWidth 16 := by
  rw [show 0xe003#16 = Slice.mask 16 13 3 ||| Slice.mask 16 0 2 by decide, Slice.and_mask_or,
    BitVec.shiftLeft_zero]
  rfl

theorem and_alu : w &&& 0x1060#16 =
    (w.extractLsb' 12 1).setWidth 16 <<< 12 ||| (w.extractLsb' 5 2).setWidth 16 <<< 5 := by
  rw [show 0x1060#16 = Slice.mask 16 12 1 ||| Slice.mask 16 5 2 by decide, Slice.and_mask_or]

theorem shift_funct2 : (w >>> 10) &&& 0x3#16 = (w.extractLsb' 10 2).setWidth 16 := by
  rw [show 0x3#16 = Slice.mask 16 0 2 by decide, Slice.and_mask, BitVec.shiftLeft_zero,
    Slice.extract_ushiftRight]

theorem shift_bit12 : (w >>> 12) &&& 0x1#16 = (w.extractLsb' 12 1).setWidth 16 := by
  rw [show 0x1#16 = Slice.mask 16 0 1 by decide, Slice.and_mask, BitVec.shiftLeft_zero,
    Slice.extract_ushiftRight]

theorem addi4spn_zero : (w &&& 0x1fe0#16 = 0) ↔ w.extractLsb' 5 8 = 0 := by
  have h := Slice.and_mask_eq_iff w 5 (0 : BitVec 8) (by decide)
  rwa [show Slice.mask 16 5 8 = 0x1fe0#16 by decide,
    show (0 : BitVec 8).setWidth 16 <<< 5 = 0 by decide] at h

theorem rd_is_sp : (w &&& 0x0f80#16 = 0x0100#16) ↔ rd w = 2 := by
  have h := Slice.and_mask_eq_iff w 7 (2 : BitVec 5) (by decide)
  rwa [show Slice.mask 16 7 5 = 0x0f80#16 by decide,
    show (2 : BitVec 5).setWidth 16 <<< 7 = 0x0100#16 by decide] at h

theorem rs2_zero : (w &&& 0x007c#16 = 0) ↔ rs2 w = 0 := by
  have h := Slice.and_mask_eq_iff w 2 (0 : BitVec 5) (by decide)
  rwa [show Slice.mask 16 2 5 = 0x007c#16 by decide,
    show (0 : BitVec 5).setWidth 16 <<< 2 = 0 by decide] at h

theorem rd_rs2_zero : (w &&& 0x0ffc#16 = 0) ↔ rd w = 0 ∧ rs2 w = 0 := by
  have h := Slice.and_mask_eq_iff w 2 (0 : BitVec 10) (by decide)
  have hj : rd w ++ rs2 w = w.extractLsb' 2 (5 + 5) :=
    BitVec.extractLsb'_append_extractLsb'_eq_extractLsb' rfl
  rw [show Slice.mask 16 2 10 = 0x0ffc#16 by decide,
    show (0 : BitVec 10).setWidth 16 <<< 2 = 0 by decide] at h
  rw [h, ← Slice.append_inj_iff, hj]
  exact Iff.rfl

end

/-! ## Selection -/

/-- What the switch calls for a format. -/
def Form.sel (w : BitVec 16) : Form → Sel16
  | addi4spn => if w.extractLsb' 5 8 = 0 then .illegal else .cAddi4spn
  | lw => .cLw
  | ld => .cLd
  | sw => .cSw
  | sd => .cSd
  | addi => .cAddi
  | addiw => .cAddiw
  | li => .cLi
  | addi16sp => .cAddi16sp
  | lui => .cLui
  | srli => .cSrli
  | srai => .cSrai
  | andi => .cAndi
  | sub => .cSub
  | xor => .cXor
  | or => .cOr
  | and => .cAnd
  | subw => .cSubw
  | addw => .cAddw
  | j => .cJ
  | beqz => .cBeqz
  | bnez => .cBnez
  | slli => .cSlli
  | lwsp => .cLwsp
  | ldsp => .cLdsp
  | jr => .cJr
  | mv => .cMv
  | ebreak => .cEbreak
  | jalr => .cJalr
  | add => .cAdd
  | swsp => .cSwsp
  | sdsp => .cSdsp

/-- What the switch calls for a word whose format is `f`, if it has one. -/
def selOf (w : BitVec 16) (f : Option Form) : Sel16 :=
  match f with
  | some f => f.sel w
  | none => .illegal

theorem bit_cases (x : BitVec 1) : x = 0#1 ∨ x = 1#1 := by
  revert x
  decide

theorem two_bits_cases (x : BitVec 2) : x = 0#2 ∨ x = 1#2 ∨ x = 2#2 ∨ x = 3#2 := by
  revert x
  decide

theorem three_bits_cases (x : BitVec 3) :
    x = 0#3 ∨ x = 1#3 ∨ x = 2#3 ∨ x = 3#3 ∨ x = 4#3 ∨ x = 5#3 ∨ x = 6#3 ∨ x = 7#3 := by
  revert x
  decide

theorem switch16_form (w : BitVec 16) : switch16 w = selOf w (form w) := by
  simp only [switch16, form, form0, form1, form2, formAlu, formCr, and_selector, and_alu,
    shift_funct2, shift_bit12, addi4spn_zero, rd_is_sp, rs2_zero, rd_rs2_zero]
  rcases two_bits_cases (quadrant w) with hq | hq | hq | hq
  -- Outside the rows that look at further fields both sides evaluate.
  · rcases three_bits_cases (funct3 w) with hf | hf | hf | hf | hf | hf | hf | hf <;>
      (rw [hq, hf]; rfl)
  · rcases three_bits_cases (funct3 w) with hf | hf | hf | hf | hf | hf | hf | hf
    case inr.inr.inr.inl =>
      rw [hq, hf]
      by_cases hsp : rd w = 2 <;> (simp only [hsp]; rfl)
    case inr.inr.inr.inr.inl =>
      rw [hq, hf]
      rcases two_bits_cases (w.extractLsb' 10 2) with h | h | h | h
      case inr.inr.inr =>
        rw [h]
        rcases bit_cases (w.extractLsb' 12 1) with h12 | h12 <;>
          rcases two_bits_cases (w.extractLsb' 5 2) with h5 | h5 | h5 | h5 <;>
            (rw [h12, h5]; rfl)
      all_goals rw [h]; rfl
    all_goals rw [hq, hf]; rfl
  · rcases three_bits_cases (funct3 w) with hf | hf | hf | hf | hf | hf | hf | hf
    case inr.inr.inr.inr.inl =>
      rw [hq, hf]
      rcases bit_cases (w.extractLsb' 12 1) with h12 | h12 <;>
        by_cases hrs2 : rs2 w = 0 <;> by_cases hrd : rd w = 0 <;>
          (simp only [h12, hrs2, hrd]; rfl)
    all_goals rw [hq, hf]; rfl
  · rcases three_bits_cases (funct3 w) with hf | hf | hf | hf | hf | hf | hf | hf <;>
      (rw [hq, hf]; rfl)

theorem decodeInsn16_form (ctx : Ctx) (insn : Insn) {w : BitVec 16} {f : Form}
    (hf : form w = some f) : decodeInsn16 ctx insn w = (f.sel w).trans ctx insn w := by
  rw [decodeInsn16, switch16_form, hf, selOf]

/-! ## Operands -/

section

variable (w : BitVec 16)

theorem field_eq (s l : Nat) (h : s + l ≤ 32) :
    field w s l = (w.extractLsb' s l).setWidth 32 := by
  rw [field, extract32_eq _ s l h, BitVec.extractLsb'_setWidth_of_le h]

theorem sfield_eq (s l : Nat) (hl : 0 < l) (h : s + l ≤ 32) :
    sfield w s l = (w.extractLsb' s l).signExtend 32 := by
  rw [sfield, sextract32_eq _ s l hl h, BitVec.extractLsb'_setWidth_of_le h]

theorem toReg_field (s : Nat) (h : s + 5 ≤ 32) : toReg (field w s 5) = w.extractLsb' s 5 := by
  rw [field_eq w s 5 h, toReg, Slice.setWidth_setWidth _ (by decide), BitVec.setWidth_eq]

theorem rd_eq : toReg (field w 7 5) = rd w := toReg_field w 7 (by decide)

theorem rs2_eq : toReg (field w 2 5) = rs2 w := toReg_field w 2 (by decide)

theorem exRvcRegister_eq (x : BitVec 3) :
    exRvcRegister (x.setWidth 32) = (0b01#2 ++ x : BitVec (2 + 3)) := by
  revert x
  decide

theorem rdPrime_eq : exRvcRegister (field w 7 3) = rdPrime w := by
  rw [field_eq w 7 3 (by decide), exRvcRegister_eq]
  rfl

theorem rs2Prime_eq : exRvcRegister (field w 2 3) = rs2Prime w := by
  rw [field_eq w 2 3 (by decide), exRvcRegister_eq]
  rfl

theorem extend_unsigned {n : Nat} (x : BitVec n) (h : n < 12) :
    (x.setWidth 12).signExtend 32 = x.setWidth 32 :=
  Slice.signExtend_setWidth x h

theorem extend_signed {n : Nat} (x : BitVec n) (h : n ≤ 12) :
    (x.signExtend 12).signExtend 32 = x.signExtend 32 :=
  Slice.signExtend_signExtend x h

theorem imm6_eq :
    deposit32 (field w 2 5) 5 27 (sfield w 12 1) = ((imm6 w).signExtend 12).signExtend 32 := by
  rw [field_eq w 2 5 (by decide), sfield_eq w 12 1 (by decide) (by decide),
    deposit32_signExtend _ _ 27 (by decide) (by decide), extend_signed _ (by decide)]
  rfl

theorem shamt_eq : deposit32 (field w 2 5) 5 27 (field w 12 1) = (imm6 w).setWidth 32 := by
  rw [field_eq w 2 5 (by decide), field_eq w 12 1 (by decide),
    deposit32_setWidth _ _ 27 (by decide)]
  rfl

theorem immAddi4spn_eq :
    exShift 2 (deposit32 (deposit32 (deposit32 (field w 6 1) 1 31 (field w 5 1))
      2 30 (field w 11 2)) 4 28 (field w 7 4)) = ((immAddi4spn w).setWidth 12).signExtend 32 := by
  rw [field_eq w 6 1 (by decide), field_eq w 5 1 (by decide), field_eq w 11 2 (by decide),
    field_eq w 7 4 (by decide), deposit32_setWidth _ _ 31 (by decide),
    deposit32_setWidth _ _ 30 (by decide), deposit32_setWidth _ _ 28 (by decide), exShift,
    Slice.setWidth_shiftLeft, extend_unsigned _ (by decide)]
  rfl

theorem immLw_eq :
    exShift 2 (deposit32 (deposit32 (field w 6 1) 1 31 (field w 10 3)) 4 28 (field w 5 1)) =
      ((immLw w).setWidth 12).signExtend 32 := by
  rw [field_eq w 6 1 (by decide), field_eq w 10 3 (by decide), field_eq w 5 1 (by decide),
    deposit32_setWidth _ _ 31 (by decide), deposit32_setWidth _ _ 28 (by decide), exShift,
    Slice.setWidth_shiftLeft, extend_unsigned _ (by decide)]
  rfl

theorem immLd_eq :
    exShift 3 (deposit32 (field w 10 3) 3 29 (field w 5 2)) =
      ((immLd w).setWidth 12).signExtend 32 := by
  rw [field_eq w 10 3 (by decide), field_eq w 5 2 (by decide),
    deposit32_setWidth _ _ 29 (by decide), exShift, Slice.setWidth_shiftLeft,
    extend_unsigned _ (by decide)]
  rfl

theorem immAddi16sp_eq :
    exShift 4 (deposit32 (deposit32 (deposit32 (deposit32 (field w 6 1) 1 31 (field w 2 1))
      2 30 (field w 5 1)) 3 29 (field w 3 2)) 5 27 (sfield w 12 1)) =
      ((immAddi16sp w).signExtend 12).signExtend 32 := by
  rw [field_eq w 6 1 (by decide), field_eq w 2 1 (by decide), field_eq w 5 1 (by decide),
    field_eq w 3 2 (by decide), sfield_eq w 12 1 (by decide) (by decide),
    deposit32_setWidth _ _ 31 (by decide), deposit32_setWidth _ _ 30 (by decide),
    deposit32_setWidth _ _ 29 (by decide), deposit32_signExtend _ _ 27 (by decide) (by decide),
    exShift, Slice.signExtend_shiftLeft _ 4 (by decide), extend_signed _ (by decide)]
  rfl

/-- An immediate counted from bit 12, as `lui` has it. -/
theorem immLui_eq :
    exShift 12 (deposit32 (field w 2 5) 5 27 (sfield w 12 1)) =
      (imm6 w).signExtend 20 ++ 0#12 := by
  rw [imm6_eq, extend_signed _ (by decide), exShift,
    ← Slice.signExtend_signExtend (imm6 w) (by decide : 6 ≤ 20),
    Slice.signExtend_shiftLeft _ 12 (by decide)]
  exact BitVec.signExtend_eq _

theorem halfwords_eq {n m : Nat} (x : BitVec n) (hn : 0 < n) (h : n ≤ m) :
    (x.signExtend m ++ 0#1).signExtend 32 = (x ++ 0#1).signExtend 32 := by
  rw [← Slice.signExtend_shiftLeft _ 1 (by omega), Slice.signExtend_signExtend x h,
    Slice.signExtend_shiftLeft _ 1 hn]

theorem offsetJ_eq :
    exShift 1 (deposit32 (deposit32 (deposit32 (deposit32 (deposit32 (deposit32 (deposit32
      (field w 3 3) 3 29 (field w 11 1)) 4 28 (field w 2 1)) 5 27 (field w 7 1))
      6 26 (field w 6 1)) 7 25 (field w 9 2)) 9 23 (field w 8 1)) 10 22 (sfield w 12 1)) =
      ((offsetJ w).signExtend 20 ++ 0#1).signExtend 32 := by
  rw [field_eq w 3 3 (by decide), field_eq w 11 1 (by decide), field_eq w 2 1 (by decide),
    field_eq w 7 1 (by decide), field_eq w 6 1 (by decide), field_eq w 9 2 (by decide),
    field_eq w 8 1 (by decide), sfield_eq w 12 1 (by decide) (by decide),
    deposit32_setWidth _ _ 29 (by decide), deposit32_setWidth _ _ 28 (by decide),
    deposit32_setWidth _ _ 27 (by decide), deposit32_setWidth _ _ 26 (by decide),
    deposit32_setWidth _ _ 25 (by decide), deposit32_setWidth _ _ 23 (by decide),
    deposit32_signExtend _ _ 22 (by decide) (by decide), exShift,
    Slice.signExtend_shiftLeft _ 1 (by decide), halfwords_eq _ (by decide) (by decide)]
  rfl

theorem offsetB_eq :
    exShift 1 (deposit32 (deposit32 (deposit32 (deposit32 (field w 3 2) 2 30 (field w 10 2))
      4 28 (field w 2 1)) 5 27 (field w 5 2)) 7 25 (sfield w 12 1)) =
      ((offsetB w).signExtend 12 ++ 0#1).signExtend 32 := by
  rw [field_eq w 3 2 (by decide), field_eq w 10 2 (by decide), field_eq w 2 1 (by decide),
    field_eq w 5 2 (by decide), sfield_eq w 12 1 (by decide) (by decide),
    deposit32_setWidth _ _ 30 (by decide), deposit32_setWidth _ _ 28 (by decide),
    deposit32_setWidth _ _ 27 (by decide), deposit32_signExtend _ _ 25 (by decide) (by decide),
    exShift, Slice.signExtend_shiftLeft _ 1 (by decide), halfwords_eq _ (by decide) (by decide)]
  rfl

theorem immLdsp_eq :
    exShift 3 (deposit32 (deposit32 (field w 5 2) 2 30 (field w 12 1)) 3 29 (field w 2 3)) =
      ((immLdsp w).setWidth 12).signExtend 32 := by
  rw [field_eq w 5 2 (by decide), field_eq w 12 1 (by decide), field_eq w 2 3 (by decide),
    deposit32_setWidth _ _ 30 (by decide), deposit32_setWidth _ _ 29 (by decide), exShift,
    Slice.setWidth_shiftLeft, extend_unsigned _ (by decide)]
  rfl

theorem immLwsp_eq :
    exShift 2 (deposit32 (deposit32 (field w 4 3) 3 29 (field w 12 1)) 4 28 (field w 2 2)) =
      ((immLwsp w).setWidth 12).signExtend 32 := by
  rw [field_eq w 4 3 (by decide), field_eq w 12 1 (by decide), field_eq w 2 2 (by decide),
    deposit32_setWidth _ _ 29 (by decide), deposit32_setWidth _ _ 28 (by decide), exShift,
    Slice.setWidth_shiftLeft, extend_unsigned _ (by decide)]
  rfl

theorem immSwsp_eq :
    exShift 2 (deposit32 (field w 9 4) 4 28 (field w 7 2)) =
      ((immSwsp w).setWidth 12).signExtend 32 := by
  rw [field_eq w 9 4 (by decide), field_eq w 7 2 (by decide),
    deposit32_setWidth _ _ 28 (by decide), exShift, Slice.setWidth_shiftLeft,
    extend_unsigned _ (by decide)]
  rfl

theorem immSdsp_eq :
    exShift 3 (deposit32 (field w 10 3) 3 29 (field w 7 3)) =
      ((immSdsp w).setWidth 12).signExtend 32 := by
  rw [field_eq w 10 3 (by decide), field_eq w 7 3 (by decide),
    deposit32_setWidth _ _ 29 (by decide), exShift, Slice.setWidth_shiftLeft,
    extend_unsigned _ (by decide)]
  rfl

end

end Rvvk.Isa.Rvc
