import Rvvk.Cpu.Handlers
import Rvvk.Isa.Instr
import Rvvk.Translate.Decode32

/-!
# Decoding the standard encodings

What `decode_insn32` makes of the encoding of each instruction: the handler it
selects, the operands it records and the successors it predicts.
-/

namespace Rvvk.Isa

/-! ## Handlers -/

def ROp.handler : ROp → Handler
  | add => .doAdd
  | sub => .doSub
  | sll => .doSll
  | slt => .doSlt
  | sltu => .doSltu
  | xor => .doXor
  | srl => .doSrl
  | sra => .doSra
  | or => .doOr
  | and => .doAnd
  | addw => .doAddw
  | subw => .doSubw
  | sllw => .doSllw
  | srlw => .doSrlw
  | sraw => .doSraw
  | mul => .doMul
  | mulh => .doMulh
  | mulhsu => .doMulhsu
  | mulhu => .doMulhu
  | div => .doDiv
  | divu => .doDivu
  | rem => .doRem
  | remu => .doRemu
  | mulw => .doMulw
  | divw => .doDivw
  | divuw => .doDivuw
  | remw => .doRemw
  | remuw => .doRemuw

def IOp.handler : IOp → Handler
  | lb => .doLb
  | lh => .doLh
  | lw => .doLw
  | ld => .doLd
  | lbu => .doLbu
  | lhu => .doLhu
  | lwu => .doLwu
  | addi => .doAddi
  | slti => .doSlti
  | sltiu => .doSltiu
  | xori => .doXori
  | ori => .doOri
  | andi => .doAndi
  | addiw => .doAddiw

def ShiftOp.handler : ShiftOp → Handler
  | slli => .doSlli
  | srli => .doSrli
  | srai => .doSrai

def ShiftWOp.handler : ShiftWOp → Handler
  | slliw => .doSlliw
  | srliw => .doSrliw
  | sraiw => .doSraiw

def SOp.handler : SOp → Handler
  | sb => .doSb
  | sh => .doSh
  | sw => .doSw
  | sd => .doSd

def BOp.handler : BOp → Handler
  | beq => .doBeq
  | bne => .doBne
  | blt => .doBlt
  | bge => .doBge
  | bltu => .doBltu
  | bgeu => .doBgeu

def CsrOp.handler : CsrOp → Handler
  | csrrw => .doCsrrw
  | csrrs => .doCsrrs
  | csrrc => .doCsrrc
  | csrrwi => .doCsrrwi
  | csrrsi => .doCsrrsi
  | csrrci => .doCsrrci

def Width.lrHandler : Width → Handler
  | w => .doLrW
  | d => .doLrD

def AmoOp.handler : AmoOp → Width → Handler
  | sc, .w => .doScW
  | swap, .w => .doAmoswapW
  | add, .w => .doAmoaddW
  | xor, .w => .doAmoxorW
  | and, .w => .doAmoandW
  | or, .w => .doAmoorW
  | min, .w => .doAmominW
  | max, .w => .doAmomaxW
  | minu, .w => .doAmominuW
  | maxu, .w => .doAmomaxuW
  | sc, .d => .doScD
  | swap, .d => .doAmoswapD
  | add, .d => .doAmoaddD
  | xor, .d => .doAmoxorD
  | and, .d => .doAmoandD
  | or, .d => .doAmoorD
  | min, .d => .doAmominD
  | max, .d => .doAmomaxD
  | minu, .d => .doAmominuD
  | maxu, .d => .doAmomaxuD

/-- What the decoder records for an instruction; `ebreak` is taken for `ecall`. -/
def Instr.translate (ctx : Ctx) (insn : Insn) : Instr → Ctx × Insn
  | r op rd rs1 rs2 =>
      transRd op.handler ctx { insn with rs1 := rs1, rd := rd, rs2 := rs2 }
  | i op rd rs1 imm =>
      transRd op.handler ctx { insn with rs1 := rs1, rd := rd, imm := imm.signExtend 32 }
  | shift op rd rs1 shamt =>
      transRd op.handler ctx
        { insn with rs1 := rs1, rd := rd, imm := (op.funct6 ++ shamt).signExtend 32 }
  | shiftW op rd rs1 shamt =>
      transRd op.handler ctx
        { insn with rs1 := rs1, rd := rd, imm := (op.funct7 ++ shamt).signExtend 32 }
  | s op rs1 rs2 imm =>
      transPlain op.handler ctx { insn with rs1 := rs1, imm := imm.signExtend 32, rs2 := rs2 }
  | b op rs1 rs2 offset =>
      transBranch op.handler 4 ctx
        { insn with rs1 := rs1, imm := (offset ++ 0#1).signExtend 32, rs2 := rs2 }
  | lui rd imm => transPlain .doLui ctx { insn with rd := rd, imm := imm ++ 0#12 }
  | auipc rd imm =>
      (ctx, { insn with rd := rd, imm := imm ++ 0#12, handler := .doAuipc, pc := ctx.pc })
  | jal rd offset =>
      transJump .doJal ctx { insn with rd := rd, imm := (offset ++ 0#1).signExtend 32 }
  | jalr rd rs1 imm =>
      transExit .doJalr ctx { insn with rs1 := rs1, rd := rd, imm := imm.signExtend 32 }
  | csr op rd rs1 num =>
      transPlain op.handler ctx { insn with rs1 := rs1, rd := rd, imm := num.setWidth 32 }
  | lr width _ rd rs1 => transPlain width.lrHandler ctx { insn with rd := rd, rs1 := rs1 }
  | amo op width _ rd rs1 rs2 =>
      transPlain (op.handler width) ctx { insn with rs2 := rs2, rd := rd, rs1 := rs1 }
  | fence _ _ _ | fenceI _ _ _ => transPlain .doEmpty ctx insn
  | ecall | ebreak => transExit .doEcall ctx insn

/-! ## Masks -/

section

variable (x : BitVec 32)

theorem and_opcodeMask : x &&& opcodeMask = (x.extractLsb' 0 7).setWidth 32 := by
  rw [show opcodeMask = Slice.mask 32 0 7 by decide, Slice.and_mask, BitVec.shiftLeft_zero]

theorem and_funct3Mask : x &&& funct3Mask = (x.extractLsb' 12 3).setWidth 32 <<< 12 := by
  rw [show funct3Mask = Slice.mask 32 12 3 by decide, Slice.and_mask]

theorem and_funct7Mask : x &&& funct7Mask = (x.extractLsb' 25 7).setWidth 32 <<< 25 := by
  rw [show funct7Mask = Slice.mask 32 25 7 by decide, Slice.and_mask]

theorem and_op2731Mask : x &&& op2731Mask = (x.extractLsb' 27 5).setWidth 32 <<< 27 := by
  rw [show op2731Mask = Slice.mask 32 27 5 by decide, Slice.and_mask]

theorem and_op2024Mask : x &&& op2024Mask = (x.extractLsb' 20 5).setWidth 32 <<< 20 := by
  rw [show op2024Mask = Slice.mask 32 20 5 by decide, Slice.and_mask]

theorem and_i11xMask : x &&& i11xMask = (x.extractLsb' 26 6).setWidth 32 <<< 26 := by
  rw [show i11xMask = Slice.mask 32 26 6 by decide, Slice.and_mask]

end

/-! ## Selection -/

theorem switch32_r (op : ROp) (rd rs1 rs2 : Reg) :
    (switch32 (Instr.r op rd rs1 rs2).encode).trans = genTransR op.handler := by
  simp only [Instr.encode, switch32, switchOp, switchOp32, and_opcodeMask, and_funct3Mask,
    and_funct7Mask, word_opcode, word_funct3, word_funct7]
  cases op <;> rfl

theorem switch32_i (op : IOp) (rd rs1 : Reg) (imm : BitVec 12) :
    (switch32 (Instr.i op rd rs1 imm).encode).trans = genTransI op.handler := by
  simp only [Instr.encode, wordI, switch32, switchLoad, switchOpImm, switchOpImm32, and_opcodeMask,
    and_funct3Mask, word_opcode, word_funct3]
  cases op <;> rfl

theorem wordI_funct6 (f6 : BitVec 6) (shamt : BitVec 6) (rs1 : Reg) (f3 : BitVec 3) (rd : Reg)
    (opc : BitVec 7) : (wordI (f6 ++ shamt) rs1 f3 rd opc).extractLsb' 26 6 = f6 := by
  have h : ((f6 ++ shamt).extractLsb' 5 7).extractLsb' 1 6 = (f6 ++ shamt).extractLsb' 6 6 :=
    Slice.extract_extract _ 5 1 7 6 (by decide)
  rw [wordI, word_high _ _ _ _ _ _ _ _ (by decide), h, BitVec.extractLsb'_append_eq_left]

theorem switch32_shift (op : ShiftOp) (rd rs1 : Reg) (shamt : BitVec 6) :
    (switch32 (Instr.shift op rd rs1 shamt).encode).trans = genTransI op.handler := by
  have h6 := wordI_funct6 op.funct6 shamt rs1 op.funct3 rd 0b0010011#7
  simp only [Instr.encode, switch32, switchOpImm, and_opcodeMask, and_funct3Mask, and_i11xMask, h6]
  simp only [wordI, word_opcode, word_funct3]
  cases op <;> rfl

theorem switch32_shiftW (op : ShiftWOp) (rd rs1 : Reg) (shamt : BitVec 5) :
    (switch32 (Instr.shiftW op rd rs1 shamt).encode).trans = genTransI op.handler := by
  simp only [Instr.encode, wordI, switch32, switchOpImm32, and_opcodeMask, and_funct3Mask,
    and_funct7Mask, word_opcode, word_funct3, word_funct7, BitVec.extractLsb'_append_eq_left]
  cases op <;> rfl

theorem switch32_s (op : SOp) (rs1 rs2 : Reg) (imm : BitVec 12) :
    (switch32 (Instr.s op rs1 rs2 imm).encode).trans = genTransS op.handler := by
  simp only [Instr.encode, wordS, switch32, switchStore, and_opcodeMask, and_funct3Mask,
    word_opcode, word_funct3]
  cases op <;> rfl

theorem switch32_b (op : BOp) (rs1 rs2 : Reg) (offset : BitVec 12) :
    (switch32 (Instr.b op rs1 rs2 offset).encode).trans = genTransB op.handler := by
  simp only [Instr.encode, wordB, switch32, switchBranch, and_opcodeMask, and_funct3Mask,
    word_opcode, word_funct3]
  cases op <;> rfl

theorem switch32_lui (rd : Reg) (imm : BitVec 20) :
    (switch32 (Instr.lui rd imm).encode).trans = transLui := by
  simp only [Instr.encode, switch32, and_opcodeMask, wordU_opcode]
  rfl

theorem switch32_auipc (rd : Reg) (imm : BitVec 20) :
    (switch32 (Instr.auipc rd imm).encode).trans = transAuipc := by
  simp only [Instr.encode, switch32, and_opcodeMask, wordU_opcode]
  rfl

theorem switch32_jal (rd : Reg) (offset : BitVec 20) :
    (switch32 (Instr.jal rd offset).encode).trans = transJal := by
  simp only [Instr.encode, wordJ, switch32, and_opcodeMask, wordU_opcode]
  rfl

theorem switch32_jalr (rd rs1 : Reg) (imm : BitVec 12) :
    (switch32 (Instr.jalr rd rs1 imm).encode).trans = transJalr := by
  simp only [Instr.encode, wordI, switch32, switchJalr, and_opcodeMask, and_funct3Mask,
    word_opcode, word_funct3]
  rfl

theorem switch32_csr (op : CsrOp) (rd rs1 : Reg) (num : BitVec 12) :
    (switch32 (Instr.csr op rd rs1 num).encode).trans = genTransCsr op.handler := by
  simp only [Instr.encode, wordI, switch32, switchSystem, and_opcodeMask, and_funct3Mask,
    word_opcode, word_funct3]
  cases op <;> rfl

theorem word_funct5 (f5 : BitVec 5) (aqrl : BitVec 2) (rs2 rs1 : Reg) (f3 : BitVec 3) (rd : Reg)
    (opc : BitVec 7) : (word (f5 ++ aqrl) rs2 rs1 f3 rd opc).extractLsb' 27 5 = f5 := by
  rw [word_high _ _ _ _ _ _ _ _ (by decide), BitVec.extractLsb'_append_eq_left]

theorem switch32_lr (width : Width) (aqrl : BitVec 2) (rd rs1 : Reg) :
    (switch32 (Instr.lr width aqrl rd rs1).encode).trans = transAtomLd width.lrHandler := by
  simp only [Instr.encode, switch32, switchAmo, and_opcodeMask, and_funct3Mask, and_op2731Mask,
    and_op2024Mask, word_opcode, word_funct3, word_funct5, word_rs2]
  cases width <;> rfl

theorem switch32_amo (op : AmoOp) (width : Width) (aqrl : BitVec 2) (rd rs1 rs2 : Reg) :
    (switch32 (Instr.amo op width aqrl rd rs1 rs2).encode).trans =
      transAtomSt (op.handler width) := by
  simp only [Instr.encode, switch32, switchAmo, and_opcodeMask, and_funct3Mask, and_op2731Mask,
    word_opcode, word_funct3, word_funct5]
  cases width <;> cases op <;> rfl

/-- Of a word with the MISC-MEM opcode only `funct3` matters. -/
theorem switch32_fence (rd rs1 : Reg) (imm : BitVec 12) (ctx : Ctx) (insn : Insn)
    (op : BitVec 32) :
    (switch32 (Instr.fence rd rs1 imm).encode).trans ctx insn op = transPlain .doEmpty ctx insn := by
  have h : switch32 (Instr.fence rd rs1 imm).encode =
      if (Instr.fence rd rs1 imm).encode &&& 0xffff8f80#32 = 0x01000000#32 then .pause
      else .fence := by
    simp only [Instr.encode, wordI, switch32, switchMiscMem, and_opcodeMask, and_funct3Mask,
      word_opcode, word_funct3]
    rfl
  rw [h]
  split <;> rfl

theorem switch32_fenceI (rd rs1 : Reg) (imm : BitVec 12) :
    (switch32 (Instr.fenceI rd rs1 imm).encode).trans = transFenceI := by
  simp only [Instr.encode, wordI, switch32, switchMiscMem, and_opcodeMask, and_funct3Mask,
    word_opcode, word_funct3]
  rfl

/-! ## Operands -/

theorem toReg_extract32 (op : BitVec 32) (s : Nat) (h : s + 5 ≤ 32) :
    toReg (extract32 op s 5) = op.extractLsb' s 5 := by
  rw [toReg, extract32_eq op s 5 h, Slice.setWidth_setWidth _ (by decide), BitVec.setWidth_eq]

theorem toReg_rs1 (op : BitVec 32) : toReg (extract32 op 15 5) = op.extractLsb' 15 5 :=
  toReg_extract32 op 15 (by decide)

theorem toReg_rs2 (op : BitVec 32) : toReg (extract32 op 20 5) = op.extractLsb' 20 5 :=
  toReg_extract32 op 20 (by decide)

theorem toReg_rd (op : BitVec 32) : toReg (extract32 op 7 5) = op.extractLsb' 7 5 :=
  toReg_extract32 op 7 (by decide)

section

variable (rs1 rs2 rd : Reg) (f3 : BitVec 3) (opc : BitVec 7)

theorem wordI_imm (imm : BitVec 12) : (wordI imm rs1 f3 rd opc).extractLsb' 20 12 = imm := by
  have h : (wordI imm rs1 f3 rd opc).extractLsb' 20 12 =
      imm.extractLsb' 5 7 ++ imm.extractLsb' 0 5 := by
    have hj : ((wordI imm rs1 f3 rd opc).extractLsb' 25 7 ++
        (wordI imm rs1 f3 rd opc).extractLsb' 20 5 : BitVec (7 + 5)) =
          (wordI imm rs1 f3 rd opc).extractLsb' 20 (7 + 5) :=
      BitVec.extractLsb'_append_extractLsb'_eq_extractLsb' rfl
    rw [wordI, word_funct7, word_rs2] at hj
    exact hj.symm
  rw [h, BitVec.extractLsb'_append_extractLsb'_eq_extractLsb' (by decide)]
  exact BitVec.extractLsb'_eq_self

theorem immI_word (imm : BitVec 12) :
    sextract32 (wordI imm rs1 f3 rd opc) 20 12 = imm.signExtend 32 := by
  rw [sextract32_eq _ 20 12 (by decide) (by decide), wordI_imm]

theorem immS_word (imm : BitVec 12) :
    deposit32 (extract32 (wordS imm rs2 rs1 f3 opc) 7 5) 5 27
      (sextract32 (wordS imm rs2 rs1 f3 opc) 25 7) = imm.signExtend 32 := by
  rw [extract32_eq _ 7 5 (by decide), sextract32_eq _ 25 7 (by decide) (by decide), wordS, word_rd,
    word_funct7, deposit32_signExtend _ _ 27 (by decide) (by decide),
    BitVec.extractLsb'_append_extractLsb'_eq_extractLsb' (by decide)]
  exact congrArg (BitVec.signExtend 32) BitVec.extractLsb'_eq_self

theorem immB_word (offset : BitVec 12) :
    let op := wordB offset rs2 rs1 f3 opc
    exShift 1 (deposit32 (deposit32 (deposit32 (extract32 op 8 4) 4 28 (extract32 op 25 6))
      10 22 (extract32 op 7 1)) 11 21 (sextract32 op 31 1)) = (offset ++ 0#1).signExtend 32 := by
  intro op
  have h8 : op.extractLsb' 8 4 = offset.extractLsb' 0 4 := by
    show (word _ _ _ _ _ _).extractLsb' 8 4 = _
    rw [word_tail _ _ _ _ _ _ _ _ (by decide), BitVec.extractLsb'_append_eq_of_le (by decide),
      BitVec.extractLsb'_append_eq_left]
  have h25 : op.extractLsb' 25 6 = offset.extractLsb' 4 6 := by
    show (word _ _ _ _ _ _).extractLsb' 25 6 = _
    rw [word_high _ _ _ _ _ _ _ _ (by decide), BitVec.extractLsb'_append_eq_right]
  have h7 : op.extractLsb' 7 1 = offset.extractLsb' 10 1 := by
    show (word _ _ _ _ _ _).extractLsb' 7 1 = _
    rw [word_tail _ _ _ _ _ _ _ _ (by decide), BitVec.extractLsb'_append_eq_of_le (by decide),
      BitVec.extractLsb'_append_eq_right]
  have h31 : op.extractLsb' 31 1 = offset.extractLsb' 11 1 := by
    show (word _ _ _ _ _ _).extractLsb' 31 1 = _
    rw [word_high _ _ _ _ _ _ _ _ (by decide), BitVec.extractLsb'_append_eq_left]
  rw [extract32_eq _ 8 4 (by decide), extract32_eq _ 25 6 (by decide),
    extract32_eq _ 7 1 (by decide), sextract32_eq _ 31 1 (by decide) (by decide), h8, h25, h7, h31,
    deposit32_setWidth _ _ 28 (by decide), deposit32_setWidth _ _ 22 (by decide),
    deposit32_signExtend _ _ 21 (by decide) (by decide), exShift,
    Slice.signExtend_shiftLeft _ 1 (by decide),
    BitVec.extractLsb'_append_extractLsb'_eq_extractLsb' (by decide),
    BitVec.extractLsb'_append_extractLsb'_eq_extractLsb' (by decide),
    BitVec.extractLsb'_append_extractLsb'_eq_extractLsb' (by decide)]
  exact congrArg (fun x : BitVec 12 => (x ++ 0#1).signExtend 32) BitVec.extractLsb'_eq_self

theorem wordU_high (imm : BitVec 20) (s l : Nat) (h : 12 ≤ s) :
    (wordU imm rd opc).extractLsb' s l = imm.extractLsb' (s - 12) l :=
  BitVec.extractLsb'_append_eq_of_le h

theorem immU_word (imm : BitVec 20) :
    exShift 12 (sextract32 (wordU imm rd opc) 12 20) = imm ++ 0#12 := by
  rw [sextract32_eq _ 12 20 (by decide) (by decide), wordU_imm, exShift,
    Slice.signExtend_shiftLeft _ 12 (by decide)]
  exact BitVec.signExtend_eq _

theorem immJ_word (offset : BitVec 20) :
    let op := wordJ offset rd opc
    exShift 1 (deposit32 (deposit32 (deposit32 (extract32 op 21 10) 10 22 (extract32 op 20 1))
      11 21 (extract32 op 12 8)) 19 13 (sextract32 op 31 1)) = (offset ++ 0#1).signExtend 32 := by
  intro op
  have h21 : op.extractLsb' 21 10 = offset.extractLsb' 0 10 := by
    show (wordU _ _ _).extractLsb' 21 10 = _
    rw [wordU_high _ _ _ _ _ (by decide), BitVec.extractLsb'_append_eq_of_add_le (by decide),
      BitVec.extractLsb'_append_eq_left]
  have h20 : op.extractLsb' 20 1 = offset.extractLsb' 10 1 := by
    show (wordU _ _ _).extractLsb' 20 1 = _
    rw [wordU_high _ _ _ _ _ (by decide), BitVec.extractLsb'_append_eq_of_add_le (by decide),
      BitVec.extractLsb'_append_eq_of_add_le (by decide), BitVec.extractLsb'_append_eq_left]
  have h12 : op.extractLsb' 12 8 = offset.extractLsb' 11 8 := by
    show (wordU _ _ _).extractLsb' 12 8 = _
    rw [wordU_high _ _ _ _ _ (by decide), BitVec.extractLsb'_append_eq_of_add_le (by decide),
      BitVec.extractLsb'_append_eq_of_add_le (by decide), BitVec.extractLsb'_append_eq_right]
  have h31 : op.extractLsb' 31 1 = offset.extractLsb' 19 1 := by
    show (wordU _ _ _).extractLsb' 31 1 = _
    rw [wordU_high _ _ _ _ _ (by decide), BitVec.extractLsb'_append_eq_left]
  rw [extract32_eq _ 21 10 (by decide), extract32_eq _ 20 1 (by decide),
    extract32_eq _ 12 8 (by decide), sextract32_eq _ 31 1 (by decide) (by decide), h21, h20, h12,
    h31, deposit32_setWidth _ _ 22 (by decide), deposit32_setWidth _ _ 21 (by decide),
    deposit32_signExtend _ _ 13 (by decide) (by decide), exShift,
    Slice.signExtend_shiftLeft _ 1 (by decide),
    BitVec.extractLsb'_append_extractLsb'_eq_extractLsb' (by decide),
    BitVec.extractLsb'_append_extractLsb'_eq_extractLsb' (by decide),
    BitVec.extractLsb'_append_extractLsb'_eq_extractLsb' (by decide)]
  exact congrArg (fun x : BitVec 20 => (x ++ 0#1).signExtend 32) BitVec.extractLsb'_eq_self

variable (insn : Insn)

theorem extractR_word (f7 : BitVec 7) :
    decodeInsn32ExtractR insn (word f7 rs2 rs1 f3 rd opc) =
      { insn with rs1 := rs1, rd := rd, rs2 := rs2 } := by
  simp only [decodeInsn32ExtractR, toReg_rs1, toReg_rs2, toReg_rd, word_rs1, word_rs2, word_rd]

theorem extractI_word (imm : BitVec 12) :
    decodeInsn32ExtractI insn (wordI imm rs1 f3 rd opc) =
      { insn with rs1 := rs1, rd := rd, imm := imm.signExtend 32 } := by
  rw [decodeInsn32ExtractI, toReg_rs1, toReg_rd, immI_word, wordI, word_rs1, word_rd]

theorem extractS_word (imm : BitVec 12) :
    decodeInsn32ExtractS insn (wordS imm rs2 rs1 f3 opc) =
      { insn with rs1 := rs1, imm := imm.signExtend 32, rs2 := rs2 } := by
  rw [decodeInsn32ExtractS, toReg_rs1, toReg_rs2, immS_word, wordS, word_rs1, word_rs2]

theorem extractB_word (offset : BitVec 12) :
    decodeInsn32ExtractB insn (wordB offset rs2 rs1 f3 opc) =
      { insn with rs1 := rs1, imm := (offset ++ 0#1).signExtend 32, rs2 := rs2 } := by
  rw [decodeInsn32ExtractB, toReg_rs1, toReg_rs2, immB_word, wordB, word_rs1, word_rs2]

theorem extractU_word (imm : BitVec 20) :
    decodeInsn32ExtractU insn (wordU imm rd opc) = { insn with rd := rd, imm := imm ++ 0#12 } := by
  rw [decodeInsn32ExtractU, toReg_rd, immU_word, wordU_rd]

theorem extractJ_word (offset : BitVec 20) :
    decodeInsn32ExtractJ insn (wordJ offset rd opc) =
      { insn with rd := rd, imm := (offset ++ 0#1).signExtend 32 } := by
  rw [decodeInsn32ExtractJ, toReg_rd, immJ_word, wordJ, wordU_rd]

theorem extractCsr_word (num : BitVec 12) :
    decodeInsn32ExtractCsr insn (wordI num rs1 f3 rd opc) =
      { insn with rs1 := rs1, rd := rd, imm := num.setWidth 32 } := by
  rw [decodeInsn32ExtractCsr, toReg_rs1, toReg_rd, extract32_eq _ 20 12 (by decide), wordI_imm,
    wordI, word_rs1, word_rd]

theorem extractAtomLd_word (f7 : BitVec 7) :
    decodeInsn32ExtractAtomLd insn (word f7 rs2 rs1 f3 rd opc) =
      { insn with rd := rd, rs1 := rs1 } := by
  rw [decodeInsn32ExtractAtomLd, toReg_rs1, toReg_rd, word_rs1, word_rd]

theorem extractAtomSt_word (f7 : BitVec 7) :
    decodeInsn32ExtractAtomSt insn (word f7 rs2 rs1 f3 rd opc) =
      { insn with rs2 := rs2, rd := rd, rs1 := rs1 } := by
  rw [decodeInsn32ExtractAtomSt, toReg_rs1, toReg_rs2, toReg_rd, word_rs1, word_rs2, word_rd]

end

/-! ## The decoder on encodings -/

section

variable (ctx : Ctx) (insn : Insn)

theorem decodeInsn32_encode (i : Instr) :
    decodeInsn32 ctx insn i.encode = i.translate ctx insn := by
  unfold decodeInsn32
  cases i with
  | r op rd rs1 rs2 => rw [switch32_r, genTransR, Instr.encode, extractR_word, Instr.translate]
  | i op rd rs1 imm => rw [switch32_i, genTransI, Instr.encode, extractI_word, Instr.translate]
  | shift op rd rs1 shamt =>
      rw [switch32_shift, genTransI, Instr.encode, extractI_word, Instr.translate]
  | shiftW op rd rs1 shamt =>
      rw [switch32_shiftW, genTransI, Instr.encode, extractI_word, Instr.translate]
  | s op rs1 rs2 imm => rw [switch32_s, genTransS, Instr.encode, extractS_word, Instr.translate]
  | b op rs1 rs2 offset => rw [switch32_b, genTransB, Instr.encode, extractB_word, Instr.translate]
  | lui rd imm => rw [switch32_lui, transLui, Instr.encode, extractU_word, Instr.translate]
  | auipc rd imm => rw [switch32_auipc, transAuipc, Instr.encode, extractU_word, Instr.translate]
  | jal rd offset => rw [switch32_jal, transJal, Instr.encode, extractJ_word, Instr.translate]
  | jalr rd rs1 imm => rw [switch32_jalr, transJalr, Instr.encode, extractI_word, Instr.translate]
  | csr op rd rs1 num =>
      rw [switch32_csr, genTransCsr, Instr.encode, extractCsr_word, Instr.translate]
  | lr width aqrl rd rs1 =>
      rw [switch32_lr, transAtomLd, Instr.encode, extractAtomLd_word, Instr.translate]
  | amo op width aqrl rd rs1 rs2 =>
      rw [switch32_amo, transAtomSt, Instr.encode, extractAtomSt_word, Instr.translate]
  | fence rd rs1 imm => exact switch32_fence rd rs1 imm ctx insn _
  | fenceI rd rs1 imm =>
      rw [switch32_fenceI]
      rfl
  | ecall => rfl
  | ebreak => rfl

end

/-! ## Round trip -/

/-- The handler of an instruction. The fences have no effect, and `ebreak` has no
handler other than that of `ecall`. -/
def Instr.handler : Instr → Handler
  | r op _ _ _ => op.handler
  | i op _ _ _ => op.handler
  | shift op _ _ _ => op.handler
  | shiftW op _ _ _ => op.handler
  | s op _ _ _ => op.handler
  | b op _ _ _ => op.handler
  | lui _ _ => .doLui
  | auipc _ _ => .doAuipc
  | jal _ _ => .doJal
  | jalr _ _ _ => .doJalr
  | csr op _ _ _ => op.handler
  | lr width _ _ _ => width.lrHandler
  | amo op width _ _ _ _ => op.handler width
  | fence _ _ _ | fenceI _ _ _ => .doEmpty
  | ecall | ebreak => .doEcall

/-- An operation between registers, a load or an operation with an immediate
whose result goes to `x0`. -/
def Instr.discards : Instr → Bool
  | r _ rd _ _ | i _ rd _ _ | shift _ rd _ _ | shiftW _ rd _ _ => rd == 0
  | _ => false

/-- The operands recorded for an instruction at `pc` are its own, and so are the
successors recorded for a branch or a `jal`. -/
def Instr.Recorded (pc : Word) (c : Ctx) (n : Insn) : Instr → Prop
  | r _ rd rs1 rs2 => n.rd = rd ∧ n.rs1 = rs1 ∧ n.rs2 = rs2
  | i _ rd rs1 imm => n.rd = rd ∧ n.rs1 = rs1 ∧ n.imm = imm.signExtend 32
  | shift _ rd rs1 shamt => n.rd = rd ∧ n.rs1 = rs1 ∧ shamt64 n.imm = shamt.toNat
  | shiftW _ rd rs1 shamt => n.rd = rd ∧ n.rs1 = rs1 ∧ shamt32 n.imm = shamt.toNat
  | s _ rs1 rs2 imm => n.rs1 = rs1 ∧ n.rs2 = rs2 ∧ n.imm = imm.signExtend 32
  | b _ rs1 rs2 offset =>
      n.rs1 = rs1 ∧ n.rs2 = rs2 ∧ n.imm = (offset ++ 0#1).signExtend 32 ∧
        c.pcNext0 = pc + (offset ++ 0#1).signExtend 64 ∧ c.pcNext1 = pc + 4
  | lui rd imm | auipc rd imm => n.rd = rd ∧ n.imm = imm ++ 0#12
  | jal rd offset =>
      n.rd = rd ∧ n.imm = (offset ++ 0#1).signExtend 32 ∧
        c.pcNext0 = pc + (offset ++ 0#1).signExtend 64
  | jalr rd rs1 imm => n.rd = rd ∧ n.rs1 = rs1 ∧ n.imm = imm.signExtend 32
  | csr _ rd rs1 num => n.rd = rd ∧ n.rs1 = rs1 ∧ n.csr = num.setWidth 32
  | lr _ _ rd rs1 => n.rd = rd ∧ n.rs1 = rs1
  | amo _ _ _ rd rs1 rs2 => n.rd = rd ∧ n.rs1 = rs1 ∧ n.rs2 = rs2
  | fence _ _ _ | fenceI _ _ _ | ecall | ebreak => True

theorem shamt64_eq (x : BitVec 32) : shamt64 x = (x.extractLsb' 0 6).toNat := by
  rw [shamt64, show (63 : BitVec 32) = Slice.mask 32 0 6 by decide, Slice.and_mask,
    BitVec.shiftLeft_zero, BitVec.toNat_setWidth_of_le (by decide)]

theorem shamt32_eq (x : BitVec 32) : shamt32 x = (x.extractLsb' 0 5).toNat := by
  rw [shamt32, show (31 : BitVec 32) = Slice.mask 32 0 5 by decide, Slice.and_mask,
    BitVec.shiftLeft_zero, BitVec.toNat_setWidth_of_le (by decide)]

/-- The bits of the immediate of a shift above the shift amount are masked off. -/
theorem shamt64_signExtend (f6 shamt : BitVec 6) :
    shamt64 ((f6 ++ shamt).signExtend 32) = shamt.toNat := by
  rw [shamt64_eq, Slice.extract_signExtend _ 0 6 (by decide) (by decide),
    BitVec.extractLsb'_append_eq_right]

theorem shamt32_signExtend (f7 : BitVec 7) (shamt : BitVec 5) :
    shamt32 ((f7 ++ shamt).signExtend 32) = shamt.toNat := by
  rw [shamt32_eq, Slice.extract_signExtend _ 0 5 (by decide) (by decide),
    BitVec.extractLsb'_append_eq_right]

theorem transRd_handler (h : Handler) (ctx : Ctx) (insn : Insn) :
    (transRd h ctx insn).2 = { insn with handler := if insn.rd == 0 then .doEmpty else h } := by
  unfold transRd
  by_cases hrd : insn.rd = 0
  · have hb : (insn.rd == 0) = true := beq_iff_eq.mpr hrd
    rw [if_pos hrd, hb]
    rfl
  · have hb : (insn.rd == 0) = false := beq_false_of_ne hrd
    rw [if_neg hrd, hb]
    rfl

theorem Instr.translate_handler (ctx : Ctx) (insn : Insn) (i : Instr) :
    (i.translate ctx insn).2.handler = if i.discards then .doEmpty else i.handler := by
  cases i with
  | r op rd rs1 rs2 => exact congrArg Insn.handler (transRd_handler _ ctx _)
  | i op rd rs1 imm => exact congrArg Insn.handler (transRd_handler _ ctx _)
  | shift op rd rs1 shamt => exact congrArg Insn.handler (transRd_handler _ ctx _)
  | shiftW op rd rs1 shamt => exact congrArg Insn.handler (transRd_handler _ ctx _)
  | _ => rfl

theorem jump_target {n : Nat} (x : BitVec n) (hn : n ≤ 32) (pc : Word) :
    pc + (x.signExtend 32).signExtend 64 = pc + x.signExtend 64 := by
  rw [Slice.signExtend_signExtend x hn]

theorem Instr.translate_recorded (ctx : Ctx) (insn : Insn) (i : Instr) :
    i.Recorded ctx.pc (i.translate ctx insn).1 (i.translate ctx insn).2 := by
  cases i with
  | r op rd rs1 rs2 =>
      rw [translate, transRd_handler]
      exact ⟨rfl, rfl, rfl⟩
  | i op rd rs1 imm =>
      rw [translate, transRd_handler]
      exact ⟨rfl, rfl, rfl⟩
  | shift op rd rs1 shamt =>
      rw [translate, transRd_handler]
      exact ⟨rfl, rfl, shamt64_signExtend _ _⟩
  | shiftW op rd rs1 shamt =>
      rw [translate, transRd_handler]
      exact ⟨rfl, rfl, shamt32_signExtend _ _⟩
  | s op rs1 rs2 imm => exact ⟨rfl, rfl, rfl⟩
  | b op rs1 rs2 offset => exact ⟨rfl, rfl, rfl, jump_target _ (by decide) _, rfl⟩
  | lui rd imm => exact ⟨rfl, rfl⟩
  | auipc rd imm => exact ⟨rfl, rfl⟩
  | jal rd offset => exact ⟨rfl, rfl, jump_target _ (by decide) _⟩
  | jalr rd rs1 imm => exact ⟨rfl, rfl, rfl⟩
  | csr op rd rs1 num => exact ⟨rfl, rfl, rfl⟩
  | lr width aqrl rd rs1 => exact ⟨rfl, rfl⟩
  | amo op width aqrl rd rs1 rs2 => exact ⟨rfl, rfl, rfl⟩
  | fence rd rs1 imm => trivial
  | fenceI rd rs1 imm => trivial
  | ecall => trivial
  | ebreak => trivial

/-- Decoding the encoding of an instruction selects its handler and recovers its
operands. -/
theorem decode_encode (i : Instr) (ctx : Ctx) (insn : Insn) :
    (decodeInsn32 ctx insn i.encode).2.handler =
        (if i.discards then .doEmpty else i.handler) ∧
      i.Recorded ctx.pc (decodeInsn32 ctx insn i.encode).1 (decodeInsn32 ctx insn i.encode).2 := by
  rw [decodeInsn32_encode]
  exact ⟨i.translate_handler ctx insn, i.translate_recorded ctx insn⟩

-- `beq a0, zero, -4`.
example : (decodeInsn32 (.start 0x1000) .fresh 0xfe050ee3).1.pcNext0 = 0x0ffc := by decide

end Rvvk.Isa
