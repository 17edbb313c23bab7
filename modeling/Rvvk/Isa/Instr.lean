import Rvvk.Cpu.State

/-!
# The instruction set

The instructions of RV64I, M, A, Zicsr and Zifencei with their standard layouts,
stated independently of the decoder. An offset of a branch or of `jal` is even
and is counted in halfwords, so that every immediate is an arbitrary bit vector.
-/

namespace Rvvk.Isa

/-! ## Instructions -/

inductive ROp
  | add | sub | sll | slt | sltu | xor | srl | sra | or | and
  | addw | subw | sllw | srlw | sraw
  | mul | mulh | mulhsu | mulhu | div | divu | rem | remu
  | mulw | divw | divuw | remw | remuw
deriving DecidableEq, Repr

/-- Loads and register-immediate operations. -/
inductive IOp
  | lb | lh | lw | ld | lbu | lhu | lwu
  | addi | slti | sltiu | xori | ori | andi | addiw
deriving DecidableEq, Repr

inductive ShiftOp
  | slli | srli | srai
deriving DecidableEq, Repr

inductive ShiftWOp
  | slliw | srliw | sraiw
deriving DecidableEq, Repr

inductive SOp
  | sb | sh | sw | sd
deriving DecidableEq, Repr

inductive BOp
  | beq | bne | blt | bge | bltu | bgeu
deriving DecidableEq, Repr

inductive CsrOp
  | csrrw | csrrs | csrrc | csrrwi | csrrsi | csrrci
deriving DecidableEq, Repr

/-- The read-modify-write operations of the A extension, and `sc`. -/
inductive AmoOp
  | sc | swap | add | xor | and | or | min | max | minu | maxu
deriving DecidableEq, Repr

inductive Width
  | w | d
deriving DecidableEq, Repr

inductive Instr
  | r (op : ROp) (rd rs1 rs2 : Reg)
  | i (op : IOp) (rd rs1 : Reg) (imm : BitVec 12)
  | shift (op : ShiftOp) (rd rs1 : Reg) (shamt : BitVec 6)
  | shiftW (op : ShiftWOp) (rd rs1 : Reg) (shamt : BitVec 5)
  | s (op : SOp) (rs1 rs2 : Reg) (imm : BitVec 12)
  | b (op : BOp) (rs1 rs2 : Reg) (offset : BitVec 12)
  | lui (rd : Reg) (imm : BitVec 20)
  | auipc (rd : Reg) (imm : BitVec 20)
  | jal (rd : Reg) (offset : BitVec 20)
  | jalr (rd rs1 : Reg) (imm : BitVec 12)
  /-- `rs1` is the unsigned immediate of an immediate form. -/
  | csr (op : CsrOp) (rd rs1 : Reg) (num : BitVec 12)
  | lr (width : Width) (aqrl : BitVec 2) (rd rs1 : Reg)
  | amo (op : AmoOp) (width : Width) (aqrl : BitVec 2) (rd rs1 rs2 : Reg)
  /-- The fields of a fence that are reserved for finer fences are ignored. -/
  | fence (rd rs1 : Reg) (imm : BitVec 12)
  | fenceI (rd rs1 : Reg) (imm : BitVec 12)
  | ecall
  | ebreak
deriving DecidableEq, Repr

/-! ## Layouts -/

/-- The fields of the R layout, most significant first. -/
def word (f7 : BitVec 7) (rs2 rs1 : Reg) (f3 : BitVec 3) (rd : Reg) (opc : BitVec 7) :
    BitVec 32 :=
  (f7 ++ (rs2 ++ (rs1 ++ (f3 ++ (rd ++ opc)))) : BitVec (7 + (5 + (5 + (3 + (5 + 7))))))

def wordU (imm : BitVec 20) (rd : Reg) (opc : BitVec 7) : BitVec 32 :=
  (imm ++ (rd ++ opc) : BitVec (20 + (5 + 7)))

def wordI (imm : BitVec 12) (rs1 : Reg) (f3 : BitVec 3) (rd : Reg) (opc : BitVec 7) : BitVec 32 :=
  word (imm.extractLsb' 5 7) (imm.extractLsb' 0 5) rs1 f3 rd opc

def wordS (imm : BitVec 12) (rs2 rs1 : Reg) (f3 : BitVec 3) (opc : BitVec 7) : BitVec 32 :=
  word (imm.extractLsb' 5 7) rs2 rs1 f3 (imm.extractLsb' 0 5) opc

/-- `offset[12|10:5]` and `offset[4:1|11]`, where bit 0 of the offset is not stored. -/
def wordB (offset : BitVec 12) (rs2 rs1 : Reg) (f3 : BitVec 3) (opc : BitVec 7) : BitVec 32 :=
  word (offset.extractLsb' 11 1 ++ offset.extractLsb' 4 6) rs2 rs1 f3
    (offset.extractLsb' 0 4 ++ offset.extractLsb' 10 1) opc

/-- `offset[20|10:1|11|19:12]`. -/
def wordJ (offset : BitVec 20) (rd : Reg) (opc : BitVec 7) : BitVec 32 :=
  wordU (offset.extractLsb' 19 1 ++ (offset.extractLsb' 0 10 ++
    (offset.extractLsb' 10 1 ++ offset.extractLsb' 11 8) : BitVec (10 + (1 + 8)))) rd opc

section

variable (f7 : BitVec 7) (rs2 rs1 rd : Reg) (f3 : BitVec 3) (opc : BitVec 7)

theorem word_high (s l : Nat) (h : 25 ≤ s) :
    (word f7 rs2 rs1 f3 rd opc).extractLsb' s l = f7.extractLsb' (s - 25) l :=
  BitVec.extractLsb'_append_eq_of_le h

theorem word_low (s l : Nat) (h : s + l ≤ 25) :
    (word f7 rs2 rs1 f3 rd opc).extractLsb' s l =
      (rs2 ++ (rs1 ++ (f3 ++ (rd ++ opc)))).extractLsb' s l :=
  BitVec.extractLsb'_append_eq_of_add_le h

@[simp] theorem word_funct7 : (word f7 rs2 rs1 f3 rd opc).extractLsb' 25 7 = f7 := by
  rw [word_high _ _ _ _ _ _ _ _ (by decide), BitVec.extractLsb'_eq_self]

@[simp] theorem word_rs2 : (word f7 rs2 rs1 f3 rd opc).extractLsb' 20 5 = rs2 := by
  rw [word_low _ _ _ _ _ _ _ _ (by decide), BitVec.extractLsb'_append_eq_left]

@[simp] theorem word_rs1 : (word f7 rs2 rs1 f3 rd opc).extractLsb' 15 5 = rs1 := by
  rw [word_low _ _ _ _ _ _ _ _ (by decide), BitVec.extractLsb'_append_eq_of_add_le (by decide),
    BitVec.extractLsb'_append_eq_left]

@[simp] theorem word_funct3 : (word f7 rs2 rs1 f3 rd opc).extractLsb' 12 3 = f3 := by
  rw [word_low _ _ _ _ _ _ _ _ (by decide), BitVec.extractLsb'_append_eq_of_add_le (by decide),
    BitVec.extractLsb'_append_eq_of_add_le (by decide), BitVec.extractLsb'_append_eq_left]

theorem word_tail (s l : Nat) (h : s + l ≤ 12) :
    (word f7 rs2 rs1 f3 rd opc).extractLsb' s l = (rd ++ opc).extractLsb' s l := by
  rw [word_low _ _ _ _ _ _ _ _ (by omega), BitVec.extractLsb'_append_eq_of_add_le (by omega),
    BitVec.extractLsb'_append_eq_of_add_le (by omega),
    BitVec.extractLsb'_append_eq_of_add_le (by omega)]

@[simp] theorem word_rd : (word f7 rs2 rs1 f3 rd opc).extractLsb' 7 5 = rd := by
  rw [word_tail _ _ _ _ _ _ _ _ (by decide), BitVec.extractLsb'_append_eq_left]

@[simp] theorem word_opcode : (word f7 rs2 rs1 f3 rd opc).extractLsb' 0 7 = opc := by
  rw [word_tail _ _ _ _ _ _ _ _ (by decide), BitVec.extractLsb'_append_eq_right]

end

@[simp] theorem wordU_opcode (imm : BitVec 20) (rd : Reg) (opc : BitVec 7) :
    (wordU imm rd opc).extractLsb' 0 7 = opc := by
  unfold wordU
  rw [BitVec.extractLsb'_append_eq_of_add_le (by decide), BitVec.extractLsb'_append_eq_right]

@[simp] theorem wordU_rd (imm : BitVec 20) (rd : Reg) (opc : BitVec 7) :
    (wordU imm rd opc).extractLsb' 7 5 = rd := by
  unfold wordU
  rw [BitVec.extractLsb'_append_eq_of_add_le (by decide), BitVec.extractLsb'_append_eq_left]

@[simp] theorem wordU_imm (imm : BitVec 20) (rd : Reg) (opc : BitVec 7) :
    (wordU imm rd opc).extractLsb' 12 20 = imm :=
  BitVec.extractLsb'_append_eq_left

theorem word_eta (w : BitVec 32) :
    word (w.extractLsb' 25 7) (w.extractLsb' 20 5) (w.extractLsb' 15 5) (w.extractLsb' 12 3)
      (w.extractLsb' 7 5) (w.extractLsb' 0 7) = w := by
  unfold word
  rw [BitVec.extractLsb'_append_extractLsb'_eq_extractLsb' (by decide),
    BitVec.extractLsb'_append_extractLsb'_eq_extractLsb' (by decide),
    BitVec.extractLsb'_append_extractLsb'_eq_extractLsb' (by decide),
    BitVec.extractLsb'_append_extractLsb'_eq_extractLsb' (by decide),
    BitVec.extractLsb'_append_extractLsb'_eq_extractLsb' (by decide)]
  exact BitVec.extractLsb'_eq_self

/-! ## Codes -/

def ROp.opcode : ROp → BitVec 7
  | addw | subw | sllw | srlw | sraw | mulw | divw | divuw | remw | remuw => 0b0111011#7
  | _ => 0b0110011#7

def ROp.funct3 : ROp → BitVec 3
  | add | sub | addw | subw | mul | mulw => 0b000#3
  | sll | sllw | mulh => 0b001#3
  | slt | mulhsu => 0b010#3
  | sltu | mulhu => 0b011#3
  | xor | div | divw => 0b100#3
  | srl | sra | srlw | sraw | divu | divuw => 0b101#3
  | or | rem | remw => 0b110#3
  | and | remu | remuw => 0b111#3

def ROp.funct7 : ROp → BitVec 7
  | sub | sra | subw | sraw => 0b0100000#7
  | mul | mulh | mulhsu | mulhu | div | divu | rem | remu
  | mulw | divw | divuw | remw | remuw => 0b0000001#7
  | _ => 0b0000000#7

def IOp.opcode : IOp → BitVec 7
  | lb | lh | lw | ld | lbu | lhu | lwu => 0b0000011#7
  | addi | slti | sltiu | xori | ori | andi => 0b0010011#7
  | addiw => 0b0011011#7

def IOp.funct3 : IOp → BitVec 3
  | lb | addi | addiw => 0b000#3
  | lh => 0b001#3
  | lw | slti => 0b010#3
  | ld | sltiu => 0b011#3
  | lbu | xori => 0b100#3
  | lhu => 0b101#3
  | lwu | ori => 0b110#3
  | andi => 0b111#3

def ShiftOp.funct3 : ShiftOp → BitVec 3
  | slli => 0b001#3
  | srli | srai => 0b101#3

def ShiftOp.funct6 : ShiftOp → BitVec 6
  | slli | srli => 0b000000#6
  | srai => 0b010000#6

def ShiftWOp.funct3 : ShiftWOp → BitVec 3
  | slliw => 0b001#3
  | srliw | sraiw => 0b101#3

def ShiftWOp.funct7 : ShiftWOp → BitVec 7
  | slliw | srliw => 0b0000000#7
  | sraiw => 0b0100000#7

def SOp.funct3 : SOp → BitVec 3
  | sb => 0b000#3
  | sh => 0b001#3
  | sw => 0b010#3
  | sd => 0b011#3

def BOp.funct3 : BOp → BitVec 3
  | beq => 0b000#3
  | bne => 0b001#3
  | blt => 0b100#3
  | bge => 0b101#3
  | bltu => 0b110#3
  | bgeu => 0b111#3

def CsrOp.funct3 : CsrOp → BitVec 3
  | csrrw => 0b001#3
  | csrrs => 0b010#3
  | csrrc => 0b011#3
  | csrrwi => 0b101#3
  | csrrsi => 0b110#3
  | csrrci => 0b111#3

def Width.funct3 : Width → BitVec 3
  | w => 0b010#3
  | d => 0b011#3

def AmoOp.funct5 : AmoOp → BitVec 5
  | add => 0b00000#5
  | swap => 0b00001#5
  | sc => 0b00011#5
  | xor => 0b00100#5
  | or => 0b01000#5
  | and => 0b01100#5
  | min => 0b10000#5
  | max => 0b10100#5
  | minu => 0b11000#5
  | maxu => 0b11100#5

def Instr.encode : Instr → BitVec 32
  | r op rd rs1 rs2 => word op.funct7 rs2 rs1 op.funct3 rd op.opcode
  | i op rd rs1 imm => wordI imm rs1 op.funct3 rd op.opcode
  | shift op rd rs1 shamt => wordI (op.funct6 ++ shamt) rs1 op.funct3 rd 0b0010011#7
  | shiftW op rd rs1 shamt => wordI (op.funct7 ++ shamt) rs1 op.funct3 rd 0b0011011#7
  | s op rs1 rs2 imm => wordS imm rs2 rs1 op.funct3 0b0100011#7
  | b op rs1 rs2 offset => wordB offset rs2 rs1 op.funct3 0b1100011#7
  | lui rd imm => wordU imm rd 0b0110111#7
  | auipc rd imm => wordU imm rd 0b0010111#7
  | jal rd offset => wordJ offset rd 0b1101111#7
  | jalr rd rs1 imm => wordI imm rs1 0b000#3 rd 0b1100111#7
  | csr op rd rs1 num => wordI num rs1 op.funct3 rd 0b1110011#7
  | lr width aqrl rd rs1 => word (0b00010#5 ++ aqrl) 0 rs1 width.funct3 rd 0b0101111#7
  | amo op width aqrl rd rs1 rs2 =>
      word (op.funct5 ++ aqrl) rs2 rs1 width.funct3 rd 0b0101111#7
  | fence rd rs1 imm => wordI imm rs1 0b000#3 rd 0b0001111#7
  | fenceI rd rs1 imm => wordI imm rs1 0b001#3 rd 0b0001111#7
  | ecall => wordI 0 0 0b000#3 0 0b1110011#7
  | ebreak => wordI 1 0 0b000#3 0 0b1110011#7

-- `ret`, `addi sp, sp, -16`, `beq a0, zero, -4` and `jal ra, 2048`.
example : (Instr.jalr 0 1 0).encode = 0x00008067#32 := by decide
example : (Instr.i .addi 2 2 (-16)).encode = 0xff010113#32 := by decide
example : (Instr.b .beq 10 0 (-2)).encode = 0xfe050ee3#32 := by decide
example : (Instr.jal 1 1024).encode = 0x001000ef#32 := by decide

end Rvvk.Isa
