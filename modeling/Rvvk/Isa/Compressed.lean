import Rvvk.Isa.Instr
import Rvvk.Lib.Switch

/-!
# The compressed instruction set

The integer formats of the C extension for RV64: which format a 16-bit word has,
which operands are reserved, and the 32-bit instruction a word stands for. All
of it is read off the fields of the word, independently of the decoder's masks.
-/

namespace Rvvk.Isa.Rvc

/-! ## Fields -/

section

variable (w : BitVec 16)

def quadrant : BitVec 2 := w.extractLsb' 0 2

def funct3 : BitVec 3 := w.extractLsb' 13 3

/-- `rd` and `rs1` share a field. -/
def rd : Reg := w.extractLsb' 7 5

def rs2 : Reg := w.extractLsb' 2 5

/-- A three-bit field names one of `x8` to `x15`. -/
def rdPrime : Reg := (0b01#2 ++ w.extractLsb' 7 3 : BitVec (2 + 3))

def rs2Prime : Reg := (0b01#2 ++ w.extractLsb' 2 3 : BitVec (2 + 3))

/-- `imm[5]` and `imm[4:0]`. -/
def imm6 : BitVec 6 := (w.extractLsb' 12 1 ++ w.extractLsb' 2 5 : BitVec (1 + 5))

/-- `nzuimm[9:6|5:4|3|2]`. -/
def immAddi4spn : BitVec 10 :=
  (w.extractLsb' 7 4 ++ (w.extractLsb' 11 2 ++ (w.extractLsb' 5 1 ++ w.extractLsb' 6 1))
    : BitVec (4 + (2 + (1 + 1)))) ++ 0#2

/-- `uimm[6|5:3|2]`. -/
def immLw : BitVec 7 :=
  (w.extractLsb' 5 1 ++ (w.extractLsb' 10 3 ++ w.extractLsb' 6 1) : BitVec (1 + (3 + 1))) ++ 0#2

/-- `uimm[7:6|5:3]`. -/
def immLd : BitVec 8 := (w.extractLsb' 5 2 ++ w.extractLsb' 10 3 : BitVec (2 + 3)) ++ 0#3

/-- `nzimm[9|8:7|6|5|4]`. -/
def immAddi16sp : BitVec 10 :=
  (w.extractLsb' 12 1 ++ (w.extractLsb' 3 2 ++ (w.extractLsb' 5 1 ++
    (w.extractLsb' 2 1 ++ w.extractLsb' 6 1))) : BitVec (1 + (2 + (1 + (1 + 1))))) ++ 0#4

/-- `offset[11|10|9:8|7|6|5|4|3:1]`. -/
def offsetJ : BitVec 11 :=
  (w.extractLsb' 12 1 ++ (w.extractLsb' 8 1 ++ (w.extractLsb' 9 2 ++ (w.extractLsb' 6 1 ++
    (w.extractLsb' 7 1 ++ (w.extractLsb' 2 1 ++ (w.extractLsb' 11 1 ++ w.extractLsb' 3 3))))))
      : BitVec (1 + (1 + (2 + (1 + (1 + (1 + (1 + 3))))))))

/-- `offset[8|7:6|5|4:3|2:1]`. -/
def offsetB : BitVec 8 :=
  (w.extractLsb' 12 1 ++ (w.extractLsb' 5 2 ++ (w.extractLsb' 2 1 ++
    (w.extractLsb' 10 2 ++ w.extractLsb' 3 2))) : BitVec (1 + (2 + (1 + (2 + 2)))))

/-- `uimm[7:6|5|4:2]`. -/
def immLwsp : BitVec 8 :=
  (w.extractLsb' 2 2 ++ (w.extractLsb' 12 1 ++ w.extractLsb' 4 3) : BitVec (2 + (1 + 3))) ++ 0#2

/-- `uimm[8:6|5|4:3]`. -/
def immLdsp : BitVec 9 :=
  (w.extractLsb' 2 3 ++ (w.extractLsb' 12 1 ++ w.extractLsb' 5 2) : BitVec (3 + (1 + 2))) ++ 0#3

/-- `uimm[7:6|5:2]`. -/
def immSwsp : BitVec 8 := (w.extractLsb' 7 2 ++ w.extractLsb' 9 4 : BitVec (2 + 4)) ++ 0#2

/-- `uimm[8:6|5:3]`. -/
def immSdsp : BitVec 9 := (w.extractLsb' 7 3 ++ w.extractLsb' 10 3 : BitVec (3 + 3)) ++ 0#3

end

/-! ## Formats -/

inductive Form
  | addi4spn | lw | ld | sw | sd
  | addi | addiw | li | addi16sp | lui | srli | srai | andi | sub | xor | or | and | subw | addw
  | j | beqz | bnez
  | slli | lwsp | ldsp | jr | mv | ebreak | jalr | add | swsp | sdsp
deriving DecidableEq, Repr

def form0 (w : BitVec 16) : Option Form :=
  switch (funct3 w) [
    (0b000#3, some .addi4spn),
    (0b010#3, some .lw),
    (0b011#3, some .ld),
    (0b110#3, some .sw),
    (0b111#3, some .sd)] none

/-- Bit 12 and bits 6 and 5 tell the register operations apart. -/
def formAlu (w : BitVec 16) : Option Form :=
  switch (w.extractLsb' 10 2) [
    (0b00#2, some .srli),
    (0b01#2, some .srai),
    (0b10#2, some .andi),
    (0b11#2,
      if w.extractLsb' 12 1 = 0 then
        switch (w.extractLsb' 5 2) [
          (0b00#2, some .sub),
          (0b01#2, some .xor),
          (0b10#2, some .or),
          (0b11#2, some .and)] none
      else
        switch (w.extractLsb' 5 2) [
          (0b00#2, some .subw),
          (0b01#2, some .addw)] none)] none

def form1 (w : BitVec 16) : Option Form :=
  switch (funct3 w) [
    (0b000#3, some .addi),
    (0b001#3, some .addiw),
    (0b010#3, some .li),
    (0b011#3, some (if rd w = 2 then .addi16sp else .lui)),
    (0b100#3, formAlu w),
    (0b101#3, some .j),
    (0b110#3, some .beqz),
    (0b111#3, some .bnez)] none

/-- `c.jr`, `c.mv`, `c.ebreak`, `c.jalr` and `c.add` share `funct3`. -/
def formCr (w : BitVec 16) : Form :=
  if w.extractLsb' 12 1 = 0 then
    if rs2 w = 0 then .jr else .mv
  else
    if rs2 w = 0 then (if rd w = 0 then .ebreak else .jalr) else .add

def form2 (w : BitVec 16) : Option Form :=
  switch (funct3 w) [
    (0b000#3, some .slli),
    (0b010#3, some .lwsp),
    (0b011#3, some .ldsp),
    (0b100#3, some (formCr w)),
    (0b110#3, some .swsp),
    (0b111#3, some .sdsp)] none

def form (w : BitVec 16) : Option Form :=
  switch (quadrant w) [
    (0b00#2, form0 w),
    (0b01#2, form1 w),
    (0b10#2, form2 w)] none

def Reserved (w : BitVec 16) : Form → Prop
  | .addi4spn => w.extractLsb' 5 8 = 0
  | .addiw | .lwsp | .ldsp | .jr => rd w = 0
  | .addi16sp | .lui => imm6 w = 0
  | _ => False

/-- The word is an encoding of an integer compressed instruction for RV64. -/
def IsEncoding (w : BitVec 16) : Prop := ∃ f, form w = some f ∧ ¬ Reserved w f

/-! ## Expansions -/

/-- The instruction that a word of the given format expands to. -/
def Form.expand (w : BitVec 16) : Form → Instr
  | addi4spn => .i .addi (rs2Prime w) 2 ((immAddi4spn w).setWidth 12)
  | lw => .i .lw (rs2Prime w) (rdPrime w) ((immLw w).setWidth 12)
  | ld => .i .ld (rs2Prime w) (rdPrime w) ((immLd w).setWidth 12)
  | sw => .s .sw (rdPrime w) (rs2Prime w) ((immLw w).setWidth 12)
  | sd => .s .sd (rdPrime w) (rs2Prime w) ((immLd w).setWidth 12)
  | addi => .i .addi (rd w) (rd w) ((imm6 w).signExtend 12)
  | addiw => .i .addiw (rd w) (rd w) ((imm6 w).signExtend 12)
  | li => .i .addi (rd w) 0 ((imm6 w).signExtend 12)
  | addi16sp => .i .addi 2 2 ((immAddi16sp w).signExtend 12)
  | lui => .lui (rd w) ((imm6 w).signExtend 20)
  | srli => .shift .srli (rdPrime w) (rdPrime w) (imm6 w)
  | srai => .shift .srai (rdPrime w) (rdPrime w) (imm6 w)
  | andi => .i .andi (rdPrime w) (rdPrime w) ((imm6 w).signExtend 12)
  | sub => .r .sub (rdPrime w) (rdPrime w) (rs2Prime w)
  | xor => .r .xor (rdPrime w) (rdPrime w) (rs2Prime w)
  | or => .r .or (rdPrime w) (rdPrime w) (rs2Prime w)
  | and => .r .and (rdPrime w) (rdPrime w) (rs2Prime w)
  | subw => .r .subw (rdPrime w) (rdPrime w) (rs2Prime w)
  | addw => .r .addw (rdPrime w) (rdPrime w) (rs2Prime w)
  | j => .jal 0 ((offsetJ w).signExtend 20)
  | beqz => .b .beq (rdPrime w) 0 ((offsetB w).signExtend 12)
  | bnez => .b .bne (rdPrime w) 0 ((offsetB w).signExtend 12)
  | slli => .shift .slli (rd w) (rd w) (imm6 w)
  | lwsp => .i .lw (rd w) 2 ((immLwsp w).setWidth 12)
  | ldsp => .i .ld (rd w) 2 ((immLdsp w).setWidth 12)
  | jr => .jalr 0 (rd w) 0
  | mv => .r .add (rd w) 0 (rs2 w)
  | ebreak => .ebreak
  | jalr => .jalr 1 (rd w) 0
  | add => .r .add (rd w) (rd w) (rs2 w)
  | swsp => .s .sw 2 (rs2 w) ((immSwsp w).setWidth 12)
  | sdsp => .s .sd 2 (rs2 w) ((immSdsp w).setWidth 12)

def expand (w : BitVec 16) : Option Instr := (form w).map (Form.expand w)

-- `c.j -2`, `c.addi16sp -64` and `c.lwsp a0, 12(sp)`.
example : expand 0xbffd#16 = some (.jal 0 (-1)) := by decide
example : expand 0x7139#16 = some (.i .addi 2 2 (-64)) := by decide
example : expand 0x4532#16 = some (.i .lw 10 2 12) := by decide

end Rvvk.Isa.Rvc
