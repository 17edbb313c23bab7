import Rvvk.Lib.Switch
import Rvvk.Translate.Context

/-!
# Decoding 32-bit instructions

`decode_insn32`, for a 64-bit target: operand extraction by format, the
`trans_*` functions that the macros `gen_trans_*` generate, and the switch. The
source nests the switch in one function; here each opcode's part is a definition.
-/

namespace Rvvk

/-! ## Operands -/

def decodeInsn32ExtractR (insn : Insn) (op : BitVec 32) : Insn :=
  { insn with
    rs1 := toReg (extract32 op 15 5)
    rd := toReg (extract32 op 7 5)
    rs2 := toReg (extract32 op 20 5) }

def decodeInsn32ExtractI (insn : Insn) (op : BitVec 32) : Insn :=
  { insn with
    rs1 := toReg (extract32 op 15 5)
    rd := toReg (extract32 op 7 5)
    imm := sextract32 op 20 12 }

def decodeInsn32ExtractS (insn : Insn) (op : BitVec 32) : Insn :=
  { insn with
    rs1 := toReg (extract32 op 15 5)
    imm := deposit32 (extract32 op 7 5) 5 27 (sextract32 op 25 7)
    rs2 := toReg (extract32 op 20 5) }

def decodeInsn32ExtractB (insn : Insn) (op : BitVec 32) : Insn :=
  { insn with
    rs1 := toReg (extract32 op 15 5)
    imm := exShift 1 (deposit32 (deposit32 (deposit32 (extract32 op 8 4) 4 28 (extract32 op 25 6))
      10 22 (extract32 op 7 1)) 11 21 (sextract32 op 31 1))
    rs2 := toReg (extract32 op 20 5) }

def decodeInsn32ExtractU (insn : Insn) (op : BitVec 32) : Insn :=
  { insn with
    rd := toReg (extract32 op 7 5)
    imm := exShift 12 (sextract32 op 12 20) }

def decodeInsn32ExtractJ (insn : Insn) (op : BitVec 32) : Insn :=
  { insn with
    rd := toReg (extract32 op 7 5)
    imm := exShift 1 (deposit32 (deposit32 (deposit32 (extract32 op 21 10) 10 22 (extract32 op 20 1))
      11 21 (extract32 op 12 8)) 19 13 (sextract32 op 31 1)) }

def decodeInsn32ExtractCsr (insn : Insn) (op : BitVec 32) : Insn :=
  { insn with
    rs1 := toReg (extract32 op 15 5)
    rd := toReg (extract32 op 7 5)
    imm := extract32 op 20 12 }

def decodeInsn32ExtractAtomLd (insn : Insn) (op : BitVec 32) : Insn :=
  { insn with
    rd := toReg (extract32 op 7 5)
    rs1 := toReg (extract32 op 15 5) }

/-- Also `atom_add` to `atom_maxu`. -/
def decodeInsn32ExtractAtomSt (insn : Insn) (op : BitVec 32) : Insn :=
  { insn with
    rs2 := toReg (extract32 op 20 5)
    rd := toReg (extract32 op 7 5)
    rs1 := toReg (extract32 op 15 5) }

/-! ## Translation functions -/

abbrev Trans32 := Ctx → Insn → BitVec 32 → Ctx × Insn

/-- A handler that would write `x0` is dropped. -/
def transRd (h : Handler) (ctx : Ctx) (insn : Insn) : Ctx × Insn :=
  if insn.rd = 0 then transPlain .doEmpty ctx insn else transPlain h ctx insn

def genTransR (h : Handler) : Trans32 := fun ctx insn op =>
  transRd h ctx (decodeInsn32ExtractR insn op)

def genTransI (h : Handler) : Trans32 := fun ctx insn op =>
  transRd h ctx (decodeInsn32ExtractI insn op)

def genTransS (h : Handler) : Trans32 := fun ctx insn op =>
  transPlain h ctx (decodeInsn32ExtractS insn op)

def genTransB (h : Handler) : Trans32 := fun ctx insn op =>
  transBranch h 4 ctx (decodeInsn32ExtractB insn op)

def genTransCsr (h : Handler) : Trans32 := fun ctx insn op =>
  transPlain h ctx (decodeInsn32ExtractCsr insn op)

/-- `trans_lr_w` and `trans_lr_d`. -/
def transAtomLd (h : Handler) : Trans32 := fun ctx insn op =>
  transPlain h ctx (decodeInsn32ExtractAtomLd insn op)

/-- `trans_sc_*` and `trans_amo*`. -/
def transAtomSt (h : Handler) : Trans32 := fun ctx insn op =>
  transPlain h ctx (decodeInsn32ExtractAtomSt insn op)

def transAdd : Trans32 := genTransR .doAdd
def transSub : Trans32 := genTransR .doSub
def transSll : Trans32 := genTransR .doSll
def transSlt : Trans32 := genTransR .doSlt
def transSltu : Trans32 := genTransR .doSltu
def transXor : Trans32 := genTransR .doXor
def transSrl : Trans32 := genTransR .doSrl
def transSra : Trans32 := genTransR .doSra
def transOr : Trans32 := genTransR .doOr
def transAnd : Trans32 := genTransR .doAnd
def transAddw : Trans32 := genTransR .doAddw
def transSubw : Trans32 := genTransR .doSubw
def transSllw : Trans32 := genTransR .doSllw
def transSrlw : Trans32 := genTransR .doSrlw
def transSraw : Trans32 := genTransR .doSraw
def transMul : Trans32 := genTransR .doMul
def transMulh : Trans32 := genTransR .doMulh
def transMulhsu : Trans32 := genTransR .doMulhsu
def transMulhu : Trans32 := genTransR .doMulhu
def transDiv : Trans32 := genTransR .doDiv
def transDivu : Trans32 := genTransR .doDivu
def transRem : Trans32 := genTransR .doRem
def transRemu : Trans32 := genTransR .doRemu
def transMulw : Trans32 := genTransR .doMulw
def transDivw : Trans32 := genTransR .doDivw
def transDivuw : Trans32 := genTransR .doDivuw
def transRemw : Trans32 := genTransR .doRemw
def transRemuw : Trans32 := genTransR .doRemuw

def transLb : Trans32 := genTransI .doLb
def transLh : Trans32 := genTransI .doLh
def transLw : Trans32 := genTransI .doLw
def transLd : Trans32 := genTransI .doLd
def transLbu : Trans32 := genTransI .doLbu
def transLhu : Trans32 := genTransI .doLhu
def transLwu : Trans32 := genTransI .doLwu
def transAddi : Trans32 := genTransI .doAddi
def transSlti : Trans32 := genTransI .doSlti
def transSltiu : Trans32 := genTransI .doSltiu
def transXori : Trans32 := genTransI .doXori
def transOri : Trans32 := genTransI .doOri
def transAndi : Trans32 := genTransI .doAndi
def transSlli : Trans32 := genTransI .doSlli
def transSrli : Trans32 := genTransI .doSrli
def transSrai : Trans32 := genTransI .doSrai
def transAddiw : Trans32 := genTransI .doAddiw
def transSlliw : Trans32 := genTransI .doSlliw
def transSrliw : Trans32 := genTransI .doSrliw
def transSraiw : Trans32 := genTransI .doSraiw

def transSb : Trans32 := genTransS .doSb
def transSh : Trans32 := genTransS .doSh
def transSw : Trans32 := genTransS .doSw
def transSd : Trans32 := genTransS .doSd

def transBeq : Trans32 := genTransB .doBeq
def transBne : Trans32 := genTransB .doBne
def transBlt : Trans32 := genTransB .doBlt
def transBge : Trans32 := genTransB .doBge
def transBltu : Trans32 := genTransB .doBltu
def transBgeu : Trans32 := genTransB .doBgeu

def transEcall : Trans32 := fun ctx insn _ => transExit .doEcall ctx insn

def transAuipc : Trans32 := fun ctx insn op =>
  (ctx, { decodeInsn32ExtractU insn op with handler := .doAuipc, pc := ctx.pc })

def transLui : Trans32 := fun ctx insn op =>
  transPlain .doLui ctx (decodeInsn32ExtractU insn op)

def transJal : Trans32 := fun ctx insn op =>
  transJump .doJal ctx (decodeInsn32ExtractJ insn op)

def transJalr : Trans32 := fun ctx insn op =>
  transExit .doJalr ctx (decodeInsn32ExtractI insn op)

def transPause : Trans32 := fun ctx insn _ => transPlain .doEmpty ctx insn

def transFence : Trans32 := fun ctx insn _ => transPlain .doEmpty ctx insn

def transFenceI : Trans32 := fun ctx insn _ => transPlain .doEmpty ctx insn

def transCsrrw : Trans32 := genTransCsr .doCsrrw
def transCsrrs : Trans32 := genTransCsr .doCsrrs
def transCsrrc : Trans32 := genTransCsr .doCsrrc
def transCsrrwi : Trans32 := genTransCsr .doCsrrwi
def transCsrrsi : Trans32 := genTransCsr .doCsrrsi
def transCsrrci : Trans32 := genTransCsr .doCsrrci

def transLrW : Trans32 := transAtomLd .doLrW
def transScW : Trans32 := transAtomSt .doScW
def transAmoaddW : Trans32 := transAtomSt .doAmoaddW
def transAmoswapW : Trans32 := transAtomSt .doAmoswapW
def transAmoxorW : Trans32 := transAtomSt .doAmoxorW
def transAmoorW : Trans32 := transAtomSt .doAmoorW
def transAmoandW : Trans32 := transAtomSt .doAmoandW
def transAmominW : Trans32 := transAtomSt .doAmominW
def transAmomaxW : Trans32 := transAtomSt .doAmomaxW
def transAmominuW : Trans32 := transAtomSt .doAmominuW
def transAmomaxuW : Trans32 := transAtomSt .doAmomaxuW

def transLrD : Trans32 := transAtomLd .doLrD
def transScD : Trans32 := transAtomSt .doScD
def transAmoaddD : Trans32 := transAtomSt .doAmoaddD
def transAmoswapD : Trans32 := transAtomSt .doAmoswapD
def transAmoxorD : Trans32 := transAtomSt .doAmoxorD
def transAmoorD : Trans32 := transAtomSt .doAmoorD
def transAmoandD : Trans32 := transAtomSt .doAmoandD
def transAmominD : Trans32 := transAtomSt .doAmominD
def transAmomaxD : Trans32 := transAtomSt .doAmomaxD
def transAmominuD : Trans32 := transAtomSt .doAmominuD
def transAmomaxuD : Trans32 := transAtomSt .doAmomaxuD

/-! ## The switch -/

/-- What the switch of `decode_insn32` calls. -/
inductive Sel32
  | illegal
  | add | sub | sll | slt | sltu | xor | srl | sra | or | and | addw | subw | sllw | srlw | sraw
  | mul | mulh | mulhsu | mulhu | div | divu | rem | remu | mulw | divw | divuw | remw | remuw
  | lb | lh | lw | ld | lbu | lhu | lwu | addi | slti | sltiu | xori | ori | andi | slli | srli
  | srai | addiw | slliw | srliw | sraiw | sb | sh | sw | sd | beq | bne | blt | bge | bltu
  | bgeu | ecall | auipc | lui | jal | jalr | csrrw | csrrs | csrrc | csrrwi | csrrsi | csrrci
  | lrW | scW | amoaddW | amoswapW | amoxorW | amoorW | amoandW | amominW | amomaxW | amominuW
  | amomaxuW | lrD | scD | amoaddD | amoswapD | amoxorD | amoorD | amoandD | amominD | amomaxD
  | amominuD | amomaxuD | pause | fence | fenceI
deriving DecidableEq, Repr

def Sel32.trans : Sel32 → Trans32
  | illegal => fun ctx insn _ => transIllegal ctx insn
  | add => transAdd
  | sub => transSub
  | sll => transSll
  | slt => transSlt
  | sltu => transSltu
  | xor => transXor
  | srl => transSrl
  | sra => transSra
  | or => transOr
  | and => transAnd
  | addw => transAddw
  | subw => transSubw
  | sllw => transSllw
  | srlw => transSrlw
  | sraw => transSraw
  | mul => transMul
  | mulh => transMulh
  | mulhsu => transMulhsu
  | mulhu => transMulhu
  | div => transDiv
  | divu => transDivu
  | rem => transRem
  | remu => transRemu
  | mulw => transMulw
  | divw => transDivw
  | divuw => transDivuw
  | remw => transRemw
  | remuw => transRemuw
  | lb => transLb
  | lh => transLh
  | lw => transLw
  | ld => transLd
  | lbu => transLbu
  | lhu => transLhu
  | lwu => transLwu
  | addi => transAddi
  | slti => transSlti
  | sltiu => transSltiu
  | xori => transXori
  | ori => transOri
  | andi => transAndi
  | slli => transSlli
  | srli => transSrli
  | srai => transSrai
  | addiw => transAddiw
  | slliw => transSlliw
  | srliw => transSrliw
  | sraiw => transSraiw
  | sb => transSb
  | sh => transSh
  | sw => transSw
  | sd => transSd
  | beq => transBeq
  | bne => transBne
  | blt => transBlt
  | bge => transBge
  | bltu => transBltu
  | bgeu => transBgeu
  | ecall => transEcall
  | auipc => transAuipc
  | lui => transLui
  | jal => transJal
  | jalr => transJalr
  | csrrw => transCsrrw
  | csrrs => transCsrrs
  | csrrc => transCsrrc
  | csrrwi => transCsrrwi
  | csrrsi => transCsrrsi
  | csrrci => transCsrrci
  | lrW => transLrW
  | scW => transScW
  | amoaddW => transAmoaddW
  | amoswapW => transAmoswapW
  | amoxorW => transAmoxorW
  | amoorW => transAmoorW
  | amoandW => transAmoandW
  | amominW => transAmominW
  | amomaxW => transAmomaxW
  | amominuW => transAmominuW
  | amomaxuW => transAmomaxuW
  | lrD => transLrD
  | scD => transScD
  | amoaddD => transAmoaddD
  | amoswapD => transAmoswapD
  | amoxorD => transAmoxorD
  | amoorD => transAmoorD
  | amoandD => transAmoandD
  | amominD => transAmominD
  | amomaxD => transAmomaxD
  | amominuD => transAmominuD
  | amomaxuD => transAmomaxuD
  -- The arm for `pause` does not return: `trans_fence` runs after `trans_pause`.
  | pause => fun ctx insn op =>
      let (ctx, insn) := transPause ctx insn op
      transFence ctx insn op
  | fence => transFence
  | fenceI => transFenceI

def opcodeMask : BitVec 32 := 0x0000007f
def funct3Mask : BitVec 32 := 0x00007000
def funct7Mask : BitVec 32 := 0xfe000000
def op2731Mask : BitVec 32 := 0xf8000000
def op2024Mask : BitVec 32 := 0x01f00000
def i11xMask : BitVec 32 := 0xfc000000

def switchLoad (op : BitVec 32) : Sel32 :=
  switch (op &&& funct3Mask) [
    (0x00000000#32, .lb),
    (0x00001000#32, .lh),
    (0x00002000#32, .lw),
    (0x00003000#32, .ld),
    (0x00004000#32, .lbu),
    (0x00005000#32, .lhu),
    (0x00006000#32, .lwu)] .illegal

def switchMiscMem (op : BitVec 32) : Sel32 :=
  switch (op &&& funct3Mask) [
    (0x00000000#32, if op &&& 0xffff8f80#32 = 0x01000000#32 then .pause else .fence),
    (0x00001000#32, .fenceI)] .illegal

def switchOpImm (op : BitVec 32) : Sel32 :=
  switch (op &&& funct3Mask) [
    (0x00000000#32, .addi),
    (0x00001000#32, switch (op &&& i11xMask) [
      (0x00000000#32, .slli)] .illegal),
    (0x00002000#32, .slti),
    (0x00003000#32, .sltiu),
    (0x00004000#32, .xori),
    (0x00005000#32, switch (op &&& i11xMask) [
      (0x00000000#32, .srli),
      (0x40000000#32, .srai)] .illegal),
    (0x00006000#32, .ori),
    (0x00007000#32, .andi)] .illegal

def switchOpImm32 (op : BitVec 32) : Sel32 :=
  switch (op &&& funct3Mask) [
    (0x00000000#32, .addiw),
    (0x00001000#32, switch (op &&& funct7Mask) [
      (0x00000000#32, .slliw)] .illegal),
    (0x00005000#32, switch (op &&& funct7Mask) [
      (0x00000000#32, .srliw),
      (0x40000000#32, .sraiw)] .illegal)] .illegal

def switchStore (op : BitVec 32) : Sel32 :=
  switch (op &&& funct3Mask) [
    (0x00000000#32, .sb),
    (0x00001000#32, .sh),
    (0x00002000#32, .sw),
    (0x00003000#32, .sd)] .illegal

def switchAmo (op : BitVec 32) : Sel32 :=
  switch (op &&& funct3Mask) [
    (0x00002000#32, switch (op &&& op2731Mask) [
      (0x00000000#32, .amoaddW),
      (0x08000000#32, .amoswapW),
      (0x10000000#32, switch (op &&& op2024Mask) [
        (0x00000000#32, .lrW)] .illegal),
      (0x18000000#32, .scW),
      (0x20000000#32, .amoxorW),
      (0x40000000#32, .amoorW),
      (0x60000000#32, .amoandW),
      (0x80000000#32, .amominW),
      (0xa0000000#32, .amomaxW),
      (0xc0000000#32, .amominuW),
      (0xe0000000#32, .amomaxuW)] .illegal),
    (0x00003000#32, switch (op &&& op2731Mask) [
      (0x00000000#32, .amoaddD),
      (0x08000000#32, .amoswapD),
      (0x10000000#32, switch (op &&& op2024Mask) [
        (0x00000000#32, .lrD)] .illegal),
      (0x18000000#32, .scD),
      (0x20000000#32, .amoxorD),
      (0x40000000#32, .amoorD),
      (0x60000000#32, .amoandD),
      (0x80000000#32, .amominD),
      (0xa0000000#32, .amomaxD),
      (0xc0000000#32, .amominuD),
      (0xe0000000#32, .amomaxuD)] .illegal)] .illegal

def switchOp (op : BitVec 32) : Sel32 :=
  switch (op &&& funct3Mask) [
    (0x00000000#32, switch (op &&& funct7Mask) [
      (0x00000000#32, .add),
      (0x40000000#32, .sub),
      (0x02000000#32, .mul)] .illegal),
    (0x00001000#32, switch (op &&& funct7Mask) [
      (0x00000000#32, .sll),
      (0x02000000#32, .mulh)] .illegal),
    (0x00002000#32, switch (op &&& funct7Mask) [
      (0x00000000#32, .slt),
      (0x02000000#32, .mulhsu)] .illegal),
    (0x00003000#32, switch (op &&& funct7Mask) [
      (0x00000000#32, .sltu),
      (0x02000000#32, .mulhu)] .illegal),
    (0x00004000#32, switch (op &&& funct7Mask) [
      (0x00000000#32, .xor),
      (0x02000000#32, .div)] .illegal),
    (0x00005000#32, switch (op &&& funct7Mask) [
      (0x00000000#32, .srl),
      (0x40000000#32, .sra),
      (0x02000000#32, .divu)] .illegal),
    (0x00006000#32, switch (op &&& funct7Mask) [
      (0x00000000#32, .or),
      (0x02000000#32, .rem)] .illegal),
    (0x00007000#32, switch (op &&& funct7Mask) [
      (0x00000000#32, .and),
      (0x02000000#32, .remu)] .illegal)] .illegal

def switchOp32 (op : BitVec 32) : Sel32 :=
  switch (op &&& funct3Mask) [
    (0x00000000#32, switch (op &&& funct7Mask) [
      (0x00000000#32, .addw),
      (0x40000000#32, .subw),
      (0x02000000#32, .mulw)] .illegal),
    (0x00001000#32, switch (op &&& funct7Mask) [
      (0x00000000#32, .sllw)] .illegal),
    (0x00004000#32, switch (op &&& funct7Mask) [
      (0x02000000#32, .divw)] .illegal),
    (0x00005000#32, switch (op &&& funct7Mask) [
      (0x00000000#32, .srlw),
      (0x40000000#32, .sraw),
      (0x02000000#32, .divuw)] .illegal),
    (0x00006000#32, switch (op &&& funct7Mask) [
      (0x02000000#32, .remw)] .illegal),
    (0x00007000#32, switch (op &&& funct7Mask) [
      (0x02000000#32, .remuw)] .illegal)] .illegal

def switchBranch (op : BitVec 32) : Sel32 :=
  switch (op &&& funct3Mask) [
    (0x00000000#32, .beq),
    (0x00001000#32, .bne),
    (0x00004000#32, .blt),
    (0x00005000#32, .bge),
    (0x00006000#32, .bltu),
    (0x00007000#32, .bgeu)] .illegal

def switchJalr (op : BitVec 32) : Sel32 :=
  switch (op &&& funct3Mask) [
    (0x00000000#32, .jalr)] .illegal

def switchSystem (op : BitVec 32) : Sel32 :=
  switch (op &&& funct3Mask) [
    (0x00000000#32, .ecall),
    (0x00001000#32, .csrrw),
    (0x00002000#32, .csrrs),
    (0x00003000#32, .csrrc),
    (0x00005000#32, .csrrwi),
    (0x00006000#32, .csrrsi),
    (0x00007000#32, .csrrci)] .illegal

def switch32 (op : BitVec 32) : Sel32 :=
  switch (op &&& opcodeMask) [
    (0x00000003#32, switchLoad op),
    (0x0000000f#32, switchMiscMem op),
    (0x00000013#32, switchOpImm op),
    (0x00000017#32, .auipc),
    (0x0000001b#32, switchOpImm32 op),
    (0x00000023#32, switchStore op),
    (0x0000002f#32, switchAmo op),
    (0x00000033#32, switchOp op),
    (0x00000037#32, .lui),
    (0x0000003b#32, switchOp32 op),
    (0x00000063#32, switchBranch op),
    (0x00000067#32, switchJalr op),
    (0x0000006f#32, .jal),
    (0x00000073#32, switchSystem op)] .illegal

def decodeInsn32 (ctx : Ctx) (insn : Insn) (op : BitVec 32) : Ctx × Insn :=
  (switch32 op).trans ctx insn op

end Rvvk
