import Rvvk.Lib.Switch
import Rvvk.Translate.Context

/-!
# Decoding compressed instructions

`decode_insn16`, for a 64-bit target. The switch selects a `trans_c_*` function,
and the function extracts the operands, checks them and picks the handler.
-/

namespace Rvvk

/-- `extract32` of a `uint16_t`. -/
def field (op : BitVec 16) (start length : Nat) : BitVec 32 :=
  extract32 (op.setWidth 32) start length

def sfield (op : BitVec 16) (start length : Nat) : BitVec 32 :=
  sextract32 (op.setWidth 32) start length

/-! ## Operands -/

def decodeInsn16ExtractCAddi4spn (insn : Insn) (op : BitVec 16) : Insn :=
  { insn with
    imm := exShift 2 (deposit32 (deposit32 (deposit32 (field op 6 1) 1 31 (field op 5 1))
      2 30 (field op 11 2)) 4 28 (field op 7 4))
    rd := exRvcRegister (field op 2 3)
    rs1 := 2 }

def decodeInsn16ExtractCLw (insn : Insn) (op : BitVec 16) : Insn :=
  { insn with
    imm := exShift 2 (deposit32 (deposit32 (field op 6 1) 1 31 (field op 10 3))
      4 28 (field op 5 1))
    rd := exRvcRegister (field op 2 3)
    rs1 := exRvcRegister (field op 7 3) }

def decodeInsn16ExtractCSw (insn : Insn) (op : BitVec 16) : Insn :=
  { insn with
    imm := exShift 2 (deposit32 (deposit32 (field op 6 1) 1 31 (field op 10 3))
      4 28 (field op 5 1))
    rs2 := exRvcRegister (field op 2 3)
    rs1 := exRvcRegister (field op 7 3) }

def decodeInsn16ExtractCLd (insn : Insn) (op : BitVec 16) : Insn :=
  { insn with
    imm := exShift 3 (deposit32 (field op 10 3) 3 29 (field op 5 2))
    rd := exRvcRegister (field op 2 3)
    rs1 := exRvcRegister (field op 7 3) }

def decodeInsn16ExtractCSd (insn : Insn) (op : BitVec 16) : Insn :=
  { insn with
    imm := exShift 3 (deposit32 (field op 10 3) 3 29 (field op 5 2))
    rs2 := exRvcRegister (field op 2 3)
    rs1 := exRvcRegister (field op 7 3) }

/-- Also `decode_insn16_extract_c_addiw`. -/
def decodeInsn16ExtractCAddi (insn : Insn) (op : BitVec 16) : Insn :=
  { insn with
    imm := deposit32 (field op 2 5) 5 27 (sfield op 12 1)
    rd := toReg (field op 7 5)
    rs1 := toReg (field op 7 5) }

def decodeInsn16ExtractCLi (insn : Insn) (op : BitVec 16) : Insn :=
  { insn with
    imm := deposit32 (field op 2 5) 5 27 (sfield op 12 1)
    rd := toReg (field op 7 5)
    rs1 := 0 }

def decodeInsn16ExtractCAddi16sp (insn : Insn) (op : BitVec 16) : Insn :=
  { insn with
    imm := exShift 4 (deposit32 (deposit32 (deposit32 (deposit32 (field op 6 1)
      1 31 (field op 2 1)) 2 30 (field op 5 1)) 3 29 (field op 3 2)) 5 27 (sfield op 12 1))
    rd := 2
    rs1 := 2 }

def decodeInsn16ExtractCLui (insn : Insn) (op : BitVec 16) : Insn :=
  { insn with
    imm := exShift 12 (deposit32 (field op 2 5) 5 27 (sfield op 12 1))
    rd := toReg (field op 7 5) }

/-- Also `decode_insn16_extract_c_srai`. -/
def decodeInsn16ExtractCSrli (insn : Insn) (op : BitVec 16) : Insn :=
  { insn with
    rs1 := exRvcRegister (field op 7 3)
    imm := deposit32 (field op 2 5) 5 27 (field op 12 1)
    rd := exRvcRegister (field op 7 3) }

def decodeInsn16ExtractCAndi (insn : Insn) (op : BitVec 16) : Insn :=
  { insn with
    rs1 := exRvcRegister (field op 7 3)
    imm := deposit32 (field op 2 5) 5 27 (sfield op 12 1)
    rd := exRvcRegister (field op 7 3) }

/-- Also `c_xor`, `c_or`, `c_and`, `c_subw` and `c_addw`. -/
def decodeInsn16ExtractCSub (insn : Insn) (op : BitVec 16) : Insn :=
  { insn with
    rs2 := exRvcRegister (field op 2 3)
    rd := exRvcRegister (field op 7 3)
    rs1 := exRvcRegister (field op 7 3) }

def decodeInsn16ExtractCJ (insn : Insn) (op : BitVec 16) : Insn :=
  { insn with
    imm := exShift 1 (deposit32 (deposit32 (deposit32 (deposit32 (deposit32 (deposit32 (deposit32
      (field op 3 3) 3 29 (field op 11 1)) 4 28 (field op 2 1)) 5 27 (field op 7 1))
      6 26 (field op 6 1)) 7 25 (field op 9 2)) 9 23 (field op 8 1)) 10 22 (sfield op 12 1))
    rd := 0 }

/-- Also `decode_insn16_extract_c_bnez`. -/
def decodeInsn16ExtractCBeqz (insn : Insn) (op : BitVec 16) : Insn :=
  { insn with
    imm := exShift 1 (deposit32 (deposit32 (deposit32 (deposit32 (field op 3 2)
      2 30 (field op 10 2)) 4 28 (field op 2 1)) 5 27 (field op 5 2)) 7 25 (sfield op 12 1))
    rs2 := 0
    rs1 := exRvcRegister (field op 7 3) }

def decodeInsn16ExtractCMv (insn : Insn) (op : BitVec 16) : Insn :=
  { insn with
    imm := 0
    rd := toReg (field op 7 5)
    rs1 := toReg (field op 2 5) }

def decodeInsn16ExtractCLdsp (insn : Insn) (op : BitVec 16) : Insn :=
  { insn with
    imm := exShift 3 (deposit32 (deposit32 (field op 5 2) 2 30 (field op 12 1))
      3 29 (field op 2 3))
    rd := toReg (field op 7 5)
    rs1 := 2 }

def decodeInsn16ExtractCSlli (insn : Insn) (op : BitVec 16) : Insn :=
  { insn with
    rs1 := toReg (field op 7 5)
    imm := deposit32 (field op 2 5) 5 27 (field op 12 1)
    rd := toReg (field op 7 5) }

def decodeInsn16ExtractCLwsp (insn : Insn) (op : BitVec 16) : Insn :=
  { insn with
    imm := exShift 2 (deposit32 (deposit32 (field op 4 3) 3 29 (field op 12 1))
      4 28 (field op 2 2))
    rd := toReg (field op 7 5)
    rs1 := 2 }

def decodeInsn16ExtractCJalr (insn : Insn) (op : BitVec 16) : Insn :=
  { insn with
    rd := 1
    imm := 0
    rs1 := toReg (field op 7 5) }

def decodeInsn16ExtractCJr (insn : Insn) (op : BitVec 16) : Insn :=
  { insn with
    rd := 0
    imm := 0
    rs1 := toReg (field op 7 5) }

def decodeInsn16ExtractCAdd (insn : Insn) (op : BitVec 16) : Insn :=
  { insn with
    rs2 := toReg (field op 2 5)
    rd := toReg (field op 7 5)
    rs1 := toReg (field op 7 5) }

def decodeInsn16ExtractCSwsp (insn : Insn) (op : BitVec 16) : Insn :=
  { insn with
    imm := exShift 2 (deposit32 (field op 9 4) 4 28 (field op 7 2))
    rs2 := toReg (field op 2 5)
    rs1 := 2 }

def decodeInsn16ExtractCSdsp (insn : Insn) (op : BitVec 16) : Insn :=
  { insn with
    imm := exShift 3 (deposit32 (field op 10 3) 3 29 (field op 7 3))
    rs2 := toReg (field op 2 5)
    rs1 := 2 }

/-! ## Translation functions -/

/-- Reject the operands if `bad`, else go on. -/
def guardOperands (bad : Insn → Prop) [DecidablePred bad] (ctx : Ctx) (insn : Insn)
    (k : Ctx → Insn → Ctx × Insn) : Ctx × Insn :=
  if bad insn then transIllegal ctx insn else k ctx insn

abbrev Trans16 := Ctx → Insn → BitVec 16 → Ctx × Insn

def transCAddi4spn : Trans16 := fun ctx insn op =>
  transPlain .doAddi ctx (decodeInsn16ExtractCAddi4spn insn op)

def transCLw : Trans16 := fun ctx insn op =>
  transPlain .doLw ctx (decodeInsn16ExtractCLw insn op)

def transCLd : Trans16 := fun ctx insn op =>
  transPlain .doLd ctx (decodeInsn16ExtractCLd insn op)

def transCSw : Trans16 := fun ctx insn op =>
  transPlain .doSw ctx (decodeInsn16ExtractCSw insn op)

def transCSd : Trans16 := fun ctx insn op =>
  transPlain .doSd ctx (decodeInsn16ExtractCSd insn op)

/-- `c.nop` has no effect. -/
def transCAddi : Trans16 := fun ctx insn op =>
  let insn := decodeInsn16ExtractCAddi insn op
  if insn.rd = 0 then transPlain .doEmpty ctx insn else transPlain .doAddi ctx insn

def transCAddiw : Trans16 := fun ctx insn op =>
  guardOperands (fun insn => insn.rd = 0) ctx (decodeInsn16ExtractCAddi insn op)
    (transPlain .doAddiw)

def transCLi : Trans16 := fun ctx insn op =>
  guardOperands (fun insn => insn.rd = 0) ctx (decodeInsn16ExtractCLi insn op)
    (transPlain .doAddi)

def transCAddi16sp : Trans16 := fun ctx insn op =>
  transPlain .doAddi ctx (decodeInsn16ExtractCAddi16sp insn op)

def transCLui : Trans16 := fun ctx insn op =>
  guardOperands (fun insn => insn.rd = 0 ∨ insn.rd = 2 ∨ insn.imm = 0) ctx (decodeInsn16ExtractCLui insn op)
    (transPlain .doLui)

def transCSrli : Trans16 := fun ctx insn op =>
  transPlain .doSrli ctx (decodeInsn16ExtractCSrli insn op)

def transCSrai : Trans16 := fun ctx insn op =>
  transPlain .doSrai ctx (decodeInsn16ExtractCSrli insn op)

def transCAndi : Trans16 := fun ctx insn op =>
  transPlain .doAndi ctx (decodeInsn16ExtractCAndi insn op)

def transCSub : Trans16 := fun ctx insn op =>
  transPlain .doSub ctx (decodeInsn16ExtractCSub insn op)

def transCXor : Trans16 := fun ctx insn op =>
  transPlain .doXor ctx (decodeInsn16ExtractCSub insn op)

def transCOr : Trans16 := fun ctx insn op =>
  transPlain .doOr ctx (decodeInsn16ExtractCSub insn op)

def transCAnd : Trans16 := fun ctx insn op =>
  transPlain .doAnd ctx (decodeInsn16ExtractCSub insn op)

def transCSubw : Trans16 := fun ctx insn op =>
  transPlain .doSubw ctx (decodeInsn16ExtractCSub insn op)

def transCAddw : Trans16 := fun ctx insn op =>
  transPlain .doAddw ctx (decodeInsn16ExtractCSub insn op)

def transCJ : Trans16 := fun ctx insn op =>
  transJump .doCJal ctx (decodeInsn16ExtractCJ insn op)

def transCBeqz : Trans16 := fun ctx insn op =>
  transBranch .doCBeq 2 ctx (decodeInsn16ExtractCBeqz insn op)

def transCBnez : Trans16 := fun ctx insn op =>
  transBranch .doCBne 2 ctx (decodeInsn16ExtractCBeqz insn op)

def transCJr : Trans16 := fun ctx insn op =>
  guardOperands (fun insn => insn.rs1 = 0) ctx (decodeInsn16ExtractCJr insn op)
    (transExit .doCJalr)

def transCMv : Trans16 := fun ctx insn op =>
  guardOperands (fun insn => insn.rd = 0 ∨ insn.rs1 = 0) ctx (decodeInsn16ExtractCMv insn op)
    (transPlain .doAddi)

def transCLdsp : Trans16 := fun ctx insn op =>
  guardOperands (fun insn => insn.rd = 0) ctx (decodeInsn16ExtractCLdsp insn op)
    (transPlain .doLd)

def transCSlli : Trans16 := fun ctx insn op =>
  guardOperands (fun insn => insn.rd = 0) ctx (decodeInsn16ExtractCSlli insn op)
    (transPlain .doSlli)

def transCLwsp : Trans16 := fun ctx insn op =>
  guardOperands (fun insn => insn.rd = 0) ctx (decodeInsn16ExtractCLwsp insn op)
    (transPlain .doLw)

def transCEbreak : Trans16 := fun ctx insn _ => transPlain .doEmpty ctx insn

def transCJalr : Trans16 := fun ctx insn op =>
  guardOperands (fun insn => insn.rs1 = 0) ctx (decodeInsn16ExtractCJalr insn op)
    (transExit .doCJalr)

def transCAdd : Trans16 := fun ctx insn op =>
  guardOperands (fun insn => insn.rd = 0 ∨ insn.rs2 = 0) ctx (decodeInsn16ExtractCAdd insn op)
    (transPlain .doAdd)

def transCSwsp : Trans16 := fun ctx insn op =>
  transPlain .doSw ctx (decodeInsn16ExtractCSwsp insn op)

def transCSdsp : Trans16 := fun ctx insn op =>
  transPlain .doSd ctx (decodeInsn16ExtractCSdsp insn op)

/-! ## The switch -/

/-- What the switch of `decode_insn16` calls. -/
inductive Sel16
  | illegal
  | cAddi4spn | cLw | cLd | cSw | cSd | cAddi | cAddiw | cLi | cAddi16sp | cLui | cSrli | cSrai
  | cAndi | cSub | cXor | cOr | cAnd | cSubw | cAddw | cJ | cBeqz | cBnez | cJr | cMv | cLdsp
  | cSlli | cLwsp | cEbreak | cJalr | cAdd | cSwsp | cSdsp
deriving DecidableEq, Repr

def Sel16.trans : Sel16 → Trans16
  | illegal => fun ctx insn _ => transIllegal ctx insn
  | cAddi4spn => transCAddi4spn
  | cLw => transCLw
  | cLd => transCLd
  | cSw => transCSw
  | cSd => transCSd
  | cAddi => transCAddi
  | cAddiw => transCAddiw
  | cLi => transCLi
  | cAddi16sp => transCAddi16sp
  | cLui => transCLui
  | cSrli => transCSrli
  | cSrai => transCSrai
  | cAndi => transCAndi
  | cSub => transCSub
  | cXor => transCXor
  | cOr => transCOr
  | cAnd => transCAnd
  | cSubw => transCSubw
  | cAddw => transCAddw
  | cJ => transCJ
  | cBeqz => transCBeqz
  | cBnez => transCBnez
  | cJr => transCJr
  | cMv => transCMv
  | cLdsp => transCLdsp
  | cSlli => transCSlli
  | cLwsp => transCLwsp
  | cEbreak => transCEbreak
  | cJalr => transCJalr
  | cAdd => transCAdd
  | cSwsp => transCSwsp
  | cSdsp => transCSdsp

def switch16 (op : BitVec 16) : Sel16 :=
  switch (op &&& 0xe003#16) [
    (0x0000#16, if op &&& 0x1fe0#16 = 0 then .illegal else .cAddi4spn),
    (0x0001#16, .cAddi),
    (0x0002#16, .cSlli),
    (0x2001#16, .cAddiw),
    (0x4000#16, .cLw),
    (0x4001#16, .cLi),
    (0x4002#16, .cLwsp),
    (0x6000#16, .cLd),
    (0x6001#16, if op &&& 0x0f80#16 = 0x0100#16 then .cAddi16sp else .cLui),
    (0x6002#16, .cLdsp),
    (0x8001#16, switch ((op >>> 10) &&& 0x3#16) [
      (0x0#16, .cSrli),
      (0x1#16, .cSrai),
      (0x2#16, .cAndi),
      (0x3#16, switch (op &&& 0x1060#16) [
        (0x0000#16, .cSub),
        (0x0020#16, .cXor),
        (0x0040#16, .cOr),
        (0x0060#16, .cAnd),
        (0x1000#16, .cSubw),
        (0x1020#16, .cAddw)] .illegal)] .illegal),
    (0x8002#16, switch ((op >>> 12) &&& 0x1#16) [
      (0x0#16, if op &&& 0x007c#16 = 0 then .cJr else .cMv),
      (0x1#16,
        if op &&& 0x0ffc#16 = 0 then .cEbreak
        else if op &&& 0x007c#16 = 0 then .cJalr
        else .cAdd)] .illegal),
    (0xa001#16, .cJ),
    (0xc000#16, .cSw),
    (0xc002#16, .cSwsp),
    (0xc001#16, .cBeqz),
    (0xe000#16, .cSd),
    (0xe001#16, .cBnez),
    (0xe002#16, .cSdsp)] .illegal

def decodeInsn16 (ctx : Ctx) (insn : Insn) (op : BitVec 16) : Ctx × Insn :=
  (switch16 op).trans ctx insn op

end Rvvk
