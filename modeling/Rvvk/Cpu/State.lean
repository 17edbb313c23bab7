import Rvvk.Memory

/-!
# CPU state and translated instructions

`state_t`, `insn_t` and the handler a translated instruction points to. Register
numbers are `int`s in the source, but every one is extracted from a five-bit
field or computed as `8 +` a three-bit field, so five bits hold them.
-/

namespace Rvvk

abbrev Reg := BitVec 5

namespace Reg

def ra : Reg := 1
def sp : Reg := 2
def a0 : Reg := 10
def a7 : Reg := 17

end Reg

/-- The `RISCV_EXCP_*` values the code assigns or tests. -/
inductive Excp
  | none
  | illegalInst
  | uEcall
deriving DecidableEq, Repr

/-- `state_t`; the field `jvt` is never read or written. -/
structure State where
  gpr : Reg → Word
  pc : Word
  fflags : Word
  frm : Word
  fcsr : Word
  vstart : Word
  vxsat : Word
  vxrm : Word
  vcsr : Word
  vl : Word
  vtype : Word
  vlenb : Word
  exception : Excp

/-- The `do_*` functions a translated instruction can point to. -/
inductive Handler
  | doEmpty | doIllegal | doEcall
  | doAuipc | doLui | doJal | doJalr | doCJal | doCJalr
  | doAdd | doSub | doSll | doSlt | doSltu | doXor | doSrl | doSra | doOr | doAnd
  | doBeq | doBne | doBlt | doBge | doBltu | doBgeu | doCBeq | doCBne
  | doLb | doLh | doLw | doLbu | doLhu | doSb | doSh | doSw
  | doAddi | doSlti | doSltiu | doXori | doOri | doAndi | doSlli | doSrli | doSrai
  | doLwu | doLd | doSd
  | doAddiw | doSlliw | doSrliw | doSraiw | doAddw | doSubw | doSllw | doSrlw | doSraw
  | doMul | doMulh | doMulhsu | doMulhu | doDiv | doDivu | doRem | doRemu
  | doMulw | doDivw | doDivuw | doRemw | doRemuw
  | doCsrrw | doCsrrs | doCsrrc | doCsrrwi | doCsrrsi | doCsrrci
  | doLrW | doScW | doAmoaddW | doAmoswapW | doAmoxorW | doAmoorW | doAmoandW
  | doAmominW | doAmomaxW | doAmominuW | doAmomaxuW
  | doLrD | doScD | doAmoaddD | doAmoswapD | doAmoxorD | doAmoorD | doAmoandD
  | doAmominD | doAmomaxD | doAmominuD | doAmomaxuD
deriving DecidableEq, Repr

/-- `insn_t`. The union of `imm` and `csr` is one field. -/
structure Insn where
  rs1 : Reg
  rs2 : Reg
  rd : Reg
  imm : BitVec 32
  pc : Word
  handler : Handler
deriving DecidableEq, Repr

namespace Insn

/-- A slot of the instruction buffer before it is decoded into: the buffer is
mapped zero-filled and every slot is handed out once. The decoder overwrites
the null handler on every path. -/
def fresh : Insn := ⟨0, 0, 0, 0, 0, .doEmpty⟩

def csr (insn : Insn) : BitVec 32 := insn.imm

end Insn

namespace State

/-- The state `main` clears. -/
def zero : State := ⟨fun _ => 0, 0, 0, 0, 0, 0, 0, 0, 0, 0, 0, 0, .none⟩

def setGpr (s : State) (rd : Reg) (v : Word) : State :=
  { s with gpr := fun r => if r = rd then v else s.gpr r }

end State

/-- What a handler can reach: the CPU state and guest memory. -/
structure Machine where
  env : State
  mem : Memory

namespace Machine

def boot (mem : Memory) : Machine := ⟨.zero, mem⟩

def gpr (m : Machine) (r : Reg) : Word := m.env.gpr r

def pc (m : Machine) : Word := m.env.pc

def exception (m : Machine) : Excp := m.env.exception

def setGpr (m : Machine) (rd : Reg) (v : Word) : Machine :=
  { m with env := m.env.setGpr rd v }

def setPc (m : Machine) (pc : Word) : Machine :=
  { m with env := { m.env with pc := pc } }

def raise (m : Machine) (e : Excp) (pc : Word) : Machine :=
  { m with env := { m.env with exception := e, pc := pc } }

def setMem (m : Machine) (mem : Memory) : Machine := { m with mem := mem }

/-! ## Reading after an update -/

theorem gpr_setGpr (m : Machine) (rd r : Reg) (v : Word) :
    (m.setGpr rd v).gpr r = if r = rd then v else m.gpr r := rfl

@[simp] theorem gpr_setGpr_self (m : Machine) (rd : Reg) (v : Word) :
    (m.setGpr rd v).gpr rd = v := by
  simp [gpr_setGpr]

theorem gpr_setGpr_of_ne (m : Machine) {rd r : Reg} (v : Word) (h : r ≠ rd) :
    (m.setGpr rd v).gpr r = m.gpr r := by
  simp [gpr_setGpr, h]

@[simp] theorem pc_setGpr (m : Machine) (rd : Reg) (v : Word) : (m.setGpr rd v).pc = m.pc := rfl
@[simp] theorem mem_setGpr (m : Machine) (rd : Reg) (v : Word) : (m.setGpr rd v).mem = m.mem := rfl
@[simp] theorem exception_setGpr (m : Machine) (rd : Reg) (v : Word) :
    (m.setGpr rd v).exception = m.exception := rfl

@[simp] theorem gpr_setPc (m : Machine) (pc : Word) : (m.setPc pc).gpr = m.gpr := rfl
@[simp] theorem pc_setPc (m : Machine) (pc : Word) : (m.setPc pc).pc = pc := rfl
@[simp] theorem mem_setPc (m : Machine) (pc : Word) : (m.setPc pc).mem = m.mem := rfl
@[simp] theorem exception_setPc (m : Machine) (pc : Word) :
    (m.setPc pc).exception = m.exception := rfl
@[simp] theorem setPc_setPc (m : Machine) (p q : Word) : (m.setPc p).setPc q = m.setPc q := rfl
@[simp] theorem setPc_pc (m : Machine) : m.setPc m.pc = m := rfl

@[simp] theorem gpr_setMem (m : Machine) (mem : Memory) : (m.setMem mem).gpr = m.gpr := rfl
@[simp] theorem pc_setMem (m : Machine) (mem : Memory) : (m.setMem mem).pc = m.pc := rfl
@[simp] theorem mem_setMem (m : Machine) (mem : Memory) : (m.setMem mem).mem = mem := rfl
@[simp] theorem exception_setMem (m : Machine) (mem : Memory) :
    (m.setMem mem).exception = m.exception := rfl

@[simp] theorem gpr_raise (m : Machine) (e : Excp) (pc : Word) : (m.raise e pc).gpr = m.gpr := rfl
@[simp] theorem pc_raise (m : Machine) (e : Excp) (pc : Word) : (m.raise e pc).pc = pc := rfl
@[simp] theorem mem_raise (m : Machine) (e : Excp) (pc : Word) : (m.raise e pc).mem = m.mem := rfl
@[simp] theorem exception_raise (m : Machine) (e : Excp) (pc : Word) :
    (m.raise e pc).exception = e := rfl

end Machine

end Rvvk
