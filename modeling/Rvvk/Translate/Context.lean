import Rvvk.Bitops
import Rvvk.Cpu.State

/-!
# Translation context

`trans_t`. The pointers `pc_next` aim at the `jmp_next` pcs of the block being
translated, which `new_block` has cleared; the context holds what they point to.
The field `count` is set once and never read.
-/

namespace Rvvk

structure Ctx where
  pc : Word
  link : Bool
  pcNext0 : Word
  pcNext1 : Word
  exit : Bool
deriving DecidableEq, Repr

/-- The context `translate` starts from. -/
def Ctx.start (pc : Word) : Ctx := ⟨pc, false, 0, 0, false⟩

/-- `ex_shift_1` to `ex_shift_12`. -/
def exShift (amount : Nat) (imm : BitVec 32) : BitVec 32 := imm <<< amount

/-- An extracted field as a register number. -/
def toReg (x : BitVec 32) : Reg := x.setWidth 5

def exRvcRegister (reg : BitVec 32) : Reg := toReg (8 + reg)

def transIllegal (ctx : Ctx) (insn : Insn) : Ctx × Insn :=
  ({ ctx with exit := true }, { insn with handler := .doIllegal, pc := ctx.pc })

def transPlain (h : Handler) (ctx : Ctx) (insn : Insn) : Ctx × Insn :=
  (ctx, { insn with handler := h })

/-- The part of a jump or branch translation that follows the operands. -/
def transJump (h : Handler) (ctx : Ctx) (insn : Insn) : Ctx × Insn :=
  ({ ctx with link := true, pcNext0 := ctx.pc + insn.imm.signExtend 64, exit := true },
    { insn with handler := h, pc := ctx.pc })

/-- The same for a conditional branch, which may also fall through. -/
def transBranch (h : Handler) (size : Word) (ctx : Ctx) (insn : Insn) : Ctx × Insn :=
  let (ctx', insn) := transJump h ctx insn
  ({ ctx' with pcNext1 := ctx.pc + size }, insn)

/-- The same for an indirect jump or a system call, whose target is not known. -/
def transExit (h : Handler) (ctx : Ctx) (insn : Insn) : Ctx × Insn :=
  ({ ctx with exit := true }, { insn with handler := h, pc := ctx.pc })

end Rvvk
