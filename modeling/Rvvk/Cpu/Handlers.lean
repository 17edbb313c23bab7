import Rvvk.Cpu.State

/-!
# Instruction handlers

The `do_*` functions. Handlers that differ in an operator, a width or a return
offset are one constructor of `Op` with parameters, which `Op.run` executes, and
each handler applies it to its own values. Host division raises SIGFPE on a zero
divisor and on the one quotient that does not fit.
-/

namespace Rvvk

/-- An `int` immediate converted to `target_long`. -/
def Insn.immLong (insn : Insn) : Word := insn.imm.signExtend 64

/-- `insn->rs1` as an immediate. -/
def Insn.uimm (insn : Insn) : Word := insn.rs1.setWidth 64

/-! ## Control and status registers -/

/-- `none` is the return value 1 of the source. -/
def readCsr (s : State) (csr : BitVec 32) : Option Word :=
  if csr = 0x001 then some s.fflags
  else if csr = 0x002 then some s.frm
  else if csr = 0x003 then some s.fcsr
  else if csr = 0x008 then some s.vstart
  else if csr = 0x009 then some s.vxsat
  else if csr = 0x00a then some s.vxrm
  else if csr = 0x00f then some s.vcsr
  else if csr = 0xc20 then some s.vl
  else if csr = 0xc21 then some s.vtype
  else if csr = 0xc22 then some s.vlenb
  else none

def writeCsr (s : State) (csr : BitVec 32) (value : Word) : Option State :=
  if csr = 0x001 then some { s with fflags := value }
  else if csr = 0x002 then some { s with frm := value }
  else if csr = 0x003 then some { s with fcsr := value }
  else if csr = 0x008 then some { s with vstart := value }
  else if csr = 0x009 then some { s with vxsat := value }
  else if csr = 0x00a then some { s with vxrm := value }
  else if csr = 0x00f then some { s with vcsr := value }
  else if csr = 0xc20 then some { s with vl := value }
  else if csr = 0xc21 then some { s with vtype := value }
  else if csr = 0xc22 then some { s with vlenb := value }
  else none

/-- The state after the write and the value read before it. -/
def rmwCsr (s : State) (csr : BitVec 32) (newValue wrMask : Word) : Option (State × Word) := do
  let value ← readCsr s csr
  let s ← writeCsr s csr ((value &&& ~~~wrMask) ||| (newValue &&& wrMask))
  some (s, value)

/-! ## Families of handlers -/

inductive Op
  /-- No effect. -/
  | empty
  /-- Raise an exception at `insn->pc`. -/
  | illegal
  | ecall
  | auipc
  | lui
  /-- Jump to `insn->pc + imm`, linking `insn->pc + size`. -/
  | jal (size : Word)
  /-- Jump to `(gpr[rs1] + imm) & -2`, linking `insn->pc + size`. -/
  | jalr (size : Word)
  /-- `pc = insn->pc + (cond ? imm : size)`. -/
  | branch (cond : Word → Word → Bool) (size : Word)
  /-- `gpr[rd] = f (gpr[rs1], gpr[rs2])`. -/
  | aluR (f : Word → Word → Word)
  /-- `gpr[rd] = f (gpr[rs1], imm)`. -/
  | aluI (f : Word → BitVec 32 → Word)
  /-- `gpr[rd] = f (gpr[rs1], gpr[rs2])` where the host traps if `fault` holds. -/
  | aluDiv (fault : Word → Word → Bool) (f : Word → Word → Word)
  /-- `gpr[rd] = ext (ld (gpr[rs1], imm))`. -/
  | load {w : Nat} (ld : Memory → Word → Word → Except Fault (BitVec w)) (ext : BitVec w → Word)
  /-- `st (gpr[rs1], imm, gpr[rs2])`, the low `8 * n` bits stored. -/
  | store (n : Nat)
  /-- `rmw_csr` with a new value and a write mask computed from `gpr[rs1]` and `rs1`. -/
  | csr (newValue wrMask : Word → Word → Word)
  | lrW
  | scW
  /-- Replace the word at `gpr[rs1]` by `f (old, gpr[rs2])` and leave the old one in `rd`. -/
  | amoW (f : BitVec 32 → BitVec 32 → BitVec 32)
  /-- The same in two accesses: load and compute, then exchange. -/
  | amoSelW (f : BitVec 32 → BitVec 32 → BitVec 32)
  | lrD
  | scD
  | amoD (f : BitVec 64 → BitVec 64 → BitVec 64)
  | amoSelD (f : BitVec 64 → BitVec 64 → BitVec 64)

/-- Write the return address, unless `rd` is `x0`. -/
def link (size : Word) (insn : Insn) (m : Machine) : Machine :=
  if insn.rd ≠ 0 then m.setGpr insn.rd (insn.pc + size) else m

/-- `cpu_stub`, `cpu_stuh`, `cpu_stuw` or `cpu_stud`, by the number of bytes. -/
def cpuSt (n : Nat) (m : Memory) (addr offset value : Word) : Except Fault Memory :=
  match n with
  | 1 => cpuStub m addr offset (value.setWidth 8)
  | 2 => cpuStuh m addr offset (value.setWidth 16)
  | 4 => cpuStuw m addr offset (value.setWidth 32)
  | _ => cpuStud m addr offset value

/-- `(uint32_t) x`. -/
def low32 (x : Word) : BitVec 32 := x.setWidth 32

def Op.run (op : Op) (insn : Insn) (m : Machine) : Except Fault Machine :=
  match op with
  | empty => .ok m
  | illegal => .ok (m.raise .illegalInst insn.pc)
  | ecall => .ok (m.raise .uEcall insn.pc)
  | auipc => .ok (m.setGpr insn.rd (insn.pc + insn.immLong))
  | lui => .ok (m.setGpr insn.rd insn.immLong)
  | jal size => .ok ((link size insn m).setPc (insn.pc + insn.immLong))
  | jalr size =>
      -- The base register is read after the link register is written.
      let m := link size insn m
      .ok (m.setPc ((m.gpr insn.rs1 + insn.immLong) &&& -2))
  | branch cond size =>
      .ok (m.setPc (insn.pc +
        if cond (m.gpr insn.rs1) (m.gpr insn.rs2) then insn.immLong else size))
  | aluR f => .ok (m.setGpr insn.rd (f (m.gpr insn.rs1) (m.gpr insn.rs2)))
  | aluI f => .ok (m.setGpr insn.rd (f (m.gpr insn.rs1) insn.imm))
  | aluDiv fault f =>
      if fault (m.gpr insn.rs1) (m.gpr insn.rs2) then .error .sigfpe
      else .ok (m.setGpr insn.rd (f (m.gpr insn.rs1) (m.gpr insn.rs2)))
  | load ld ext => do
      let v ← ld m.mem (m.gpr insn.rs1) insn.immLong
      .ok (m.setGpr insn.rd (ext v))
  | store n => do
      let mem ← cpuSt n m.mem (m.gpr insn.rs1) insn.immLong (m.gpr insn.rs2)
      .ok (m.setMem mem)
  | csr newValue wrMask =>
      match rmwCsr m.env insn.csr (newValue (m.gpr insn.rs1) insn.uimm)
          (wrMask (m.gpr insn.rs1) insn.uimm) with
      | some (env, value) => .ok ({ m with env := env }.setGpr insn.rd value)
      | none => .ok (m.raise .illegalInst insn.pc)
  | lrW => do
      let v ← cpuLduw m.mem (m.gpr insn.rs1) 0
      .ok (m.setGpr insn.rd (v.signExtend 64))
  | scW => do
      let mem ← cpuStuw m.mem (m.gpr insn.rs1) 0 (low32 (m.gpr insn.rs2))
      .ok ((m.setMem mem).setGpr insn.rd 0)
  | amoW f => do
      let old ← cpuLduw m.mem (m.gpr insn.rs1) 0
      let mem ← cpuStuw m.mem (m.gpr insn.rs1) 0 (f old (low32 (m.gpr insn.rs2)))
      .ok ((m.setMem mem).setGpr insn.rd (old.signExtend 64))
  | amoSelW f => do
      let n ← cpuLduw m.mem (m.gpr insn.rs1) 0
      let old ← cpuLduw m.mem (m.gpr insn.rs1) 0
      let mem ← cpuStuw m.mem (m.gpr insn.rs1) 0 (f n (low32 (m.gpr insn.rs2)))
      .ok ((m.setMem mem).setGpr insn.rd (old.signExtend 64))
  | lrD => do
      let v ← cpuLdud m.mem (m.gpr insn.rs1) 0
      .ok (m.setGpr insn.rd v)
  | scD => do
      let mem ← cpuStud m.mem (m.gpr insn.rs1) 0 (m.gpr insn.rs2)
      .ok ((m.setMem mem).setGpr insn.rd 0)
  | amoD f => do
      let old ← cpuLdud m.mem (m.gpr insn.rs1) 0
      let mem ← cpuStud m.mem (m.gpr insn.rs1) 0 (f old (m.gpr insn.rs2))
      .ok ((m.setMem mem).setGpr insn.rd old)
  | amoSelD f => do
      let n ← cpuLdud m.mem (m.gpr insn.rs1) 0
      let old ← cpuLdud m.mem (m.gpr insn.rs1) 0
      let mem ← cpuStud m.mem (m.gpr insn.rs1) 0 (f n (m.gpr insn.rs2))
      .ok ((m.setMem mem).setGpr insn.rd old)

/-- The second read of a `min` or `max` form finds what the first one found. -/
theorem amoSelW_run (f : BitVec 32 → BitVec 32 → BitVec 32) (insn : Insn) :
    (Op.amoSelW f).run insn = (Op.amoW f).run insn := by
  funext m
  simp only [Op.run, bind, Except.bind]
  cases cpuLduw m.mem (m.gpr insn.rs1) 0 <;> simp only

theorem amoSelD_run (f : BitVec 64 → BitVec 64 → BitVec 64) (insn : Insn) :
    (Op.amoSelD f).run insn = (Op.amoD f).run insn := by
  funext m
  simp only [Op.run, bind, Except.bind]
  cases cpuLdud m.mem (m.gpr insn.rs1) 0 <;> simp only

/-! ## RV32I -/

def doEmpty : Op := .empty
def doIllegal : Op := .illegal
def doEcall : Op := .ecall
def doAuipc : Op := .auipc
def doLui : Op := .lui
def doJal : Op := .jal 4
def doJalr : Op := .jalr 4
def doCJal : Op := .jal 2
def doCJalr : Op := .jalr 2

/-- The value of a C comparison. -/
def flag (b : Bool) : Word := if b then 1 else 0

/-- The low six bits, `TARGET_LONG_BITS - 1`. -/
def shamt64 {w : Nat} (x : BitVec w) : Nat := (x &&& 63).toNat

def shamt32 {w : Nat} (x : BitVec w) : Nat := (x &&& 31).toNat

def doAdd : Op := .aluR fun a b => a + b
def doSub : Op := .aluR fun a b => a - b
def doSll : Op := .aluR fun a b => a <<< shamt64 b
def doSlt : Op := .aluR fun a b => flag (a.slt b)
def doSltu : Op := .aluR fun a b => flag (a.ult b)
def doXor : Op := .aluR fun a b => a ^^^ b
def doSrl : Op := .aluR fun a b => a >>> shamt64 b
def doSra : Op := .aluR fun a b => a.sshiftRight (shamt64 b)
def doOr : Op := .aluR fun a b => a ||| b
def doAnd : Op := .aluR fun a b => a &&& b

def doBeq : Op := .branch (fun a b => a == b) 4
def doBne : Op := .branch (fun a b => a != b) 4
def doBlt : Op := .branch (fun a b => a.slt b) 4
def doBge : Op := .branch (fun a b => !a.slt b) 4
def doBltu : Op := .branch (fun a b => a.ult b) 4
def doBgeu : Op := .branch (fun a b => !a.ult b) 4
def doCBeq : Op := .branch (fun a b => a == b) 2
def doCBne : Op := .branch (fun a b => a != b) 2

def doLb : Op := .load cpuLdub fun v => v.signExtend 64
def doLh : Op := .load cpuLduh fun v => v.signExtend 64
def doLw : Op := .load cpuLduw fun v => v.signExtend 64
def doLbu : Op := .load cpuLdub fun v => v.setWidth 64
def doLhu : Op := .load cpuLduh fun v => v.setWidth 64
def doSb : Op := .store 1
def doSh : Op := .store 2
def doSw : Op := .store 4

def doAddi : Op := .aluI fun a i => a + i.signExtend 64
def doSlti : Op := .aluI fun a i => flag (a.slt (i.signExtend 64))
def doSltiu : Op := .aluI fun a i => flag (a.ult (i.signExtend 64))
def doXori : Op := .aluI fun a i => a ^^^ i.signExtend 64
def doOri : Op := .aluI fun a i => a ||| i.signExtend 64
def doAndi : Op := .aluI fun a i => a &&& i.signExtend 64
def doSlli : Op := .aluI fun a i => a <<< shamt64 i
def doSrli : Op := .aluI fun a i => a >>> shamt64 i
def doSrai : Op := .aluI fun a i => a.sshiftRight (shamt64 i)

/-! ## RV64I -/

def doLwu : Op := .load cpuLduw fun v => v.setWidth 64
def doLd : Op := .load cpuLdud fun v => v
def doSd : Op := .store 8

/-- `(target_long) (int32_t) x`. -/
def sext32 (x : Word) : Word := (x.setWidth 32).signExtend 64

def doAddiw : Op := .aluI fun a i => sext32 (a + i.signExtend 64)
def doSlliw : Op := .aluI fun a i => (low32 a <<< shamt32 i).setWidth 64
def doSrliw : Op := .aluI fun a i => (low32 a >>> shamt32 i).setWidth 64
def doSraiw : Op := .aluI fun a i => ((low32 a).sshiftRight (shamt32 i)).signExtend 64
def doAddw : Op := .aluR fun a b => sext32 (a + b)
def doSubw : Op := .aluR fun a b => sext32 (a - b)
def doSllw : Op := .aluR fun a b => (low32 a <<< shamt32 b).setWidth 64
def doSrlw : Op := .aluR fun a b => (low32 a >>> shamt32 b).setWidth 64
def doSraw : Op := .aluR fun a b => ((low32 a).sshiftRight (shamt32 b)).signExtend 64

/-! ## RV32M -/

/-- `(target_hulong) x`, back in a `target_ulong`. -/
def hulong (x : Word) : Word := (x.setWidth 32).setWidth 64

structure Wide where
  hi : Word
  lo : Word

def wmulu (x y : Word) : Wide :=
  let x0 := hulong x
  let x1 := x >>> 32
  let y0 := hulong y
  let y1 := y >>> 32
  let p11 := x1 * y1
  let p01 := x0 * y1
  let p10 := x1 * y0
  let p00 := x0 * y0
  let c := ((p00 >>> 32) + hulong p10 + hulong p01) >>> 32
  { lo := p00 + (p10 <<< 32) + (p01 <<< 32)
    hi := p11 + (p10 >>> 32) + (p01 >>> 32) + c }

def wmul (x y : Word) : Wide :=
  let r := wmulu x y
  let r := if x.slt 0 then { r with hi := r.hi - y } else r
  if y.slt 0 then { r with hi := r.hi - x } else r

def wmulsu (x y : Word) : Wide :=
  let r := wmulu x y
  if x.slt 0 then { r with hi := r.hi - y } else r

def doMul : Op := .aluR fun a b => a * b
def doMulh : Op := .aluR fun a b => (wmul a b).hi
def doMulhsu : Op := .aluR fun a b => (wmulsu a b).hi
def doMulhu : Op := .aluR fun a b => (wmulu a b).hi

/-- A signed host division of `a` by `b` has no representable quotient. -/
def sdivTraps {w : Nat} (a b : BitVec w) : Bool :=
  b == 0 || (a == BitVec.intMin w && b == -1)

def udivTraps {w : Nat} (_a b : BitVec w) : Bool := b == 0

def doDiv : Op := .aluDiv sdivTraps fun a b => a.sdiv b
def doDivu : Op := .aluDiv udivTraps fun a b => a.udiv b
def doRem : Op := .aluDiv sdivTraps fun a b => a.srem b
def doRemu : Op := .aluDiv udivTraps fun a b => a.umod b

/-! ## RV64M -/

def doMulw : Op := .aluR fun a b => sext32 (a * b)
def doDivw : Op := .aluDiv (fun a b => sdivTraps (low32 a) (low32 b))
  fun a b => ((low32 a).sdiv (low32 b)).signExtend 64
def doDivuw : Op := .aluDiv (fun a b => udivTraps (low32 a) (low32 b))
  fun a b => ((low32 a).udiv (low32 b)).setWidth 64
def doRemw : Op := .aluDiv (fun a b => sdivTraps (low32 a) (low32 b))
  fun a b => ((low32 a).srem (low32 b)).signExtend 64
def doRemuw : Op := .aluDiv (fun a b => udivTraps (low32 a) (low32 b))
  fun a b => ((low32 a).umod (low32 b)).setWidth 64

/-! ## Zicsr -/

def doCsrrw : Op := .csr (fun x _ => x) (fun _ _ => -1)
def doCsrrs : Op := .csr (fun _ _ => -1) (fun x _ => x)
def doCsrrc : Op := .csr (fun _ _ => 0) (fun x _ => x)
def doCsrrwi : Op := .csr (fun _ i => i) (fun _ _ => -1)
def doCsrrsi : Op := .csr (fun _ _ => -1) (fun _ i => i)
def doCsrrci : Op := .csr (fun _ _ => 0) (fun _ i => i)

/-! ## RV32A -/

def doLrW : Op := .lrW
def doScW : Op := .scW
def doAmoaddW : Op := .amoW fun n x => n + x
def doAmoswapW : Op := .amoW fun _ x => x
def doAmoxorW : Op := .amoW fun n x => n ^^^ x
def doAmoorW : Op := .amoW fun n x => n ||| x
def doAmoandW : Op := .amoW fun n x => n &&& x
def doAmominW : Op := .amoSelW fun n x => if n.slt x then n else x
def doAmomaxW : Op := .amoSelW fun n x => if x.slt n then n else x
def doAmominuW : Op := .amoSelW fun n x => if n.ult x then n else x
def doAmomaxuW : Op := .amoSelW fun n x => if x.ult n then n else x

/-! ## RV64A -/

def doLrD : Op := .lrD
def doScD : Op := .scD
def doAmoaddD : Op := .amoD fun n x => n + x
def doAmoswapD : Op := .amoD fun _ x => x
def doAmoxorD : Op := .amoD fun n x => n ^^^ x
def doAmoorD : Op := .amoD fun n x => n ||| x
def doAmoandD : Op := .amoD fun n x => n &&& x
def doAmominD : Op := .amoSelD fun n x => if n.slt x then n else x
def doAmomaxD : Op := .amoSelD fun n x => if x.slt n then n else x
def doAmominuD : Op := .amoSelD fun n x => if n.ult x then n else x
def doAmomaxuD : Op := .amoSelD fun n x => if x.ult n then n else x

/-! ## Dispatch -/

/-- The function a handler pointer points to. -/
def handlerOp : Handler → Op
  | .doEmpty => doEmpty
  | .doIllegal => doIllegal
  | .doEcall => doEcall
  | .doAuipc => doAuipc
  | .doLui => doLui
  | .doJal => doJal
  | .doJalr => doJalr
  | .doCJal => doCJal
  | .doCJalr => doCJalr
  | .doAdd => doAdd
  | .doSub => doSub
  | .doSll => doSll
  | .doSlt => doSlt
  | .doSltu => doSltu
  | .doXor => doXor
  | .doSrl => doSrl
  | .doSra => doSra
  | .doOr => doOr
  | .doAnd => doAnd
  | .doBeq => doBeq
  | .doBne => doBne
  | .doBlt => doBlt
  | .doBge => doBge
  | .doBltu => doBltu
  | .doBgeu => doBgeu
  | .doCBeq => doCBeq
  | .doCBne => doCBne
  | .doLb => doLb
  | .doLh => doLh
  | .doLw => doLw
  | .doLbu => doLbu
  | .doLhu => doLhu
  | .doSb => doSb
  | .doSh => doSh
  | .doSw => doSw
  | .doAddi => doAddi
  | .doSlti => doSlti
  | .doSltiu => doSltiu
  | .doXori => doXori
  | .doOri => doOri
  | .doAndi => doAndi
  | .doSlli => doSlli
  | .doSrli => doSrli
  | .doSrai => doSrai
  | .doLwu => doLwu
  | .doLd => doLd
  | .doSd => doSd
  | .doAddiw => doAddiw
  | .doSlliw => doSlliw
  | .doSrliw => doSrliw
  | .doSraiw => doSraiw
  | .doAddw => doAddw
  | .doSubw => doSubw
  | .doSllw => doSllw
  | .doSrlw => doSrlw
  | .doSraw => doSraw
  | .doMul => doMul
  | .doMulh => doMulh
  | .doMulhsu => doMulhsu
  | .doMulhu => doMulhu
  | .doDiv => doDiv
  | .doDivu => doDivu
  | .doRem => doRem
  | .doRemu => doRemu
  | .doMulw => doMulw
  | .doDivw => doDivw
  | .doDivuw => doDivuw
  | .doRemw => doRemw
  | .doRemuw => doRemuw
  | .doCsrrw => doCsrrw
  | .doCsrrs => doCsrrs
  | .doCsrrc => doCsrrc
  | .doCsrrwi => doCsrrwi
  | .doCsrrsi => doCsrrsi
  | .doCsrrci => doCsrrci
  | .doLrW => doLrW
  | .doScW => doScW
  | .doAmoaddW => doAmoaddW
  | .doAmoswapW => doAmoswapW
  | .doAmoxorW => doAmoxorW
  | .doAmoorW => doAmoorW
  | .doAmoandW => doAmoandW
  | .doAmominW => doAmominW
  | .doAmomaxW => doAmomaxW
  | .doAmominuW => doAmominuW
  | .doAmomaxuW => doAmomaxuW
  | .doLrD => doLrD
  | .doScD => doScD
  | .doAmoaddD => doAmoaddD
  | .doAmoswapD => doAmoswapD
  | .doAmoxorD => doAmoxorD
  | .doAmoorD => doAmoorD
  | .doAmoandD => doAmoandD
  | .doAmominD => doAmominD
  | .doAmomaxD => doAmomaxD
  | .doAmominuD => doAmominuD
  | .doAmomaxuD => doAmomaxuD

/-- `insn->handler (env, insn)`. -/
def Insn.run (insn : Insn) (m : Machine) : Except Fault Machine :=
  (handlerOp insn.handler).run insn m

end Rvvk
