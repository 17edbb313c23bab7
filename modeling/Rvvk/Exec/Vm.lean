import Rvvk.Exec.Cache
import Rvvk.Lib.Run

/-!
# Executing translated blocks

`block_exec` and `cpu_exec` as a step function: each step runs one handler, or
goes from the end of a block to the start of the next one through the link or
through `find_block`, `new_block`, `translate` and `patch_block`. Two machines
without a cache follow: one that translates a fresh block each time, and one that
decodes a single instruction each time.
-/

namespace Rvvk

/-- A handler call in `block_exec`, with the assertion after it. -/
def Insn.exec (insn : Insn) (m : Machine) : Except Fault Machine := do
  let m ← insn.run m
  if m.gpr 0 = 0 then .ok m else .error .sigabrt

/-- Where the emulator is. -/
inductive Ctl
  /-- `cpu_exec` has just been called. -/
  | start
  /-- `block_exec` is about to run `b->insn[i]`, or has run all of them. -/
  | body (b : Ptr) (i : Nat)
  /-- `cpu_exec` has returned. -/
  | returned
deriving DecidableEq, Repr

structure Vm where
  m : Machine
  cache : Cache
  ctl : Ctl

namespace Vm

def start (m : Machine) : Vm := ⟨m, .init, .start⟩

/-- The block for a pc, translated now if there is none. -/
def lookup (c : Cache) (mem : Memory) (pc : Word) : Except Fault (Cache × Ptr) :=
  match c.findBlock pc with
  | some b => .ok (c, b)
  | none => do
      let (c, b) := c.newBlock pc
      let t ← translate mem pc
      .ok (c.fill b t, b)

/-- `patch_block`, if there is a previous block. -/
def patchPrev (c : Cache) (prev : Option Ptr) (now : Ptr) : Cache :=
  match prev with
  | some prev => c.patchBlock prev now
  | none => c

/-- One turn of the loop of `cpu_exec`, up to the call of `block_exec`. -/
def enter (prev : Option Ptr) (m : Machine) (c : Cache) : Except Fault Vm :=
  if m.exception = .none then do
    let (c, b) ← lookup c m.mem m.pc
    .ok ⟨m, patchPrev c prev b, .body b 0⟩
  else .ok ⟨m, c, .returned⟩

/-- The successor `block_exec` picks when the handlers of a block have run. -/
def jmpNext (b : Block) (pc : Word) : Option Ptr :=
  if pc = b.jmpNext0.pc then b.jmpNext0.blk else b.jmpNext1.blk

def step (s : Vm) : Except Fault Vm :=
  match s.ctl with
  | .returned => .ok s
  | .start => enter none s.m s.cache
  | .body p i =>
      match s.cache.heap[p]? with
      | none => .error .sigsegv
      | some b =>
          match b.insns[i]? with
          | some insn => do
              let m ← insn.exec s.m
              .ok { s with m := m, ctl := .body p (i + 1) }
          | none =>
              match jmpNext b s.m.pc with
              | some next => .ok { s with ctl := .body next 0 }
              | none => enter (some p) s.m s.cache

def run : Nat → Vm → Except Fault Vm := Run.run step

def insn? (s : Vm) : Option Insn :=
  match s.ctl with
  | .body p i => (s.cache.heap[p]?).bind fun b => b.insns[i]?
  | _ => none

/-- The instructions whose handlers the first `n` steps run. -/
def log : Nat → Vm → List Insn := Run.log step fun s => s.insn?.toList

end Vm

/-! ## The plain executor -/

inductive Plain.Ctl
  | start
  | body (pc : Word) (insns : List Insn) (i : Nat)
  | stopped
deriving DecidableEq, Repr

structure Plain where
  m : Machine
  ctl : Plain.Ctl

namespace Plain

/-- Stop if an exception is pending, else translate a fresh block. -/
def enter (m : Machine) : Except Fault Plain :=
  if m.exception = .none then do
    let t ← translate m.mem m.pc
    .ok ⟨m, .body m.pc t.insns 0⟩
  else .ok ⟨m, .stopped⟩

def step (s : Plain) : Except Fault Plain :=
  match s.ctl with
  | .stopped => .ok s
  | .start => enter s.m
  | .body pc insns i =>
      match insns[i]? with
      | some insn => do
          let m ← insn.exec s.m
          .ok { s with m := m, ctl := .body pc insns (i + 1) }
      | none => enter s.m

def run : Nat → Plain → Except Fault Plain := Run.run step

end Plain

/-! ## One instruction at a time -/

namespace Machine

/-- Fetch, decode and execute the instruction at `env->pc`. -/
def step (m : Machine) : Except Fault Machine := do
  let opcode ← cpuLduw m.mem m.pc 0
  let insn := insnAt m.pc opcode
  let m' ← insn.run m
  .ok (if insn.op.transfers then m' else m'.setPc (m.pc + insnLen opcode))

def run : Nat → Machine → Except Fault Machine := Run.run step

/-- The instructions the first `n` steps decode and execute. -/
def log : Nat → Machine → List Insn := Run.log step fun m => [insnAt m.pc (fetch m.mem m.pc)]

end Machine

/-! ## Runs -/

/-- How `cpu_loop` goes on after a system call that returned `ret` and left `mem`. -/
def Machine.resume (m : Machine) (ret : Word) (mem : Memory) : Machine :=
  let m := (m.setMem mem).setPc (m.pc + 4)
  let m := m.setGpr Reg.a0 ret
  { m with env := { m.env with exception := .none } }

namespace Vm

/-- The instructions of the translated blocks are the same before and after. -/
def KeepsCode (s s' : Vm) : Prop :=
  ∀ b ∈ s.cache.heap, SameCode s.m.mem s'.m.mem b.pc b.insns.length

instance (s s' : Vm) : Decidable (KeepsCode s s') :=
  inferInstanceAs (Decidable (∀ b ∈ s.cache.heap, _))

end Vm

end Rvvk
