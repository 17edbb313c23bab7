import Rvvk.Isa.Compressed
import Rvvk.Memory

/-!
# What the instructions mean

A hart of RV64IMAC with Zicsr as the instruction set describes it, apart from the
emulator's handlers. An instruction completes, or it traps and leaves the hart as
it was. Loads and stores may be misaligned; the A extension wants its addresses
aligned.
-/

namespace Rvvk.Isa

/-! ## Operations -/

def truth (p : Prop) [Decidable p] : Word := if p then 1 else 0

/-- An operation on the low halves, with its result sign-extended. -/
def onHalves (f : BitVec 32 → BitVec 32 → BitVec 32) (a b : Word) : Word :=
  (f (a.setWidth 32) (b.setWidth 32)).signExtend 64

/-- All ones if the divisor is zero; the one quotient that does not fit wraps around. -/
def quotient {w : Nat} (a b : BitVec w) : BitVec w :=
  if b = 0 then -1 else BitVec.ofInt w (a.toInt.tdiv b.toInt)

def remainder {w : Nat} (a b : BitVec w) : BitVec w :=
  if b = 0 then a else BitVec.ofInt w (a.toInt.tmod b.toInt)

def quotientU {w : Nat} (a b : BitVec w) : BitVec w :=
  if b = 0 then -1 else BitVec.ofNat w (a.toNat / b.toNat)

def remainderU {w : Nat} (a b : BitVec w) : BitVec w :=
  if b = 0 then a else BitVec.ofNat w (a.toNat % b.toNat)

def ROp.value (op : ROp) (a b : Word) : Word :=
  match op with
  | add => a + b
  | sub => a - b
  | sll => a <<< (b.toNat % 64)
  | slt => truth (a.toInt < b.toInt)
  | sltu => truth (a.toNat < b.toNat)
  | xor => a ^^^ b
  | srl => a >>> (b.toNat % 64)
  | sra => a.sshiftRight (b.toNat % 64)
  | or => a ||| b
  | and => a &&& b
  | addw => onHalves (fun x y => x + y) a b
  | subw => onHalves (fun x y => x - y) a b
  | sllw => onHalves (fun x y => x <<< (y.toNat % 32)) a b
  | srlw => onHalves (fun x y => x >>> (y.toNat % 32)) a b
  | sraw => onHalves (fun x y => x.sshiftRight (y.toNat % 32)) a b
  | mul => BitVec.ofInt 64 (a.toInt * b.toInt)
  | mulh => BitVec.ofInt 64 (a.toInt * b.toInt / 2 ^ 64)
  | mulhsu => BitVec.ofInt 64 (a.toInt * b.toNat / 2 ^ 64)
  | mulhu => BitVec.ofNat 64 (a.toNat * b.toNat / 2 ^ 64)
  | div => quotient a b
  | divu => quotientU a b
  | rem => remainder a b
  | remu => remainderU a b
  | mulw => onHalves (fun x y => x * y) a b
  | divw => onHalves quotient a b
  | divuw => onHalves quotientU a b
  | remw => onHalves remainder a b
  | remuw => onHalves remainderU a b

def ShiftOp.value (op : ShiftOp) (a : Word) (n : Nat) : Word :=
  match op with
  | slli => a <<< n
  | srli => a >>> n
  | srai => a.sshiftRight n

def ShiftWOp.value (op : ShiftWOp) (a : Word) (n : Nat) : Word :=
  match op with
  | slliw => (a.setWidth 32 <<< n).signExtend 64
  | srliw => (a.setWidth 32 >>> n).signExtend 64
  | sraiw => ((a.setWidth 32).sshiftRight n).signExtend 64

def BOp.taken (op : BOp) (a b : Word) : Bool :=
  match op with
  | beq => a == b
  | bne => a != b
  | blt => a.toInt < b.toInt
  | bge => b.toInt ≤ a.toInt
  | bltu => a.toNat < b.toNat
  | bgeu => b.toNat ≤ a.toNat

def SOp.size : SOp → Nat
  | sb => 1
  | sh => 2
  | sw => 4
  | sd => 8

def Width.size : Width → Nat
  | w => 4
  | d => 8

/-- What an AMO leaves in memory; a store-conditional leaves its operand. -/
def AmoOp.value {w : Nat} (op : AmoOp) (old x : BitVec w) : BitVec w :=
  match op with
  | sc | swap => x
  | add => old + x
  | xor => old ^^^ x
  | and => old &&& x
  | or => old ||| x
  | min => if old.toInt ≤ x.toInt then old else x
  | max => if x.toInt ≤ old.toInt then old else x
  | minu => if old.toNat ≤ x.toNat then old else x
  | maxu => if x.toNat ≤ old.toNat then old else x

def CsrOp.combine (op : CsrOp) (old v : Word) : Word :=
  match op with
  | csrrw | csrrwi => v
  | csrrs | csrrsi => old ||| v
  | csrrc | csrrci => old &&& ~~~v

/-- Setting or clearing the bits of `x0`, or of the immediate 0, is no write. -/
def CsrOp.writes (op : CsrOp) (rs1 : Reg) : Bool :=
  match op with
  | csrrw | csrrwi => true
  | _ => rs1 != 0

/-- The two highest bits of its number mark a CSR as read-only. -/
def readOnly (num : BitVec 12) : Bool := num.extractLsb' 10 2 == 3

/-! ## The hart -/

inductive Trap
  | illegal
  | breakpoint
  | ecall
  | misaligned
  | access
deriving DecidableEq, Repr

/-- The state of the hart; `x0` is zero in every one. -/
structure Core where
  x : Reg → Word
  zero : x 0 = 0
  pc : Word
  mem : Memory
  /-- What FCSR is made of. -/
  frm : BitVec 3
  fflags : BitVec 5
  /-- What VCSR is made of. -/
  vxrm : BitVec 2
  vxsat : BitVec 1
  /-- The other CSRs that are implemented. -/
  csrs : BitVec 12 → Option Word
  /-- The reserved word: its number of bytes and its address. -/
  reserved : Option (Nat × Word)

namespace Core

/-- Write a register; a write to `x0` is dropped. -/
def set (c : Core) (rd : Reg) (v : Word) : Core :=
  { c with
    x := fun r => if r = rd ∧ rd ≠ 0 then v else c.x r
    zero := (if_neg fun h => h.2 h.1.symm).trans c.zero }

def jump (c : Core) (pc : Word) : Core := { c with pc := pc }

def advance (c : Core) (len : Word) : Core := c.jump (c.pc + len)

/-- FFLAGS and FRM are the low bits of FCSR, VXSAT and VXRM those of VCSR. -/
def csr (c : Core) (num : BitVec 12) : Option Word :=
  if num = 0x001 then some (c.fflags.setWidth 64)
  else if num = 0x002 then some (c.frm.setWidth 64)
  else if num = 0x003 then some ((c.frm ++ c.fflags).setWidth 64)
  else if num = 0x009 then some (c.vxsat.setWidth 64)
  else if num = 0x00a then some (c.vxrm.setWidth 64)
  else if num = 0x00f then some ((c.vxrm ++ c.vxsat).setWidth 64)
  else c.csrs num

/-- A write to a part or to both parts drops the bits for which there is no room. -/
def setCsr (c : Core) (num : BitVec 12) (v : Word) : Core :=
  if num = 0x001 then { c with fflags := v.setWidth 5 }
  else if num = 0x002 then { c with frm := v.setWidth 3 }
  else if num = 0x003 then { c with frm := v.extractLsb' 5 3, fflags := v.setWidth 5 }
  else if num = 0x009 then { c with vxsat := v.setWidth 1 }
  else if num = 0x00a then { c with vxrm := v.setWidth 2 }
  else if num = 0x00f then { c with vxrm := v.extractLsb' 1 2, vxsat := v.setWidth 1 }
  else { c with csrs := fun n => if n = num then some v else c.csrs n }

def load (c : Core) (n : Nat) (a : Word) : Except Trap (BitVec (8 * n)) :=
  match c.mem.loadBytes a n with
  | .ok bs => .ok (LittleEndian.value (8 * n) bs)
  | .error _ => .error .access

def store {w : Nat} (c : Core) (n : Nat) (a : Word) (v : BitVec w) : Except Trap Core :=
  match c.mem.storeBytes a (LittleEndian.bytes v n) with
  | .ok mem => .ok { c with mem := mem }
  | .error _ => .error .access

/-- What a load or an operation with an immediate puts in `rd`. -/
def valueI (c : Core) (op : IOp) (a i : Word) : Except Trap Word :=
  match op with
  | .lb => (c.load 1 (a + i)).map fun v => v.signExtend 64
  | .lh => (c.load 2 (a + i)).map fun v => v.signExtend 64
  | .lw => (c.load 4 (a + i)).map fun v => v.signExtend 64
  | .ld => (c.load 8 (a + i)).map fun v => v.signExtend 64
  | .lbu => (c.load 1 (a + i)).map fun v => v.setWidth 64
  | .lhu => (c.load 2 (a + i)).map fun v => v.setWidth 64
  | .lwu => (c.load 4 (a + i)).map fun v => v.setWidth 64
  | .addi => .ok (a + i)
  | .slti => .ok (truth (a.toInt < i.toInt))
  | .sltiu => .ok (truth (a.toNat < i.toNat))
  | .xori => .ok (a ^^^ i)
  | .ori => .ok (a ||| i)
  | .andi => .ok (a &&& i)
  | .addiw => .ok (onHalves (fun x y => x + y) a i)

def csrOperand (c : Core) (op : CsrOp) (rs1 : Reg) : Word :=
  match op with
  | .csrrw | .csrrs | .csrrc => c.x rs1
  | .csrrwi | .csrrsi | .csrrci => rs1.setWidth 64

def execCsr (c : Core) (op : CsrOp) (rd rs1 : Reg) (num : BitVec 12) : Except Trap Core :=
  match c.csr num with
  | none => .error .illegal
  | some old =>
      if op.writes rs1 then
        if readOnly num then .error .illegal
        else .ok ((c.setCsr num (op.combine old (c.csrOperand op rs1))).set rd old)
      else .ok (c.set rd old)

/-- The word at the address, which is reserved from now on. -/
def loadReserved (c : Core) (n : Nat) (rd : Reg) (a : Word) : Except Trap Core :=
  if a.toNat % n = 0 then
    (c.load n a).map fun v => { c with reserved := some (n, a) }.set rd (v.signExtend 64)
  else .error .misaligned

/-- Store if the word is reserved, and report; nothing is reserved afterwards. -/
def storeConditional (c : Core) (n : Nat) (rd : Reg) (a v : Word) : Except Trap Core :=
  if a.toNat % n = 0 then
    if c.reserved = some (n, a) then
      (c.store n a v).map fun c => { c with reserved := none }.set rd 0
    else .ok ({ c with reserved := none }.set rd 1)
  else .error .misaligned

/-- Read, modify and write the word at the address; `rd` gets the old one. -/
def modify (c : Core) (n : Nat) (f : BitVec (8 * n) → BitVec (8 * n) → BitVec (8 * n))
    (rd : Reg) (a v : Word) : Except Trap Core :=
  if a.toNat % n = 0 then do
    let old ← c.load n a
    let c ← c.store n a (f old (v.setWidth (8 * n)))
    .ok (c.set rd (old.signExtend 64))
  else .error .misaligned

/-- The effect of an instruction of `len` bytes at the pc. -/
def exec (c : Core) (len : Word) : Instr → Except Trap Core
  | .r op rd rs1 rs2 => .ok ((c.set rd (op.value (c.x rs1) (c.x rs2))).advance len)
  | .i op rd rs1 imm =>
      (c.valueI op (c.x rs1) (imm.signExtend 64)).map fun v => (c.set rd v).advance len
  | .shift op rd rs1 shamt => .ok ((c.set rd (op.value (c.x rs1) shamt.toNat)).advance len)
  | .shiftW op rd rs1 shamt => .ok ((c.set rd (op.value (c.x rs1) shamt.toNat)).advance len)
  | .s op rs1 rs2 imm =>
      (c.store op.size (c.x rs1 + imm.signExtend 64) (c.x rs2)).map fun c => c.advance len
  | .b op rs1 rs2 offset =>
      if op.taken (c.x rs1) (c.x rs2) then .ok (c.jump (c.pc + (offset ++ 0#1).signExtend 64))
      else .ok (c.advance len)
  | .lui rd imm => .ok ((c.set rd ((imm ++ 0#12).signExtend 64)).advance len)
  | .auipc rd imm => .ok ((c.set rd (c.pc + (imm ++ 0#12).signExtend 64)).advance len)
  | .jal rd offset =>
      .ok ((c.set rd (c.pc + len)).jump (c.pc + (offset ++ 0#1).signExtend 64))
  | .jalr rd rs1 imm =>
      .ok ((c.set rd (c.pc + len)).jump ((c.x rs1 + imm.signExtend 64) &&& ~~~1))
  | .csr op rd rs1 num => (c.execCsr op rd rs1 num).map fun c => c.advance len
  | .lr width _ rd rs1 =>
      (c.loadReserved width.size rd (c.x rs1)).map fun c => c.advance len
  | .amo .sc width _ rd rs1 rs2 =>
      (c.storeConditional width.size rd (c.x rs1) (c.x rs2)).map fun c => c.advance len
  | .amo op width _ rd rs1 rs2 =>
      (c.modify width.size op.value rd (c.x rs1) (c.x rs2)).map fun c => c.advance len
  | .fence _ _ _ | .fenceI _ _ _ => .ok (c.advance len)
  | .ecall => .error .ecall
  | .ebreak => .error .breakpoint

inductive Fetches (c : Core) : Instr → Word → Prop
  | word (i : Instr) (h : c.load 4 c.pc = .ok i.encode) : Fetches c i 4
  | half (w : BitVec 16) (f : Rvc.Form) (h : c.load 2 c.pc = .ok w) (hf : Rvc.form w = some f)
      (hr : ¬ Rvc.Reserved w f) : Fetches c (f.expand w) 2

def Step (c : Core) (i : Instr) (c' : Core) : Prop :=
  ∃ len, c.Fetches i len ∧ c.exec len i = .ok c'

/-! ## CSRs that are made of parts -/

def composite (num : BitVec 12) : Bool := [0x001#12, 0x002, 0x003, 0x009, 0x00a, 0x00f].contains num

theorem composite_iff {num : BitVec 12} : composite num = true ↔
    num = 0x001 ∨ num = 0x002 ∨ num = 0x003 ∨ num = 0x009 ∨ num = 0x00a ∨ num = 0x00f := by
  simp only [composite, List.contains_eq_mem, List.mem_cons, List.not_mem_nil, or_false,
    decide_eq_true_eq]
  rfl

theorem parts_append {m n : Nat} (a : BitVec m) (x : BitVec n) (h : m + n ≤ 64) :
    ((a ++ x).setWidth 64).extractLsb' n m = a ∧ ((a ++ x).setWidth 64).setWidth n = x := by
  constructor
  · rw [BitVec.extractLsb'_setWidth_of_le (by omega), BitVec.extractLsb'_append_eq_left]
  · rw [BitVec.setWidth_setWidth_of_le _ (by omega), BitVec.setWidth_append_eq_right]

theorem append_inj {m n : Nat} {a b : BitVec m} {x y : BitVec n} (hw : m + n ≤ 64)
    (h : (a ++ x).setWidth 64 = (b ++ y).setWidth 64) : a = b ∧ x = y := by
  obtain ⟨ha, hx⟩ := parts_append a x hw
  obtain ⟨hb, hy⟩ := parts_append b y hw
  exact ⟨ha.symm.trans ((congrArg _ h).trans hb), hx.symm.trans ((congrArg _ h).trans hy)⟩

section

variable (c : Core) {num : BitVec 12}

theorem csr_other (h : composite num = false) : c.csr num = c.csrs num := by
  rw [Bool.eq_false_iff, Ne, composite_iff] at h
  simp only [not_or] at h
  obtain ⟨h₁, h₂, h₃, h₉, ha, hf⟩ := h
  unfold csr
  rw [if_neg h₁, if_neg h₂, if_neg h₃, if_neg h₉, if_neg ha, if_neg hf]

theorem setCsr_other (h : composite num = false) (v : Word) : c.setCsr num v =
    { c with csrs := fun n => if n = num then some v else c.csrs n } := by
  rw [Bool.eq_false_iff, Ne, composite_iff] at h
  simp only [not_or] at h
  obtain ⟨h₁, h₂, h₃, h₉, ha, hf⟩ := h
  unfold setCsr
  rw [if_neg h₁, if_neg h₂, if_neg h₃, if_neg h₉, if_neg ha, if_neg hf]

/-- A write to a CSR leaves the rest of the hart alone. -/
theorem setCsr_rest (num : BitVec 12) (v : Word) : (c.setCsr num v).x = c.x ∧
    (c.setCsr num v).pc = c.pc ∧ (c.setCsr num v).mem = c.mem := by
  cases h : composite num with
  | false =>
      rw [setCsr_other c h]
      exact ⟨rfl, rfl, rfl⟩
  | true =>
      rcases composite_iff.mp h with rfl | rfl | rfl | rfl | rfl | rfl
      all_goals exact ⟨rfl, rfl, rfl⟩

end

section

variable {c : Core} {num : BitVec 12} {v : Word}

/-- A CSR that is not made of parts reads as it was written. -/
theorem csr_setCsr (h : composite num = false) (n : BitVec 12) :
    (c.setCsr num v).csr n = if n = num then some v else c.csr n := by
  rw [setCsr_other c h]
  by_cases hn : n = num
  · subst hn
    rw [csr_other _ h, if_pos rfl]
    exact if_pos rfl
  · rw [if_neg hn]
    unfold csr
    simp only [if_neg hn]

theorem setCsr_self (h : c.csr num = some v) : c.setCsr num v = c := by
  cases hc : composite num with
  | false =>
      rw [csr_other c hc] at h
      rw [setCsr_other c hc]
      congr 1
      funext n
      by_cases hn : n = num
      · rw [if_pos hn, hn, h]
      · rw [if_neg hn]
  | true =>
      obtain ⟨hfrm, hfflags⟩ := parts_append c.frm c.fflags (by decide)
      obtain ⟨hvxrm, hvxsat⟩ := parts_append c.vxrm c.vxsat (by decide)
      have hwide {w : Nat} (hw : w ≤ 64) (a : BitVec w) : (a.setWidth 64).setWidth w = a := by
        rw [BitVec.setWidth_setWidth_of_le _ hw, BitVec.setWidth_eq]
      rcases composite_iff.mp hc with rfl | rfl | rfl | rfl | rfl | rfl
      · cases h
        exact congrArg (fun a => { c with fflags := a }) (hwide (by decide) c.fflags)
      · cases h
        exact congrArg (fun a => { c with frm := a }) (hwide (by decide) c.frm)
      · cases h
        exact congrArg₂ (fun a b => { c with frm := a, fflags := b }) hfrm hfflags
      · cases h
        exact congrArg (fun a => { c with vxsat := a }) (hwide (by decide) c.vxsat)
      · cases h
        exact congrArg (fun a => { c with vxrm := a }) (hwide (by decide) c.vxrm)
      · cases h
        exact congrArg₂ (fun a b => { c with vxrm := a, vxsat := b }) hvxrm hvxsat

/-- If only the CSR that is written reads otherwise, and it is made of parts or a part, it had
the value already. -/
theorem csr_of_composite (hc : composite num = true)
    (h : ∀ n, (c.setCsr num v).csr n = if n = num then some v else c.csr n) :
    c.csr num = some v := by
  have hself := (h num).trans (if_pos rfl)
  have hother (n : BitVec 12) (hn : n ≠ num) := (h n).trans (if_neg hn)
  have hwide {w : Nat} (hw : w ≤ 64) {a b : BitVec w}
      (h : some (a.setWidth 64) = some (b.setWidth 64)) : a = b := by
    have h' := congrArg (BitVec.setWidth w) (Option.some.inj h)
    rwa [BitVec.setWidth_setWidth_of_le _ hw, BitVec.setWidth_setWidth_of_le _ hw,
      BitVec.setWidth_eq, BitVec.setWidth_eq] at h'
  rcases composite_iff.mp hc with rfl | rfl | rfl | rfl | rfl | rfl
  · obtain ⟨_, hv⟩ := append_inj (by decide) (Option.some.inj (hother 0x003 (by decide)))
    exact (congrArg (fun a => some (BitVec.setWidth 64 a)) hv.symm).trans hself
  · obtain ⟨hv, _⟩ := append_inj (by decide) (Option.some.inj (hother 0x003 (by decide)))
    exact (congrArg (fun a => some (BitVec.setWidth 64 a)) hv.symm).trans hself
  · have hfflags := hwide (by decide) (hother 0x001 (by decide))
    have hfrm := hwide (by decide) (hother 0x002 (by decide))
    exact (congrArg₂ (fun a b => some (BitVec.setWidth 64 (a ++ b))) hfrm.symm hfflags.symm).trans
      hself
  · obtain ⟨_, hv⟩ := append_inj (by decide) (Option.some.inj (hother 0x00f (by decide)))
    exact (congrArg (fun a => some (BitVec.setWidth 64 a)) hv.symm).trans hself
  · obtain ⟨hv, _⟩ := append_inj (by decide) (Option.some.inj (hother 0x00f (by decide)))
    exact (congrArg (fun a => some (BitVec.setWidth 64 a)) hv.symm).trans hself
  · have hvxsat := hwide (by decide) (hother 0x009 (by decide))
    have hvxrm := hwide (by decide) (hother 0x00a (by decide))
    exact (congrArg₂ (fun a b => some (BitVec.setWidth 64 (a ++ b))) hvxrm.symm hvxsat.symm).trans
      hself

end

/-! ## How an instruction traps -/

variable {c : Core} {t : Trap} {len : Word}

theorem load_error {n : Nat} {a : Word} (h : c.load n a = .error t) : t = .access := by
  unfold load at h
  split at h
  · cases h
  · cases h
    rfl

theorem store_error {w n : Nat} {a : Word} {v : BitVec w} (h : c.store n a v = .error t) :
    t = .access := by
  unfold store at h
  split at h
  · cases h
  · cases h
    rfl

theorem valueI_error {op : IOp} {a i : Word} (h : c.valueI op a i = .error t) : t = .access := by
  cases op with
  | lb | lh | lw | ld | lbu | lhu | lwu => exact load_error (map_eq_error h)
  | addi | slti | sltiu | xori | ori | andi | addiw => cases h

theorem execCsr_error {op : CsrOp} {rd rs1 : Reg} {num : BitVec 12}
    (h : c.execCsr op rd rs1 num = .error t) : t = .illegal := by
  unfold execCsr at h
  split at h
  · cases h
    rfl
  · split at h
    · split at h
      · cases h
        rfl
      · cases h
    · cases h

theorem loadReserved_error {n : Nat} {rd : Reg} {a : Word}
    (h : c.loadReserved n rd a = .error t) : t = .access ∨ t = .misaligned := by
  unfold loadReserved at h
  split at h
  · exact .inl (load_error (map_eq_error h))
  · cases h
    exact .inr rfl

theorem storeConditional_error {n : Nat} {rd : Reg} {a v : Word}
    (h : c.storeConditional n rd a v = .error t) : t = .access ∨ t = .misaligned := by
  unfold storeConditional at h
  split at h
  · split at h
    · exact .inl (store_error (map_eq_error h))
    · cases h
  · cases h
    exact .inr rfl

theorem modify_error {n : Nat} {f : BitVec (8 * n) → BitVec (8 * n) → BitVec (8 * n)} {rd : Reg}
    {a v : Word} (h : c.modify n f rd a v = .error t) : t = .access ∨ t = .misaligned := by
  unfold modify at h
  split at h
  · left
    cases hl : c.load n a with
    | error e =>
        rw [hl] at h
        cases h
        exact load_error hl
    | ok old =>
        rw [hl] at h
        cases hs : c.store n a (f old (v.setWidth (8 * n))) with
        | error e =>
            simp only [bind, Except.bind, hs] at h
            cases h
            exact store_error hs
        | ok c₁ =>
            simp only [bind, Except.bind, hs] at h
            cases h
  · cases h
    exact .inr rfl

/-- No instruction but `ecall` makes a call. -/
theorem eq_ecall {i : Instr} (h : c.exec len i = .error .ecall) : i = .ecall := by
  cases i with
  | r | shift | shiftW | lui | auipc | jal | jalr | fence | fenceI | ebreak => cases h
  | ecall => rfl
  | i => cases valueI_error (map_eq_error h)
  | s => cases store_error (map_eq_error h)
  | b =>
      simp only [exec] at h
      split at h <;> cases h
  | csr => cases execCsr_error (map_eq_error h)
  | lr => rcases loadReserved_error (map_eq_error h) with h | h <;> cases h
  | amo op =>
      cases op with
      | sc => rcases storeConditional_error (map_eq_error h) with h | h <;> cases h
      | _ => rcases modify_error (map_eq_error h) with h | h <;> cases h

end Core

end Rvvk.Isa
