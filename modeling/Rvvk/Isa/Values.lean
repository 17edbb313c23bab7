import Rvvk.Cpu.Atomics
import Rvvk.Cpu.Multiply
import Rvvk.Cpu.WordForms
import Rvvk.Isa.Decode
import Rvvk.Isa.Semantics

/-!
# What the handlers compute

The value that a handler leaves for `rd`, against the one that the instruction
asks for. They are the same but for the divisions that trap on the host and the
word forms that are not sign-extended.
-/

namespace Rvvk.Isa

/-- The emulator's value is the one asked for, or both find the memory missing. -/
inductive Same : Except Trap Word → Except Fault Word → Prop
  | ok (v : Word) : Same (.ok v) (.ok v)
  | access : Same (.error .access) (.error .sigsegv)

/-! ## Comparisons and shifts -/

theorem flag_eq_truth (p : Prop) [Decidable p] : flag (decide p) = truth p := by
  by_cases hp : p <;> simp [flag, truth, hp]

theorem shamt64_mod (x : Word) : shamt64 x = x.toNat % 64 := by
  unfold shamt64
  rw [BitVec.toNat_and]
  exact Nat.and_two_pow_sub_one_eq_mod x.toNat 6

theorem shamt32_mod (x : Word) : shamt32 x = (low32 x).toNat % 32 := by
  rw [WordForm.shamt32_eq x (by decide), WordForm.toNat_low32_mod]

/-! ## Division -/

theorem quotient_eq {w : Nat} {a b : BitVec w} (h : SignedDefined a b) :
    quotient a b = a.sdiv b := by
  have hq := ((sdiv_conforms h).truncated h.1 h.2).1
  rw [quotient, if_neg h.1, ← hq, BitVec.ofInt_toInt]

theorem remainder_eq {w : Nat} {a b : BitVec w} (h : SignedDefined a b) :
    remainder a b = a.srem b := by
  rw [remainder, if_neg h.1, ← BitVec.toInt_srem, BitVec.ofInt_toInt]

theorem quotientU_eq {w : Nat} {a b : BitVec w} (h : b ≠ 0) : quotientU a b = a.udiv b := by
  rw [quotientU, if_neg h]
  apply BitVec.eq_of_toNat_eq
  have hq : (a.udiv b).toNat = a.toNat / b.toNat := BitVec.toNat_udiv
  rw [hq, BitVec.toNat_ofNat]
  exact Nat.mod_eq_of_lt (Nat.lt_of_le_of_lt (Nat.div_le_self _ _) a.isLt)

theorem remainderU_eq {w : Nat} {a b : BitVec w} (h : b ≠ 0) : remainderU a b = a.umod b := by
  rw [remainderU, if_neg h]
  apply BitVec.eq_of_toNat_eq
  have hr : (a.umod b).toNat = a.toNat % b.toNat := BitVec.toNat_umod
  rw [hr, BitVec.toNat_ofNat]
  exact Nat.mod_eq_of_lt (Nat.lt_of_le_of_lt (Nat.mod_le _ _) a.isLt)

/-! ## Operations between registers -/

def ROp.computed (op : ROp) (a b : Word) : Except Fault Word :=
  match handlerOp op.handler with
  | .aluR f => .ok (f a b)
  | .aluDiv fault f => if fault a b then .error .sigfpe else .ok (f a b)
  | _ => .error .sigabrt

theorem ROp.run_eq (op : ROp) (insn : Insn) (m : Machine) :
    { insn with handler := op.handler }.run m =
      (op.computed (m.gpr insn.rs1) (m.gpr insn.rs2)).map fun v => m.setGpr insn.rd v := by
  cases op with
  | div | divu | rem | remu | divw | divuw | remw | remuw =>
      simp only [Insn.run, computed, handler, handlerOp, doDiv, doDivu, doRem, doRemu, doDivw,
        doDivuw, doRemw, doRemuw, Op.run]
      split <;> rfl
  | _ => rfl

/-- The operands on which the handler computes the value asked for: the host does
not trap, and the result of an unsigned word form has its top bit clear. -/
def ROp.Exact (op : ROp) (a b : Word) : Prop :=
  match op with
  | div | rem => SignedDefined a b
  | divu | remu => b ≠ 0
  | divw | remw => SignedDefined (low32 a) (low32 b)
  | divuw => low32 b ≠ 0 ∧ WordForm.divuw.setsTop (low32 a) (low32 b) 0 = false
  | remuw => low32 b ≠ 0 ∧ WordForm.remuw.setsTop (low32 a) (low32 b) 0 = false
  | sllw => WordForm.sllw.setsTop (low32 a) (low32 b) 0 = false
  | srlw => WordForm.srlw.setsTop (low32 a) (low32 b) 0 = false
  | _ => True

theorem trap_iff {t : Bool} {v v' : Word} {p : Prop} (hp : t = false ↔ p) (hv : p → v = v') :
    (if t then .error .sigfpe else .ok v : Except Fault Word) = .ok v' ↔ p := by
  cases t with
  | true => exact ⟨nofun, fun h => nomatch hp.mpr h⟩
  | false => exact ⟨fun _ => hp.mp rfl, fun h => congrArg Except.ok (hv h)⟩

/-- An unsigned word form is right exactly if it does not set the top bit. -/
theorem unsigned_iff {f : WordForm} (hu : f.unsigned = true) {a b imm : BitVec 32}
    (hd : f.Defined a b) :
    (f.result a b imm).setWidth 64 = (f.result a b imm).signExtend 64 ↔
      f.setsTop a b imm = false := by
  rw [WordForm.setWidth_eq_signExtend_iff, WordForm.msb_result hd hu]

theorem trap_unsigned_iff {f : WordForm} (hu : f.unsigned = true) {a b : BitVec 32} {v : Word}
    {t : Bool} {p : Prop} (imm : BitVec 32) (hp : t = false ↔ p) (hd : p → f.Defined a b)
    (hv : p → v = (f.result a b imm).signExtend 64) :
    (if t then .error .sigfpe else .ok ((f.result a b imm).setWidth 64) : Except Fault Word) =
        .ok v ↔ p ∧ f.setsTop a b imm = false := by
  cases t with
  | true => exact ⟨nofun, fun h => nomatch hp.mpr h.1⟩
  | false =>
      have h := hp.mp rfl
      rw [if_neg Bool.false_ne_true, Except.ok.injEq, hv h, unsigned_iff hu (hd h)]
      exact (and_iff_right h).symm

theorem ROp.computed_iff (op : ROp) (a b : Word) :
    op.computed a b = .ok (op.value a b) ↔ op.Exact a b := by
  cases op with
  | add | sub | xor | or | and => exact iff_of_true rfl trivial
  | sll | srl | sra =>
      refine iff_of_true (congrArg Except.ok ?_) trivial
      simp only [value, ← shamt64_mod]
  | slt => exact iff_of_true (congrArg Except.ok (flag_eq_truth _)) trivial
  | sltu => exact iff_of_true (congrArg Except.ok (flag_eq_truth _)) trivial
  | addw => exact iff_of_true (congrArg (fun v => Except.ok (BitVec.signExtend 64 v))
      (WordForm.low32_add a b)) trivial
  | subw => exact iff_of_true (congrArg (fun v => Except.ok (BitVec.signExtend 64 v))
      (WordForm.low32_sub a b)) trivial
  | mulw => exact iff_of_true (congrArg (fun v => Except.ok (BitVec.signExtend 64 v))
      (WordForm.low32_mul a b)) trivial
  | sraw =>
      refine iff_of_true (congrArg Except.ok ?_) trivial
      simp only [value, onHalves, shamt32_mod]
      rfl
  | sllw =>
      have hv : sllw.computed a b =
          .ok ((WordForm.sllw.result (low32 a) (low32 b) 0).setWidth 64) := by
        simp only [computed, handler, handlerOp, doSllw, shamt32_mod]
        rfl
      rw [hv, Except.ok.injEq]
      exact unsigned_iff (f := .sllw) rfl trivial
  | srlw =>
      have hv : srlw.computed a b =
          .ok ((WordForm.srlw.result (low32 a) (low32 b) 0).setWidth 64) := by
        simp only [computed, handler, handlerOp, doSrlw, shamt32_mod]
        rfl
      rw [hv, Except.ok.injEq]
      exact unsigned_iff (f := .srlw) rfl trivial
  | mul =>
      refine iff_of_true (congrArg Except.ok ?_) trivial
      rw [value, BitVec.ofInt_mul, BitVec.ofInt_toInt, BitVec.ofInt_toInt]
  | mulh => exact iff_of_true (congrArg Except.ok (hi_eq_div (wmul_spec a b))) trivial
  | mulhsu => exact iff_of_true (congrArg Except.ok (hi_eq_div (wmulsu_spec a b))) trivial
  | mulhu =>
      refine iff_of_true (congrArg Except.ok ?_) trivial
      have hu := wmulu_spec a b
      have hlo := (wmulu a b).lo.isLt
      have hq : a.toNat * b.toNat / 2 ^ 64 = (wmulu a b).hi.toNat := by omega
      rw [value, hq, BitVec.ofNat_toNat, BitVec.setWidth_eq]
  | div => exact trap_iff sdivTraps_eq_false fun h => (quotient_eq h).symm
  | rem => exact trap_iff sdivTraps_eq_false fun h => (remainder_eq h).symm
  | divu => exact trap_iff (udivTraps_eq_false (x := a)) fun h => (quotientU_eq h).symm
  | remu => exact trap_iff (udivTraps_eq_false (x := a)) fun h => (remainderU_eq h).symm
  | divw =>
      exact trap_iff sdivTraps_eq_false fun h =>
        congrArg (BitVec.signExtend 64) (quotient_eq h).symm
  | remw =>
      exact trap_iff sdivTraps_eq_false fun h =>
        congrArg (BitVec.signExtend 64) (remainder_eq h).symm
  | divuw =>
      exact trap_unsigned_iff (f := .divuw) rfl 0 (udivTraps_eq_false (x := low32 a)) id
        fun h => congrArg (BitVec.signExtend 64) (quotientU_eq h)
  | remuw =>
      exact trap_unsigned_iff (f := .remuw) rfl 0 (udivTraps_eq_false (x := low32 a)) id
        fun h => congrArg (BitVec.signExtend 64) (remainderU_eq h)

/-! ## Operations with an immediate -/

/-- What the handler of a load or of an operation with an immediate computes. -/
def IOp.computed (op : IOp) (mem : Memory) (a : Word) (imm : BitVec 32) : Except Fault Word :=
  match handlerOp op.handler with
  | .aluI f => .ok (f a imm)
  | .load read ext => (read mem a (imm.signExtend 64)).map ext
  | _ => .error .sigabrt

theorem load_run {w : Nat} (read : Memory → Word → Word → Except Fault (BitVec w))
    (ext : BitVec w → Word) (insn : Insn) (m : Machine) :
    (Op.load read ext).run insn m =
      ((read m.mem (m.gpr insn.rs1) insn.immLong).map ext).map fun v => m.setGpr insn.rd v := by
  simp only [Op.run]
  cases read m.mem (m.gpr insn.rs1) insn.immLong <;> rfl

theorem IOp.run_eq (op : IOp) (insn : Insn) (m : Machine) :
    { insn with handler := op.handler }.run m =
      (op.computed m.mem (m.gpr insn.rs1) insn.imm).map fun v => m.setGpr insn.rd v := by
  cases op with
  | lb | lh | lw | ld | lbu | lhu | lwu => exact load_run _ _ _ m
  | _ => rfl

theorem load_same {c : Core} {n : Nat} {a : Word} (ext : BitVec (8 * n) → Word) :
    Same ((c.load n a).map ext)
      ((LittleEndian.value (8 * n) <$> c.mem.loadBytes a n).map ext) := by
  unfold Core.load
  cases hl : c.mem.loadBytes a n with
  | ok bs => exact .ok _
  | error e =>
      obtain rfl := Memory.loadBytes_error hl
      exact .access

theorem IOp.same (op : IOp) (c : Core) (a : Word) (imm : BitVec 32) :
    Same (c.valueI op a (imm.signExtend 64)) (op.computed c.mem a imm) := by
  cases op with
  | lb => exact load_same (n := 1) _
  | lh => exact load_same (n := 2) _
  | lw => exact load_same (n := 4) _
  | ld =>
      have hid : (fun v : BitVec (8 * 8) => v.signExtend 64) = fun v => v :=
        funext fun v => BitVec.signExtend_eq v
      simp only [Core.valueI, hid]
      exact load_same (n := 8) _
  | lbu => exact load_same (n := 1) _
  | lhu => exact load_same (n := 2) _
  | lwu => exact load_same (n := 4) _
  | addi | xori | ori | andi => exact .ok _
  | slti =>
      simp only [Core.valueI, ← flag_eq_truth]
      exact .ok _
  | sltiu =>
      simp only [Core.valueI, ← flag_eq_truth]
      exact .ok _
  | addiw =>
      have hv : addiw.computed c.mem a imm =
          .ok (onHalves (fun x y => x + y) a (imm.signExtend 64)) :=
        congrArg (fun v => Except.ok (BitVec.signExtend 64 v))
          (WordForm.low32_add a (imm.signExtend 64))
      rw [hv]
      exact .ok _

/-! ## Shifts by an immediate -/

theorem ShiftOp.run_eq (op : ShiftOp) (insn : Insn) (m : Machine) :
    { insn with handler := op.handler }.run m =
      .ok (m.setGpr insn.rd (op.value (m.gpr insn.rs1) (shamt64 insn.imm))) := by
  cases op <;> rfl

/-- What the handler of a word shift by an immediate computes. -/
def ShiftWOp.computed (op : ShiftWOp) (a : Word) (n : Nat) : Word :=
  match op with
  | slliw => (low32 a <<< n).setWidth 64
  | srliw => (low32 a >>> n).setWidth 64
  | sraiw => ((low32 a).sshiftRight n).signExtend 64

theorem ShiftWOp.run_eq (op : ShiftWOp) (insn : Insn) (m : Machine) :
    { insn with handler := op.handler }.run m =
      .ok (m.setGpr insn.rd (op.computed (m.gpr insn.rs1) (shamt32 insn.imm))) := by
  cases op <;> rfl

/-- The operands on which the handler computes the value asked for. -/
def ShiftWOp.Exact (op : ShiftWOp) (a : Word) (n : Nat) : Prop :=
  match op with
  | slliw => (low32 a).getMsbD n = false
  | srliw => ¬ (n = 0 ∧ (low32 a).msb = true)
  | sraiw => True

theorem ShiftWOp.computed_iff (op : ShiftWOp) (a : Word) (n : Nat) :
    op.computed a n = op.value a n ↔ op.Exact a n := by
  cases op with
  | slliw =>
      refine (WordForm.setWidth_eq_signExtend_iff _).trans ?_
      rw [BitVec.msb_shiftLeft, Exact]
  | srliw =>
      refine (WordForm.setWidth_eq_signExtend_iff _).trans ?_
      rw [BitVec.msb_ushiftRight, Exact]
      simp
  | sraiw => exact iff_of_true rfl trivial

/-! ## Branches -/

theorem BOp.handler_op (op : BOp) : handlerOp op.handler = .branch op.taken 4 := by
  have hge (a b : Int) : (!decide (a < b)) = decide (b ≤ a) := by simp [← decide_not]
  have hgeu (a b : Nat) : (!decide (a < b)) = decide (b ≤ a) := by simp [← decide_not]
  cases op with
  | bge => exact congrArg (Op.branch · 4) (funext fun a => funext fun b => hge a.toInt b.toInt)
  | bgeu => exact congrArg (Op.branch · 4) (funext fun a => funext fun b => hgeu a.toNat b.toNat)
  | _ => rfl

/-! ## The A extension -/

theorem AmoOp.handler_opW (op : AmoOp) (h : op ≠ .sc) :
    handlerOp (op.handler .w) = .amoW op.value ∨ handlerOp (op.handler .w) = .amoSelW op.value := by
  cases op with
  | sc => exact (h rfl).elim
  | min => exact .inr (congrArg Op.amoSelW (funext fun n => funext fun x => Amo.min_eq n x))
  | max => exact .inr (congrArg Op.amoSelW (funext fun n => funext fun x => Amo.max_eq n x))
  | minu => exact .inr (congrArg Op.amoSelW (funext fun n => funext fun x => Amo.minu_eq n x))
  | maxu => exact .inr (congrArg Op.amoSelW (funext fun n => funext fun x => Amo.maxu_eq n x))
  | _ => exact .inl rfl

theorem AmoOp.handler_opD (op : AmoOp) (h : op ≠ .sc) :
    handlerOp (op.handler .d) = .amoD op.value ∨ handlerOp (op.handler .d) = .amoSelD op.value := by
  cases op with
  | sc => exact (h rfl).elim
  | min => exact .inr (congrArg Op.amoSelD (funext fun n => funext fun x => Amo.min_eq n x))
  | max => exact .inr (congrArg Op.amoSelD (funext fun n => funext fun x => Amo.max_eq n x))
  | minu => exact .inr (congrArg Op.amoSelD (funext fun n => funext fun x => Amo.minu_eq n x))
  | maxu => exact .inr (congrArg Op.amoSelD (funext fun n => funext fun x => Amo.maxu_eq n x))
  | _ => exact .inl rfl

end Rvvk.Isa
