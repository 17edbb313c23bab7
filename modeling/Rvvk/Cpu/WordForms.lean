import Rvvk.Cpu.Divide

/-!
# Word forms

The 32-bit instructions of RV64. Each works on the low halves of its operands
and should leave the sign extension of the 32-bit result in `rd`. Six handlers
convert an unsigned result, which is right as long as its top bit is clear.
-/

namespace Rvvk

inductive WordForm
  | addiw | slliw | srliw | sraiw
  | addw | subw | sllw | srlw | sraw
  | mulw | divw | divuw | remw | remuw

namespace WordForm

def handler : WordForm → Handler
  | addiw => .doAddiw
  | slliw => .doSlliw
  | srliw => .doSrliw
  | sraiw => .doSraiw
  | addw => .doAddw
  | subw => .doSubw
  | sllw => .doSllw
  | srlw => .doSrlw
  | sraw => .doSraw
  | mulw => .doMulw
  | divw => .doDivw
  | divuw => .doDivuw
  | remw => .doRemw
  | remuw => .doRemuw

def result (f : WordForm) (a b imm : BitVec 32) : BitVec 32 :=
  match f with
  | addiw => a + imm
  | slliw => a <<< (imm.toNat % 32)
  | srliw => a >>> (imm.toNat % 32)
  | sraiw => a.sshiftRight (imm.toNat % 32)
  | addw => a + b
  | subw => a - b
  | sllw => a <<< (b.toNat % 32)
  | srlw => a >>> (b.toNat % 32)
  | sraw => a.sshiftRight (b.toNat % 32)
  | mulw => a * b
  | divw => a.sdiv b
  | divuw => a.udiv b
  | remw => a.srem b
  | remuw => a.umod b

/-- The divisor is not zero and the signed quotient fits; no condition on the
other forms. -/
def Defined (f : WordForm) (a b : BitVec 32) : Prop :=
  match f with
  | divw | remw => SignedDefined a b
  | divuw | remuw => b ≠ 0
  | _ => True

/-- The operands of an unsigned form that set the top bit of the result: a shift
that brings a one there, a right shift by nothing, a division by one, or a
remainder by a greater divisor. -/
def setsTop (f : WordForm) (a b imm : BitVec 32) : Bool :=
  match f with
  | slliw => a.getMsbD (imm.toNat % 32)
  | sllw => a.getMsbD (b.toNat % 32)
  | srliw => imm.toNat % 32 == 0 && a.msb
  | srlw => b.toNat % 32 == 0 && a.msb
  | divuw => b == 1 && a.msb
  | remuw => a.ult b && a.msb
  | _ => false

/-- The handler leaves the sign extension of the result in `rd`. -/
def SignExtended (f : WordForm) (insn : Insn) (m : Machine) : Prop :=
  { insn with handler := f.handler }.run m =
    .ok (m.setGpr insn.rd
      ((f.result (low32 (m.gpr insn.rs1)) (low32 (m.gpr insn.rs2)) insn.imm).signExtend 64))

/-! ## Values in two halves -/

theorem shamt32_eq {w : Nat} (x : BitVec w) (h : 31 < 2 ^ w) : shamt32 x = x.toNat % 32 := by
  have h31 : (31 : BitVec w).toNat = 31 := Nat.mod_eq_of_lt h
  unfold shamt32
  rw [BitVec.toNat_and, h31]
  exact Nat.and_two_pow_sub_one_eq_mod x.toNat 5

theorem toNat_low32_mod (x : Word) : (low32 x).toNat % 32 = x.toNat % 32 := by
  unfold low32
  rw [BitVec.toNat_setWidth]
  omega

theorem low32_add (x y : Word) : low32 (x + y) = low32 x + low32 y :=
  BitVec.setWidth_add x y (by decide)

theorem low32_mul (x y : Word) : low32 (x * y) = low32 x * low32 y :=
  BitVec.setWidth_mul x y (by decide)

theorem low32_neg (x : Word) : low32 (-x) = -low32 x := by
  have hx := x.isLt
  apply BitVec.eq_of_toNat_eq
  simp only [low32, BitVec.toNat_neg, BitVec.toNat_setWidth]
  omega

theorem low32_sub (x y : Word) : low32 (x - y) = low32 x - low32 y := by
  rw [BitVec.sub_eq_add_neg, low32_add, low32_neg, ← BitVec.sub_eq_add_neg]

/-- An unsigned conversion is a signed one exactly when the top bit is clear. -/
theorem setWidth_eq_signExtend_iff (v : BitVec 32) :
    v.setWidth 64 = v.signExtend 64 ↔ v.msb = false := by
  constructor
  · intro h
    have h0 : (v.setWidth 64).getLsbD 32 = false := by
      rw [BitVec.getLsbD_setWidth, BitVec.getLsbD_of_ge v 32 (by decide), Bool.and_false]
    have h1 : (v.signExtend 64).getLsbD 32 = v.getLsbD 31 :=
      Slice.getLsbD_signExtend' v 32 (by decide)
    rw [BitVec.msb_eq_getLsbD_last, ← h1, ← h, h0]
  · intro h
    exact (BitVec.signExtend_eq_setWidth_of_msb_false h).symm

theorem setGpr_inj {m : Machine} {rd : Reg} {v v' : Word} :
    (Except.ok (m.setGpr rd v) : Except Fault Machine) = .ok (m.setGpr rd v') ↔ v = v' := by
  constructor
  · intro h
    have hv := congrArg (fun m' : Machine => m'.gpr rd) (Except.ok.inj h)
    simpa using hv
  · intro h
    rw [h]

/-! ## The handlers -/

variable {insn : Insn} {m : Machine}

def unsigned : WordForm → Bool
  | slliw | srliw | sllw | srlw | divuw | remuw => true
  | _ => false

theorem run_eq {f : WordForm}
    (hd : f.Defined (low32 (m.gpr insn.rs1)) (low32 (m.gpr insn.rs2))) :
    let v := f.result (low32 (m.gpr insn.rs1)) (low32 (m.gpr insn.rs2)) insn.imm
    { insn with handler := f.handler }.run m =
      .ok (m.setGpr insn.rd (if f.unsigned then v.setWidth 64 else v.signExtend 64)) := by
  have hsh := toNat_low32_mod (m.gpr insn.rs2)
  have hshamt := shamt32_eq (m.gpr insn.rs2) (by decide)
  have hshimm := shamt32_eq insn.imm (by decide)
  cases f with
  | addiw =>
      have hv : low32 (m.gpr insn.rs1 + insn.imm.signExtend 64) =
          low32 (m.gpr insn.rs1) + insn.imm := by
        rw [low32_add, low32_signExtend]
      exact congrArg (fun v : BitVec 32 => Except.ok (m.setGpr insn.rd (v.signExtend 64))) hv
  | addw =>
      exact congrArg (fun v : BitVec 32 => Except.ok (m.setGpr insn.rd (v.signExtend 64)))
        (low32_add _ _)
  | subw =>
      exact congrArg (fun v : BitVec 32 => Except.ok (m.setGpr insn.rd (v.signExtend 64)))
        (low32_sub _ _)
  | mulw =>
      exact congrArg (fun v : BitVec 32 => Except.ok (m.setGpr insn.rd (v.signExtend 64)))
        (low32_mul _ _)
  | slliw =>
      simp only [result, unsigned, ← hshimm]
      rfl
  | srliw =>
      simp only [result, unsigned, ← hshimm]
      rfl
  | sraiw =>
      simp only [result, unsigned, ← hshimm]
      rfl
  | sllw =>
      simp only [result, unsigned, hsh, ← hshamt]
      rfl
  | srlw =>
      simp only [result, unsigned, hsh, ← hshamt]
      rfl
  | sraw =>
      simp only [result, unsigned, hsh, ← hshamt]
      rfl
  | divw =>
      have hn := Division.not_traps (d := .divw) hd
      exact (Division.run_quotient .divw insn m).trans (if_neg hn)
  | remw =>
      have hn := Division.not_traps (d := .divw) hd
      exact (Division.run_remainder .divw insn m).trans (if_neg hn)
  | divuw =>
      have hn := Division.not_traps (d := .divuw) (x := m.gpr insn.rs1) hd
      exact (Division.run_quotient .divuw insn m).trans (if_neg hn)
  | remuw =>
      have hn := Division.not_traps (d := .divuw) (x := m.gpr insn.rs1) hd
      exact (Division.run_remainder .divuw insn m).trans (if_neg hn)

theorem msb_result {f : WordForm} {a b imm : BitVec 32} (hd : f.Defined a b)
    (hu : f.unsigned = true) : (f.result a b imm).msb = f.setsTop a b imm := by
  cases f with
  | slliw => exact BitVec.msb_shiftLeft
  | sllw => exact BitVec.msb_shiftLeft
  | srliw =>
      simp only [result, setsTop, BitVec.msb_ushiftRight]
      cases imm.toNat % 32 <;> simp
  | srlw =>
      simp only [result, setsTop, BitVec.msb_ushiftRight]
      cases b.toNat % 32 <;> simp
  | divuw => exact (BitVec.msb_udiv a b).trans (Bool.and_comm _ _)
  | remuw =>
      have hb : (b == 0#32) = false := beq_eq_false_iff_ne.mpr hd
      have hm : (a % b).msb = (a.msb && (decide (a < b) || b == 0#32)) := BitVec.msb_umod
      rw [hb, Bool.or_false] at hm
      exact hm.trans (Bool.and_comm _ _)
  | _ => cases hu

/-- A word form leaves the sign extension of its 32-bit result exactly when its
operands do not set the top bit of an unsigned result. -/
theorem signExtended_iff (f : WordForm) (insn : Insn) (m : Machine)
    (hd : f.Defined (low32 (m.gpr insn.rs1)) (low32 (m.gpr insn.rs2))) :
    f.SignExtended insn m ↔
      f.setsTop (low32 (m.gpr insn.rs1)) (low32 (m.gpr insn.rs2)) insn.imm = false := by
  unfold SignExtended
  rw [run_eq hd, setGpr_inj]
  cases hu : f.unsigned with
  | true =>
      rw [if_pos rfl, setWidth_eq_signExtend_iff, msb_result hd hu]
  | false =>
      rw [if_neg (by simp)]
      have ht : ∀ a b imm, f.setsTop a b imm = false := by
        intro a b imm
        cases f <;> first | rfl | cases hu
      exact ⟨fun _ => ht _ _ _, fun _ => rfl⟩

/-- `remuw x1, x2, x3` of `0x80000001` by 3 is defined and leaves 0. -/
theorem remuw_signExtended :
    SignExtended .remuw ⟨2, 3, 1, 0, 0, .doRemuw⟩
      (((Machine.boot (Memory.filled 0)).setGpr 2 0x80000001).setGpr 3 3) :=
  (signExtended_iff .remuw _ _ (by show (3 : BitVec 32) ≠ 0; decide)).mpr (by decide)

/-- `slliw x1, x2, 0` with `0x80000000` in `x2` leaves `0x80000000` in `x1`. -/
theorem slliw_not_signExtended :
    ¬ SignExtended .slliw ⟨2, 0, 1, 0, 0, .doSlliw⟩
      ((Machine.boot (Memory.filled 0)).setGpr 2 0x80000000) := by
  intro h
  have hv := congrArg (fun m : Machine => m.gpr 1) (Except.ok.inj h)
  exact absurd hv (by decide +kernel)

end WordForm

end Rvvk
