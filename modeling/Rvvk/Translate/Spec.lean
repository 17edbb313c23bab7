import Rvvk.Cpu.Effects
import Rvvk.Translate.Decode16
import Rvvk.Translate.Decode32

/-!
# What one decoded instruction records

The context after an instruction is a function of the instruction that was
decoded: the exit flag is set exactly for control transfers and traps, and the
predicted successors are those of the recorded handler.
-/

namespace Rvvk

/-- The context a translated instruction leaves. -/
def Ctx.after (ctx : Ctx) (insn : Insn) : Ctx :=
  match insn.op with
  | .branch _ size =>
      { ctx with
        link := true, pcNext0 := ctx.pc + insn.immLong, pcNext1 := ctx.pc + size, exit := true }
  | .jal _ => { ctx with link := true, pcNext0 := ctx.pc + insn.immLong, exit := true }
  | .jalr _ | .illegal | .ecall => { ctx with exit := true }
  | _ => ctx

/-- The handler reads `insn->pc`; a CSR handler does so when it refuses its CSR. -/
def Op.readsPc : Op → Bool
  | .auipc => true
  | op => op.transfers

/-- The handler writes `gpr[rd]` without looking at `rd`, and the decoder drops
it when `rd` is `x0`. -/
def Op.dropsX0 : Op → Bool
  | .aluR _ | .aluI _ | .aluDiv _ _ | .load _ _ => true
  | _ => false

structure Decoded (ctx : Ctx) (r : Ctx × Insn) : Prop where
  after : r.1 = ctx.after r.2
  pc : r.2.op.readsPc = true → r.2.pc = ctx.pc
  x0 : r.2.op.dropsX0 = true → r.2.rd ≠ 0

variable {ctx : Ctx} {insn : Insn}

theorem transIllegal_decoded : Decoded ctx (transIllegal ctx insn) := ⟨rfl, fun _ => rfl, nofun⟩

theorem transPlain_decoded {h : Handler} (ht : (handlerOp h).readsPc = false)
    (hx : (handlerOp h).dropsX0 = true → insn.rd ≠ 0) : Decoded ctx (transPlain h ctx insn) where
  after := by
    simp only [transPlain, Ctx.after, Insn.op]
    split <;> simp_all [Op.readsPc, Op.transfers, Op.isBranch, Op.isJal, Op.isJalr, Op.isTrap]
  pc hr := by simp [transPlain, Insn.op, ht] at hr
  x0 := hx

theorem transJump_decoded {h : Handler} (size : Word) (hj : handlerOp h = .jal size) :
    Decoded ctx (transJump h ctx insn) where
  after := by simp [transJump, Ctx.after, Insn.op, Insn.immLong, hj]
  pc _ := rfl
  x0 hx := by simp [transJump, Insn.op, Op.dropsX0, hj] at hx

theorem transBranch_decoded {h : Handler} {cond : Word → Word → Bool} (size : Word)
    (hb : handlerOp h = .branch cond size) : Decoded ctx (transBranch h size ctx insn) where
  after := by simp [transBranch, transJump, Ctx.after, Insn.op, Insn.immLong, hb]
  pc _ := rfl
  x0 hx := by simp [transBranch, transJump, Insn.op, Op.dropsX0, hb] at hx

theorem transExit_decoded {h : Handler} (hj : (handlerOp h).isJalr = true ∨ h = .doEcall) :
    Decoded ctx (transExit h ctx insn) := by
  rcases hj with hj | rfl
  · refine ⟨?_, fun _ => rfl, fun hx => ?_⟩
    · cases hop : handlerOp h <;> simp_all [Op.isJalr, transExit, Ctx.after, Insn.op]
    · cases hop : handlerOp h <;> simp_all [Op.isJalr, transExit, Insn.op, Op.dropsX0]
  · exact ⟨rfl, fun _ => rfl, nofun⟩

theorem transRd_decoded {h : Handler} (ht : (handlerOp h).readsPc = false) :
    Decoded ctx (transRd h ctx insn) := by
  unfold transRd
  split
  · exact transPlain_decoded rfl nofun
  · rename_i hrd
    exact transPlain_decoded ht fun _ => hrd

theorem transAuipc_decoded (op : BitVec 32) : Decoded ctx (transAuipc ctx insn op) :=
  ⟨rfl, fun _ => rfl, nofun⟩

theorem Sel32.decoded (s : Sel32) (op : BitVec 32) : Decoded ctx (s.trans ctx insn op) := by
  cases s <;> first
    | exact transIllegal_decoded
    | exact transRd_decoded rfl
    | exact transPlain_decoded rfl nofun
    | exact transBranch_decoded _ rfl
    | exact transAuipc_decoded op
    | exact transJump_decoded _ rfl
    | exact transExit_decoded (.inl rfl)
    | exact transExit_decoded (.inr rfl)

theorem decodeInsn32_decoded (op : BitVec 32) : Decoded ctx (decodeInsn32 ctx insn op) :=
  (switch32 op).decoded op

/-! ## Compressed instructions -/

theorem exRvcRegister_ne_zero (op : BitVec 16) (start : Nat) (h : start + 3 ≤ 32) :
    exRvcRegister (field op start 3) ≠ 0 := by
  have hx : ∀ x : BitVec 3, exRvcRegister (x.setWidth 32) ≠ 0 := by decide
  rw [field, extract32_eq _ start 3 h]
  exact hx _

theorem guardOperands_decoded {bad : Insn → Prop} [DecidablePred bad] {k : Ctx → Insn → Ctx × Insn}
    (h : ¬ bad insn → Decoded ctx (k ctx insn)) : Decoded ctx (guardOperands bad ctx insn k) := by
  unfold guardOperands
  split
  · exact transIllegal_decoded
  · exact h ‹_›

theorem guardPlain_decoded {bad : Insn → Prop} [DecidablePred bad] {h : Handler}
    (ht : (handlerOp h).readsPc = false) (hbad : ∀ insn : Insn, insn.rd = 0 → bad insn) :
    Decoded ctx (guardOperands bad ctx insn (transPlain h)) :=
  guardOperands_decoded fun hn => transPlain_decoded ht fun _ hrd => hn (hbad insn hrd)

theorem transCAddi_decoded (op : BitVec 16) : Decoded ctx (transCAddi ctx insn op) := by
  unfold transCAddi
  dsimp only
  split
  · exact transPlain_decoded rfl nofun
  · exact transPlain_decoded rfl fun _ => ‹_›

theorem Sel16.decoded (s : Sel16) (op : BitVec 16) : Decoded ctx (s.trans ctx insn op) := by
  cases s with
  | illegal => exact transIllegal_decoded
  | cAddi => exact transCAddi_decoded op
  | cAddi4spn | cLw | cLd =>
      exact transPlain_decoded rfl fun _ => exRvcRegister_ne_zero op 2 (by decide)
  | cSrli | cSrai | cAndi | cSub | cXor | cOr | cAnd | cSubw | cAddw =>
      exact transPlain_decoded rfl fun _ => exRvcRegister_ne_zero op 7 (by decide)
  | cSw | cSd | cSwsp | cSdsp | cEbreak => exact transPlain_decoded rfl nofun
  | cAddi16sp => exact transPlain_decoded rfl fun _ => (by decide : (2 : Reg) ≠ 0)
  | cAddiw | cLi | cLdsp | cSlli | cLwsp =>
      simp only [trans, transCAddiw, transCLi, transCLdsp, transCSlli, transCLwsp]
      exact guardPlain_decoded rfl fun _ hrd => hrd
  | cLui | cMv | cAdd =>
      simp only [trans, transCLui, transCMv, transCAdd]
      exact guardPlain_decoded rfl fun _ hrd => .inl hrd
  | cJ => exact transJump_decoded 2 rfl
  | cBeqz | cBnez => exact transBranch_decoded 2 rfl
  | cJr | cJalr => 
      simp only [trans, transCJr, transCJalr]
      exact guardOperands_decoded fun _ => transExit_decoded (.inl rfl)

theorem decodeInsn16_decoded (op : BitVec 16) : Decoded ctx (decodeInsn16 ctx insn op) :=
  (switch16 op).decoded op

end Rvvk
