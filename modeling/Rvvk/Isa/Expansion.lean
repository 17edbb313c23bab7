import Rvvk.Cpu.Effects
import Rvvk.Isa.Decode
import Rvvk.Isa.DecodeCompressed

/-!
# Compressed instructions mean their expansions

An accepted compressed instruction and the 32-bit instruction it expands to,
decoded at one address and run on one machine, do the same. The one difference
is where execution goes on when the instruction does not transfer control.
-/

namespace Rvvk.Isa

/-! ## One instruction in place -/

/-- Execution goes on behind the instruction. -/
def fallsThrough (insn : Insn) (m : Machine) : Bool :=
  match insn.op with
  | .branch cond _ => !cond (m.gpr insn.rs1) (m.gpr insn.rs2)
  | op => !op.transfers

/-- The effect of one instruction decoded at `pc`. An instruction that does not
end its block hands over to the one `len` bytes behind it. -/
def runAt (pc len : Word) (r : Ctx × Insn) (m : Machine) : Except Fault Machine :=
  (r.2.run m).map fun m' => if r.1.exit then m' else m'.setPc (pc + len)

/-- The decoded instruction `c` of two bytes does at `pc` what `d` of four bytes
does, but for the address behind it. -/
structure Agree (pc : Word) (m : Machine) (c d : Ctx × Insn) : Prop where
  exit : c.1.exit = d.1.exit
  link : c.1.link = d.1.link
  pcNext0 : c.1.pcNext0 = d.1.pcNext0
  pcNext1 : c.1.pcNext1 = d.1.pcNext1 ∨ (c.1.pcNext1 = pc + 2 ∧ d.1.pcNext1 = pc + 4)
  falls : fallsThrough c.2 m = fallsThrough d.2 m
  run : runAt pc 2 c m =
    (runAt pc 4 d m).map fun m' => if fallsThrough d.2 m then m'.setPc (pc + 2) else m'

theorem fallsThrough_of_not_transfers {insn : Insn} (h : insn.op.transfers = false) (m : Machine) :
    fallsThrough insn m = true := by
  unfold fallsThrough
  split
  · rename_i hop
    rw [hop] at h
    cases h
  · rw [h]
    rfl

section

variable {pc : Word} {m : Machine}

/-- Two instructions that do not transfer control and have the same effect. -/
theorem agree_of_run {n n' : Insn} (hn : n.op.transfers = false) (hn' : n'.op.transfers = false)
    (hrun : n.run m = n'.run m) : Agree pc m (.start pc, n) (.start pc, n') where
  exit := rfl
  link := rfl
  pcNext0 := rfl
  pcNext1 := .inl rfl
  falls := by
    rw [fallsThrough_of_not_transfers hn, fallsThrough_of_not_transfers hn']
  run := by
    rw [fallsThrough_of_not_transfers hn', runAt, runAt, hrun]
    cases n'.run m with
    | error e => rfl
    | ok m' => rfl

theorem agree_refl {n : Insn} (hn : n.op.transfers = false) :
    Agree pc m (.start pc, n) (.start pc, n) := agree_of_run hn hn rfl

theorem transRd_of_ne {h : Handler} {ctx : Ctx} {insn : Insn} (hrd : insn.rd ≠ 0) :
    transRd h ctx insn = transPlain h ctx insn := if_neg hrd

theorem agree_transRd {h : Handler} {insn : Insn} (hh : (handlerOp h).transfers = false) :
    Agree pc m (transRd h (.start pc) insn) (transRd h (.start pc) insn) := by
  unfold transRd
  split
  · exact agree_refl rfl
  · exact agree_refl hh

theorem agree_of_exit {ctx : Ctx} {n n' : Insn} (he : ctx.exit = true)
    (hn : fallsThrough n m = false) (hn' : fallsThrough n' m = false) (hrun : n.run m = n'.run m) :
    Agree pc m (ctx, n) (ctx, n') where
  exit := rfl
  link := rfl
  pcNext0 := rfl
  pcNext1 := .inl rfl
  falls := hn.trans hn'.symm
  run := by
    simp only [runAt, hrun, hn', he]
    cases n'.run m with
    | error e => rfl
    | ok m' => rfl

theorem run_jal (insn : Insn) (size : Word) (hop : insn.op = .jal size) (hrd : insn.rd = 0) :
    insn.run m = .ok (m.setPc (insn.pc + insn.immLong)) := by
  show insn.op.run insn m = _
  rw [hop, Op.run, link, if_neg fun h => h hrd]

theorem run_jalr (insn : Insn) (size : Word) (hop : insn.op = .jalr size) (hrd : insn.rd = 0) :
    insn.run m = .ok (m.setPc ((m.gpr insn.rs1 + insn.immLong) &&& -2)) := by
  show insn.op.run insn m = _
  rw [hop, Op.run, link, if_neg fun h => h hrd]

/-- `c.j`: the handlers differ in the link address, which is not stored. -/
theorem agree_jump {insn : Insn} (hrd : insn.rd = 0) :
    Agree pc m (transJump .doCJal (.start pc) insn) (transJump .doJal (.start pc) insn) := by
  have hc := run_jal (m := m) (transJump .doCJal (.start pc) insn).2 2 rfl hrd
  have hd := run_jal (m := m) (transJump .doJal (.start pc) insn).2 4 rfl hrd
  exact agree_of_exit rfl rfl rfl (hc.trans hd.symm)

theorem agree_indirect {insn : Insn} (hrd : insn.rd = 0) :
    Agree pc m (transExit .doCJalr (.start pc) insn) (transExit .doJalr (.start pc) insn) := by
  have hc := run_jalr (m := m) (transExit .doCJalr (.start pc) insn).2 2 rfl hrd
  have hd := run_jalr (m := m) (transExit .doJalr (.start pc) insn).2 4 rfl hrd
  exact agree_of_exit rfl rfl rfl (hc.trans hd.symm)

theorem agree_branch {h h' : Handler} {cond : Word → Word → Bool} {insn : Insn}
    (hh : handlerOp h = .branch cond 2) (hh' : handlerOp h' = .branch cond 4) :
    Agree pc m (transBranch h 2 (.start pc) insn) (transBranch h' 4 (.start pc) insn) where
  exit := rfl
  link := rfl
  pcNext0 := rfl
  pcNext1 := .inr ⟨rfl, rfl⟩
  falls := by simp [fallsThrough, transBranch, transJump, Insn.op, hh, hh']
  run := by
    simp only [runAt, fallsThrough, transBranch, transJump, Insn.run, Insn.op, hh, hh', Op.run]
    by_cases hc : cond (m.gpr insn.rs1) (m.gpr insn.rs2) = true
    · simp [hc, Except.map, Insn.immLong]
    · simp [hc, Except.map, Ctx.start]

end

/-! ## By format -/

namespace Rvc

theorem rdPrime_ne_zero (w : BitVec 16) : rdPrime w ≠ 0 := by
  have hx : ∀ x : BitVec 3, (0b01#2 ++ x : BitVec (2 + 3)) ≠ 0 := by decide
  exact hx _

theorem rs2Prime_ne_zero (w : BitVec 16) : rs2Prime w ≠ 0 := by
  have hx : ∀ x : BitVec 3, (0b01#2 ++ x : BitVec (2 + 3)) ≠ 0 := by decide
  exact hx _

theorem guardOperands_accepted {bad : Insn → Prop} [DecidablePred bad] {ctx : Ctx} {insn : Insn}
    {k : Ctx → Insn → Ctx × Insn}
    (h : (guardOperands bad ctx insn k).2.handler ≠ .doIllegal) :
    ¬ bad insn ∧ guardOperands bad ctx insn k = k ctx insn := by
  unfold guardOperands at h ⊢
  by_cases hb : bad insn
  · rw [if_pos hb] at h
    exact (h rfl).elim
  · exact ⟨hb, if_neg hb⟩

/-- The formats decoded to another handler, or to other operands, than their expansions. -/
def Form.isSpecial : Form → Bool
  | mv | srli | srai | slli | j | beqz | bnez | jr | ebreak | jalr => true
  | _ => false

section

variable {w : BitVec 16} (ctx : Ctx) (insn : Insn)

/-- Apart from the special formats, an accepted word is decoded as its expansion is. -/
theorem Form.trans_eq (f : Form) (hf : f.isSpecial = false)
    (hacc : ((f.sel w).trans ctx insn w).2.handler ≠ .doIllegal) :
    (f.sel w).trans ctx insn w = (f.expand w).translate ctx insn := by
  cases f with
  | mv | srli | srai | slli | j | beqz | bnez | jr | ebreak | jalr => cases hf
  | addi4spn =>
      unfold sel at hacc ⊢
      by_cases hz : w.extractLsb' 5 8 = 0
      · rw [if_pos hz] at hacc
        exact (hacc rfl).elim
      · rw [if_neg hz, expand, Instr.translate, transRd_of_ne (rs2Prime_ne_zero w), Sel16.trans,
          transCAddi4spn, decodeInsn16ExtractCAddi4spn, immAddi4spn_eq, rs2Prime_eq]
        rfl
  | lw =>
      rw [expand, Instr.translate, transRd_of_ne (rs2Prime_ne_zero w), sel, Sel16.trans, transCLw,
        decodeInsn16ExtractCLw, immLw_eq, rs2Prime_eq, rdPrime_eq]
      rfl
  | ld =>
      rw [expand, Instr.translate, transRd_of_ne (rs2Prime_ne_zero w), sel, Sel16.trans, transCLd,
        decodeInsn16ExtractCLd, immLd_eq, rs2Prime_eq, rdPrime_eq]
      rfl
  | sw =>
      rw [expand, Instr.translate, sel, Sel16.trans, transCSw, decodeInsn16ExtractCSw, immLw_eq,
        rs2Prime_eq, rdPrime_eq]
      rfl
  | sd =>
      rw [expand, Instr.translate, sel, Sel16.trans, transCSd, decodeInsn16ExtractCSd, immLd_eq,
        rs2Prime_eq, rdPrime_eq]
      rfl
  | addi =>
      rw [expand, Instr.translate, sel, Sel16.trans, transCAddi, decodeInsn16ExtractCAddi, imm6_eq,
        rd_eq]
      rfl
  | addiw =>
      obtain ⟨hrd, hk⟩ := guardOperands_accepted hacc
      have hrd : rd w ≠ 0 := fun h => hrd ((rd_eq w).trans h)
      rw [expand, Instr.translate, transRd_of_ne hrd]
      refine hk.trans ?_
      rw [decodeInsn16ExtractCAddi, rd_eq, imm6_eq]
      rfl
  | li =>
      obtain ⟨hrd, hk⟩ := guardOperands_accepted hacc
      have hrd : rd w ≠ 0 := fun h => hrd ((rd_eq w).trans h)
      rw [expand, Instr.translate, transRd_of_ne hrd]
      refine hk.trans ?_
      rw [decodeInsn16ExtractCLi, rd_eq, imm6_eq]
      rfl
  | addi16sp =>
      rw [expand, Instr.translate, transRd_of_ne (by decide : (2 : Reg) ≠ 0), sel, Sel16.trans,
        transCAddi16sp, decodeInsn16ExtractCAddi16sp, immAddi16sp_eq]
      rfl
  | lui =>
      rw [expand, Instr.translate]
      refine (guardOperands_accepted hacc).2.trans ?_
      rw [decodeInsn16ExtractCLui, rd_eq, immLui_eq]
  | andi =>
      rw [expand, Instr.translate, transRd_of_ne (rdPrime_ne_zero w), sel, Sel16.trans, transCAndi,
        decodeInsn16ExtractCAndi, imm6_eq, rdPrime_eq]
      rfl
  | sub =>
      rw [expand, Instr.translate, transRd_of_ne (rdPrime_ne_zero w), sel, Sel16.trans, transCSub,
        decodeInsn16ExtractCSub, rdPrime_eq, rs2Prime_eq]
      rfl
  | xor =>
      rw [expand, Instr.translate, transRd_of_ne (rdPrime_ne_zero w), sel, Sel16.trans, transCXor,
        decodeInsn16ExtractCSub, rdPrime_eq, rs2Prime_eq]
      rfl
  | or =>
      rw [expand, Instr.translate, transRd_of_ne (rdPrime_ne_zero w), sel, Sel16.trans, transCOr,
        decodeInsn16ExtractCSub, rdPrime_eq, rs2Prime_eq]
      rfl
  | and =>
      rw [expand, Instr.translate, transRd_of_ne (rdPrime_ne_zero w), sel, Sel16.trans, transCAnd,
        decodeInsn16ExtractCSub, rdPrime_eq, rs2Prime_eq]
      rfl
  | subw =>
      rw [expand, Instr.translate, transRd_of_ne (rdPrime_ne_zero w), sel, Sel16.trans, transCSubw,
        decodeInsn16ExtractCSub, rdPrime_eq, rs2Prime_eq]
      rfl
  | addw =>
      rw [expand, Instr.translate, transRd_of_ne (rdPrime_ne_zero w), sel, Sel16.trans, transCAddw,
        decodeInsn16ExtractCSub, rdPrime_eq, rs2Prime_eq]
      rfl
  | lwsp =>
      obtain ⟨hrd, hk⟩ := guardOperands_accepted hacc
      have hrd : rd w ≠ 0 := fun h => hrd ((rd_eq w).trans h)
      rw [expand, Instr.translate, transRd_of_ne hrd]
      refine hk.trans ?_
      rw [decodeInsn16ExtractCLwsp, rd_eq, immLwsp_eq]
      rfl
  | ldsp =>
      obtain ⟨hrd, hk⟩ := guardOperands_accepted hacc
      have hrd : rd w ≠ 0 := fun h => hrd ((rd_eq w).trans h)
      rw [expand, Instr.translate, transRd_of_ne hrd]
      refine hk.trans ?_
      rw [decodeInsn16ExtractCLdsp, rd_eq, immLdsp_eq]
      rfl
  | add =>
      obtain ⟨hrd, hk⟩ := guardOperands_accepted hacc
      have hrd : rd w ≠ 0 := fun h => hrd (.inl ((rd_eq w).trans h))
      rw [expand, Instr.translate, transRd_of_ne hrd]
      refine hk.trans ?_
      rw [decodeInsn16ExtractCAdd, rd_eq, rs2_eq]
      rfl
  | swsp =>
      rw [expand, Instr.translate, sel, Sel16.trans, transCSwsp, decodeInsn16ExtractCSwsp,
        immSwsp_eq, rs2_eq]
      rfl
  | sdsp =>
      rw [expand, Instr.translate, sel, Sel16.trans, transCSdsp, decodeInsn16ExtractCSdsp,
        immSdsp_eq, rs2_eq]
      rfl

end

/-! ## The special formats -/

section

variable {w : BitVec 16} {pc : Word} {m : Machine} (insn : Insn)

theorem shamt64_setWidth (x : BitVec 6) : shamt64 (x.setWidth 32) = x.toNat := by
  rw [shamt64_eq, BitVec.extractLsb'_setWidth_of_le (by decide), BitVec.extractLsb'_eq_self]

theorem shift_handler (op : ShiftOp) :
    ∃ g : Word → Nat → Word, handlerOp op.handler = .aluI fun a x => g a (shamt64 x) := by
  cases op with
  | slli => exact ⟨fun a n => a <<< n, rfl⟩
  | srli => exact ⟨fun a n => a >>> n, rfl⟩
  | srai => exact ⟨fun a n => a.sshiftRight n, rfl⟩

theorem agree_shift (op : ShiftOp) {r : Reg} (hr : r ≠ 0) :
    Agree pc m
      (transPlain op.handler (.start pc)
        { insn with rs1 := r, imm := (imm6 w).setWidth 32, rd := r })
      ((Instr.shift op r r (imm6 w)).translate (.start pc) insn) := by
  obtain ⟨g, hop⟩ := shift_handler op
  have ht : (handlerOp op.handler).transfers = false := by
    rw [hop]
    rfl
  rw [Instr.translate, transRd_of_ne hr]
  apply agree_of_run
  · exact ht
  · exact ht
  · simp only [Insn.run, hop, Op.run]
    rw [shamt64_setWidth, shamt64_signExtend]

theorem agree_mv (h0 : m.gpr 0 = 0) {d s : Reg} (hd : d ≠ 0) :
    Agree pc m (transPlain .doAddi (.start pc) { insn with imm := 0, rd := d, rs1 := s })
      ((Instr.r .add d 0 s).translate (.start pc) insn) := by
  rw [Instr.translate, transRd_of_ne hd]
  have hv : m.gpr s + (0 : BitVec 32).signExtend 64 = m.gpr 0 + m.gpr s := by
    rw [h0]
    simp
  exact agree_of_run rfl rfl (congrArg (fun v => Except.ok (m.setGpr d v)) hv)

theorem agree_special (f : Form) (hf : f.isSpecial = true) (hne : f ≠ .ebreak) (hnj : f ≠ .jalr)
    (hacc : ((f.sel w).trans (.start pc) insn w).2.handler ≠ .doIllegal) (h0 : m.gpr 0 = 0) :
    Agree pc m ((f.sel w).trans (.start pc) insn w)
      ((f.expand w).translate (.start pc) insn) := by
  cases f with
  | mv =>
      obtain ⟨hbad, hk⟩ := guardOperands_accepted hacc
      have hrd : rd w ≠ 0 := fun h => hbad (.inl ((rd_eq w).trans h))
      have hc : (Form.mv.sel w).trans (.start pc) insn w = transPlain .doAddi (.start pc)
          { insn with imm := 0, rd := rd w, rs1 := rs2 w } := by
        refine hk.trans ?_
        rw [decodeInsn16ExtractCMv, rd_eq, rs2_eq]
      rw [hc]
      exact agree_mv insn h0 hrd
  | srli =>
      rw [Form.sel, Sel16.trans, transCSrli, decodeInsn16ExtractCSrli, rdPrime_eq, shamt_eq]
      exact agree_shift insn .srli (rdPrime_ne_zero w)
  | srai =>
      rw [Form.sel, Sel16.trans, transCSrai, decodeInsn16ExtractCSrli, rdPrime_eq, shamt_eq]
      exact agree_shift insn .srai (rdPrime_ne_zero w)
  | slli =>
      obtain ⟨hbad, hk⟩ := guardOperands_accepted hacc
      have hrd : rd w ≠ 0 := fun h => hbad ((rd_eq w).trans h)
      have hc : (Form.slli.sel w).trans (.start pc) insn w = transPlain .doSlli (.start pc)
          { insn with rs1 := rd w, imm := (imm6 w).setWidth 32, rd := rd w } := by
        refine hk.trans ?_
        rw [decodeInsn16ExtractCSlli, rd_eq, shamt_eq]
      rw [hc]
      exact agree_shift insn .slli hrd
  | j =>
      rw [Form.sel, Sel16.trans, transCJ, decodeInsn16ExtractCJ, offsetJ_eq]
      exact agree_jump rfl
  | beqz =>
      rw [Form.sel, Sel16.trans, transCBeqz, decodeInsn16ExtractCBeqz, offsetB_eq, rdPrime_eq]
      exact agree_branch rfl rfl
  | bnez =>
      rw [Form.sel, Sel16.trans, transCBnez, decodeInsn16ExtractCBeqz, offsetB_eq, rdPrime_eq]
      exact agree_branch rfl rfl
  | jr =>
      have hc : (Form.jr.sel w).trans (.start pc) insn w = transExit .doCJalr (.start pc)
          { insn with rd := 0, imm := 0, rs1 := rd w } := by
        refine (guardOperands_accepted hacc).2.trans ?_
        rw [decodeInsn16ExtractCJr, rd_eq]
      rw [hc]
      exact agree_indirect rfl
  | ebreak => exact (hne rfl).elim
  | jalr => exact (hnj rfl).elim
  | _ => cases hf

theorem agree_plain (f : Form) (hf : f.isSpecial = false) :
    Agree pc m ((f.expand w).translate (.start pc) insn)
      ((f.expand w).translate (.start pc) insn) := by
  cases f with
  | mv | srli | srai | slli | j | beqz | bnez | jr | ebreak | jalr => cases hf
  | sw | sd | swsp | sdsp | lui => exact agree_refl rfl
  | _ => exact agree_transRd rfl

theorem agree_expand (f : Form) (hne : f ≠ .ebreak) (hnj : f ≠ .jalr)
    (hacc : ((f.sel w).trans (.start pc) insn w).2.handler ≠ .doIllegal) (h0 : m.gpr 0 = 0) :
    Agree pc m ((f.sel w).trans (.start pc) insn w)
      ((f.expand w).translate (.start pc) insn) := by
  cases hf : f.isSpecial with
  | true => exact agree_special insn f hf hne hnj hacc h0
  | false =>
      rw [f.trans_eq (.start pc) insn hf hacc]
      exact agree_plain insn f hf

end

/-! ## Every accepted word -/

/-- An accepted compressed instruction other than `c.ebreak` and `c.jalr` does
what its expansion does. -/
theorem compressed_agrees (w : BitVec 16) (pc : Word) (m : Machine)
    (hacc : (decodeInsn16 (.start pc) .fresh w).2.handler ≠ .doIllegal)
    (hebreak : form w ≠ some .ebreak) (hjalr : form w ≠ some .jalr) (h0 : m.gpr 0 = 0) :
    ∃ i, expand w = some i ∧
      Agree pc m (decodeInsn16 (.start pc) .fresh w)
        (decodeInsn32 (.start pc) .fresh i.encode) := by
  cases hf : form w with
  | none =>
      rw [decodeInsn16, switch16_form, hf] at hacc
      exact (hacc rfl).elim
  | some f =>
      rw [decodeInsn16_form _ _ hf] at hacc ⊢
      have hne : f ≠ .ebreak := fun h => hebreak (hf.trans (congrArg some h))
      have hnj : f ≠ .jalr := fun h => hjalr (hf.trans (congrArg some h))
      have hx : expand w = some (f.expand w) := congrArg (Option.map _) hf
      refine ⟨f.expand w, hx, ?_⟩
      rw [decodeInsn32_encode]
      exact agree_expand .fresh f hne hnj hacc h0

/-- `c.beqz a0, -4` with `a0` zero, at the address `0x1000`. -/
theorem compressed_agrees_beqz :
    ∃ i, expand 0xdd75#16 = some i ∧
      Agree 0x1000 (.boot (Memory.filled 0)) (decodeInsn16 (.start 0x1000) .fresh 0xdd75)
        (decodeInsn32 (.start 0x1000) .fresh i.encode) :=
  compressed_agrees 0xdd75 0x1000 (.boot (Memory.filled 0)) (by decide) (by decide) (by decide) rfl

end Rvc

end Rvvk.Isa
