import Rvvk.Cpu.Csrs
import Rvvk.Cpu.Reservation
import Rvvk.Isa.Expansion
import Rvvk.Isa.Values

/-!
# One instruction of the emulator

A decoded instruction, run on the machine that shows a hart, against what the
instruction set asks of the hart. `Core.Exact` says on which operands the two come
to the same.
-/

namespace Rvvk.Isa

/-! ## What the machine shows -/

/-- The machine with a pending exception is the hart. -/
structure Core.Shows (c : Core) (e : Excp) (m : Machine) : Prop where
  gpr : m.gpr = c.x
  pc : m.pc = c.pc
  mem : m.mem = c.mem
  csr : ∀ n : BitVec 12, readCsr m.env (n.setWidth 32) = c.csr n
  exception : m.exception = e

/-- What the emulator comes to is what the instruction comes to on the hart. The
emulator has no exceptions for breakpoints and misaligned addresses, and the
host's signal for a missing access. -/
def Core.Agrees (c : Core) : Except Trap Core → Except Fault Machine → Prop
  | .ok c', .ok m => c'.Shows .none m
  | .error .ecall, .ok m => c.Shows .uEcall m
  | .error .illegal, .ok m => c.Shows .illegalInst m
  | .error .access, .error f => f = .sigsegv
  | _, _ => False

namespace Core

variable {c : Core} {m : Machine} {e : Excp}

theorem set_zero (c : Core) (v : Word) : c.set 0 v = c := by
  unfold set
  congr 1
  funext r
  exact if_neg fun h => h.2 rfl

theorem set_x (c : Core) (rd r : Reg) (v : Word) :
    (c.set rd v).x r = if r = rd ∧ rd ≠ 0 then v else c.x r := rfl

theorem Shows.jump (h : c.Shows e m) (pc : Word) : (c.jump pc).Shows e (m.setPc pc) :=
  ⟨h.gpr, rfl, h.mem, h.csr, h.exception⟩

theorem Shows.advance (h : c.Shows e m) (len : Word) :
    (c.advance len).Shows e (m.setPc (m.pc + len)) :=
  h.pc ▸ h.jump _

theorem Shows.raise (h : c.Shows e m) (e' : Excp) : c.Shows e' (m.raise e' m.pc) :=
  ⟨h.gpr, h.pc, h.mem, h.csr, rfl⟩

theorem Shows.setMem (h : c.Shows e m) (mem : Memory) :
    Shows { c with mem := mem } e (m.setMem mem) :=
  ⟨h.gpr, h.pc, rfl, h.csr, h.exception⟩

theorem Shows.gpr_apply (h : c.Shows e m) (r : Reg) : m.gpr r = c.x r := congrFun h.gpr r

theorem Shows.set {rd : Reg} (h : c.Shows e m) (hrd : rd ≠ 0) (v : Word) :
    (c.set rd v).Shows e (m.setGpr rd v) := by
  refine ⟨funext fun r => ?_, h.pc, h.mem, h.csr, h.exception⟩
  rw [Machine.gpr_setGpr, set_x, h.gpr_apply]
  simp only [ne_eq, hrd, not_false_eq_true, and_true]

/-- The value that reaches `rd` is the right one; `x0` gets zero. -/
def Writes (rd : Reg) (v v' : Word) : Prop := if rd = 0 then v' = 0 else v' = v

theorem Shows.write_iff (h : c.Shows e m) (rd : Reg) (v v' : Word) (len : Word) :
    ((c.set rd v).advance len).Shows e ((m.setGpr rd v').setPc (m.pc + len)) ↔
      Writes rd v v' := by
  unfold Writes
  by_cases hrd : rd = 0
  · subst hrd
    rw [if_pos rfl, set_zero]
    constructor
    · intro hs
      have hz := hs.gpr_apply 0
      rw [Machine.gpr_setPc, Machine.gpr_setGpr_self] at hz
      exact hz.trans c.zero
    · rintro rfl
      have hm : m.setGpr 0 0 = m := by
        have hx : (fun r => if r = 0 then 0 else m.env.gpr r) = m.env.gpr := by
          funext r
          split
          · rename_i hr
            rw [hr]
            exact ((h.gpr_apply 0).trans c.zero).symm
          · rfl
        simp only [Machine.setGpr, State.setGpr, hx]
      rw [hm]
      exact h.advance len
  · rw [if_neg hrd]
    constructor
    · intro hs
      have hv := hs.gpr_apply rd
      rw [Machine.gpr_setPc, Machine.gpr_setGpr_self] at hv
      exact hv.trans (if_pos ⟨rfl, hrd⟩)
    · rintro rfl
      exact (h.set hrd v').advance len

theorem not_agrees {t : Trap} (ht : t = .breakpoint ∨ t = .misaligned)
    (x : Except Fault Machine) : ¬ c.Agrees (.error t) x := by
  rcases ht with rfl | rfl <;> cases x <;> exact id

/-! ## Where the emulator is exact -/

/-- The operands on which the emulator does what the instruction says. -/
def Exact (c : Core) (len : Word) : Instr → Prop
  | .r op rd rs1 rs2 => rd ≠ 0 → op.Exact (c.x rs1) (c.x rs2)
  -- A load for `x0` is dropped, with the fault it might take.
  | .i op rd rs1 imm => rd = 0 → ∃ v, c.valueI op (c.x rs1) (imm.signExtend 64) = .ok v
  | .shiftW op rd rs1 shamt => rd ≠ 0 → op.Exact (c.x rs1) shamt.toNat
  -- These write `x0` like any other register.
  | .lui rd imm => rd = 0 → (imm ++ 0#12).signExtend 64 = (0 : Word)
  | .auipc rd imm => rd = 0 → c.pc + (imm ++ 0#12).signExtend 64 = 0
  -- The link is written before the base is read.
  | .jalr rd rs1 imm => rd ≠ 0 → rs1 = rd →
      (c.pc + len + imm.signExtend 64) &&& ~~~1 = (c.x rs1 + imm.signExtend 64) &&& ~~~1
  -- All CSRs can be written, a write does not reach the CSRs that are made of the same parts,
  -- and an unknown one does not trap at the instruction.
  | .csr op rd rs1 num => ∃ old, c.csr num = some old ∧ (rd = 0 → old = 0) ∧
      (op.writes rs1 = true → readOnly num = false ∧
        (composite num = true → op.combine old (c.csrOperand op rs1) = old))
  | .lr width _ rd rs1 => (c.x rs1).toNat % width.size = 0 ∧
      (rd = 0 → ∀ v, c.load width.size (c.x rs1) = .ok v → v = 0)
  -- A store-conditional always stores; unnoticed only if it changes nothing.
  | .amo .sc width _ rd rs1 rs2 => (c.x rs1).toNat % width.size = 0 ∧
      (c.reserved = some (width.size, c.x rs1) ∨
        rd = 0 ∧ ∃ c', c.store width.size (c.x rs1) (c.x rs2) = .ok c' ∧ c'.mem = c.mem)
  | .amo op width _ rd rs1 rs2 => (c.x rs1).toNat % width.size = 0 ∧
      (rd = 0 → ∀ old c', c.load width.size (c.x rs1) = .ok old →
        c.store width.size (c.x rs1)
          (op.value old ((c.x rs2).setWidth (8 * width.size))) = .ok c' → old = 0)
  -- It is taken for a system call.
  | .ebreak => False
  | _ => True

end Core

/-- The instruction does not link. -/
def Instr.NoLink : Instr → Prop
  | .jal rd _ | .jalr rd _ _ => rd = 0
  | _ => True

/-! ## Running a decoded instruction -/

/-- Run an instruction of `len` bytes at the pc, and go on behind it unless it has
left for somewhere else. -/
def placed (len : Word) (insn : Insn) (m : Machine) : Except Fault Machine :=
  (insn.run m).map fun m' => if fallsThrough insn m then m'.setPc (m.pc + len) else m'

section

variable {c : Core} {m : Machine} {len : Word} {insn : Insn}

theorem run_op (insn : Insn) (m : Machine) : insn.run m = insn.op.run insn m := rfl

theorem placed_of_transfers (h : fallsThrough insn m = false) : placed len insn m = insn.run m := by
  unfold placed
  rw [h]
  cases insn.run m <;> rfl

/-- An instruction that computes a value and puts it in a register. -/
theorem placed_of_value {hd : Handler} {x : Except Fault Word}
    (ht : (handlerOp hd).transfers = false)
    (hr : { insn with handler := hd }.run m = x.map fun v => m.setGpr insn.rd v) :
    placed len { insn with handler := hd } m =
      x.map fun v => (m.setGpr insn.rd v).setPc (m.pc + len) := by
  have hf : fallsThrough { insn with handler := hd } m = true := by
    apply fallsThrough_of_not_transfers
    exact ht
  unfold placed
  rw [hr, hf]
  cases x <;> rfl

theorem placed_doEmpty (h : insn.handler = .doEmpty) :
    placed len insn m = .ok (m.setPc (m.pc + len)) := by
  have hop : insn.op = .empty := congrArg handlerOp h
  have hrun : insn.run m = Op.empty.run insn m := by
    rw [← hop]
    rfl
  unfold placed
  rw [hrun, fallsThrough_of_not_transfers (by rw [hop]; rfl)]
  rfl

theorem ROp.transfers (op : ROp) : (handlerOp op.handler).transfers = false := by cases op <;> rfl

theorem IOp.transfers (op : IOp) : (handlerOp op.handler).transfers = false := by cases op <;> rfl

theorem ShiftOp.transfers (op : ShiftOp) : (handlerOp op.handler).transfers = false := by
  cases op <;> rfl

theorem ShiftWOp.transfers (op : ShiftWOp) : (handlerOp op.handler).transfers = false := by
  cases op <;> rfl

end

/-! ## One family of instructions after the other -/

section

variable {c : Core} {m : Machine} {len : Word} (ctx : Ctx) (insn : Insn)

/-- The result for `x0` is dropped, if there is one. -/
theorem agrees_dropped (h : c.Shows .none m) (y : Except Trap Word) :
    c.Agrees (y.map fun v => (c.set 0 v).advance len) (.ok (m.setPc (m.pc + len))) ↔
      ∃ v, y = .ok v := by
  have hne (e : Excp) (he : e ≠ .none) : ¬ c.Shows e (m.setPc (m.pc + len)) := fun hs =>
    he (hs.exception.symm.trans h.exception)
  cases y with
  | ok v =>
      refine iff_of_true ?_ ⟨v, rfl⟩
      show ((c.set 0 v).advance len).Shows .none _
      rw [Core.set_zero]
      exact h.advance len
  | error t =>
      refine iff_of_false ?_ nofun
      cases t with
      | ecall => exact hne _ nofun
      | illegal => exact hne _ nofun
      | breakpoint | misaligned | access => exact id

/-- A value for a register other than `x0`. -/
theorem agrees_value (h : c.Shows .none m) {rd : Reg} (hrd : rd ≠ 0) {y : Except Trap Word}
    {x : Except Fault Word} (hs : Same y x) :
    c.Agrees (y.map fun v => (c.set rd v).advance len)
      (x.map fun v => (m.setGpr rd v).setPc (m.pc + len)) := by
  cases hs with
  | ok v => exact (h.write_iff rd v v len).mpr ((if_neg hrd).mpr rfl)
  | access => rfl

theorem agrees_value_iff (h : c.Shows .none m) {rd : Reg} (hrd : rd ≠ 0) {v : Word}
    {x : Except Fault Word} :
    c.Agrees (.ok ((c.set rd v).advance len))
      (x.map fun v => (m.setGpr rd v).setPc (m.pc + len)) ↔ x = .ok v := by
  cases x with
  | error f => exact iff_of_false id nofun
  | ok v' =>
      refine (h.write_iff rd v v' len).trans ?_
      rw [Core.Writes, if_neg hrd, Except.ok.injEq]

theorem agrees_r (h : c.Shows .none m) (op : ROp) (rd rs1 rs2 : Reg) :
    c.Agrees (c.exec len (.r op rd rs1 rs2))
      (placed len ((Instr.r op rd rs1 rs2).translate ctx insn).2 m) ↔
        c.Exact len (.r op rd rs1 rs2) := by
  rw [Instr.translate]
  by_cases hrd : rd = 0
  · subst hrd
    rw [placed_doEmpty rfl]
    exact iff_of_true ((agrees_dropped h (.ok _)).mpr ⟨_, rfl⟩) fun hn => (hn rfl).elim
  · rw [transRd_of_ne hrd, transPlain, placed_of_value op.transfers (op.run_eq _ m)]
    refine (agrees_value_iff h hrd).trans ?_
    dsimp only
    rw [h.gpr_apply, h.gpr_apply, op.computed_iff]
    exact ⟨fun hv _ => hv, fun hv => hv hrd⟩

theorem agrees_i (h : c.Shows .none m) (op : IOp) (rd rs1 : Reg) (imm : BitVec 12) :
    c.Agrees (c.exec len (.i op rd rs1 imm))
      (placed len ((Instr.i op rd rs1 imm).translate ctx insn).2 m) ↔
        c.Exact len (.i op rd rs1 imm) := by
  rw [Instr.translate]
  by_cases hrd : rd = 0
  · subst hrd
    rw [placed_doEmpty rfl]
    exact (agrees_dropped h _).trans ⟨fun hv _ => hv, fun hv => hv rfl⟩
  · rw [transRd_of_ne hrd, transPlain, placed_of_value op.transfers (op.run_eq _ m)]
    refine iff_of_true (agrees_value h hrd ?_) fun h0 => (hrd h0).elim
    have hv := op.same c (c.x rs1) (imm.signExtend 32)
    rw [Slice.signExtend_signExtend imm (by decide)] at hv
    rw [h.mem, h.gpr_apply]
    exact hv

theorem agrees_shift (h : c.Shows .none m) (op : ShiftOp) (rd rs1 : Reg) (shamt : BitVec 6) :
    c.Agrees (c.exec len (.shift op rd rs1 shamt))
      (placed len ((Instr.shift op rd rs1 shamt).translate ctx insn).2 m) := by
  rw [Instr.translate]
  by_cases hrd : rd = 0
  · subst hrd
    rw [placed_doEmpty rfl]
    exact (agrees_dropped h (.ok _)).mpr ⟨_, rfl⟩
  · have hx := op.run_eq { insn with rs1, rd, imm := (op.funct6 ++ shamt).signExtend 32 } m
    rw [transRd_of_ne hrd, transPlain,
      placed_of_value (x := .ok _) op.transfers hx]
    refine (agrees_value_iff h hrd).mpr ?_
    dsimp only
    rw [shamt64_signExtend, h.gpr_apply]

theorem agrees_shiftW (h : c.Shows .none m) (op : ShiftWOp) (rd rs1 : Reg) (shamt : BitVec 5) :
    c.Agrees (c.exec len (.shiftW op rd rs1 shamt))
      (placed len ((Instr.shiftW op rd rs1 shamt).translate ctx insn).2 m) ↔
        c.Exact len (.shiftW op rd rs1 shamt) := by
  rw [Instr.translate]
  by_cases hrd : rd = 0
  · subst hrd
    rw [placed_doEmpty rfl]
    exact iff_of_true ((agrees_dropped h (.ok _)).mpr ⟨_, rfl⟩) fun hn => (hn rfl).elim
  · have hx := op.run_eq { insn with rs1, rd, imm := (op.funct7 ++ shamt).signExtend 32 } m
    rw [transRd_of_ne hrd, transPlain, placed_of_value (x := .ok _) op.transfers hx]
    refine (agrees_value_iff h hrd).trans ?_
    dsimp only
    rw [shamt32_signExtend, h.gpr_apply, Except.ok.injEq, op.computed_iff]
    exact ⟨fun hv _ => hv, fun hv => hv hrd⟩

/-- A value that is written to `x0` too. -/
theorem agrees_blind (h : c.Shows .none m) {hd : Handler} (insn : Insn) (v v' : Word)
    (ht : (handlerOp hd).transfers = false)
    (hr : { insn with handler := hd }.run m = .ok (m.setGpr insn.rd v')) :
    c.Agrees (.ok ((c.set insn.rd v).advance len)) (placed len { insn with handler := hd } m) ↔
      Core.Writes insn.rd v v' := by
  rw [placed_of_value (x := .ok v') ht hr]
  exact h.write_iff insn.rd v v' len

/-- A right value is exact unless `x0` takes it. -/
theorem writes_self_iff (rd : Reg) (v : Word) : Core.Writes rd v v ↔ (rd = 0 → v = 0) := by
  unfold Core.Writes
  split
  · exact ⟨fun hv _ => hv, fun hv => hv ‹_›⟩
  · exact iff_of_true rfl fun h => absurd h ‹_›

theorem agrees_lui (h : c.Shows .none m) (rd : Reg) (imm : BitVec 20) :
    c.Agrees (c.exec len (.lui rd imm)) (placed len ((Instr.lui rd imm).translate ctx insn).2 m) ↔
      c.Exact len (.lui rd imm) :=
  (agrees_blind h ((Instr.lui rd imm).translate ctx insn).2 _ _ rfl rfl).trans (writes_self_iff rd _)

theorem agrees_auipc (h : c.Shows .none m) (rd : Reg) (imm : BitVec 20) :
    c.Agrees (c.exec len (.auipc rd imm))
      (placed len ((Instr.auipc rd imm).translate (.start m.pc) insn).2 m) ↔
        c.Exact len (.auipc rd imm) := by
  refine (agrees_blind h ((Instr.auipc rd imm).translate (.start m.pc) insn).2 _
    (m.pc + (imm ++ 0#12).signExtend 64) rfl rfl).trans ?_
  rw [h.pc]
  exact writes_self_iff rd _

/-! ## Jumps and branches -/

theorem agrees_b (h : c.Shows .none m) (op : BOp) (rs1 rs2 : Reg) (offset : BitVec 12) :
    c.Agrees (c.exec len (.b op rs1 rs2 offset))
      (placed len ((Instr.b op rs1 rs2 offset).translate (.start m.pc) insn).2 m) := by
  have hop : ((Instr.b op rs1 rs2 offset).translate (.start m.pc) insn).2.op =
      .branch op.taken 4 := op.handler_op
  have hrun : ((Instr.b op rs1 rs2 offset).translate (.start m.pc) insn).2.run m =
      .ok (m.setPc (m.pc + if op.taken (m.gpr rs1) (m.gpr rs2) then
        ((offset ++ 0#1).signExtend 32).signExtend 64 else 4)) := by
    rw [run_op, hop]
    rfl
  have hfall : fallsThrough ((Instr.b op rs1 rs2 offset).translate (.start m.pc) insn).2 m =
      !op.taken (m.gpr rs1) (m.gpr rs2) := by
    unfold fallsThrough
    rw [hop]
    rfl
  unfold placed
  rw [hrun, hfall, h.gpr_apply, h.gpr_apply, Core.exec]
  cases op.taken (c.x rs1) (c.x rs2) with
  | true =>
      rw [if_pos rfl, if_pos rfl, jump_target _ (by decide), ← h.pc]
      exact h.jump _
  | false => exact h.advance len

theorem Core.Shows.link (h : c.Shows .none m) (insn : Insn) (hpc : insn.pc = m.pc) {size : Word}
    (hs : size = len ∨ insn.rd = 0) :
    (c.set insn.rd (m.pc + len)).Shows .none (Rvvk.link size insn m) := by
  unfold Rvvk.link
  by_cases hrd : insn.rd = 0
  · rw [if_neg fun hn => hn hrd, hrd, Core.set_zero]
    exact h
  · rw [if_pos hrd, hpc, hs.resolve_right hrd]
    exact h.set hrd _

theorem agrees_jal (h : c.Shows .none m) (rd : Reg) (offset : BitVec 20) (hl : len = 4 ∨ rd = 0) :
    c.Agrees (c.exec len (.jal rd offset))
      (placed len ((Instr.jal rd offset).translate (.start m.pc) insn).2 m) := by
  have hrun : ((Instr.jal rd offset).translate (.start m.pc) insn).2.run m =
      .ok ((link 4 ((Instr.jal rd offset).translate (.start m.pc) insn).2 m).setPc
        (m.pc + ((offset ++ 0#1).signExtend 32).signExtend 64)) := rfl
  have hk := h.link ((Instr.jal rd offset).translate (.start m.pc) insn).2 rfl (hl.imp_left Eq.symm)
  rw [placed_of_transfers rfl, hrun, jump_target _ (by decide), Core.exec, ← h.pc]
  exact hk.jump _

/-- `jalr` is exact unless the return address takes the place of the base. -/
theorem agrees_indirect (h : c.Shows .none m) (insn : Insn) {size : Word}
    (hop : insn.op = .jalr size) (hpc : insn.pc = m.pc) (hs : size = len ∨ insn.rd = 0)
    {imm : BitVec 12} (himm : insn.imm = imm.signExtend 32) :
    c.Agrees (c.exec len (.jalr insn.rd insn.rs1 imm)) (placed len insn m) ↔
      c.Exact len (.jalr insn.rd insn.rs1 imm) := by
  have hrun : insn.run m = .ok ((Rvvk.link size insn m).setPc
      (((Rvvk.link size insn m).gpr insn.rs1 + imm.signExtend 64) &&& ~~~1)) := by
    have hlong : insn.immLong = imm.signExtend 64 := by
      rw [Insn.immLong, himm, Slice.signExtend_signExtend imm (by decide)]
    have hmask : (-2 : Word) = ~~~1 := by decide
    rw [run_op, hop, ← hlong, ← hmask, Op.run]
  have hfall : fallsThrough insn m = false := by
    unfold fallsThrough
    rw [hop]
    rfl
  have hk := h.link insn hpc hs
  rw [placed_of_transfers hfall, hrun, hk.gpr_apply, Core.set_x]
  have hiff : ∀ target : Word, c.Agrees (c.exec len (.jalr insn.rd insn.rs1 imm))
      (.ok ((Rvvk.link size insn m).setPc target)) ↔
        target = (c.x insn.rs1 + imm.signExtend 64) &&& ~~~1 := by
    intro target
    rw [Core.exec, ← h.pc]
    constructor
    · intro hs
      exact hs.pc
    · rintro rfl
      exact hk.jump _
  have hexact : c.Exact len (.jalr insn.rd insn.rs1 imm) ↔ (insn.rd ≠ 0 → insn.rs1 = insn.rd →
      (m.pc + len + imm.signExtend 64) &&& ~~~1 =
        (c.x insn.rs1 + imm.signExtend 64) &&& ~~~1) := h.pc ▸ Iff.rfl
  rw [hiff, hexact]
  by_cases hr : insn.rs1 = insn.rd ∧ insn.rd ≠ 0
  · rw [if_pos hr]
    exact ⟨fun ht _ _ => ht, fun ht => ht hr.2 hr.1⟩
  · rw [if_neg hr]
    exact iff_of_true rfl fun hn he => (hr ⟨he, hn⟩).elim

theorem agrees_jalr (h : c.Shows .none m) (rd rs1 : Reg) (imm : BitVec 12)
    (hl : len = 4 ∨ rd = 0) :
    c.Agrees (c.exec len (.jalr rd rs1 imm))
      (placed len ((Instr.jalr rd rs1 imm).translate (.start m.pc) insn).2 m) ↔
        c.Exact len (.jalr rd rs1 imm) :=
  agrees_indirect h ((Instr.jalr rd rs1 imm).translate (.start m.pc) insn).2 rfl rfl
    (hl.imp_left Eq.symm) rfl

/-! ## Stores -/

theorem bytes_setWidth {w : Nat} (v : BitVec w) {k n : Nat} (h : 8 * n ≤ k) :
    LittleEndian.bytes (v.setWidth k) n = LittleEndian.bytes v n := by
  unfold LittleEndian.bytes
  refine List.map_congr_left fun i hi => ?_
  rw [List.mem_range] at hi
  exact BitVec.extractLsb'_setWidth_of_le (by omega)

theorem SOp.cpuSt_eq (op : SOp) (mem : Memory) (a off v : Word) :
    cpuSt op.size mem a off v = mem.storeBytes (a + off) (LittleEndian.bytes v op.size) := by
  cases op with
  | sb => exact congrArg (mem.storeBytes (a + off)) (bytes_setWidth v (by decide))
  | sh => exact congrArg (mem.storeBytes (a + off)) (bytes_setWidth v (by decide))
  | sw => exact congrArg (mem.storeBytes (a + off)) (bytes_setWidth v (by decide))
  | sd => rfl

theorem SOp.handler_op (op : SOp) : handlerOp op.handler = .store op.size := by
  cases op <;> rfl

theorem agrees_stored (h : c.Shows .none m) {w : Nat} (n : Nat) (a : Word) (v : BitVec w)
    {f : Core → Core} {g : Machine → Machine}
    (hfg : ∀ mem, (f { c with mem := mem }).Shows .none (g (m.setMem mem))) :
    c.Agrees ((c.store n a v).map f)
      ((m.mem.storeBytes a (LittleEndian.bytes v n)).map fun mem => g (m.setMem mem)) := by
  unfold Core.store
  rw [h.mem]
  cases hs : c.mem.storeBytes a (LittleEndian.bytes v n) with
  | ok mem => exact hfg mem
  | error e => exact Memory.storeBytes_error hs

theorem agrees_s (h : c.Shows .none m) (op : SOp) (rs1 rs2 : Reg) (imm : BitVec 12) :
    c.Agrees (c.exec len (.s op rs1 rs2 imm))
      (placed len ((Instr.s op rs1 rs2 imm).translate ctx insn).2 m) := by
  have hop : ((Instr.s op rs1 rs2 imm).translate ctx insn).2.op = .store op.size := op.handler_op
  have hrun : ((Instr.s op rs1 rs2 imm).translate ctx insn).2.run m =
      (m.mem.storeBytes (c.x rs1 + imm.signExtend 64) (LittleEndian.bytes (c.x rs2) op.size)).map
        fun mem => m.setMem mem := by
    rw [run_op, hop, ← h.gpr_apply, ← h.gpr_apply,
      ← Slice.signExtend_signExtend imm (by decide : 12 ≤ 32), ← op.cpuSt_eq]
    rfl
  have hfall : fallsThrough ((Instr.s op rs1 rs2 imm).translate ctx insn).2 m = true :=
    fallsThrough_of_not_transfers (by rw [hop]; rfl) m
  have hput := agrees_stored h op.size (c.x rs1 + imm.signExtend 64) (c.x rs2)
    (f := fun c => c.advance len) (g := fun m' => m'.setPc (m.pc + len))
    fun mem => (h.setMem mem).advance len
  unfold placed
  rw [hrun, hfall]
  refine Eq.mp (congrArg _ ?_) hput
  cases m.mem.storeBytes (c.x rs1 + imm.signExtend 64) (LittleEndian.bytes (c.x rs2) op.size) with
  | error e => rfl
  | ok mem => rfl

/-! ## Control and status registers -/

/-- The handler hands `rmw_csr` a value and a mask that combine as asked for. -/
theorem CsrOp.handler_op (op : CsrOp) : ∃ newValue wrMask,
    handlerOp op.handler = .csr newValue wrMask ∧
      ∀ (c : Core) (rs1 : Reg) (old : Word),
        (old &&& ~~~wrMask (c.x rs1) (rs1.setWidth 64)) |||
          (newValue (c.x rs1) (rs1.setWidth 64) &&& wrMask (c.x rs1) (rs1.setWidth 64)) =
            op.combine old (c.csrOperand op rs1) := by
  have hones : (-1 : Word) = BitVec.allOnes 64 := by decide
  have hset (old v : Word) : (old &&& ~~~v) ||| (-1 &&& v) = old ||| v := by
    rw [hones, BitVec.allOnes_and]
    apply BitVec.eq_of_getLsbD_eq
    intro i hi
    simp only [BitVec.getLsbD_or, BitVec.getLsbD_and, BitVec.getLsbD_not, hi, decide_true,
      Bool.true_and]
    cases old.getLsbD i <;> cases v.getLsbD i <;> rfl
  have hclear (old v : Word) : (old &&& ~~~v) ||| (0 &&& v) = old &&& ~~~v := by simp
  have hwrite (old v : Word) : (old &&& ~~~(-1)) ||| (v &&& -1) = v := by
    rw [hones, BitVec.and_allOnes, BitVec.not_allOnes, BitVec.and_zero, BitVec.zero_or]
  cases op with
  | csrrw => exact ⟨_, _, rfl, fun c rs1 old => hwrite old _⟩
  | csrrwi => exact ⟨_, _, rfl, fun c rs1 old => hwrite old _⟩
  | csrrs => exact ⟨_, _, rfl, fun c rs1 old => hset old _⟩
  | csrrsi => exact ⟨_, _, rfl, fun c rs1 old => hset old _⟩
  | csrrc => exact ⟨_, _, rfl, fun c rs1 old => hclear old _⟩
  | csrrci => exact ⟨_, _, rfl, fun c rs1 old => hclear old _⟩

theorem CsrOp.combine_of_not_writes {op : CsrOp} {rs1 : Reg} (h : op.writes rs1 = false) (c : Core)
    (old : Word) : op.combine old (c.csrOperand op rs1) = old := by
  have hrs1 (hw : (rs1 != 0) = false) : rs1 = 0 := by simpa using hw
  have hx : c.x 0#5 = 0#64 := c.zero
  have hones : old &&& ~~~0#64 = old := by rw [BitVec.not_zero, BitVec.and_allOnes]
  cases op with
  | csrrw | csrrwi => cases h
  | csrrs | csrrsi =>
      obtain rfl := hrs1 h
      simp [combine, Core.csrOperand, hx]
  | csrrc =>
      obtain rfl := hrs1 h
      exact (congrArg (fun v => old &&& ~~~v) c.zero).trans hones
  | csrrci =>
      obtain rfl := hrs1 h
      exact hones

theorem setWidth_inj {n k : BitVec 12} : n.setWidth 32 = k.setWidth 32 ↔ n = k := by
  constructor
  · intro h
    have hs := congrArg (BitVec.setWidth 12) h
    simpa using hs
  · rintro rfl
    rfl

theorem Core.Shows.csr_written (h : c.Shows .none m) {num : BitVec 12} {v : Word} {env : State}
    (hw : writeCsr m.env (num.setWidth 32) v = some env) (n : BitVec 12) :
    readCsr env (n.setWidth 32) = if n = num then some v else c.csr n := by
  rw [readCsr_writeCsr hw, h.csr]
  simp only [setWidth_inj]

/-- The write reaches the CSRs that are made of the same parts only if it changes none. -/
theorem Core.Shows.csr_iff (h : c.Shows .none m) {num : BitVec 12} {old v : Word} {env : State}
    (hold : c.csr num = some old) (hw : writeCsr m.env (num.setWidth 32) v = some env) :
    (∀ n : BitVec 12, readCsr env (n.setWidth 32) = (c.setCsr num v).csr n) ↔
      (composite num = true → v = old) := by
  have hiff : (∀ n : BitVec 12, readCsr env (n.setWidth 32) = (c.setCsr num v).csr n) ↔
      ∀ n, (c.setCsr num v).csr n = if n = num then some v else c.csr n :=
    forall_congr' fun n => by rw [h.csr_written hw n]; exact eq_comm
  rw [hiff]
  constructor
  · intro hs hc
    exact Option.some.inj ((csr_of_composite hc hs).symm.trans hold)
  · intro hv n
    cases hc : composite num with
    | false => exact csr_setCsr hc n
    | true =>
        obtain rfl := hv hc
        rw [setCsr_self hold]
        by_cases hn : n = num
        · rw [if_pos hn, hn, hold]
        · rw [if_neg hn]

theorem Core.Shows.setCsr (h : c.Shows .none m) {num : BitVec 12} {v : Word} {env : State}
    (hw : writeCsr m.env (num.setWidth 32) v = some env)
    (hs : ∀ n : BitVec 12, readCsr env (n.setWidth 32) = (c.setCsr num v).csr n) :
    (c.setCsr num v).Shows .none { m with env := env } := by
  obtain ⟨hgpr, hpc, hexc⟩ := writeCsr_frame hw
  obtain ⟨hx, hpc', hmem⟩ := c.setCsr_rest num v
  exact ⟨(hgpr.trans h.gpr).trans hx.symm, (hpc.trans h.pc).trans hpc'.symm,
    h.mem.trans hmem.symm, hs, hexc.trans h.exception⟩

/-- A CSR instruction is exact on the CSRs that are implemented, unless `x0` gets the
old value, a read-only one is written or one that shares its bits with others is changed. -/
theorem agrees_csr (h : c.Shows .none m) (hlen : len ≠ 0) (op : CsrOp) (rd rs1 : Reg)
    (num : BitVec 12) :
    c.Agrees (c.exec len (.csr op rd rs1 num))
      (placed len ((Instr.csr op rd rs1 num).translate ctx insn).2 m) ↔
        c.Exact len (.csr op rd rs1 num) := by
  obtain ⟨newValue, wrMask, hop, hcombine⟩ := op.handler_op
  let n : Insn := ((Instr.csr op rd rs1 num).translate ctx insn).2
  have hrun : n.run m = (Op.csr newValue wrMask).run n m := by
    rw [← hop]
    rfl
  have ht : (handlerOp op.handler).transfers = false := by
    rw [hop]
    rfl
  have hfall : fallsThrough n m = true := by
    apply fallsThrough_of_not_transfers
    exact ht
  have hsome := readCsr_isSome m.env (num.setWidth 32)
  rw [h.csr] at hsome
  have hplaced : ∀ m', n.run m = .ok m' → placed len n m = .ok (m'.setPc (m.pc + len)) := by
    intro m' hm
    unfold placed
    rw [hm, hfall]
    rfl
  cases hold : c.csr num with
  | none =>
      -- `rmw_csr` refuses: the exception is raised, but the pc moves on.
      rw [hold] at hsome
      have hu := csr_unknown newValue wrMask n m hsome.symm
      rw [hplaced _ (hrun.trans hu), Core.exec, Core.execCsr, hold]
      refine iff_of_false (fun hs => ?_) ?_
      · have hpc : m.pc + len = c.pc := hs.pc
        rw [h.pc] at hpc
        exact hlen (BitVec.add_right_eq_self.mp hpc)
      · rintro ⟨old, ho, _⟩
        rw [hold] at ho
        cases ho
  | some old =>
      rw [hold] at hsome
      obtain ⟨env, value, hr, hk⟩ := csr_known newValue wrMask n m hsome.symm
      obtain ⟨hread, hwrite⟩ := rmwCsr_spec hr
      obtain rfl : old = value := by
        have hv := (h.csr num).symm.trans hread
        rw [hold] at hv
        exact Option.some.inj hv
      have hx : m.gpr n.rs1 = c.x rs1 := h.gpr_apply rs1
      rw [hx] at hwrite
      replace hwrite : writeCsr m.env (num.setWidth 32)
          (op.combine old (c.csrOperand op rs1)) = some env := hcombine c rs1 old ▸ hwrite
      have hiff := h.csr_iff hold hwrite
      have hput (hs : ∀ n : BitVec 12, readCsr env (n.setWidth 32) =
          (c.setCsr num (op.combine old (c.csrOperand op rs1))).csr n) := by
        have hshows := h.setCsr hwrite hs
        have hpc : ({ m with env := env } : Machine).pc = m.pc :=
          (writeCsr_frame hwrite).2.1
        have hw := (hshows.write_iff rd old old len).trans (writes_self_iff rd old)
        rwa [hpc] at hw
      rw [hplaced _ (hrun.trans hk), Core.exec, Core.execCsr, hold]
      dsimp only
      have hexact : c.Exact len (.csr op rd rs1 num) ↔ (rd = 0 → old = 0) ∧
          (op.writes rs1 = true → readOnly num = false ∧
            (Core.composite num = true → op.combine old (c.csrOperand op rs1) = old)) := by
        constructor
        · rintro ⟨old', ho, h0⟩
          rw [hold] at ho
          exact Option.some.inj ho ▸ h0
        · exact fun h0 => ⟨old, hold, h0⟩
      rw [hexact]
      cases hwr : op.writes rs1 with
      | false =>
          have hold' := op.combine_of_not_writes hwr c old
          have hw := hput (hiff.mpr fun _ => hold')
          rw [hold', Core.setCsr_self hold] at hw
          rw [if_neg Bool.false_ne_true]
          simp only [Bool.false_eq_true, false_imp_iff, and_true]
          exact hw
      | true =>
          rw [if_pos rfl]
          cases readOnly num with
          | false =>
              rw [if_neg Bool.false_ne_true]
              simp only [true_and, forall_const]
              constructor
              · intro hs
                have hv := hiff.mp hs.csr
                exact ⟨(hput (hiff.mpr hv)).mp hs, hv⟩
              · rintro ⟨h0, hv⟩
                exact (hput (hiff.mpr hv)).mpr h0
          | true =>
              rw [if_pos rfl]
              refine iff_of_false (fun hs => ?_) fun h0 => Bool.noConfusion (h0.2 rfl).1
              have hexc := (writeCsr_frame hwrite).2.2.trans h.exception
              cases hs.exception.symm.trans hexc

/-! ## The A extension -/

theorem zero_signExtend (w k : Nat) : (0 : BitVec w).signExtend k = 0 :=
  (BitVec.signExtend_eq_setWidth_of_msb_false BitVec.msb_zero).trans (BitVec.setWidth_zero k w)

theorem signExtend_eq_zero {w : Nat} (v : BitVec w) (hw : w ≤ 64) :
    v.signExtend 64 = (0 : Word) ↔ v = 0 := by
  constructor
  · intro h
    have hs := congrArg (BitVec.signExtend w) h
    rw [Slice.signExtend_signExtend v hw, BitVec.signExtend_eq] at hs
    exact hs.trans (zero_signExtend 64 w)
  · rintro rfl
    exact zero_signExtend w 64

/-- A loaded value that is written to `x0` too. -/
theorem agrees_loaded {c₁ : Core} (h₁ : c₁.Shows .none m) {rd : Reg} {y : Except Trap Word}
    {x : Except Fault Word} (hs : Same y x) :
    c.Agrees (y.map fun v => (c₁.set rd v).advance len)
      (x.map fun v => (m.setGpr rd v).setPc (m.pc + len)) ↔
        (rd = 0 → ∀ v, y = .ok v → v = 0) := by
  cases hs with
  | ok v =>
      refine (h₁.write_iff rd v v len).trans ((writes_self_iff rd v).trans ?_)
      exact ⟨fun h0 hr v' hv => Except.ok.inj hv ▸ h0 hr, fun h0 hr => h0 hr v rfl⟩
  | access => exact iff_of_true rfl fun _ v hv => nomatch hv

theorem Width.lr_run (width : Width) (insn : Insn) (m : Machine) :
    { insn with handler := width.lrHandler }.run m =
      ((LittleEndian.value (8 * width.size) <$> m.mem.loadBytes (m.gpr insn.rs1) width.size).map
        fun v => v.signExtend 64).map fun v => m.setGpr insn.rd v := by
  have ha : m.gpr insn.rs1 + 0 = m.gpr insn.rs1 := BitVec.add_zero _
  cases width with
  | w =>
      show Op.lrW.run { insn with handler := .doLrW } m = _
      simp only [Op.run, cpuLduw, ha, Width.size]
      cases m.mem.loadBytes (m.gpr insn.rs1) 4 <;> rfl
  | d =>
      show Op.lrD.run { insn with handler := .doLrD } m = _
      simp only [Op.run, cpuLdud, ha, Width.size]
      cases m.mem.loadBytes (m.gpr insn.rs1) 8 with
      | error e => rfl
      | ok bs =>
          have hv : (LittleEndian.value (8 * 8) bs).signExtend 64 = LittleEndian.value 64 bs :=
            BitVec.signExtend_eq _
          exact congrArg (fun v => Except.ok (m.setGpr insn.rd v)) hv.symm

theorem agrees_lr (h : c.Shows .none m) (width : Width) (aqrl : BitVec 2) (rd rs1 : Reg) :
    c.Agrees (c.exec len (.lr width aqrl rd rs1))
      (placed len ((Instr.lr width aqrl rd rs1).translate ctx insn).2 m) ↔
        c.Exact len (.lr width aqrl rd rs1) := by
  have hw : 8 * width.size ≤ 64 := by cases width <;> decide
  have ht : (handlerOp width.lrHandler).transfers = false := by cases width <;> rfl
  have hrun := width.lr_run { insn with rd := rd, rs1 := rs1 } m
  rw [Instr.translate, transPlain, placed_of_value ht hrun, Core.exec, Core.loadReserved, h.mem]
  dsimp only
  rw [h.gpr_apply]
  by_cases ha : (c.x rs1).toNat % width.size = 0
  · rw [if_pos ha]
    let c₁ : Core := { c with reserved := some (width.size, c.x rs1) }
    have h₁ : c₁.Shows .none m := ⟨h.gpr, h.pc, h.mem, h.csr, h.exception⟩
    have hsame : Same ((c.load width.size (c.x rs1)).map fun v => v.signExtend 64)
        ((LittleEndian.value (8 * width.size) <$> c.mem.loadBytes (c.x rs1) width.size).map
          fun v => v.signExtend 64) := load_same _
    have hexact : c.Exact len (.lr width aqrl rd rs1) ↔
        (rd = 0 → ∀ v, (c.load width.size (c.x rs1)).map
          (fun v : BitVec (8 * width.size) => v.signExtend 64) = .ok v → v = 0) := by
      constructor
      · rintro ⟨_, h0⟩ hr v hv
        obtain ⟨v', hv', rfl⟩ := map_eq_ok hv
        exact h0 hr v' hv' ▸ zero_signExtend _ 64
      · refine fun h0 => ⟨ha, fun hr v hv => ?_⟩
        exact (signExtend_eq_zero v hw).mp (h0 hr _ (by rw [hv]; rfl))
    rw [hexact, ← agrees_loaded h₁ hsame]
    cases c.load width.size (c.x rs1) <;> exact Iff.rfl
  · rw [if_neg ha]
    exact iff_of_false (Core.not_agrees (.inr rfl) _) fun h0 => ha h0.1

theorem Width.sc_run (width : Width) (insn : Insn) (m : Machine) :
    { insn with handler := AmoOp.sc.handler width }.run m =
      (m.mem.storeBytes (m.gpr insn.rs1) (LittleEndian.bytes (m.gpr insn.rs2) width.size)).map
        fun mem => (m.setMem mem).setGpr insn.rd 0 := by
  cases width with
  | w =>
      rw [Hart.scW_run rfl, low32, bytes_setWidth _ (by decide)]
      rfl
  | d => exact Hart.scD_run rfl

theorem agrees_sc (h : c.Shows .none m) (width : Width) (aqrl : BitVec 2) (rd rs1 rs2 : Reg) :
    c.Agrees (c.exec len (.amo .sc width aqrl rd rs1 rs2))
      (placed len ((Instr.amo .sc width aqrl rd rs1 rs2).translate ctx insn).2 m) ↔
        c.Exact len (.amo .sc width aqrl rd rs1 rs2) := by
  let n : Insn := ((Instr.amo .sc width aqrl rd rs1 rs2).translate ctx insn).2
  have hfall : fallsThrough n m = true := fallsThrough_of_not_transfers (by cases width <;> rfl) m
  have hplaced : placed len n m =
      (m.mem.storeBytes (c.x rs1) (LittleEndian.bytes (c.x rs2) width.size)).map
        fun mem => ((m.setMem mem).setGpr rd 0).setPc (m.pc + len) := by
    have hrun := width.sc_run { insn with rs2 := rs2, rd := rd, rs1 := rs1 } m
    dsimp only at hrun
    rw [h.gpr_apply, h.gpr_apply] at hrun
    unfold placed
    rw [show n.run m = _ from hrun, hfall]
    cases m.mem.storeBytes (c.x rs1) (LittleEndian.bytes (c.x rs2) width.size) <;> rfl
  let c₀ : Core := { c with reserved := none }
  have h₀ : c₀.Shows .none m := ⟨h.gpr, h.pc, h.mem, h.csr, h.exception⟩
  rw [show placed len ((Instr.amo .sc width aqrl rd rs1 rs2).translate ctx insn).2 m = _ from
    hplaced, Core.exec, Core.storeConditional]
  by_cases ha : (c.x rs1).toNat % width.size = 0
  · rw [if_pos ha]
    by_cases hres : c.reserved = some (width.size, c.x rs1)
    · rw [if_pos hres]
      refine iff_of_true ?_ ⟨ha, .inl hres⟩
      have hput := agrees_stored h width.size (c.x rs1) (c.x rs2)
        (f := fun c => ({ c with reserved := none }.set rd 0).advance len)
        (g := fun m' => (m'.setGpr rd 0).setPc (m.pc + len))
        fun mem =>
          ((h₀.setMem mem).write_iff rd 0 0 len).mpr ((writes_self_iff rd 0).mpr fun _ => rfl)
      refine Eq.mp ?_ hput
      cases c.store width.size (c.x rs1) (c.x rs2) <;> rfl
    · rw [if_neg hres]
      rw [h.mem]
      cases hs : c.mem.storeBytes (c.x rs1) (LittleEndian.bytes (c.x rs2) width.size) with
      | error e =>
          have hst : c.store width.size (c.x rs1) (c.x rs2) = .error .access := by
            unfold Core.store
            rw [hs]
          refine iff_of_false id fun h0 => ?_
          obtain ⟨_, c', hc, _⟩ := h0.2.resolve_left hres
          rw [hst] at hc
          cases hc
      | ok mem =>
          have hst : c.store width.size (c.x rs1) (c.x rs2) = .ok { c with mem := mem } := by
            unfold Core.store
            rw [hs]
          have hput := (h₀.setMem mem).write_iff rd 1 0 len
          constructor
          · intro hag
            have hmem : mem = c.mem := hag.mem
            have hw := hput.mp ⟨hag.gpr, hag.pc, rfl, hag.csr, hag.exception⟩
            refine ⟨ha, .inr ⟨?_, _, hst, hmem⟩⟩
            by_cases hrd : rd = 0
            · exact hrd
            · rw [Core.Writes, if_neg hrd] at hw
              cases hw
          · rintro ⟨_, hor⟩
            obtain ⟨hrd, c', hc, hmem⟩ := hor.resolve_left hres
            rw [hst] at hc
            cases hc
            have hag := hput.mpr (by rw [Core.Writes, if_pos hrd])
            exact ⟨hag.gpr, hag.pc, hmem, hag.csr, hag.exception⟩
  · rw [if_neg ha]
    exact iff_of_false (Core.not_agrees (.inr rfl) _) fun h0 => ha h0.1

theorem agrees_exchange (h : c.Shows .none m) {n : Nat}
    {f : BitVec (8 * n) → BitVec (8 * n) → BitVec (8 * n)} {rd : Reg} {a v : Word}
    (hn : 8 * n ≤ 64) (ha : a.toNat % n = 0) :
    c.Agrees ((c.modify n f rd a v).map fun c => c.advance len)
      ((exchange n f m.mem a (v.setWidth (8 * n))).map fun r =>
        ((m.setMem r.1).setGpr rd (r.2.signExtend 64)).setPc (m.pc + len)) ↔
      (rd = 0 → ∀ old c', c.load n a = .ok old →
        c.store n a (f old (v.setWidth (8 * n))) = .ok c' → old = 0) := by
  unfold Core.modify exchange Core.load Core.store
  rw [if_pos ha, h.mem]
  cases hl : c.mem.loadBytes a n with
  | error e =>
      obtain rfl := Memory.loadBytes_error hl
      exact iff_of_true rfl fun _ _ _ ho => nomatch ho
  | ok bs =>
      simp only [bind, Except.bind, Functor.map, Except.map]
      cases hs : c.mem.storeBytes a
        (LittleEndian.bytes (f (LittleEndian.value (8 * n) bs) (v.setWidth (8 * n))) n) with
      | error e =>
          obtain rfl := Memory.storeBytes_error hs
          refine iff_of_true rfl fun _ old c' ho hc => ?_
          cases ho
          rw [hs] at hc
          cases hc
      | ok mem =>
          refine ((h.setMem mem).write_iff rd _ _ len).trans ((writes_self_iff rd _).trans ?_)
          rw [signExtend_eq_zero _ hn]
          constructor
          · intro h0 hr old c' ho _
            cases ho
            exact h0 hr
          · exact fun h0 hr => h0 hr _ _ rfl (by rw [hs])

theorem AmoOp.run_eq (op : AmoOp) (hop : op ≠ .sc) (width : Width) (insn : Insn) (m : Machine) :
    { insn with handler := op.handler width }.run m =
      (exchange width.size op.value m.mem (m.gpr insn.rs1)
        ((m.gpr insn.rs2).setWidth (8 * width.size))).map fun r =>
          (m.setMem r.1).setGpr insn.rd (r.2.signExtend 64) := by
  cases width with
  | w =>
      have he := amoW_eq_exchange op.value { insn with handler := op.handler .w } m
      rw [run_op]
      rcases op.handler_opW hop with ho | ho
      · exact (congrArg (fun o => Op.run o { insn with handler := op.handler .w } m) ho).trans he
      · rw [← amoSelW_run] at he
        exact (congrArg (fun o => Op.run o { insn with handler := op.handler .w } m) ho).trans he
  | d =>
      have he := amoD_eq_exchange op.value { insn with handler := op.handler .d } m
      have hx : ∀ x : Except Fault (Memory × BitVec (8 * 8)),
          (x.map fun r => (m.setMem r.1).setGpr insn.rd r.2) =
            x.map fun r => (m.setMem r.1).setGpr insn.rd (r.2.signExtend 64) := by
        intro x
        congr 1
        funext r
        rw [show r.2.signExtend 64 = r.2 from BitVec.signExtend_eq r.2]
      have hv : (m.gpr insn.rs2).setWidth (8 * 8) = m.gpr insn.rs2 := BitVec.setWidth_eq _
      rw [run_op, Width.size, hv, ← hx]
      rcases op.handler_opD hop with ho | ho
      · exact (congrArg (fun o => Op.run o { insn with handler := op.handler .d } m) ho).trans he
      · rw [← amoSelD_run] at he
        exact (congrArg (fun o => Op.run o { insn with handler := op.handler .d } m) ho).trans he

theorem agrees_amo (h : c.Shows .none m) (op : AmoOp) (hop : op ≠ .sc) (width : Width)
    (aqrl : BitVec 2) (rd rs1 rs2 : Reg) :
    c.Agrees (c.exec len (.amo op width aqrl rd rs1 rs2))
      (placed len ((Instr.amo op width aqrl rd rs1 rs2).translate ctx insn).2 m) ↔
        c.Exact len (.amo op width aqrl rd rs1 rs2) := by
  let n : Insn := ((Instr.amo op width aqrl rd rs1 rs2).translate ctx insn).2
  have hn : 8 * width.size ≤ 64 := by cases width <;> decide
  have ht : n.op.transfers = false := by
    show (handlerOp (op.handler width)).transfers = false
    cases op <;> cases width <;> rfl
  have hrun := op.run_eq hop width { insn with rs2 := rs2, rd := rd, rs1 := rs1 } m
  dsimp only at hrun
  rw [h.gpr_apply, h.gpr_apply] at hrun
  have hplaced : placed len n m =
      (exchange width.size op.value m.mem (c.x rs1) ((c.x rs2).setWidth (8 * width.size))).map
        fun r => ((m.setMem r.1).setGpr rd (r.2.signExtend 64)).setPc (m.pc + len) := by
    unfold placed
    rw [show n.run m = _ from hrun, fallsThrough_of_not_transfers ht]
    cases exchange width.size op.value m.mem (c.x rs1) ((c.x rs2).setWidth (8 * width.size)) with
    | error e => rfl
    | ok r => rfl
  have hexec : c.exec len (.amo op width aqrl rd rs1 rs2) =
      (c.modify width.size op.value rd (c.x rs1) (c.x rs2)).map fun c => c.advance len := by
    cases op <;> first | rfl | exact (hop rfl).elim
  have hexact : c.Exact len (.amo op width aqrl rd rs1 rs2) ↔
      (c.x rs1).toNat % width.size = 0 ∧ (rd = 0 → ∀ old c', c.load width.size (c.x rs1) = .ok old →
        c.store width.size (c.x rs1)
          (op.value old ((c.x rs2).setWidth (8 * width.size))) = .ok c' → old = 0) := by
    cases op <;> first | exact Iff.rfl | exact (hop rfl).elim
  rw [hexec, show placed len ((Instr.amo op width aqrl rd rs1 rs2).translate ctx insn).2 m = _ from
    hplaced, hexact]
  by_cases ha : (c.x rs1).toNat % width.size = 0
  · exact (agrees_exchange h hn ha).trans (and_iff_right ha).symm
  · rw [Core.modify, if_neg ha]
    exact iff_of_false (Core.not_agrees (.inr rfl) _) fun h0 => ha h0.1

/-! ## Every instruction -/

/-- A decoded instruction does what it should exactly where `Core.Exact` says so. -/
theorem agrees_iff (h : c.Shows .none m) (hlen : len ≠ 0) (i : Instr) (hl : len = 4 ∨ i.NoLink) :
    c.Agrees (c.exec len i) (placed len (i.translate (.start m.pc) insn).2 m) ↔ c.Exact len i := by
  cases i with
  | r op rd rs1 rs2 => exact agrees_r _ insn h op rd rs1 rs2
  | i op rd rs1 imm => exact agrees_i _ insn h op rd rs1 imm
  | shift op rd rs1 shamt => exact iff_of_true (agrees_shift _ insn h op rd rs1 shamt) trivial
  | shiftW op rd rs1 shamt => exact agrees_shiftW _ insn h op rd rs1 shamt
  | s op rs1 rs2 imm => exact iff_of_true (agrees_s _ insn h op rs1 rs2 imm) trivial
  | b op rs1 rs2 offset => exact iff_of_true (agrees_b insn h op rs1 rs2 offset) trivial
  | lui rd imm => exact agrees_lui _ insn h rd imm
  | auipc rd imm => exact agrees_auipc insn h rd imm
  | jal rd offset => exact iff_of_true (agrees_jal insn h rd offset hl) trivial
  | jalr rd rs1 imm => exact agrees_jalr insn h rd rs1 imm hl
  | csr op rd rs1 num => exact agrees_csr _ insn h hlen op rd rs1 num
  | lr width aqrl rd rs1 => exact agrees_lr _ insn h width aqrl rd rs1
  | amo op width aqrl rd rs1 rs2 =>
      by_cases hop : op = .sc
      · subst hop
        exact agrees_sc _ insn h width aqrl rd rs1 rs2
      · exact agrees_amo _ insn h op hop width aqrl rd rs1 rs2
  | fence rd rs1 imm | fenceI rd rs1 imm =>
      rw [placed_doEmpty rfl]
      exact iff_of_true (h.advance len) trivial
  | ecall => exact iff_of_true (h.raise .uEcall) trivial
  | ebreak => exact iff_of_false (Core.not_agrees (.inl rfl) _) id

end

end Rvvk.Isa
