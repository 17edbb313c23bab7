import Rvvk.Cpu.Effects

/-!
# Operands and destination

A handler that writes `gpr[rd]` should leave the same whether or not `rd` is one
of its operands: the run is compared with one from the same state in which `rd`
is another register. The two handlers of `jalr` write the link register before
they read the base.
-/

namespace Rvvk

/-- The handler writes `gpr[rd]`. -/
def Op.writesRd : Op → Bool
  | empty | illegal | ecall | branch _ _ | store _ => false
  | _ => true

/-- Two runs from `m`, one into `rd` and one into `rd'`. Only an instruction that
`rmw_csr` refuses leaves no value. -/
structure Alike (insn : Insn) (rd' : Reg) (m m₁ m₂ : Machine) : Prop where
  pc : m₁.pc = m₂.pc
  mem : m₁.mem = m₂.mem
  env : m₁.env = { m₂.env with gpr := m₁.env.gpr }
  value : insn.unknownCsr = false → m₁.gpr insn.rd = m₂.gpr rd'
  others : ∀ r, r ≠ insn.rd → m₁.gpr r = m.gpr r
  others' : ∀ r, r ≠ rd' → m₂.gpr r = m.gpr r

/-- The run is the one with another destination, host faults included. -/
def ReadsFirst (insn : Insn) (rd' : Reg) (m : Machine) : Prop :=
  match insn.run m, { insn with rd := rd' }.run m with
  | .ok m₁, .ok m₂ => Alike insn rd' m m₁ m₂
  | .error e₁, .error e₂ => e₁ = e₂
  | _, _ => False

/-- Where `jalr` should go. -/
def Insn.jalrTarget (insn : Insn) (m : Machine) : Word :=
  (m.gpr insn.rs1 + insn.immLong) &&& -2

/-- The base register of a `jalr` is its link register, and the return address
in its place leads elsewhere. -/
def Insn.clobbersBase (insn : Insn) (m : Machine) : Prop :=
  ∃ size, insn.op = .jalr size ∧ insn.rd = insn.rs1 ∧
    (insn.pc + size + insn.immLong) &&& -2 ≠ insn.jalrTarget m

/-! ## Handlers that compute a value and then write it -/

variable {insn : Insn} {rd' : Reg} {m : Machine}

/-- A handler that computes a machine with the same registers and a value, and
puts the value in `rd` last, reads first. -/
theorem readsFirst_of_map {x : Except Fault (Machine × Word)}
    (h₁ : insn.run m = x.map fun r => r.1.setGpr insn.rd r.2)
    (h₂ : { insn with rd := rd' }.run m = x.map fun r => r.1.setGpr rd' r.2)
    (hst : ∀ r, x = .ok r → r.1.gpr = m.gpr) : ReadsFirst insn rd' m := by
  unfold ReadsFirst
  rw [h₁, h₂]
  cases x with
  | error e => exact rfl
  | ok r =>
      have hg := hst r rfl
      exact {
        pc := rfl
        mem := rfl
        env := rfl
        value := fun _ => by rw [Machine.gpr_setGpr_self, Machine.gpr_setGpr_self]
        others := fun y hy => by rw [Machine.gpr_setGpr_of_ne _ _ hy, hg]
        others' := fun y hy => by rw [Machine.gpr_setGpr_of_ne _ _ hy, hg] }

theorem Insn.run_op {op : Op} (h : insn.op = op) (m : Machine) : insn.run m = op.run insn m := by
  rw [← h]
  rfl

theorem csr_readsFirst {newValue wrMask : Word → Word → Word} (h : insn.op = .csr newValue wrMask) :
    ReadsFirst insn rd' m := by
  have h' : { insn with rd := rd' }.op = .csr newValue wrMask := h
  cases hk : csrKnown insn.csr with
  | true =>
      obtain ⟨env, value, hr, _⟩ := csr_known newValue wrMask insn m hk
      refine readsFirst_of_map (x := .ok ({ m with env := env }, value)) ?_ ?_ fun r hst => ?_
      · rw [Insn.run_op h]
        simp only [Op.run, hr]
        rfl
      · rw [Insn.run_op h']
        simp only [Op.run, Insn.csr, Insn.uimm] at hr ⊢
        simp only [hr]
        rfl
      · cases hst
        exact (rmwCsr_frame hr).1
  | false =>
      have hc : insn.unknownCsr = true := by
        simp [Insn.unknownCsr, h, Op.isCsr, hk]
      have hc' : { insn with rd := rd' }.unknownCsr = true := hc
      unfold ReadsFirst
      rw [Insn.run_unknownCsr hc, Insn.run_unknownCsr hc']
      exact {
        pc := rfl
        mem := rfl
        env := rfl
        value := fun hn => by rw [hc] at hn; cases hn
        others := fun _ _ => rfl
        others' := fun _ _ => rfl }

/-- The value of a handler other than a CSR instruction or `jalr`, and the
machine it is written to. -/
def Op.computed (op : Op) (insn : Insn) (m : Machine) : Except Fault (Machine × Word) :=
  match op with
  | auipc => .ok (m, insn.pc + insn.immLong)
  | lui => .ok (m, insn.immLong)
  | jal size => .ok (m.setPc (insn.pc + insn.immLong), insn.pc + size)
  | aluR f => .ok (m, f (m.gpr insn.rs1) (m.gpr insn.rs2))
  | aluI f => .ok (m, f (m.gpr insn.rs1) insn.imm)
  | aluDiv fault f =>
      if fault (m.gpr insn.rs1) (m.gpr insn.rs2) then .error .sigfpe
      else .ok (m, f (m.gpr insn.rs1) (m.gpr insn.rs2))
  | load ld ext => (ld m.mem (m.gpr insn.rs1) insn.immLong).map fun v => (m, ext v)
  | lrW => (cpuLduw m.mem (m.gpr insn.rs1) 0).map fun v => (m, v.signExtend 64)
  | lrD => (cpuLdud m.mem (m.gpr insn.rs1) 0).map fun v => (m, v)
  | scW =>
      (cpuStuw m.mem (m.gpr insn.rs1) 0 (low32 (m.gpr insn.rs2))).map fun mem => (m.setMem mem, 0)
  | scD => (cpuStud m.mem (m.gpr insn.rs1) 0 (m.gpr insn.rs2)).map fun mem => (m.setMem mem, 0)
  | amoW f | amoSelW f =>
      cpuLduw m.mem (m.gpr insn.rs1) 0 >>= fun old =>
        (cpuStuw m.mem (m.gpr insn.rs1) 0 (f old (low32 (m.gpr insn.rs2)))).map fun mem =>
          (m.setMem mem, old.signExtend 64)
  | amoD f | amoSelD f =>
      cpuLdud m.mem (m.gpr insn.rs1) 0 >>= fun old =>
        (cpuStud m.mem (m.gpr insn.rs1) 0 (f old (m.gpr insn.rs2))).map fun mem =>
          (m.setMem mem, old)
  | _ => .ok (m, 0)

theorem bind_setGpr {α : Type} (x : Except Fault α) (m : α → Machine) (v : α → Word) (rd : Reg) :
    (x >>= fun a => .ok ((m a).setGpr rd (v a))) =
      (x.map fun a => (m a, v a)).map fun r => r.1.setGpr rd r.2 := by
  cases x <;> rfl

theorem bind_bind_setGpr {α β : Type} (x : Except Fault α) (y : α → Except Fault β)
    (m : α → β → Machine) (v : α → β → Word) (rd : Reg) :
    (x >>= fun a => y a >>= fun b => .ok ((m a b).setGpr rd (v a b))) =
      (x >>= fun a => (y a).map fun b => (m a b, v a b)).map fun r => r.1.setGpr rd r.2 := by
  cases x with
  | error e => rfl
  | ok a => exact bind_setGpr (y a) (m a) (v a) rd

theorem Op.run_eq_computed {op : Op} (hw : op.writesRd = true) (hc : op.isCsr = false)
    (hj : op.isJalr = false) (hrd : insn.rd ≠ 0) (m : Machine) :
    op.run insn m = (op.computed insn m).map fun r => r.1.setGpr insn.rd r.2 := by
  cases op with
  | jal size =>
      simp only [run, link, if_pos hrd]
      rfl
  | aluDiv fault f =>
      simp only [run, computed]
      split <;> rfl
  | load ld ext => exact bind_setGpr _ (fun _ => m) ext insn.rd
  | lrW => exact bind_setGpr _ (fun _ => m) (BitVec.signExtend 64) insn.rd
  | lrD => exact bind_setGpr _ (fun _ => m) id insn.rd
  | scW => exact bind_setGpr _ m.setMem (fun _ => 0) insn.rd
  | scD => exact bind_setGpr _ m.setMem (fun _ => 0) insn.rd
  | amoW f =>
      exact bind_bind_setGpr _ _ (fun _ => m.setMem) (fun (old : BitVec 32) _ => old.signExtend 64) insn.rd
  | amoSelW f =>
      rw [amoSelW_run]
      exact bind_bind_setGpr _ _ (fun _ => m.setMem) (fun (old : BitVec 32) _ => old.signExtend 64) insn.rd
  | amoD f => exact bind_bind_setGpr _ _ (fun _ => m.setMem) (fun old _ => old) insn.rd
  | amoSelD f =>
      rw [amoSelD_run]
      exact bind_bind_setGpr _ _ (fun _ => m.setMem) (fun old _ => old) insn.rd
  | auipc => rfl
  | lui => rfl
  | aluR f => rfl
  | aluI f => rfl
  | csr newValue wrMask => cases hc
  | jalr size => cases hj
  | _ => cases hw

theorem Op.gpr_computed {op : Op} {r : Machine × Word} (h : op.computed insn m = .ok r) :
    r.1.gpr = m.gpr := by
  cases op with
  | aluDiv fault f =>
      simp only [computed] at h
      split at h
      · cases h
      · cases h
        rfl
  | load ld ext =>
      obtain ⟨v, _, rfl⟩ := map_eq_ok h
      rfl
  | lrW =>
      obtain ⟨v, _, rfl⟩ := map_eq_ok h
      rfl
  | lrD =>
      obtain ⟨v, _, rfl⟩ := map_eq_ok h
      rfl
  | scW =>
      obtain ⟨v, _, rfl⟩ := map_eq_ok h
      rfl
  | scD =>
      obtain ⟨v, _, rfl⟩ := map_eq_ok h
      rfl
  | amoW f | amoSelW f | amoD f | amoSelD f =>
      obtain ⟨old, _, h⟩ := bind_eq_ok h
      obtain ⟨mem, _, rfl⟩ := map_eq_ok h
      rfl
  | _ =>
      cases h
      rfl

/-- Every handler other than `jalr` reads first. -/
theorem readsFirst_of_not_jalr (hw : insn.op.writesRd = true) (hj : insn.op.isJalr = false)
    (hrd : insn.rd ≠ 0) (hrd' : rd' ≠ 0) : ReadsFirst insn rd' m := by
  cases hc : insn.op.isCsr with
  | true =>
      cases h : insn.op with
      | csr newValue wrMask => exact csr_readsFirst h
      | _ =>
          rw [h] at hc
          cases hc
  | false =>
      -- `computed` looks at every field but `rd`.
      have hsame : insn.op.computed { insn with rd := rd' } m = insn.op.computed insn m := by
        cases insn.op <;> rfl
      have h₂ : insn.op.run { insn with rd := rd' } m =
          (insn.op.computed { insn with rd := rd' } m).map fun r => r.1.setGpr rd' r.2 :=
        Op.run_eq_computed hw hc hj hrd' m
      rw [hsame] at h₂
      exact readsFirst_of_map (Op.run_eq_computed hw hc hj hrd m) h₂ fun r => Op.gpr_computed

/-! ## Jumps through a register -/

theorem jalr_run {size : Word} (h : insn.op = .jalr size) (hrd : insn.rd ≠ 0) (m : Machine) :
    insn.run m = .ok ((m.setGpr insn.rd (insn.pc + size)).setPc
      (((if insn.rs1 = insn.rd then insn.pc + size else m.gpr insn.rs1) + insn.immLong) &&& -2)) := by
  rw [Insn.run_op h]
  simp only [Op.run, link, if_pos hrd, Machine.gpr_setGpr]

/-- A `jalr` that does not clobber its base goes to its target. -/
theorem jalr_goes {size : Word} (hn : ¬ insn.clobbersBase m) (h : insn.op = .jalr size) :
    ((if insn.rs1 = insn.rd then insn.pc + size else m.gpr insn.rs1) + insn.immLong) &&& -2 =
      insn.jalrTarget m := by
  by_cases he : insn.rs1 = insn.rd
  · rw [if_pos he]
    by_cases ht : (insn.pc + size + insn.immLong) &&& -2 = insn.jalrTarget m
    · exact ht
    · exact absurd ⟨size, h, he.symm, ht⟩ hn
  · rw [if_neg he]
    rfl

theorem jalr_readsFirst_iff {size : Word} (h : insn.op = .jalr size) (hrd : insn.rd ≠ 0)
    (hrd' : rd' ≠ 0) (hrs1 : rd' ≠ insn.rs1) :
    ReadsFirst insn rd' m ↔ ¬ insn.clobbersBase m := by
  have h' : { insn with rd := rd' }.op = .jalr size := h
  have hrs1' : ¬ insn.rs1 = rd' := fun he => hrs1 he.symm
  have hsize : ∀ size', insn.op = .jalr size' → size' = size := by
    intro size' hs
    rw [h] at hs
    exact (Op.jalr.inj hs).symm
  unfold ReadsFirst
  rw [jalr_run h hrd, jalr_run h' hrd']
  dsimp only
  rw [if_neg hrs1']
  constructor
  · rintro ha ⟨size', hs, he, hne⟩
    have hpc := ha.pc
    rw [if_pos he.symm] at hpc
    rw [hsize size' hs] at hne
    exact hne hpc
  · intro hn
    rw [jalr_goes hn h]
    exact {
      pc := rfl
      mem := rfl
      env := rfl
      value := fun _ => by
        rw [Machine.gpr_setPc, Machine.gpr_setPc, Machine.gpr_setGpr_self, Machine.gpr_setGpr_self]
      others := fun r hr => by rw [Machine.gpr_setPc, Machine.gpr_setGpr_of_ne _ _ hr]
      others' := fun r hr => by rw [Machine.gpr_setPc, Machine.gpr_setGpr_of_ne _ _ hr] }

/-- A handler that writes `rd` reads its operands first, unless it is a `jalr`
that clobbers its base; and a `jalr` goes to its target exactly then. -/
theorem readsFirst_iff (insn : Insn) (m : Machine) (rd' : Reg) (hw : insn.op.writesRd = true)
    (hrd : insn.rd ≠ 0) (hrd' : rd' ≠ 0) (hrs1 : rd' ≠ insn.rs1) :
    (ReadsFirst insn rd' m ∧
      (insn.op.isJalr = true → ∃ m', insn.run m = .ok m' ∧ m'.pc = insn.jalrTarget m)) ↔
    ¬ insn.clobbersBase m := by
  cases hj : insn.op.isJalr with
  | false =>
      refine ⟨?_, fun _ => ⟨readsFirst_of_not_jalr hw hj hrd hrd', fun h => nomatch h⟩⟩
      rintro _ ⟨size, hs, _⟩
      rw [hs] at hj
      cases hj
  | true =>
      cases h : insn.op with
      | jalr size =>
          rw [jalr_readsFirst_iff h hrd hrd' hrs1]
          refine ⟨fun hr => hr.1, fun hn => ⟨hn, fun _ => ⟨_, jalr_run h hrd m, ?_⟩⟩⟩
          rw [Machine.pc_setPc, jalr_goes hn h]
      | _ =>
          rw [h] at hj
          cases hj

/-- `add x5, x5, x6` leaves in `x5` what `add x7, x5, x6` leaves in `x7`. -/
theorem add_readsFirst :
    ReadsFirst ⟨5, 6, 5, 0, 0, .doAdd⟩ 7 (Machine.boot (Memory.filled 0)) :=
  ((readsFirst_iff _ _ 7 rfl (by decide) (by decide) (by decide)).mpr
    fun ⟨_, hs, _⟩ => nomatch hs).1

/-- `jalr x1, 0(x1)` at address 0 with `0x100` in `x1` goes to address 4. -/
theorem jalr_not_readsFirst :
    ¬ ReadsFirst ⟨1, 0, 1, 0, 0, .doJalr⟩ 5
      ((Machine.boot (Memory.filled 0)).setGpr 1 0x100) := by
  intro h
  have hpc := Alike.pc (show Alike _ _ _ _ _ from h)
  exact absurd hpc (by decide +kernel)

end Rvvk
