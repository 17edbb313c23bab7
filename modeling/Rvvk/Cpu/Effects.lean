import Rvvk.Cpu.Handlers

/-!
# What a handler can do

The handlers fall into those that leave `env->pc` alone, those that set it from
the translated instruction, and those that raise an exception. Each family of
handlers is treated once; a lemma about all handlers dispatches to the families.
-/

namespace Rvvk

/-! ## Classification -/

namespace Op

def isBranch : Op → Bool
  | branch _ _ => true
  | _ => false

def isJal : Op → Bool
  | jal _ => true
  | _ => false

def isJalr : Op → Bool
  | jalr _ => true
  | _ => false

def isTrap : Op → Bool
  | illegal | ecall => true
  | _ => false

def isCsr : Op → Bool
  | csr _ _ => true
  | _ => false

/-- A control transfer or a trap: the instruction ends its block. -/
def transfers (op : Op) : Bool := op.isBranch || op.isJal || op.isJalr || op.isTrap

end Op

/-- The CSR numbers `read_csr` and `write_csr` know. -/
def csrKnown (csr : BitVec 32) : Bool :=
  csr ∈ [0x001#32, 0x002, 0x003, 0x008, 0x009, 0x00a, 0x00f, 0xc20, 0xc21, 0xc22]

namespace Insn

def op (insn : Insn) : Op := handlerOp insn.handler

/-- A CSR instruction that `rmw_csr` refuses. -/
def unknownCsr (insn : Insn) : Bool := insn.op.isCsr && !csrKnown insn.csr

/-- The handler raises an exception, whatever the state. -/
def raises (insn : Insn) : Bool := insn.op.isTrap || insn.unknownCsr

end Insn

/-! ## Control and status registers -/

theorem readCsr_isSome (s : State) (csr : BitVec 32) : (readCsr s csr).isSome = csrKnown csr := by
  simp only [readCsr, csrKnown, apply_ite Option.isSome, Option.isSome_some, Option.isSome_none,
    Bool.if_true_left, Bool.decide_or, List.mem_cons, List.not_mem_nil, decide_false]
  rfl

theorem writeCsr_isSome (s : State) (csr : BitVec 32) (v : Word) :
    (writeCsr s csr v).isSome = csrKnown csr := by
  simp only [writeCsr, csrKnown, apply_ite Option.isSome, Option.isSome_some, Option.isSome_none,
    Bool.if_true_left, Bool.decide_or, List.mem_cons, List.not_mem_nil, decide_false]
  rfl

theorem writeCsr_cases {s s' : State} {csr : BitVec 32} {v : Word}
    (h : writeCsr s csr v = some s') :
    csr = 0x001 ∧ s' = { s with fflags := v } ∨
    csr = 0x002 ∧ s' = { s with frm := v } ∨
    csr = 0x003 ∧ s' = { s with fcsr := v } ∨
    csr = 0x008 ∧ s' = { s with vstart := v } ∨
    csr = 0x009 ∧ s' = { s with vxsat := v } ∨
    csr = 0x00a ∧ s' = { s with vxrm := v } ∨
    csr = 0x00f ∧ s' = { s with vcsr := v } ∨
    csr = 0xc20 ∧ s' = { s with vl := v } ∨
    csr = 0xc21 ∧ s' = { s with vtype := v } ∨
    csr = 0xc22 ∧ s' = { s with vlenb := v } := by
  unfold writeCsr at h
  by_cases h0 : csr = 0x001
  · rw [if_pos h0] at h
    simp [h0, ← Option.some.inj h]
  rw [if_neg h0] at h
  by_cases h1 : csr = 0x002
  · rw [if_pos h1] at h
    simp [h1, ← Option.some.inj h]
  rw [if_neg h1] at h
  by_cases h2 : csr = 0x003
  · rw [if_pos h2] at h
    simp [h2, ← Option.some.inj h]
  rw [if_neg h2] at h
  by_cases h3 : csr = 0x008
  · rw [if_pos h3] at h
    simp [h3, ← Option.some.inj h]
  rw [if_neg h3] at h
  by_cases h4 : csr = 0x009
  · rw [if_pos h4] at h
    simp [h4, ← Option.some.inj h]
  rw [if_neg h4] at h
  by_cases h5 : csr = 0x00a
  · rw [if_pos h5] at h
    simp [h5, ← Option.some.inj h]
  rw [if_neg h5] at h
  by_cases h6 : csr = 0x00f
  · rw [if_pos h6] at h
    simp [h6, ← Option.some.inj h]
  rw [if_neg h6] at h
  by_cases h7 : csr = 0xc20
  · rw [if_pos h7] at h
    simp [h7, ← Option.some.inj h]
  rw [if_neg h7] at h
  by_cases h8 : csr = 0xc21
  · rw [if_pos h8] at h
    simp [h8, ← Option.some.inj h]
  rw [if_neg h8] at h
  by_cases h9 : csr = 0xc22
  · rw [if_pos h9] at h
    simp [h9, ← Option.some.inj h]
  rw [if_neg h9] at h
  cases h

theorem writeCsr_frame {s s' : State} {csr : BitVec 32} {v : Word}
    (h : writeCsr s csr v = some s') :
    s'.gpr = s.gpr ∧ s'.pc = s.pc ∧ s'.exception = s.exception := by
  rcases writeCsr_cases h with h | h | h | h | h | h | h | h | h | h
  all_goals
    rw [h.2]
    exact ⟨rfl, rfl, rfl⟩

theorem writeCsr_setPc (s : State) (csr : BitVec 32) (v pc : Word) :
    writeCsr { s with pc := pc } csr v =
      (writeCsr s csr v).map fun s' => { s' with pc := pc } := by
  simp only [writeCsr, apply_ite (Option.map fun s' : State => { s' with pc := pc }),
    Option.map_some, Option.map_none]

/-- `rmw_csr` reads a value, writes it back under the mask, and returns it. -/
theorem rmwCsr_spec {s s' : State} {csr : BitVec 32} {n w v : Word}
    (h : rmwCsr s csr n w = some (s', v)) :
    readCsr s csr = some v ∧ writeCsr s csr ((v &&& ~~~w) ||| (n &&& w)) = some s' := by
  unfold rmwCsr at h
  cases hr : readCsr s csr with
  | none => simp [hr] at h
  | some value =>
      cases hw : writeCsr s csr ((value &&& ~~~w) ||| (n &&& w)) with
      | none => simp [hr, hw] at h
      | some s₁ =>
          simp only [hr, hw, bind, Option.bind, Option.some.injEq, Prod.mk.injEq] at h
          rw [← h.1, ← h.2]
          exact ⟨rfl, hw⟩

theorem rmwCsr_frame {s s' : State} {csr : BitVec 32} {n w v : Word}
    (h : rmwCsr s csr n w = some (s', v)) :
    s'.gpr = s.gpr ∧ s'.pc = s.pc ∧ s'.exception = s.exception :=
  writeCsr_frame (rmwCsr_spec h).2

/-- The value left in `rd` is the one read before the write. -/
theorem rmwCsr_value {s s' : State} {csr : BitVec 32} {n w v : Word}
    (h : rmwCsr s csr n w = some (s', v)) : readCsr s csr = some v :=
  (rmwCsr_spec h).1

theorem rmwCsr_setPc (s : State) (csr : BitVec 32) (n w pc : Word) :
    rmwCsr { s with pc := pc } csr n w =
      (rmwCsr s csr n w).map fun r => ({ r.1 with pc := pc }, r.2) := by
  have hr : readCsr { s with pc := pc } csr = readCsr s csr := rfl
  unfold rmwCsr
  rw [hr]
  cases readCsr s csr with
  | none => rfl
  | some value =>
      simp only [bind, Option.bind, writeCsr_setPc]
      cases writeCsr s csr ((value &&& ~~~w) ||| (n &&& w)) <;> rfl

theorem rmwCsr_isSome (s : State) (csr : BitVec 32) (n w : Word) :
    (rmwCsr s csr n w).isSome = csrKnown csr := by
  unfold rmwCsr
  cases hr : readCsr s csr with
  | none => simp [← readCsr_isSome s, hr]
  | some value =>
      have hw := writeCsr_isSome s csr ((value &&& ~~~w) ||| (n &&& w))
      cases hs : writeCsr s csr ((value &&& ~~~w) ||| (n &&& w)) with
      | none => simpa [hs] using hw
      | some s' => simpa [hs] using hw

/-! ## Falling through -/

/-- The effect of an instruction that falls through: it works alike at every
`env->pc`, which it keeps, and it keeps the exception and the map of pages. -/
structure Straight (f : Machine → Except Fault Machine) : Prop where
  setPc : ∀ m pc, f (m.setPc pc) = (f m).map fun m' => m'.setPc pc
  exception : ∀ {m m'}, f m = .ok m' → m'.exception = m.exception
  pages : ∀ {m m'}, f m = .ok m' → m.mem.SamePages m'.mem

theorem Straight.pc {f : Machine → Except Fault Machine} (hf : Straight f) {m m' : Machine}
    (h : f m = .ok m') : m'.pc = m.pc := by
  have hp := hf.setPc m m.pc
  rw [Machine.setPc_pc, h] at hp
  simp only [Except.map, Except.ok.injEq] at hp
  rw [hp, Machine.pc_setPc]

/-- A handler that computes a result from the state without looking at
`env->pc`, and then finishes from it, falls through. -/
theorem Straight.of_map {α : Type} {f : Machine → Except Fault Machine}
    (st : Machine → Except Fault α) (fin : α → Machine → Machine)
    (hf : ∀ m, f m = (st m).map fun r => fin r m)
    (hst : ∀ m pc, st (m.setPc pc) = st m)
    (hfin : ∀ r m pc, fin r (m.setPc pc) = (fin r m).setPc pc)
    (hexc : ∀ r m, (fin r m).exception = m.exception)
    (hpages : ∀ m r, st m = .ok r → m.mem.SamePages (fin r m).mem) : Straight f where
  setPc m pc := by
    rw [hf, hf, hst]
    cases st m with
    | error e => rfl
    | ok r => exact congrArg Except.ok (hfin r m pc)
  exception {m m'} h := by
    rw [hf] at h
    obtain ⟨r, _, rfl⟩ := map_eq_ok h
    exact hexc r m
  pages {m m'} h := by
    rw [hf] at h
    obtain ⟨r, hr, rfl⟩ := map_eq_ok h
    exact hpages m r hr

theorem setGpr_straight (rd : Reg) (v : Machine → Word) (hv : ∀ m pc, v (m.setPc pc) = v m) :
    Straight fun m => .ok (m.setGpr rd (v m)) :=
  .of_map (fun m => .ok (v m)) (fun r m => m.setGpr rd r) (fun _ => rfl)
    (fun m pc => by rw [hv]) (fun _ _ _ => rfl) (fun _ _ => rfl) (fun _ _ _ => .refl _)

theorem readMem_straight {α : Type} (rd : Reg) (ld : Machine → Except Fault α) (ext : α → Word)
    (hld : ∀ m pc, ld (m.setPc pc) = ld m) :
    Straight fun m => ld m >>= fun v => .ok (m.setGpr rd (ext v)) :=
  .of_map ld (fun r m => m.setGpr rd (ext r)) (fun m => by cases ld m <;> rfl) hld
    (fun _ _ _ => rfl) (fun _ _ => rfl) (fun _ _ _ => .refl _)

theorem cpuSt_samePages {n : Nat} {m m' : Memory} {a off v : Word}
    (h : cpuSt n m a off v = .ok m') : m.SamePages m' := by
  unfold cpuSt at h
  split at h <;> exact Memory.storeBytes_samePages h

/-- A known CSR is read, written and left in `rd`. -/
theorem csr_known (newValue wrMask : Word → Word → Word) (insn : Insn) (m : Machine)
    (hk : csrKnown insn.csr = true) :
    ∃ env value, rmwCsr m.env insn.csr (newValue (m.gpr insn.rs1) insn.uimm)
        (wrMask (m.gpr insn.rs1) insn.uimm) = some (env, value) ∧
      (Op.csr newValue wrMask).run insn m = .ok ({ m with env := env }.setGpr insn.rd value) := by
  have hs := rmwCsr_isSome m.env insn.csr (newValue (m.gpr insn.rs1) insn.uimm)
    (wrMask (m.gpr insn.rs1) insn.uimm)
  rw [hk, Option.isSome_iff_exists] at hs
  obtain ⟨⟨env, value⟩, hr⟩ := hs
  exact ⟨env, value, hr, by simp [Op.run, hr]⟩

theorem csr_unknown (newValue wrMask : Word → Word → Word) (insn : Insn) (m : Machine)
    (hk : csrKnown insn.csr = false) :
    (Op.csr newValue wrMask).run insn m = doIllegal.run insn m := by
  have hs := rmwCsr_isSome m.env insn.csr (newValue (m.gpr insn.rs1) insn.uimm)
    (wrMask (m.gpr insn.rs1) insn.uimm)
  rw [hk, Option.isSome_eq_false_iff, Option.isNone_iff_eq_none] at hs
  simp [Op.run, hs, doIllegal]

theorem csr_straight (newValue wrMask : Word → Word → Word) (insn : Insn)
    (hk : csrKnown insn.csr = true) : Straight ((Op.csr newValue wrMask).run insn) where
  setPc m pc := by
    obtain ⟨env, value, hr, hc⟩ := csr_known newValue wrMask insn m hk
    have hp : rmwCsr (m.setPc pc).env insn.csr (newValue (m.gpr insn.rs1) insn.uimm)
        (wrMask (m.gpr insn.rs1) insn.uimm) = some ({ env with pc := pc }, value) :=
      (rmwCsr_setPc m.env _ _ _ pc).trans (by rw [hr]; rfl)
    rw [hc]
    simp only [Op.run, Machine.gpr_setPc, hp]
    rfl
  exception {m m'} h := by
    obtain ⟨env, value, hr, hc⟩ := csr_known newValue wrMask insn m hk
    rw [hc] at h
    cases h
    exact (rmwCsr_frame hr).2.2
  pages {m m'} h := by
    obtain ⟨env, value, hr, hc⟩ := csr_known newValue wrMask insn m hk
    rw [hc] at h
    cases h
    exact .refl _

theorem amoW_straight (f : BitVec 32 → BitVec 32 → BitVec 32) (insn : Insn) :
    Straight ((Op.amoW f).run insn) := by
  refine .of_map
    (fun m => cpuLduw m.mem (m.gpr insn.rs1) 0 >>= fun old =>
      (cpuStuw m.mem (m.gpr insn.rs1) 0 (f old (low32 (m.gpr insn.rs2)))).map fun mem => (mem, old))
    (fun r m => (m.setMem r.1).setGpr insn.rd (r.2.signExtend 64)) (fun m => ?_) (fun _ _ => rfl)
    (fun _ _ _ => rfl) (fun _ _ => rfl) (fun m r hr => ?_)
  · simp only [Op.run, bind, Except.bind]
    cases cpuLduw m.mem (m.gpr insn.rs1) 0 with
    | error e => rfl
    | ok old =>
        dsimp only
        cases cpuStuw m.mem (m.gpr insn.rs1) 0 (f old (low32 (m.gpr insn.rs2))) <;> rfl
  · obtain ⟨old, _, hr⟩ := bind_eq_ok hr
    obtain ⟨mem, hm, rfl⟩ := map_eq_ok hr
    exact Memory.storeBytes_samePages hm

theorem amoD_straight (f : BitVec 64 → BitVec 64 → BitVec 64) (insn : Insn) :
    Straight ((Op.amoD f).run insn) := by
  refine .of_map
    (fun m => cpuLdud m.mem (m.gpr insn.rs1) 0 >>= fun old =>
      (cpuStud m.mem (m.gpr insn.rs1) 0 (f old (m.gpr insn.rs2))).map fun mem => (mem, old))
    (fun r m => (m.setMem r.1).setGpr insn.rd r.2) (fun m => ?_) (fun _ _ => rfl)
    (fun _ _ _ => rfl) (fun _ _ => rfl) (fun m r hr => ?_)
  · simp only [Op.run, bind, Except.bind]
    cases cpuLdud m.mem (m.gpr insn.rs1) 0 with
    | error e => rfl
    | ok old =>
        dsimp only
        cases cpuStud m.mem (m.gpr insn.rs1) 0 (f old (m.gpr insn.rs2)) <;> rfl
  · obtain ⟨old, _, hr⟩ := bind_eq_ok hr
    obtain ⟨mem, hm, rfl⟩ := map_eq_ok hr
    exact Memory.storeBytes_samePages hm

/-- Whatever does not transfer control and is not an unknown CSR falls through. -/
theorem Op.straight {op : Op} {insn : Insn} (ht : op.transfers = false)
    (hk : op.isCsr = true → csrKnown insn.csr = true) : Straight (op.run insn) := by
  cases op with
  | empty =>
      exact .of_map (fun _ => .ok ()) (fun _ m => m) (fun _ => rfl) (fun _ _ => rfl)
        (fun _ _ _ => rfl) (fun _ _ => rfl) (fun _ _ _ => .refl _)
  | auipc => exact setGpr_straight insn.rd _ fun _ _ => rfl
  | lui => exact setGpr_straight insn.rd _ fun _ _ => rfl
  | aluR f => exact setGpr_straight insn.rd _ fun _ _ => rfl
  | aluI f => exact setGpr_straight insn.rd _ fun _ _ => rfl
  | aluDiv fault f =>
      refine .of_map
        (fun m => if fault (m.gpr insn.rs1) (m.gpr insn.rs2) then .error .sigfpe
          else .ok (f (m.gpr insn.rs1) (m.gpr insn.rs2)))
        (fun r m => m.setGpr insn.rd r) (fun m => ?_)
        (fun _ _ => rfl) (fun _ _ _ => rfl) (fun _ _ => rfl) (fun _ _ _ => .refl _)
      simp only [run]
      split <;> rfl
  | load ld ext => exact readMem_straight insn.rd _ ext fun _ _ => rfl
  | lrW => exact readMem_straight insn.rd _ _ fun _ _ => rfl
  | lrD => exact readMem_straight insn.rd _ _ fun _ _ => rfl
  | store n =>
      refine .of_map (fun m => cpuSt n m.mem (m.gpr insn.rs1) insn.immLong (m.gpr insn.rs2))
        (fun mem m => m.setMem mem) (fun m => ?_) (fun _ _ => rfl) (fun _ _ _ => rfl)
        (fun _ _ => rfl) (fun _ _ h => cpuSt_samePages h)
      simp only [run]
      cases cpuSt n m.mem (m.gpr insn.rs1) insn.immLong (m.gpr insn.rs2) <;> rfl
  | csr newValue wrMask => exact csr_straight newValue wrMask insn (hk rfl)
  | scW =>
      refine .of_map (fun m => cpuStuw m.mem (m.gpr insn.rs1) 0 (low32 (m.gpr insn.rs2)))
        (fun mem m => (m.setMem mem).setGpr insn.rd 0) (fun m => ?_) (fun _ _ => rfl)
        (fun _ _ _ => rfl) (fun _ _ => rfl) (fun _ _ h => Memory.storeBytes_samePages h)
      simp only [run]
      cases cpuStuw m.mem (m.gpr insn.rs1) 0 (low32 (m.gpr insn.rs2)) <;> rfl
  | scD =>
      refine .of_map (fun m => cpuStud m.mem (m.gpr insn.rs1) 0 (m.gpr insn.rs2))
        (fun mem m => (m.setMem mem).setGpr insn.rd 0) (fun m => ?_) (fun _ _ => rfl)
        (fun _ _ _ => rfl) (fun _ _ => rfl) (fun _ _ h => Memory.storeBytes_samePages h)
      simp only [run]
      cases cpuStud m.mem (m.gpr insn.rs1) 0 (m.gpr insn.rs2) <;> rfl
  | amoW f => exact amoW_straight f insn
  | amoSelW f => exact amoSelW_run f insn ▸ amoW_straight f insn
  | amoD f => exact amoD_straight f insn
  | amoSelD f => exact amoSelD_run f insn ▸ amoD_straight f insn
  | illegal => cases ht
  | ecall => cases ht
  | jal size => cases ht
  | jalr size => cases ht
  | branch cond size => cases ht

theorem Insn.straight {insn : Insn} (ht : insn.op.transfers = false)
    (hc : insn.unknownCsr = false) : Straight insn.run :=
  Op.straight ht fun hi => by
    have hi' : insn.op.isCsr = true := hi
    simpa [unknownCsr, hi'] using hc

/-! ## Leaving the block -/

/-- The effect of a control transfer or a trap: it sets `env->pc` without
looking at it, and keeps memory. -/
structure Leaves (f : Machine → Except Fault Machine) : Prop where
  setPc : ∀ m pc, f (m.setPc pc) = f m
  mem : ∀ {m m'}, f m = .ok m' → m'.mem = m.mem
  total : ∀ m, ∃ m', f m = .ok m'

@[simp] theorem mem_link (size : Word) (insn : Insn) (m : Machine) :
    (link size insn m).mem = m.mem := by
  unfold link
  split <;> rfl

@[simp] theorem exception_link (size : Word) (insn : Insn) (m : Machine) :
    (link size insn m).exception = m.exception := by
  unfold link
  split <;> rfl

theorem link_setPc (size : Word) (insn : Insn) (m : Machine) (pc : Word) :
    link size insn (m.setPc pc) = (link size insn m).setPc pc := by
  unfold link
  split <;> rfl

theorem Op.leaves {op : Op} {insn : Insn} (ht : op.transfers = true) : Leaves (op.run insn) := by
  cases op with
  | illegal => exact ⟨fun _ _ => rfl, fun h => by cases h; rfl, fun _ => ⟨_, rfl⟩⟩
  | ecall => exact ⟨fun _ _ => rfl, fun h => by cases h; rfl, fun _ => ⟨_, rfl⟩⟩
  | branch cond size =>
      exact ⟨fun _ _ => rfl, fun h => by cases h; rfl, fun _ => ⟨_, rfl⟩⟩
  | jal size =>
      refine ⟨fun m pc => ?_, fun h => ?_, fun _ => ⟨_, rfl⟩⟩
      · simp only [run, link_setPc, Machine.setPc_setPc]
      · cases h
        simp
  | jalr size =>
      refine ⟨fun m pc => ?_, fun h => ?_, fun _ => ⟨_, rfl⟩⟩
      · simp only [run, link_setPc, Machine.setPc_setPc, Machine.gpr_setPc]
      · cases h
        simp
  | _ => cases ht

/-- A control transfer keeps the exception unless it is a trap, which sets it. -/
theorem Op.exception_of_transfers {op : Op} {insn : Insn} {m m' : Machine}
    (ht : op.transfers = true) (h : op.run insn m = .ok m') :
    m'.exception = .none ↔ m.exception = .none ∧ op.isTrap = false := by
  cases op with
  | illegal => cases h; simp [isTrap]
  | ecall => cases h; simp [isTrap]
  | branch cond size => cases h; simp [isTrap]
  | jal size => cases h; simp [isTrap]
  | jalr size => cases h; simp [isTrap]
  | _ => cases ht

namespace Insn

theorem run_unknownCsr {insn : Insn} (hc : insn.unknownCsr = true) (m : Machine) :
    insn.run m = .ok (m.raise .illegalInst insn.pc) := by
  simp only [unknownCsr, Bool.and_eq_true, Bool.not_eq_true'] at hc
  obtain ⟨hi, hk⟩ := hc
  unfold run
  unfold op at hi
  cases hop : handlerOp insn.handler with
  | csr newValue wrMask => exact csr_unknown newValue wrMask insn m hk
  | _ =>
      rw [hop] at hi
      cases hi

/-- A handler ends with no exception pending exactly when none was pending and
it raises none. -/
theorem exception_eq_none {insn : Insn} {m m' : Machine} (h : insn.run m = .ok m') :
    m'.exception = .none ↔ m.exception = .none ∧ insn.raises = false := by
  cases hc : insn.unknownCsr with
  | true =>
      rw [run_unknownCsr hc m] at h
      cases h
      simp [raises, hc]
  | false =>
      cases ht : insn.op.transfers with
      | true => simpa [raises, hc] using Op.exception_of_transfers ht h
      | false =>
          have hn : insn.op.isTrap = false := by
            simp only [Op.transfers, Bool.or_eq_false_iff] at ht
            exact ht.2
          simp [(Insn.straight ht hc).exception h, raises, hn, hc]

theorem samePages {insn : Insn} {m m' : Machine} (h : insn.run m = .ok m') :
    m.mem.SamePages m'.mem := by
  cases hc : insn.unknownCsr with
  | true =>
      rw [run_unknownCsr hc m] at h
      cases h
      exact .refl _
  | false =>
      cases ht : insn.op.transfers with
      | true =>
          rw [(Op.leaves ht).mem h]
          exact .refl _
      | false => exact (Insn.straight ht hc).pages h

end Insn

end Rvvk
