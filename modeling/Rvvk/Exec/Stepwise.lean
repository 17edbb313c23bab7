import Rvvk.Exec.Transparent

/-!
# Blocks and single instructions

`env->pc` is written only by the handlers that leave a block, so in the middle of
a block the machine that executes one instruction at a time has another pc. The
two agree again when the block ends, unless the block was cut because it is full:
then nothing has written `env->pc`.
-/

namespace Rvvk

/-- The last instruction of the block is a control transfer or a trap. -/
def Block.Uncut (b : Block) : Prop := ∀ last, b.insns.getLast? = some last → last.op.transfers = true

namespace Vm

/-- No handler runs that is refused its CSR. -/
def KnownCsr (s : Vm) : Prop := ∀ insn, s.insn? = some insn → insn.unknownCsr = false

/-- A block that is running was not cut at `TRANS_MAX`. -/
def Uncut (s : Vm) : Prop :=
  ∀ p i b, s.ctl = .body p i → s.cache.heap[p]? = some b → b.Uncut

/-- The emulator is between two blocks, or not running any. -/
def Boundary (s : Vm) : Prop :=
  ∀ p i b, s.ctl = .body p i → s.cache.heap[p]? = some b → i = 0 ∨ i = b.insns.length

/-- The machine with the pc of the instruction to be executed. -/
def flat (s : Vm) : Machine :=
  s.m.setPc <|
    match s.ctl with
    | .body p i =>
        match s.cache.heap[p]? with
        | some b => if i < b.insns.length then pcAt s.m.mem b.pc i else s.m.pc
        | none => s.m.pc
    | _ => s.m.pc

theorem flat_body {s : Vm} {p i : Nat} {b : Block} (hc : s.ctl = .body p i)
    (hb : s.cache.heap[p]? = some b) :
    s.flat = s.m.setPc (if i < b.insns.length then pcAt s.m.mem b.pc i else s.m.pc) := by
  simp only [flat, hc, hb]

theorem flat_of_boundary {s : Vm} (hi : s.Inv) (hb : s.Boundary) : s.flat = s.m := by
  cases hc : s.ctl with
  | start => simp only [flat, hc, Machine.setPc_pc]
  | returned => simp only [flat, hc, Machine.setPc_pc]
  | body p i =>
      obtain ⟨b, hp, ha⟩ := hi.body p i hc
      rw [flat_body hc hp]
      split
      · rename_i hlt
        rcases hb p i b hc hp with rfl | rfl
        · have hpc := ha.pc (ha.exception.mpr (by simp))
          rw [if_pos hlt] at hpc
          rw [pcAt_zero, ← hpc, Machine.setPc_pc]
        · exact (Nat.lt_irrefl _ hlt).elim
      · rw [Machine.setPc_pc]

theorem enter_boundary {prev : Option Ptr} {m : Machine} {c : Cache} {s' : Vm}
    (h : enter prev m c = .ok s') : s'.Boundary ∧ s'.m = m := by
  rcases enter_cases h with ⟨_, rfl⟩ | ⟨_, c₁, p, _, rfl⟩
  · exact ⟨nofun, rfl⟩
  · refine ⟨fun _ _ _ h _ => ?_, rfl⟩
    cases h
    exact .inl rfl

end Vm

/-! ## One instruction -/

/-- An instruction that falls through does the same to a machine with another pc. -/
theorem Machine.step_straight {m m' : Machine} {pc : Word} {opcode : BitVec 32}
    (ho : cpuLduw m.mem pc 0 = .ok opcode) (ht : (insnAt pc opcode).op.transfers = false)
    (hu : (insnAt pc opcode).unknownCsr = false) (hr : (insnAt pc opcode).run m = .ok m') :
    (m.setPc pc).step = .ok (m'.setPc (pc + insnLen opcode)) := by
  have hs := (Insn.straight ht hu).setPc m pc
  rw [hr] at hs
  unfold step
  rw [Machine.mem_setPc, Machine.pc_setPc, ho]
  simp only [bind, Except.bind, hs, Except.map, ht, Bool.false_eq_true, if_false,
    Machine.setPc_setPc]

theorem Machine.step_leaves {m m' : Machine} {pc : Word} {opcode : BitVec 32}
    (ho : cpuLduw m.mem pc 0 = .ok opcode) (ht : (insnAt pc opcode).op.transfers = true)
    (hr : (insnAt pc opcode).run m = .ok m') : (m.setPc pc).step = .ok m' := by
  have hs : (insnAt pc opcode).run (m.setPc pc) = .ok m' :=
    ((Op.leaves ht).setPc m pc).trans hr
  unfold step
  rw [Machine.mem_setPc, Machine.pc_setPc, ho]
  simp only [bind, Except.bind, hs, ht, if_true]

namespace Vm

/-- What a step must meet to be matched by single instructions. -/
structure Flat (s s' : Vm) : Prop where
  keeps : s.KeepsCode s'
  known : s.KnownCsr
  uncut : s.Uncut

theorem exec_flat {s : Vm} (hi : s.Inv) (hcur : s.Current) {p i : Nat} {b : Block} {insn : Insn}
    {m : Machine} (hc : s.ctl = .body p i) (hb : s.cache.heap[p]? = some b)
    (hins : b.insns[i]? = some insn) (hx : insn.exec s.m = .ok m)
    (hg : s.Flat ⟨m, s.cache, .body p (i + 1)⟩) :
    insnAt s.flat.pc (fetch s.flat.mem s.flat.pc) = insn ∧
      s.flat.step = .ok (flat ⟨m, s.cache, .body p (i + 1)⟩) := by
  have hmem := List.mem_of_getElem? hb
  have hlt : i < b.insns.length := (List.getElem?_eq_some_iff.mp hins).1
  obtain ⟨opcode, ho, hinsn⟩ := translate_getElem? (hcur b hmem) hins
  change insn = insnAt (pcAt s.m.mem b.pc i) opcode at hinsn
  have hrun := (Insn.exec_eq_ok hx).1
  rw [flat_body hc hb, if_pos hlt, flat_body (s := ⟨m, s.cache, .body p (i + 1)⟩) rfl hb]
  refine ⟨by rw [Machine.pc_setPc, Machine.mem_setPc, fetch_eq ho, hinsn], ?_⟩
  obtain ⟨init, last, hs⟩ := (hi.cache.translated b hmem).split
  have hlen : b.insns.length = init.length + 1 := by simp [hs.insns]
  dsimp only
  by_cases hlast : i = init.length
  · -- the last handler of the block has set `env->pc`
    have hl : insn = last := by
      rw [hs.insns, hlast] at hins
      simpa using hins.symm
    have ht := hg.uncut p i b hc hb last hs.getLast?
    rw [← hl, hinsn] at ht
    rw [if_neg (by omega), Machine.setPc_pc]
    exact Machine.step_leaves ho ht (hinsn ▸ hrun)
  · -- the block goes on at the next address, which the handler has not changed
    have hin : insn ∈ init := by
      rw [hs.insns, List.getElem?_append_left (by omega)] at hins
      exact List.mem_of_getElem? hins
    have ht := hs.straight insn hin
    have hu := hg.known insn (by simp only [insn?, hc, hb, Option.bind_some, hins])
    have hpc : pcAt m.mem b.pc (i + 1) = pcAt s.m.mem b.pc i + insnLen opcode := by
      rw [pcAt_congr (hg.keeps b hmem) (fun j hj => hcur.fetched hmem hj) (by omega), pcAt_succ', nextPc, fetch_eq ho]
    rw [if_pos (by omega), hpc]
    exact Machine.step_straight ho (hinsn ▸ ht) (hinsn ▸ hu) (hinsn ▸ hrun)

theorem step_flat {s s' : Vm} (hi : s.Inv) (hcur : s.Current) (hs : s.step = .ok s')
    (hg : s.Flat s') :
    (s.insn?.toList = [] ∧ s'.flat = s.flat) ∨
      ([insnAt s.flat.pc (fetch s.flat.mem s.flat.pc)] = s.insn?.toList ∧
        s.flat.step = .ok s'.flat) := by
  have hi' := hi.step hs
  cases step_move hs with
  | returned hc h =>
      subst h
      exact .inl ⟨by simp only [insn?, hc, Option.toList], rfl⟩
  | call hc h =>
      obtain ⟨hb', hm⟩ := enter_boundary h
      refine .inl ⟨by simp only [insn?, hc, Option.toList], ?_⟩
      rw [flat_of_boundary hi' hb', flat_of_boundary hi (fun _ _ _ h => by simp [hc] at h), hm]
  | exec hc hb hins hx h =>
      subst h
      obtain ⟨h1, h2⟩ := exec_flat hi hcur hc hb hins hx hg
      exact .inr ⟨by simp only [insn?, hc, hb, Option.bind_some, hins, h1, Option.toList], h2⟩
  | @chain p i b next hc hb hins hn h =>
      subst h
      have hb₀ : s.Boundary := by
        intro p' i' b' hc' hb'
        rw [hc] at hc'
        cases hc'
        rw [hb] at hb'
        cases hb'
        obtain ⟨b', hb', ha⟩ := hi.body p i hc
        rw [hb] at hb'
        cases hb'
        exact .inr (Nat.le_antisymm ha.le (List.getElem?_eq_none_iff.mp hins))
      refine .inl ⟨by simp only [insn?, hc, hb, Option.bind_some, hins, Option.toList], ?_⟩
      rw [flat_of_boundary hi' (fun _ _ _ h _ => by cases h; exact .inl rfl),
        flat_of_boundary hi hb₀]
  | @reenter p i b hc hb hins hn h =>
      obtain ⟨hb', hm⟩ := enter_boundary h
      have hle := List.getElem?_eq_none_iff.mp hins
      refine .inl ⟨by simp only [insn?, hc, hb, Option.bind_some, hins, Option.toList], ?_⟩
      rw [flat_of_boundary hi' hb', flat_body hc hb, if_neg (by omega), Machine.setPc_pc, hm]

/-! ## Every run -/

/-- A run over blocks that are not cut is a run of single instructions: the same
instructions in the same order, and the same machine whenever a block has ended. -/
theorem run_flat {s₀ s : Vm} {n : Nat} (hi : s₀.Inv) (hcur : s₀.Current) (hc : s₀.ctl = .start)
    (hg : Run.Along step Flat n s₀) (hr : s₀.run n = .ok s) (hb : s.Boundary) :
    ∃ k, s₀.m.run k = .ok s.m ∧ s₀.m.log k = s₀.log n := by
  have hinv : ∀ s s' : Vm, (s.Inv ∧ s.Current) → s.step = .ok s' → s.Flat s' → s'.Inv ∧ s'.Current :=
    fun _ _ h hs hg => ⟨h.1.step hs, h.2.step h.1 hs hg.keeps⟩
  have hstep : ∀ s s' : Vm, (s.Inv ∧ s.Current) → s.step = .ok s' → s.Flat s' → _ :=
    fun _ _ h hs hg => step_flat h.1 h.2 hs hg
  obtain ⟨k, hk, hl⟩ : ∃ k, s₀.flat.run k = .ok s.flat ∧ s₀.flat.log k = s₀.log n :=
    Run.simulates hstep hinv ⟨hi, hcur⟩ hg hr
  have hi' := (Run.invariant hinv ⟨hi, hcur⟩ hg hr).1
  rw [flat_of_boundary hi (fun _ _ _ h => by simp [hc] at h)] at hk hl
  rw [flat_of_boundary hi' hb] at hk
  exact ⟨k, hk, hl⟩

end Vm

namespace Binary

variable {x : Binary} {c : Setup} {s₀ s : Vm} {n : Nat}

/-- In a steady run the records in memory are the instructions in the table. -/
theorem log_hide (hs : x.Sound c s) (ha : Run.Throughout (x.step c) (x.Apart c) n s) :
    (s.hide c).log n = x.log c n s :=
  Run.log_map (fun _ hs ha => step_hide hs ha) (fun _ _ hs ha h => hs.step ha.keepsOff h)
    (fun _ hs _ => by rw [Vm.insn?_hide, hs.insn?_eq]) hs ha

/-- A run of `cpu_exec` over blocks that are not cut is a run of single instructions: the
same instructions in the same order, and the same machine whenever a block has ended. -/
theorem run_stepwise (h₀ : x.Reach c (fun _ => True) (x.Steady c) s₀) (hc : s₀.ctl = .start)
    (ha : Run.Throughout (x.step c) (x.Apart c) n s₀)
    (hg : Run.Along (x.step c) (fun s s' => (s.hide c).Flat (s'.hide c)) n s₀)
    (hr : x.run c n s₀ = .ok s) (hb : s.Boundary) :
    ∃ k, (s₀.m.without (InBuffer c)).run k = .ok (s.m.without (InBuffer c)) ∧
      (s₀.m.without (InBuffer c)).log k = x.log c n s₀ := by
  have hs : x.Sound c s₀ := h₀.sound fun _ _ hg => hg.apart.keepsOff
  have hrun : (s₀.hide c).run n = .ok (s.hide c) := by
    rw [← run_hide hs ha, hr]
    rfl
  have hbound : (s.hide c).Boundary := by
    intro p i b hctl hblk
    rw [Vm.ctl_hide] at hctl
    rw [Vm.cache_hide] at hblk
    exact hb p i b hctl hblk
  have hflat := Vm.run_flat hs.inv.hide (h₀.current fun _ _ hg => hg) (Vm.ctl_hide.trans hc)
    (hs.along_hide ha hg) hrun hbound
  rwa [Vm.m_hide, Vm.m_hide, log_hide hs ha] at hflat

end Binary

instance (b : Block) : Decidable b.Uncut :=
  inferInstanceAs (Decidable (∀ last ∈ b.insns.getLast?, last.op.transfers = true))

namespace Vm

instance (s : Vm) : Decidable s.KnownCsr :=
  inferInstanceAs (Decidable (∀ insn ∈ s.insn?, insn.unknownCsr = false))

def block? (s : Vm) : Option Block :=
  match s.ctl with
  | .body p _ => s.cache.heap[p]?
  | _ => none

theorem uncut_iff {s : Vm} : (∀ b ∈ s.block?, b.Uncut) ↔ s.Uncut := by
  unfold block? Uncut
  constructor
  · intro h p i b hc hb
    rw [hc] at h
    exact h b hb
  · intro h b hb
    cases hc : s.ctl with
    | body p i =>
        rw [hc] at hb
        exact h p i b hc hb
    | _ =>
        rw [hc] at hb
        cases hb

instance (s : Vm) : Decidable s.Uncut := decidable_of_iff _ uncut_iff

theorem flat_iff {s s' : Vm} : (s.KeepsCode s' ∧ s.KnownCsr ∧ s.Uncut) ↔ s.Flat s' :=
  ⟨fun h => ⟨h.1, h.2.1, h.2.2⟩, fun h => ⟨h.keeps, h.known, h.uncut⟩⟩

instance (s s' : Vm) : Decidable (s.Flat s') := decidable_of_iff _ flat_iff

end Vm

theorem Counter.flat : Run.Along Vm.step Vm.Flat 14
    (Vm.hide .default (.start (machine 0x00000073))) := by
  decide +kernel

/-- At the end of its second block the guest that counts has reached its system call. -/
theorem Counter.stops : ∃ s, Binary.static.run .default 14 (.start (machine 0x00000073)) = .ok s ∧
    s.ctl = .body 1 1 ∧ s.Boundary := by
  have hapart := apart.take (m := 14) (by decide)
  have hend : (((Vm.start (machine 0x00000073)).hide .default).run 14).toOption.map
      (fun t => (t.ctl, (t.cache.heap[1]?).map fun b => b.insns.length)) =
        some (.body 1 1, some 1) := by
    decide +kernel
  obtain ⟨s, hr, -, hv⟩ := Binary.run_shows (sound _) hapart hend
  obtain ⟨hctl, hlen⟩ := Prod.mk.inj hv
  rw [Vm.ctl_hide] at hctl
  rw [Vm.cache_hide] at hlen
  refine ⟨s, hr, hctl, fun p i b hc hb => ?_⟩
  cases hctl.symm.trans hc
  rw [hb] at hlen
  exact .inr (Option.some.inj hlen).symm

/-- The guest that counts to three, when its system call has been reached. -/
theorem counter_stepwise : ∃ s, Binary.static.run .default 14 (.start (Counter.machine 0x00000073)) =
    .ok s ∧ s.ctl = .body 1 1 ∧
      ∃ k, ((Counter.machine 0x00000073).without (InBuffer .default)).run k =
          .ok (s.m.without (InBuffer .default)) ∧
        ((Counter.machine 0x00000073).without (InBuffer .default)).log k =
          Binary.static.log .default 14 (.start (Counter.machine 0x00000073)) := by
  have hapart := Counter.apart.take (m := 14) (by decide)
  obtain ⟨s, hr, hctl, hb⟩ := Counter.stops
  exact ⟨s, hr, hctl, Binary.run_stepwise (.start _ trivial (Counter.fresh _)) rfl hapart
    ((Counter.sound _).along_of_hide hapart Counter.flat) hr hb⟩

/-! ## A block that is full -/

namespace FullBlock

def insn : Insn := ⟨10, 0, 10, 1, 0, .doAddi⟩

/-- Four bytes of `c.addi a0, 1`. -/
def opcode : BitVec 32 := LittleEndian.value 32 [5, 5, 5, 5]

theorem lineLength_filled (room : Nat) (pc : Word) :
    lineLength (.filled 5) room pc = room ∧ ∀ j, pcAt (.filled 5) pc j = pc + BitVec.ofNat 64 (2 * j) := by
  have hf : ∀ pc, fetch (.filled 5) pc = opcode := fun pc => fetch_eq (Memory.cpuLduw_filled 5 pc)
  constructor
  · induction room generalizing pc with
    | zero => rfl
    | succ room ih =>
        rw [lineLength, hf, ih]
        rfl
  · intro j
    induction j with
    | zero => exact (BitVec.add_zero pc).symm
    | succ j ih =>
        rw [pcAt_succ', ih, nextPc, hf, Nat.mul_succ, BitVec.ofNat_add, ← BitVec.add_assoc]
        rfl

theorem decode_filled (room : Nat) {ctx : Ctx} (hx : ctx.exit = false) :
    ∃ ctx', decode (.filled 5) (room + 1) ctx = .ok (ctx', List.replicate (room + 1) insn) := by
  induction room generalizing ctx with
  | zero =>
      rw [decode_succ _ 0 hx, Memory.cpuLduw_filled]
      exact ⟨_, rfl⟩
  | succ room ih =>
      obtain ⟨ctx', h⟩ := @ih (ctx.next opcode) hx
      have hat : insnAt ctx.pc opcode = insn := rfl
      refine ⟨ctx', ?_⟩
      rw [decode_succ _ (room + 1) hx, Memory.cpuLduw_filled]
      simp only [bind, Except.bind, ← opcode.eq_def, hat, Nat.add_eq_zero_iff, Nat.one_ne_zero,
        and_false, if_false]
      rw [if_neg (by decide), h]
      rfl

section

variable {p : Word → Prop} [DecidablePred p]

/-- Every halfword is `c.addi a0, 1`, where there is memory. -/
theorem fetched {pc : Word} {v : BitVec 32}
    (h : cpuLduw ((Memory.filled 5).without p) pc 0 = .ok v) : v = opcode := by
  have hv : cpuLduw (Memory.filled 5) pc 0 = .ok v := Memory.cpuLduw_eq_ok.mpr fun i hi =>
    Memory.byte?_without (Memory.cpuLduw_eq_ok.mp h i hi)
  rw [Memory.cpuLduw_filled] at hv
  exact (Except.ok.inj hv).symm

/-- The code of the first block, and what is read behind it. -/
theorem sameLine (hp : ∀ a : Word, a.toNat < 1028 → ¬ p a) :
    SameLine (.filled 5) ((Memory.filled 5).without p) transMax 0 := by
  intro j hj k hk
  obtain ⟨hl, hat⟩ := lineLength_filled transMax 0
  rw [hl] at hj
  refine Memory.without_other (hp _ ?_)
  rw [hat, show (0 : Word) + BitVec.ofNat 64 (2 * j) = _ from BitVec.zero_add _]
  unfold transMax at hj
  simp only [BitVec.toNat_add, BitVec.toNat_ofNat]
  omega

theorem translate_code (hp : ∀ a : Word, a.toNat < 1028 → ¬ p a) :
    ∃ t, translate ((Memory.filled 5).without p) 0 = .ok t ∧
      t.insns = List.replicate transMax insn := by
  obtain ⟨ctx, h⟩ := decode_filled 511 (rfl : (Ctx.start 0).exit = false)
  rw [translate_sameLine (sameLine hp)]
  exact ⟨⟨_, ctx.pcNext0, ctx.pcNext1⟩, translate_eq_ok.mpr ⟨ctx, h, rfl, rfl⟩, rfl⟩

theorem mem_translation {pc : Word} {t : Translation}
    (ht : translate ((Memory.filled 5).without p) pc = .ok t) {x : Insn} (hx : x ∈ t.insns) :
    x = insn := by
  obtain ⟨j, hj⟩ := List.getElem?_of_mem hx
  obtain ⟨v, hv, rfl⟩ := translate_getElem? ht hj
  rw [fetched hv]
  rfl

theorem step_good {s s' : Vm}
    (h : s.Inv ∧ s.Current ∧ s.m.mem = (Memory.filled 5).without p) (hs : s.step = .ok s') :
    (s'.Inv ∧ s'.Current ∧ s'.m.mem = (Memory.filled 5).without p) ∧
      s.KeepsCode s' ∧ s.KnownCsr := by
  obtain ⟨h', hk⟩ := Vm.step_readOnly (fun pc t ht x hx m m' hr => by
    cases mem_translation ht hx
    cases hr
    rfl) h hs
  refine ⟨h', hk, fun x hx => ?_⟩
  obtain ⟨pc, t, ht, hmem⟩ := h.2.1.insn?_mem h.1 hx
  rw [h.2.2] at ht
  rw [mem_translation ht hmem]
  rfl

/-- One instruction at a time, the pc moves on with `a0`. -/
theorem machine_run {m m' : Machine} (hm : m.mem = (Memory.filled 5).without p) {k : Nat}
    (h : m.run k = .ok m') :
    m'.gpr 10 = m.gpr 10 + BitVec.ofNat 64 k ∧ m'.pc = m.pc + 2 * BitVec.ofNat 64 k := by
  induction k generalizing m with
  | zero =>
      cases h
      simp
  | succ k ih =>
      obtain ⟨m₁, hs, hr⟩ := Run.run_succ_eq_ok.mp h
      have hs' : m₁ = (m.setGpr 10 (m.gpr 10 + 1)).setPc (m.pc + 2) := by
        unfold Machine.step at hs
        obtain ⟨v, hv, hs⟩ := bind_eq_ok hs
        rw [hm] at hv
        rw [fetched hv] at hs
        exact (Except.ok.inj hs).symm
      subst hs'
      obtain ⟨ha, hp⟩ := ih (m := (m.setGpr 10 (m.gpr 10 + 1)).setPc (m.pc + 2)) hm hr
      rw [ha, hp]
      simp only [Machine.gpr_setPc, Machine.gpr_setGpr_self, Machine.pc_setPc, BitVec.ofNat_add]
      constructor
      · rw [BitVec.add_assoc, BitVec.add_comm (BitVec.ofNat 64 k)]
        rfl
      · rw [BitVec.mul_add, BitVec.add_assoc, BitVec.add_comm (2 * BitVec.ofNat 64 k)]
        rfl

end

theorem insn_exec {m : Machine} (h0 : m.gpr 0 = 0) :
    insn.exec m = .ok (m.setGpr 10 (m.gpr 10 + 1)) := by
  have hr : insn.run m = .ok (m.setGpr 10 (m.gpr 10 + 1)) := rfl
  have hz : (m.setGpr 10 (m.gpr 10 + 1)).gpr 0 = 0 := h0
  unfold Insn.exec
  rw [hr]
  exact if_pos hz

/-- The handlers of the block count in `a0`, do not touch `env->pc` and meet no memory. -/
theorem run_body (x : Binary) (c : Setup) {cache : Cache} {b : Block}
    (hb : cache.heap[0]? = some b) (hins : b.insns = List.replicate transMax insn) {m : Machine}
    (h0 : m.gpr 0 = 0) {i k : Nat} (hi : i + k ≤ transMax) :
    Run.Throughout Vm.step (x.Clear c) k ⟨m, cache, .body 0 i⟩ ∧
      ∃ m', Vm.run k ⟨m, cache, .body 0 i⟩ = .ok ⟨m', cache, .body 0 (i + k)⟩ ∧
        m'.gpr 10 = m.gpr 10 + BitVec.ofNat 64 k ∧ m'.pc = m.pc := by
  induction k generalizing m i with
  | zero => exact ⟨trivial, m, rfl, (BitVec.add_zero _).symm, rfl⟩
  | succ k ih =>
      have hget : b.insns[i]? = some insn := by
        rw [hins, List.getElem?_replicate, if_pos (by omega)]
      have hstep : Vm.step ⟨m, cache, .body 0 i⟩ =
          .ok ⟨m.setGpr 10 (m.gpr 10 + 1), cache, .body 0 (i + 1)⟩ := by
        simp only [Vm.step, hb, hget, insn_exec h0, bind, Except.bind]
      have hin : Vm.insn? ⟨m, cache, .body 0 i⟩ = some insn := by
        simp only [Vm.insn?, hb, Option.bind_some, hget]
      have hen : Vm.enters ⟨m, cache, .body 0 i⟩ = false := by
        simp only [Vm.enters, hb, hget, Option.isNone_some, Bool.false_and]
      have hclear : x.Clear c ⟨m, cache, .body 0 i⟩ := by
        refine ⟨fun y hy => ?_, fun pc hpc => ?_⟩
        · obtain rfl : insn = y := Option.some.inj (hin.symm.trans hy)
          exact ⟨fun r hr => (by cases hr), fun r hr => (by cases hr)⟩
        · unfold Vm.translates? at hpc
          rw [if_neg (by simp [hen])] at hpc
          cases hpc
      obtain ⟨hc, m', hr, ha, hp⟩ := ih (m := m.setGpr 10 (m.gpr 10 + 1)) h0 (i := i + 1) (by omega)
      refine ⟨⟨hclear, fun s' hs => ?_⟩, m', ?_, ?_, hp⟩
      · cases hstep.symm.trans hs
        exact hc
      · exact Run.run_succ_eq_ok.mpr ⟨_, hstep, (Nat.add_right_comm i 1 k) ▸ hr⟩
      · rw [ha, Machine.gpr_setGpr_self, BitVec.ofNat_add, BitVec.add_assoc,
          BitVec.add_comm (BitVec.ofNat 64 k)]
        rfl

theorem run_start {p : Word → Prop} [DecidablePred p] (hp : ∀ a : Word, a.toNat < 1028 → ¬ p a) :
    Run.Throughout Vm.step (Binary.static.Clear .default) 513
        (.start (.boot ((Memory.filled 5).without p))) ∧
      ∃ m cache b, Vm.run 513 (.start (.boot ((Memory.filled 5).without p))) =
          .ok ⟨m, cache, .body 0 512⟩ ∧ cache.heap[0]? = some b ∧ b.insns.length = 512 ∧
        m.gpr 10 = 512 ∧ m.pc = 0 := by
  obtain ⟨t, ht, hins⟩ := translate_code hp
  have hstart := Vm.start_step (m := .boot ((Memory.filled 5).without p)) rfl ht
  have hb := Cache.init_insert_getElem? 0 t
  obtain ⟨hbody, m, hr, ha, hpc⟩ := run_body Binary.static .default hb hins
    (m := .boot ((Memory.filled 5).without p)) rfl (i := 0)
    (Nat.le_of_eq (Nat.zero_add transMax))
  refine ⟨⟨⟨nofun, fun pc hpc => ?_⟩, fun s' hs' => ?_⟩, m, _, _,
    Run.run_succ_eq_ok.mpr ⟨_, hstart, hr⟩, hb, ?_, ?_, hpc⟩
  · obtain rfl : 0 = pc := Option.some.inj hpc
    obtain ⟨hl, hat⟩ := lineLength_sameLine (sameLine hp)
    obtain ⟨hlen, hpcs⟩ := lineLength_filled transMax 0
    rw [hlen] at hl hat
    have hfits : Cache.init.Fits transMax := by decide
    refine ⟨hl.symm ▸ hfits, fun j hj k hk => Binary.static_low ?_⟩
    have hj' : j < transMax := hl ▸ hj
    have hj'' : pcAt ((Memory.filled 5).without p) 0 j = 0 + BitVec.ofNat 64 (2 * j) :=
      (hat j hj').trans (hpcs j)
    show (pcAt ((Memory.filled 5).without p) 0 j + BitVec.ofNat 64 k).toNat < 2 ^ 32
    rw [hj'', show (0 : Word) + BitVec.ofNat 64 (2 * j) = _ from BitVec.zero_add _]
    unfold transMax at hj'
    simp only [BitVec.toNat_add, BitVec.toNat_ofNat]
    omega
  · cases hstart.symm.trans hs'
    exact hbody
  · exact (congrArg List.length hins).trans List.length_replicate
  · rw [ha]
    rfl

def machine : Machine := (Machine.boot (.filled 5)).buffered .default

theorem hide_machine : machine.without (InBuffer .default) =
    .boot ((Memory.filled 5).without (InBuffer .default)) :=
  congrArg Machine.boot (Memory.without_congr fun _ ha => if_neg ha)

end FullBlock

/-- After a full block of `c.addi a0, 1` at address 0, `a0` is 512 and `env->pc` is
still 0, a state that no number of single instructions reaches. -/
theorem full_block_not_stepwise :
    ∃ s, Binary.static.run .default 513 (.start FullBlock.machine) = .ok s ∧ s.Boundary ∧
      Run.Throughout (Binary.static.step .default) (Binary.static.Apart .default) 513
        (.start FullBlock.machine) ∧
      Run.Along (Binary.static.step .default)
        (fun s s' => (s.hide .default).KeepsCode (s'.hide .default) ∧ (s.hide .default).KnownCsr)
        513 (.start FullBlock.machine) ∧
      ∀ k, (FullBlock.machine.without (InBuffer .default)).run k ≠
        .ok (s.m.without (InBuffer .default)) := by
  have hs : Binary.static.Sound .default (.start FullBlock.machine) := .start (buffered_fresh _ _)
  obtain ⟨hclear, m, cache, b, hrun, hb, hlen, ha, hp⟩ :=
    FullBlock.run_start (p := InBuffer .default) fun a ha =>
      (Binary.static_low (Nat.lt_trans ha (by decide))).1
  rw [← FullBlock.hide_machine, ← Vm.hide_start] at hclear hrun
  have hapart := Binary.throughout_of_clear hs hclear
  obtain ⟨s, hr, hh⟩ := Binary.run_of_hide hs hapart hrun
  have hm : s.m.without (InBuffer .default) = m := by rw [← Vm.m_hide, hh]
  refine ⟨s, hr, fun p i b' hc hb' => ?_, hapart, ?_, fun k hk => ?_⟩
  · rw [← Vm.ctl_hide (c := .default), hh] at hc
    rw [← Vm.cache_hide (c := .default), hh] at hb'
    cases hc
    cases hb.symm.trans hb'
    exact .inr hlen.symm
  · refine hs.along_of_hide hapart (Run.along_of_invariant
      (fun _ _ => FullBlock.step_good (p := InBuffer .default)) ⟨hs.inv.hide, ?_, ?_⟩ 513)
    · rw [Vm.hide_start]
      exact .start _
    · rw [Vm.hide_start, FullBlock.hide_machine]
      rfl
  · rw [hm, FullBlock.hide_machine] at hk
    obtain ⟨ha', hp'⟩ := FullBlock.machine_run rfl hk
    rw [ha] at ha'
    rw [hp] at hp'
    have hk' : BitVec.ofNat 64 k = 512#64 := by
      have h : (512#64) = 0#64 + BitVec.ofNat 64 k := ha'
      simpa using h.symm
    rw [hk'] at hp'
    exact absurd hp' (by decide)

end Rvvk
