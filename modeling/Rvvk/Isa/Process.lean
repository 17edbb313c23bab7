import Rvvk.Exec.LoopInvariant
import Rvvk.Isa.Runs

/-!
# The process that the emulator runs

A hart with a kernel under it: instructions of the hart, and system calls that the
kernel answers behind an `ecall`. The memory of the process is that of the guest without
the instruction buffer. A run of the loop that keeps clear of the emulator is a run of the
process, which retires the same instructions and makes the same calls.
-/

namespace Rvvk.Isa

/-- An `ecall` is a word of four bytes. -/
theorem Core.ecall_fetched {c : Core} (ho : c.Outcome (.error .ecall)) : c.Fetches .ecall 4 := by
  generalize he : (Except.error .ecall : Except Trap Core) = o at ho
  cases ho with
  | @fetched i len hf =>
      obtain rfl := eq_ecall he.symm
      generalize hi : Instr.ecall = i at hf
      cases hf with
      | word i h => exact hi ▸ .word _ (hi ▸ h)
      | half w f h hf hr => cases f <;> cases hi
  | undefined _ | unfetchable _ => cases he

/-! ## The process -/

/-- A hart with a kernel under it. The memory is the one of the hart. -/
structure Process where
  core : Core
  mmapNextStart : Word
  calls : Nat
  brk : Brk

/-- What a process is seen to do: it retires the instruction at a pc, or it makes a
call with a number and six arguments, which is answered. -/
inductive Event
  | retire (pc : Word)
  | call (nr : BitVec 32) (args : List Word) (ret : Word)

namespace Process

def kernel (p : Process) : Kernel := ⟨⟨p.core.mem, p.mmapNextStart, p.calls⟩, p.brk⟩

def nr (p : Process) : BitVec 32 := (p.core.x Reg.a7).setWidth 32

def arg (p : Process) (i : Reg) : Word := p.core.x (Reg.a0 + i)

def args (p : Process) : List Word := [p.arg 0, p.arg 1, p.arg 2, p.arg 3, p.arg 4, p.arg 5]

/-- The process goes on behind its `ecall`, with the answer in `a0`. -/
def resume (p : Process) (k : Kernel) (ret : Word) : Process :=
  ⟨({ p.core with mem := k.space.mem }.set Reg.a0 ret).advance 4, k.space.mmapNextStart,
    k.space.calls, k.brk⟩

/-- The process that a guest is about to be, with no exception pending. -/
def ofGuest (g : Guest) (h0 : g.env.gpr 0 = 0) : Process :=
  ⟨.ofMachine g.cleared.machine h0, g.space.mmapNextStart, g.space.calls, g.kernel.brk⟩

section

variable (h : Host) (y : HostCalls) (c : Setup)

/-- What the kernel makes of the call in the registers of the process. -/
def Answered (p : Process) (k : Kernel) (ret : Word) : Prop :=
  Answers h y c p.kernel p.nr (p.arg 0) (p.arg 1) (p.arg 2) (p.arg 3) (p.arg 4) (p.arg 5) k ret

inductive Step : Process → Event → Process → Prop
  | retire {p : Process} {i : Instr} {core : Core} (hs : p.core.Step i core) :
      Step p (.retire p.core.pc) { p with core := core }
  | call {p : Process} {k : Kernel} {ret : Word} (hf : p.core.Fetches .ecall 4)
      (ha : p.Answered h y c k ret) : Step p (.call p.nr p.args ret) (p.resume k ret)

inductive Dies : Process → Stop → Prop
  | illegal {p : Process} (ho : p.core.Outcome (.error .illegal)) : Dies p (.exit 1)
  | call {p : Process} {e : Stop} (hf : p.core.Fetches .ecall 4)
      (he : Ends y p.kernel p.nr (p.arg 0) (p.arg 1) e) : Dies p e
  | access {p : Process} (ho : p.core.Outcome (.error .access)) : Dies p (.fault .sigsegv)

end

/-- The window at the pc can be read, but not every one that a translation reads from there. -/
def Ahead (p : Process) : Prop :=
  p.core.Window ∧ translate p.core.mem p.core.pc = .error .sigsegv

end Process

/-! ## The loop shows a process -/

/-- What a step of the loop is seen to do. -/
def events (h : Host) (y : HostCalls) (c : Setup) (s : Loop Vm.executor) : List Event :=
  if Vm.executor.returned s.cpu then
    match s.machine.exception, s.guest.ecall h y c with
    | .uEcall, .ok g =>
        [.call s.guest.nr [s.guest.arg 0, s.guest.arg 1, s.guest.arg 2, s.guest.arg 3,
          s.guest.arg 4, s.guest.arg 5] (g.env.gpr Reg.a0)]
    | _, _ => []
  else
    match Vm.insn? s.cpu with
    | some insn => if insn.raises then [] else [.retire (Vm.flat s.cpu).pc]
    | none => []

/-- The loop is at the process, or at an instruction of it that traps. -/
structure Process.Shown (p : Process) (s : Loop Vm.executor) : Prop where
  next : p.mmapNextStart = s.mmapNextStart
  calls : p.calls = s.calls
  brk : p.brk = s.brk
  core : p.core.Shows .none (Vm.flat s.cpu) ∨ Trapped p.core s.cpu

section

variable {h : Host} {y : HostCalls} {c : Setup} {p : Process} {s s' : Loop Vm.executor}

theorem events_exec (hr : Vm.executor.returned s.cpu = false) : events h y c s =
    match Vm.insn? s.cpu with
    | some insn => if insn.raises then [] else [.retire (Vm.flat s.cpu).pc]
    | none => [] := by
  unfold events
  rw [hr, if_neg Bool.false_ne_true]

theorem events_call (hr : Vm.executor.returned s.cpu = true) (hx : s.machine.exception = .uEcall)
    {g : Guest} (hg : s.guest.ecall h y c = .ok g) : events h y c s =
      [.call s.guest.nr [s.guest.arg 0, s.guest.arg 1, s.guest.arg 2, s.guest.arg 3,
        s.guest.arg 4, s.guest.arg 5] (g.env.gpr Reg.a0)] := by
  unfold events
  rw [hr, if_pos rfl, hx, hg]

theorem returned_iff {cpu : Vm} : Vm.executor.returned cpu = true ↔ cpu.ctl = .returned :=
  decide_eq_true_iff

theorem raises_iff {cpu cpu' : Vm} (hs : cpu.step = .ok cpu') {insn : Insn}
    (hx : cpu.insn? = some insn) :
    cpu'.m.exception = .none ↔ cpu.m.exception = .none ∧ insn.raises = false := by
  cases Vm.step_move hs with
  | returned hc _ | call hc _ => simp [Vm.insn?, hc] at hx
  | chain hc hb hi _ _ | reenter hc hb hi _ _ => simp [Vm.insn?, hc, hb, hi] at hx
  | exec hc hb hi hr h =>
      simp only [Vm.insn?, hc, hb, Option.bind_some, hi, Option.some.injEq] at hx
      subst hx
      rw [h]
      exact Insn.exception_eq_none (Insn.exec_eq_ok hr).1

theorem flat_of_returned {cpu : Vm} (hc : cpu.ctl = .returned) : cpu.flat = cpu.m := by
  simp only [Vm.flat, hc, Machine.setPc_pc]

namespace Process

/-- A step of `cpu_exec` is silent, or retires one instruction. -/
theorem shown_exec (hcov : p.core.Covered) (hi : Vm.Inv s.cpu) (hcur : Vm.Current s.cpu)
    (hp : p.Shown s) (hr : Vm.executor.returned s.cpu = false) {cpu : Vm}
    (hs : Vm.step s.cpu = .ok cpu) (hg : Whole s.cpu cpu) :
    (events h y c s = [] ∧ p.Shown { s with cpu := cpu }) ∨
      ∃ e p', events h y c s = [e] ∧ p.Step h y c e p' ∧ p'.Shown { s with cpu := cpu } := by
  have hsilent (hx : (Vm.insn? s.cpu).toList = []) : events h y c s = [] := by
    rw [events_exec hr, Option.toList_eq_nil_iff.mp hx]
  rcases hp.core with hsh | htr
  · rcases step_refines hcov hi hcur hsh hs hg with ⟨hx, hsh'⟩ | ⟨insn, hx, hdone⟩
    · exact .inl ⟨hsilent hx, hp.next, hp.calls, hp.brk, .inl hsh'⟩
    · have hin : Vm.insn? s.cpu = some insn := Option.toList_eq_singleton_iff.mp hx
      have hq := raises_iff hs hin
      have he : (Vm.m s.cpu).exception = .none := hsh.exception
      rcases hdone with ⟨i, core, hstep, hsh'⟩ | htr'
      · have he' : cpu.m.exception = .none := hsh'.exception
        refine .inr ⟨_, _, ?_, .retire hstep, hp.next, hp.calls, hp.brk, .inl hsh'⟩
        rw [events_exec hr, hin, ← hsh.pc]
        simp only [(hq.mp he').2, Bool.false_eq_true, if_false]
      · refine .inl ⟨?_, hp.next, hp.calls, hp.brk, .inr htr'⟩
        rw [events_exec hr, hin]
        cases hra : insn.raises with
        | true => simp only [hra, if_true]
        | false => exact (htr'.pending (hq.mpr ⟨he, hra⟩)).elim
  · obtain ⟨hx, htr'⟩ := step_trapped hi hcur htr hs hg
    exact .inl ⟨hsilent hx, hp.next, hp.calls, hp.brk, .inr htr'⟩

/-- When `cpu_exec` has returned, the process is at an instruction that traps. -/
theorem shown_returned (hpe : Vm.Pending s.cpu) (hp : p.Shown s)
    (hc : Vm.ctl s.cpu = .returned) :
    ∃ t, p.core.Outcome (.error t) ∧ p.core.Agrees (.error t) (.ok s.machine) := by
  have hflat : Vm.flat s.cpu = s.machine := flat_of_returned hc
  rcases hp.core with hsh | htr
  · rw [hflat] at hsh
    exact (hpe hc hsh.exception).elim
  · rw [← hflat]
    exact htr.2

theorem shown_ecall (hpe : Vm.Pending s.cpu) (hp : p.Shown s) (hc : Vm.ctl s.cpu = .returned)
    (hx : s.machine.exception = .uEcall) :
    p.core.Fetches .ecall 4 ∧ p.core.Shows .uEcall s.machine := by
  obtain ⟨t, ho, ha⟩ := shown_returned hpe hp hc
  cases t with
  | ecall => exact ⟨Core.ecall_fetched ho, ha⟩
  | illegal => exact nomatch hx.symm.trans ha.exception
  | breakpoint | misaligned | access => exact ha.elim

theorem shown_kernel {e : Excp} (hp : p.Shown s) (hsh : p.core.Shows e s.machine) :
    p.kernel = s.kernel := by
  unfold kernel Loop.kernel
  rw [hp.next, hp.calls, hp.brk, hsh.mem]

theorem shown_arg {e : Excp} (hsh : p.core.Shows e s.machine) (i : Reg) :
    p.arg i = s.guest.arg i :=
  (hsh.gpr_apply (Reg.a0 + i)).symm

theorem shown_nr {e : Excp} (hsh : p.core.Shows e s.machine) : p.nr = s.guest.nr := by
  unfold nr
  rw [← hsh.gpr_apply]
  rfl

/-- The hart behind its `ecall` is the guest that is resumed. -/
theorem shows_resumed {g : Guest} {ret : Word} (hsh : p.core.Shows .uEcall s.machine)
    (hres : s.guest.Resumed g ret) (k : Kernel) (hk : g.kernel = k) :
    (p.resume k ret).core.Shows .none g.machine := by
  refine ⟨funext fun r => ?_, ?_, ?_, fun n => ?_, ?_⟩
  · show g.env.gpr r = if r = Reg.a0 ∧ Reg.a0 ≠ 0 then ret else p.core.x r
    by_cases hr : r = Reg.a0
    · rw [hr, if_pos ⟨rfl, by decide⟩, hres.a0]
    · rw [if_neg fun hn => hr hn.1, hres.gpr r hr]
      exact hsh.gpr_apply r
  · show g.env.pc = p.core.pc + 4
    rw [hres.pc, ← hsh.pc]
    rfl
  · show g.kernel.space.mem = k.space.mem
    rw [hk]
  · show readCsr g.env _ = p.core.csr n
    rw [hres.rest, ← hsh.csr n]
    rfl
  · show g.env.exception = .none
    rw [hres.rest]

/-- A system call of the loop is a call of the process. -/
theorem shown_call (hpe : Vm.Pending s.cpu) (hp : p.Shown s)
    (hr : Vm.executor.returned s.cpu = true) (hx : s.machine.exception = .uEcall) {g : Guest}
    (hg : s.guest.ecall h y c = .ok g) :
    ∃ e p', events h y c s = [e] ∧ p.Step h y c e p' ∧ p'.Shown (Loop.enter s.cpu g) := by
  obtain ⟨hf, hsh⟩ := shown_ecall hpe hp (returned_iff.mp hr) hx
  obtain ⟨ret, hans, hres⟩ := Guest.ecall_answered hg
  have hans' : p.Answered h y c g.kernel ret := by
    unfold Answered
    rw [shown_kernel hp hsh, shown_nr hsh]
    simp only [shown_arg hsh]
    exact hans
  refine ⟨_, _, ?_, .call hf hans', rfl, rfl, rfl, .inl ?_⟩
  · rw [events_call hr hx hg, hres.a0, args, shown_nr hsh]
    simp only [shown_arg hsh]
  · have hflat : Vm.flat (Loop.enter (E := Vm.executor) s.cpu g).cpu = g.machine := by
      simp only [Loop.enter, Vm.executor, Vm.flat, Machine.setPc_pc]
    rw [hflat]
    exact shows_resumed hsh hres g.kernel rfl

end Process

end

/-! ## How the loop ends -/

theorem machine_step {m : Machine} {pc : Word} {opcode : BitVec 32}
    (ho : cpuLduw m.mem pc 0 = .ok opcode) (hu : (insnAt pc opcode).unknownCsr = false) :
    (∀ m', (insnAt pc opcode).run m = .ok m' →
      ∃ m'', (m.setPc pc).step = .ok m'' ∧ m''.gpr = m'.gpr) ∧
    ∀ f, (insnAt pc opcode).run m = .error f → (m.setPc pc).step = .error f := by
  cases ht : (insnAt pc opcode).op.transfers with
  | true =>
      refine ⟨fun m' hr => ⟨m', Machine.step_leaves ho ht hr, rfl⟩, fun f hr => ?_⟩
      obtain ⟨m', hm⟩ := (Op.leaves ht).total m
      cases hm.symm.trans hr
  | false =>
      refine ⟨fun m' hr => ⟨_, Machine.step_straight ho ht hu hr, rfl⟩, fun f hr => ?_⟩
      have hs := (Insn.straight ht hu).setPc m pc
      rw [hr] at hs
      unfold Machine.step
      rw [Machine.mem_setPc, Machine.pc_setPc, ho]
      simp only [bind, Except.bind, hs, Except.map]

section

variable {s : Vm} {core : Core}

theorem flat_of_translates (hi : s.Inv) {pc : Word} (ht : s.translates? = some pc) :
    s.flat = s.m ∧ s.m.pc = pc := by
  unfold Vm.translates? at ht
  split at ht
  · rename_i h
    refine ⟨?_, Option.some.inj ht⟩
    have hen := h.1
    unfold Vm.enters at hen
    cases hc : s.ctl with
    | start => simp only [Vm.flat, hc, Machine.setPc_pc]
    | returned => simp only [Vm.flat, hc, Machine.setPc_pc]
    | body p i =>
        obtain ⟨b, hb, _⟩ := hi.body p i hc
        simp only [hc, hb, Bool.and_eq_true, Option.isNone_iff_eq_none] at hen
        have hle := List.getElem?_eq_none_iff.mp hen.1
        rw [Vm.flat_body hc hb, if_neg (by omega), Machine.setPc_pc]
  · cases ht

/-- A handler of an instruction that the emulator gets right fails only where memory
is missing, and leaves `x0` alone. -/
theorem handler_covered (hcov : core.Covered) (hi : s.Inv) (hcur : s.Current)
    (hsh : core.Shows .none s.flat) {insn : Insn} (hx : s.insn? = some insn) :
    (∀ m, insn.run s.m = .ok m → m.gpr 0 = 0) ∧
      ∀ f, insn.run s.m = .error f → f = .sigsegv ∧ core.Outcome (.error .access) := by
  obtain ⟨opcode, ho, rfl⟩ := flat_fetch hi hcur hx
  obtain ⟨o, hout⟩ := core.exists_outcome
  have ha := Core.agrees_of_covered hsh hcov hout
  have hu := Core.known_of_agrees hsh ho ha
  have hstep := machine_step (m := s.m) ho hu
  have hflat : s.m.setPc s.flat.pc = s.flat := rfl
  rw [hflat] at hstep
  refine ⟨fun m hr => ?_, fun f hr => ?_⟩
  · obtain ⟨m'', hs, hgpr⟩ := hstep.1 m hr
    rw [hs] at ha
    rw [← hgpr]
    cases o with
    | ok core' => exact (ha.gpr_apply 0).trans core'.zero
    | error t =>
        cases t with
        | illegal | ecall => exact (ha.gpr_apply 0).trans core.zero
        | breakpoint | misaligned | access => exact ha.elim
  · rw [hstep.2 f hr] at ha
    cases o with
    | ok core' => exact ha.elim
    | error t =>
        cases t with
        | access => exact ⟨ha, hout⟩
        | breakpoint | misaligned | illegal | ecall => exact ha.elim

/-- With an exception pending and no handler to run, no step fails. -/
theorem step_of_pending (hi : s.Inv) (h0 : s.m.gpr 0 = 0) (hx : s.insn? = none)
    (he : s.m.exception ≠ .none) (f : Fault) : s.step ≠ .error f := by
  intro hs
  cases (Vm.step_eq_error hi h0).mp hs with
  | fetch ht _ =>
      unfold Vm.translates? at ht
      split at ht
      · rename_i hen
        exact he hen.2.1
      · cases ht
  | handler hx' _ => cases hx.symm.trans hx'
  | dirty hx' _ _ => cases hx.symm.trans hx'

end

section

variable {h : Host} {y : HostCalls} {c : Setup} {p : Process} {s s' : Loop Vm.executor}

namespace Process

theorem shown_zero (hp : p.Shown s) : s.machine.gpr 0 = 0 := by
  have hflat : s.machine.gpr 0 = (Vm.flat s.cpu).gpr 0 := rfl
  rcases hp.core with hsh | ⟨_, t, _, ha⟩
  · exact hflat.trans ((hsh.gpr_apply 0).trans p.core.zero)
  · cases t with
    | illegal | ecall => exact hflat.trans ((ha.gpr_apply 0).trans p.core.zero)
    | breakpoint | misaligned | access => exact ha.elim

/-- While the hart is shown, `cpu_exec` fails with it or on a window ahead of it. -/
theorem shown_fault (hcov : p.core.Covered) (hi : Vm.Inv s.cpu) (hcur : Vm.Current s.cpu)
    (hp : p.Shown s) (hsh : p.core.Shows .none (Vm.flat s.cpu)) {f : Fault}
    (hs : Vm.step s.cpu = .error f) : p.Dies y (.fault f) ∨ f = .sigsegv ∧ p.Ahead := by
  cases (Vm.step_eq_error hi (shown_zero hp)).mp hs with
  | @fetch pc ht he =>
      obtain ⟨hflat, hpc⟩ := flat_of_translates hi ht
      by_cases hw : p.core.Window
      · refine .inr ⟨rfl, hw, ?_⟩
        rw [← hsh.mem, ← hsh.pc, hflat, hpc]
        exact he
      · obtain ⟨o, ho⟩ := p.core.exists_outcome
        have ha := Core.agrees_of_covered hsh hcov ho
        rw [hsh.step_error hw, Core.agrees_error] at ha
        exact .inl (.access (ha ▸ ho))
  | handler hx hr =>
      obtain ⟨rfl, hout⟩ := (handler_covered hcov hi hcur hsh hx).2 _ hr
      exact .inl (.access hout)
  | @dirty insn m hx hr hd =>
      obtain ⟨q, i, b, _, _, _, mem, opcode, _, rfl⟩ := hi.insn? hx
      have hz := (handler_covered hcov hi hcur hsh hx).1 m hr
      exact ((Insn.gpr_zero (shown_zero hp) insnAt_x0 hr).mp hz hd).elim

/-- Where the loop ends, the process ends in the same way, or a window ahead is missing. -/
theorem shown_dies (hcov : p.core.Covered) (hi : Vm.Inv s.cpu) (hcur : Vm.Current s.cpu)
    (hpe : Vm.Pending s.cpu) (hp : p.Shown s) {e : Stop} (hs : s.step h y c = .error e) :
    p.Dies y e ∨ e = .fault .sigsegv ∧ p.Ahead := by
  cases (Loop.step_eq_error fun hr => hpe (returned_iff.mp hr)).mp hs with
  | illegal hr hx =>
      obtain ⟨t, ho, ha⟩ := shown_returned hpe hp (returned_iff.mp hr)
      cases t with
      | illegal => exact .inl (.illegal ho)
      | ecall => cases hx.symm.trans ha.exception
      | breakpoint | misaligned | access => exact ha.elim
  | call hr hx he =>
      obtain ⟨hf, hsh⟩ := shown_ecall hpe hp (returned_iff.mp hr) hx
      refine .inl (.call hf ?_)
      rw [shown_kernel hp hsh, shown_nr hsh, shown_arg hsh, shown_arg hsh]
      exact he
  | @fault hr f hf =>
      rcases hp.core with hsh | htr
      · rcases shown_fault hcov hi hcur hp hsh hf with hd | ⟨rfl, ha⟩
        · exact .inl hd
        · exact .inr ⟨rfl, ha⟩
      · exact (step_of_pending hi (shown_zero hp) htr.1 htr.pending f hf).elim

end Process

/-- Translated code is not written to, and no block that runs is cut. -/
def WholeLoop (s s' : Loop Vm.executor) : Prop := Whole s.cpu s'.cpu

instance (s s' : Loop Vm.executor) : Decidable (WholeLoop s s') :=
  inferInstanceAs (Decidable (Whole s.cpu s'.cpu))

/-- What the simulation needs of the loop. -/
structure Ready (s : Loop Vm.executor) : Prop where
  vm : Vm.Inv s.cpu
  current : Vm.Current s.cpu
  pending : Vm.Pending s.cpu

theorem Ready.step (hi : Ready s) (hs : s.step h y c = .ok s') (hg : WholeLoop s s') :
    Ready s' := by
  cases Loop.step_move hs with
  | exec _ hc he =>
      subst he
      exact ⟨hi.vm.step hc, hi.current.step hi.vm hc hg.keeps, Vm.step_pending hi.pending hc⟩
  | call _ _ _ he =>
      subst he
      exact ⟨hi.vm.call _, hi.current.of_keepsCode hg.keeps rfl, nofun⟩

theorem Process.shown_step (hcov : p.core.Covered) (hi : Ready s) (hp : p.Shown s)
    (hs : s.step h y c = .ok s') (hg : WholeLoop s s') :
    (events h y c s = [] ∧ p.Shown s') ∨
      ∃ e p', events h y c s = [e] ∧ p.Step h y c e p' ∧ p'.Shown s' := by
  cases Loop.step_move hs with
  | exec hr hc he =>
      subst he
      exact shown_exec hcov hi.vm hi.current hp hr hc hg
  | call hr hx hg' he =>
      subst he
      exact .inr (shown_call hi.pending hp hr hx hg')

theorem shown_start {g : Guest} (h0 : g.env.gpr 0 = 0) (hco : Coherent g.env) :
    (Process.ofGuest g h0).Shown (.startVm g) :=
  ⟨rfl, rfl, rfl, .inl (Core.shows_ofMachine (m := g.cleared.machine) h0
    ⟨hco.1, hco.2, hco.3, hco.4, hco.5, hco.6⟩ rfl)⟩

theorem Ready.start (g : Guest) : Ready (.startVm g) := ⟨.start _, nofun, nofun⟩

/-- A run of the loop over its table is a run of the process. -/
theorem vm_process {g : Guest} {n : Nat} (h0 : g.env.gpr 0 = 0) (hco : Coherent g.env)
    (hcov : ∀ es p, Feed.Reaches (Process.Step h y c) (.ofGuest g h0) es p → p.core.Covered)
    (hg : Run.Along (Loop.step h y c) WholeLoop n (.startVm g))
    (hr : (Loop.startVm g).run h y c n = .ok s) :
    ∃ p, Feed.Reaches (Process.Step h y c) (.ofGuest g h0)
        (Run.log (Loop.step h y c) (events h y c) n (.startVm g)) p ∧ p.Shown s ∧ Ready s := by
  have hinv : ∀ s s' : Loop Vm.executor, Ready s → s.step h y c = .ok s' → WholeLoop s s' →
      Ready s' := fun _ _ hi hs hg => hi.step hs hg
  obtain ⟨p, hreach, hp⟩ := Run.traces (R := fun p s => Process.Shown p s)
    (fun _ _ _ hcov hi hp hs hg => Process.shown_step hcov hi hp hs hg) hinv hcov (.start g)
    (shown_start h0 hco) hg hr
  exact ⟨p, hreach, hp, Run.invariant hinv (.start g) hg hr⟩

end

section

variable {x : Binary} {h : Host} {y : HostCalls} {c : Setup} {s s' : Loop x.executor} {g : Guest}

/-- In an undisturbed run the loop puts out what the one over its table does. -/
theorem log_hide {n : Nat} (hy : y.Blind (InBuffer c)) (hs : x.Sound c s.cpu)
    (ha : Run.Throughout (Loop.step h y c) (Loop.Apart c) n s) :
    Run.log (Loop.step h y c) (events h y c) n (s.hide c) =
      Run.log (Loop.step h y c) (fun s => events h y c (s.hide c)) n s := by
  have hstep : ∀ s : Loop x.executor, x.Sound c s.cpu → s.Apart c →
      (s.step h y c).map (Loop.hide c) = (s.hide c).step h y c :=
    fun _ hs ha => Loop.step_hide hy hs ha
  exact Run.log_map hstep (fun _ _ hs ha h => Loop.step_sound hs ha.keepsOff h)
    (fun _ _ _ => rfl) hs ha

theorem along_hide {good : Loop Vm.executor → Loop Vm.executor → Prop} {n : Nat}
    (hy : y.Blind (InBuffer c)) (hs : x.Sound c s.cpu)
    (ha : Run.Throughout (Loop.step h y c) (Loop.Apart c) n s)
    (hg : Run.Along (Loop.step h y c) (fun s s' => good (s.hide c) (s'.hide c)) n s) :
    Run.Along (Loop.step h y c) good n (s.hide c) := by
  have hstep : ∀ s : Loop x.executor, x.Sound c s.cpu → s.Apart c →
      (s.step h y c).map (Loop.hide c) = (s.hide c).step h y c :=
    fun _ hs ha => Loop.step_hide hy hs ha
  exact Run.Along.map hstep (fun _ _ hs ha h => Loop.step_sound hs ha.keepsOff h) hs ha hg

theorem run_hidden {n : Nat} (hy : y.Blind (InBuffer c)) (hb : FreshBuffer c g.space.mem)
    (ha : Run.Throughout (Loop.step h y c) (Loop.Apart c) n (.start x g))
    (hr : (Loop.start x g).run h y c n = .ok s) :
    (Loop.startVm (g.without (InBuffer c))).run h y c n = .ok (s.hide c) := by
  rw [← Loop.hide_start (x := x), ← Loop.run_hide hy (.start hb) ha, hr]
  rfl

/-- A run of the loop that keeps clear of the emulator, system calls included, is a run of
the process: it retires the instructions at the same pcs and makes the same calls with the
same answers. Where it ends the process ends in the same way, unless a window ahead of the pc
cannot be read. -/
theorem process_refines {x : Binary} {h : Host} {y : HostCalls} {c : Setup} {g : Guest}
    {s : Loop x.executor} {n : Nat} (hy : y.Blind (InBuffer c)) (hb : FreshBuffer c g.space.mem)
    (h0 : (g.without (InBuffer c)).env.gpr 0 = 0) (hco : Coherent g.env)
    (hcov : ∀ es p, Feed.Reaches (Process.Step h y c) (.ofGuest (g.without (InBuffer c)) h0) es p →
      p.core.Covered)
    (ha : Run.Throughout (Loop.step h y c) (Loop.Apart c) n (.start x g))
    (hg : Run.Along (Loop.step h y c) (fun s s' => WholeLoop (s.hide c) (s'.hide c)) n (.start x g))
    (hr : (Loop.start x g).run h y c n = .ok s) :
    ∃ p, Feed.Reaches (Process.Step h y c) (.ofGuest (g.without (InBuffer c)) h0)
        (Run.log (Loop.step h y c) (fun s => events h y c (s.hide c)) n (.start x g)) p ∧
      p.Shown (s.hide c) ∧
      (s.Apart c → ∀ e, s.step h y c = .error e → p.Dies y e ∨ e = .fault .sigsegv ∧ p.Ahead) := by
  have hs : x.Sound c (Loop.start x g).cpu := .start hb
  have hgood := along_hide hy hs ha hg
  have hco' : Coherent (g.without (InBuffer c)).env := by rwa [Guest.env_without]
  rw [Loop.hide_start] at hgood
  obtain ⟨p, hreach, hp, hi⟩ := vm_process h0 hco' hcov hgood (run_hidden hy hb ha hr)
  rw [← Loop.hide_start (x := x), log_hide hy hs ha] at hreach
  refine ⟨p, hreach, hp, fun hap e he => ?_⟩
  have hsound := Loop.run_sound hs (ha.mono fun _ h => h.keepsOff) hr
  have hend : (s.hide c).step h y c = .error e := by
    rw [← Loop.step_hide hy hsound hap, he]
    rfl
  exact Process.shown_dies (hcov _ p hreach) hi.vm hi.current hi.pending hp hend

end

/-! ## A process as a function -/

namespace Process

variable (h : Host) (y : HostCalls) (c : Setup)

/-- A step of the process as a function, which says nothing of how it ends. -/
def next (p : Process) : Except Stop Process :=
  match p.core.next with
  | .ok core => .ok { p with core := core }
  | .error .ecall =>
      match doSyscall h y c p.kernel p.nr (p.arg 0) (p.arg 1) (p.arg 2) (p.arg 3) (p.arg 4)
        (p.arg 5) with
      | .ok (k, ret) => .ok (p.resume k ret)
      | .error e => .error e
  | .error _ => .error (.exit 1)

variable {h y c} {p p' : Process} {e : Event}

theorem next_of_step (hs : p.Step h y c e p') : p.next h y c = .ok p' := by
  unfold next
  cases hs with
  | retire hs => rw [Core.next_of_step hs]
  | @call k ret hf ha =>
      have hnext : p.core.next = .error .ecall := by
        unfold Core.next
        rw [Core.fetch_eq_some.mpr hf]
        rfl
      rw [hnext]
      simp only [doSyscall_eq_ok.mpr ha]

/-- Where the instructions are exact whatever the operands up to the end, all is covered. -/
theorem covered_of_run {p₀ : Process} {n : Nat} {t : Stop} {es : List Event}
    (he : Run.Throughout (next h y c) (fun p => p.core.Easy) n p₀)
    (hr : Run.run (next h y c) n p₀ = .error t) (hp : Feed.Reaches (Step h y c) p₀ es p) :
    p.core.Covered :=
  Core.covered_of_easy ((he.of_run_error hr (es.length + 1)).at (Nat.lt_succ_self _)
    (Run.run_of_reaches (fun _ _ _ h => next_of_step h) hp))

end Process

namespace Caller

/-- The process of the guest that counts, asks for its break and exits. -/
def process : Process := .ofGuest (Rvvk.Caller.guest.without (InBuffer .default)) rfl

theorem easy : Run.Throughout (Process.next Layout.host47 Guest.noDescriptors .default)
    (fun p => p.core.Easy) 16 process := by
  decide +kernel

theorem exits : Run.failure (Run.run (Process.next Layout.host47 Guest.noDescriptors .default) 16
    process) = some (.exit 0) := by
  decide +kernel

theorem keeps : Run.Along (Loop.step Layout.host47 Guest.noDescriptors .default) WholeLoop 22
    ((Loop.start Binary.static Rvvk.Caller.guest).hide .default) := by
  decide +kernel

theorem covered {es : List Event} {p : Process}
    (hp : Feed.Reaches (Process.Step Layout.host47 Guest.noDescriptors .default) process es p) :
    p.core.Covered :=
  Process.covered_of_run easy (Run.failure_eq_some.mp exits) hp

theorem whole : Run.Along (Loop.step Layout.host47 Guest.noDescriptors .default)
    (fun s s' => WholeLoop (s.hide .default) (s'.hide .default)) 22
    (.start Binary.static Rvvk.Caller.guest) := by
  have hstep : ∀ s : Loop Binary.static.executor, Binary.static.Sound .default s.cpu →
      s.Apart .default → (s.step Layout.host47 Guest.noDescriptors .default).map
        (Loop.hide .default) = (s.hide .default).step Layout.host47 Guest.noDescriptors .default :=
    fun _ hs ha => Loop.step_hide (Rvvk.Caller.blind _) hs ha
  exact Run.Along.of_map hstep (fun _ _ hs ha h _ => Loop.step_sound hs ha.keepsOff h)
    Rvvk.Caller.sound (Rvvk.Caller.apart.take (m := 22) (by decide)) keeps

end Caller

/-- The guest that counts, asks for its break and exits, when it is about to exit. -/
theorem caller_refines : ∃ s, (Loop.start Binary.static Rvvk.Caller.guest).run Layout.host47
      Guest.noDescriptors .default 22 = .ok s ∧ s.guest.nr = TargetNr.exit ∧
    ∃ p, Feed.Reaches (Process.Step Layout.host47 Guest.noDescriptors .default) Caller.process
        (Run.log (Loop.step Layout.host47 Guest.noDescriptors .default)
          (fun s => events Layout.host47 Guest.noDescriptors .default (s.hide .default)) 22
          (.start Binary.static Rvvk.Caller.guest)) p ∧
      p.Shown (s.hide .default) ∧
      ∀ e, s.step Layout.host47 Guest.noDescriptors .default = .error e →
        p.Dies Guest.noDescriptors e ∨ e = .fault .sigsegv ∧ p.Ahead := by
  obtain ⟨s, hr, hnr⟩ := Rvvk.Caller.exits
  obtain ⟨p, hreach, hp, hd⟩ := process_refines (Rvvk.Caller.blind _) Rvvk.Caller.fresh rfl
    (Cleared.coherent ⟨rfl, rfl, rfl, rfl, rfl, rfl⟩) (fun _ _ h => Caller.covered h)
    (Rvvk.Caller.apart.take (m := 22) (by decide)) Caller.whole hr
  exact ⟨s, hr, hnr, p, hreach, hp, hd (Rvvk.Caller.apart.at (by decide) hr)⟩

end Rvvk.Isa
