import Rvvk.Exec.Calls
import Rvvk.Exec.Plain
import Rvvk.Exec.Zero
import Rvvk.Translate.Shape

/-!
# The loop of the emulator

`cpu_loop` calls `cpu_exec` over and over and answers the exception that it returns.
The loop is written for any executor: what holds between two executors holds
between their loops, system calls included.
-/

namespace Rvvk

/-- What `cpu_loop` asks of `cpu_exec`, in steps. -/
structure Executor where
  State : Type
  machine : State → Machine
  /-- `cpu_exec` has returned. -/
  returned : State → Bool
  step : Setup → State → Except Fault State
  /-- `cpu_exec` is called with another machine. -/
  call : State → Machine → State

/-- The executor of the emulator. Its table is static and outlives a call. -/
@[reducible] def Binary.executor (x : Binary) : Executor where
  State := Vm
  machine := Vm.m
  returned s := s.ctl = .returned
  step := x.step
  call s m := ⟨m, s.cache, .start⟩

/-- The same with the instructions apart from memory. -/
@[reducible] def Vm.executor : Executor where
  State := Vm
  machine := Vm.m
  returned s := s.ctl = .returned
  step _ := Vm.step
  call s m := ⟨m, s.cache, .start⟩

@[reducible] def Plain.executor : Executor where
  State := Plain
  machine := Plain.m
  returned s := s.ctl = .stopped
  step _ := Plain.step
  call _ m := ⟨m, .start⟩

/-- What `cpu_loop` works on. -/
structure Loop (E : Executor) where
  cpu : E.State
  mmapNextStart : Word
  calls : Nat
  brk : Brk

namespace Loop

variable {E : Executor} (h : Host) (y : HostCalls) (c : Setup)

def machine (s : Loop E) : Machine := E.machine s.cpu

def kernel (s : Loop E) : Kernel := ⟨⟨s.machine.mem, s.mmapNextStart, s.calls⟩, s.brk⟩

def guest (s : Loop E) : Guest := ⟨s.machine.env, s.kernel⟩

/-- `cpu_exec` is called for a guest. -/
def enter (cpu : E.State) (g : Guest) : Loop E :=
  ⟨E.call cpu g.machine, g.space.mmapNextStart, g.space.calls, g.kernel.brk⟩

/-- A step of `cpu_exec`, or the `switch` on what it has returned. -/
def step (s : Loop E) : Except Stop (Loop E) :=
  if E.returned s.cpu then
    match s.machine.exception with
    | .uEcall => do
        let g ← s.guest.ecall h y c
        .ok (enter s.cpu g)
    | .illegalInst => .error (.exit 1)
    | .none => .error (.fault .sigabrt)
  else
    match E.step c s.cpu with
    | .ok cpu => .ok { s with cpu := cpu }
    | .error f => .error (.fault f)

def run : Nat → Loop E → Except Stop (Loop E) := Run.run (step h y c)

end Loop

/-- The guest as `cpu_loop` takes it over, with no exception pending. -/
def Guest.cleared (g : Guest) : Guest := { g with env := { g.env with exception := .none } }

/-- `cpu_loop` before its first call of `cpu_exec`. -/
def Loop.start (x : Binary) (g : Guest) : Loop x.executor :=
  ⟨.start g.cleared.machine, g.space.mmapNextStart, g.space.calls, g.kernel.brk⟩

/-! ## One step -/

namespace Loop

section

variable {E : Executor} {h : Host} {y : HostCalls} {c : Setup} {s s' : Loop E}

inductive Move (h : Host) (y : HostCalls) (c : Setup) (s s' : Loop E) : Prop
  | exec (hr : E.returned s.cpu = false) {cpu : E.State} (hs : E.step c s.cpu = .ok cpu)
      (he : s' = { s with cpu := cpu })
  | call (hr : E.returned s.cpu = true) (hx : s.machine.exception = .uEcall) {g : Guest}
      (hg : s.guest.ecall h y c = .ok g) (he : s' = enter s.cpu g)

theorem step_move (hs : s.step h y c = .ok s') : Move h y c s s' := by
  unfold step at hs
  cases hr : E.returned s.cpu with
  | true =>
      rw [hr, if_pos rfl] at hs
      cases hx : s.machine.exception with
      | uEcall =>
          rw [hx] at hs
          obtain ⟨g, hg, hs⟩ := bind_eq_ok hs
          cases hs
          exact .call hr hx hg rfl
      | illegalInst =>
          rw [hx] at hs
          cases hs
      | none =>
          rw [hx] at hs
          cases hs
  | false =>
      rw [hr, if_neg Bool.false_ne_true] at hs
      cases he : E.step c s.cpu with
      | ok cpu =>
          rw [he] at hs
          cases hs
          exact .exec hr he rfl
      | error f =>
          rw [he] at hs
          cases hs

inductive Stops (y : HostCalls) (c : Setup) (s : Loop E) : Stop → Prop
  | illegal (hr : E.returned s.cpu = true) (hx : s.machine.exception = .illegalInst) :
      Stops y c s (.exit 1)
  | call (hr : E.returned s.cpu = true) (hx : s.machine.exception = .uEcall) {e : Stop}
      (he : Ends y s.kernel s.guest.nr (s.guest.arg 0) (s.guest.arg 1) e) : Stops y c s e
  | fault (hr : E.returned s.cpu = false) {f : Fault} (hs : E.step c s.cpu = .error f) :
      Stops y c s (.fault f)

/-- An executor that returns with an exception is never asked for the impossible. -/
theorem step_eq_error (hp : E.returned s.cpu = true → s.machine.exception ≠ .none) {e : Stop} :
    s.step h y c = .error e ↔ Stops y c s e := by
  unfold step
  cases hr : E.returned s.cpu with
  | true =>
      rw [if_pos rfl]
      cases hx : s.machine.exception with
      | none => exact (hp hr hx).elim
      | illegalInst =>
          constructor
          · intro he
            cases he
            exact .illegal hr hx
          · intro he
            cases he with
            | illegal _ _ => rfl
            | call _ hx' _ => cases hx.symm.trans hx'
            | fault hr' _ => cases hr.symm.trans hr'
      | uEcall =>
          have hends : s.guest.ecall h y c = .error e ↔
              Ends y s.kernel s.guest.nr (s.guest.arg 0) (s.guest.arg 1) e := Guest.ecall_eq_error
          have hiff : Stops y c s e ↔ s.guest.ecall h y c = .error e := by
            rw [hends]
            constructor
            · intro he
              cases he with
              | illegal _ hx' => cases hx.symm.trans hx'
              | call _ _ he => exact he
              | fault hr' _ => cases hr.symm.trans hr'
            · exact .call hr hx
          rw [hiff]
          cases s.guest.ecall h y c with
          | ok g => exact ⟨nofun, nofun⟩
          | error e' => exact ⟨fun h => by cases h; rfl, fun h => by cases h; rfl⟩
  | false =>
      rw [if_neg Bool.false_ne_true]
      constructor
      · intro he
        cases hs : E.step c s.cpu with
        | ok cpu =>
            rw [hs] at he
            cases he
        | error f =>
            rw [hs] at he
            cases he
            exact .fault hr hs
      · intro he
        cases he with
        | illegal hr' _ => cases hr.symm.trans hr'
        | call hr' _ _ => cases hr.symm.trans hr'
        | fault _ hs => rw [hs]

end

end Loop

/-! ## Two executors -/

/-- The second executor does as the first one in a state. -/
structure Executor.Follows {E F : Executor} (c : Setup) (f : E.State → F.State)
    (cpu : E.State) : Prop where
  machine : F.machine (f cpu) = E.machine cpu
  returned : F.returned (f cpu) = E.returned cpu
  step : (E.step c cpu).map f = F.step c (f cpu)
  call : ∀ m, f (E.call cpu m) = F.call (f cpu) m

namespace Loop

section

variable {E F : Executor} {h : Host} {y : HostCalls} {c : Setup}

def map (f : E.State → F.State) (s : Loop E) : Loop F :=
  ⟨f s.cpu, s.mmapNextStart, s.calls, s.brk⟩

theorem step_map {f : E.State → F.State} {s : Loop E} (hf : Executor.Follows c f s.cpu) :
    (s.step h y c).map (map f) = (s.map f).step h y c := by
  have hm : (s.map f).machine = s.machine := hf.machine
  have hg : (s.map f).guest = s.guest := by
    unfold guest kernel
    rw [hm]
    rfl
  unfold step
  rw [hm, hg, show F.returned (s.map f).cpu = E.returned s.cpu from hf.returned]
  cases E.returned s.cpu with
  | true =>
      rw [if_pos rfl, if_pos rfl]
      cases s.machine.exception with
      | uEcall =>
          cases s.guest.ecall h y c with
          | ok g =>
              refine congrArg Except.ok ?_
              unfold map enter
              rw [hf.call]
          | error e => rfl
      | illegalInst => rfl
      | none => rfl
  | false =>
      rw [if_neg Bool.false_ne_true, if_neg Bool.false_ne_true]
      have hs := hf.step
      cases he : E.step c s.cpu with
      | ok cpu =>
          rw [he] at hs
          rw [show F.step c (s.map f).cpu = _ from hs.symm]
          rfl
      | error e =>
          rw [he] at hs
          rw [show F.step c (s.map f).cpu = _ from hs.symm]
          rfl

end

end Loop

/-! ## How `cpu_exec` fails -/

theorem translate_error {mem : Memory} {pc : Word} {e : Fault}
    (ht : translate mem pc = .error e) : e = .sigsegv := by
  cases hd : decode mem transMax (.start pc) with
  | error e' =>
      have he : e' = e := by
        unfold translate at ht
        rw [hd] at ht
        cases ht
        rfl
      obtain ⟨k, _, hf, _⟩ := decode_error rfl hd
      exact he ▸ Memory.value_loadBytes_error hf
  | ok r =>
      unfold translate at ht
      rw [hd] at ht
      cases ht

/-- What can go wrong in a step, with the instruction that it runs if there is one. -/
inductive Vm.Faults (s : Vm) (insn? : Option Insn) : Fault → Prop
  /-- The code to translate cannot be read. -/
  | fetch {pc : Word} (ht : s.translates? = some pc)
      (he : translate s.m.mem pc = .error .sigsegv) : Faults s insn? .sigsegv
  /-- An access or a division that the host does not take. -/
  | handler {insn : Insn} {f : Fault} (hx : insn? = some insn) (hr : insn.run s.m = .error f) :
      Faults s insn? f
  /-- The assertion of `block_exec` fails. -/
  | dirty {insn : Insn} {m : Machine} (hx : insn? = some insn) (hr : insn.run s.m = .ok m)
      (hd : insn.DirtiesX0 s.m) : Faults s insn? .sigabrt

namespace Vm

variable {s s' : Vm} {f : Fault}

theorem enter_eq_error {prev : Option Ptr} {m : Machine} {cache : Cache} :
    enter prev m cache = .error f ↔
      m.exception = .none ∧ cache.findBlock m.pc = none ∧ translate m.mem m.pc = .error f := by
  unfold enter lookup
  by_cases he : m.exception = .none
  · rw [if_pos he]
    cases hf : cache.findBlock m.pc with
    | some b => simp [bind, Except.bind]
    | none =>
        cases ht : translate m.mem m.pc with
        | error e => simp [he, bind, Except.bind]
        | ok t => simp [bind, Except.bind]
  · rw [if_neg he]
    simp [he]

/-- Where no handler is to run, a step fails on a fetch. -/
theorem step_error_of_none (hi : s.Inv) (hx : s.insn? = none) (hs : s.step = .error f) :
    s.enters = true ∧ ∃ prev, enter prev s.m s.cache = .error f := by
  unfold step at hs
  unfold enters
  cases hc : s.ctl with
  | start =>
      simp only [hc] at hs
      exact ⟨rfl, none, hs⟩
  | returned => simp only [hc, reduceCtorEq] at hs
  | body p i =>
      obtain ⟨b, hb, _⟩ := hi.body p i hc
      simp only [insn?, hc, hb, Option.bind_some] at hx
      simp only [hc, hb, hx] at hs
      cases hn : jmpNext b s.m.pc with
      | some next =>
          rw [hn] at hs
          cases hs
      | none =>
          rw [hn] at hs
          simp only [hb, hx, hn]
          exact ⟨rfl, some p, hs⟩

theorem exec_eq_error {insn : Insn} {m : Machine} : insn.exec m = .error f ↔
    insn.run m = .error f ∨ (f = .sigabrt ∧ ∃ m', insn.run m = .ok m' ∧ m'.gpr 0 ≠ 0) := by
  unfold Insn.exec
  cases hr : insn.run m with
  | error e => simp [bind, Except.bind]
  | ok m' =>
      show (if m'.gpr 0 = 0 then Except.ok m' else .error Fault.sigabrt) = _ ↔ _
      by_cases hz : m'.gpr 0 = 0
      · rw [if_pos hz]
        exact ⟨nofun, fun h => h.elim nofun fun ⟨_, m, hm, hne⟩ => (hne (Except.ok.inj hm ▸ hz)).elim⟩
      · rw [if_neg hz]
        simp only [Except.error.injEq, Except.ok.injEq, reduceCtorEq, false_or]
        exact ⟨fun h => ⟨h.symm, m', rfl, hz⟩, fun h => h.1.symm⟩

theorem step_insn {insn : Insn} (hx : s.insn? = some insn) :
    s.step = .error f ↔ insn.exec s.m = .error f := by
  unfold insn? at hx
  unfold step
  cases hc : s.ctl with
  | body p i =>
      rw [hc] at hx
      obtain ⟨b, hb, hi⟩ := Option.bind_eq_some_iff.mp hx
      simp only [hb, hi]
      cases insn.exec s.m <;> simp [bind, Except.bind]
  | _ =>
      rw [hc] at hx
      cases hx

/-- With `x0` zero, a step fails in these ways. -/
theorem step_eq_error (hi : s.Inv) (h0 : s.m.gpr 0 = 0) :
    s.step = .error f ↔ s.Faults s.insn? f := by
  have hdirty {insn : Insn} {m : Machine} (hx : s.insn? = some insn) (hr : insn.run s.m = .ok m) :
      m.gpr 0 ≠ 0 ↔ insn.DirtiesX0 s.m := by
    obtain ⟨p, i, b, _, _, _, mem, opcode, _, rfl⟩ := hi.insn? hx
    rw [Ne, Insn.gpr_zero h0 insnAt_x0 hr, not_not]
  constructor
  · intro hs
    cases hx : s.insn? with
    | none =>
        obtain ⟨hen, prev, he⟩ := step_error_of_none hi hx hs
        obtain ⟨hexc, hf, ht⟩ := enter_eq_error.mp he
        obtain rfl := translate_error ht
        exact .fetch (if_pos ⟨hen, hexc, hf⟩) ht
    | some insn =>
        rcases exec_eq_error.mp ((step_insn hx).mp hs) with hr | ⟨rfl, m, hr, hne⟩
        · exact .handler rfl hr
        · exact .dirty rfl hr ((hdirty hx hr).mp hne)
  · intro hf
    cases hf with
    | handler hx hr => exact (step_insn hx).mpr (exec_eq_error.mpr (.inl hr))
    | dirty hx hr hd =>
        exact (step_insn hx).mpr (exec_eq_error.mpr (.inr ⟨rfl, _, hr, (hdirty hx hr).mpr hd⟩))
    | @fetch pc ht he =>
        unfold translates? at ht
        split at ht
        · rename_i hen
          cases ht
          have hfail (prev : Option Ptr) : enter prev s.m s.cache = .error .sigsegv :=
            enter_eq_error.mpr ⟨hen.2.1, hen.2.2, he⟩
          have henters := hen.1
          unfold enters at henters
          unfold step
          cases hc : s.ctl with
          | start => exact hfail none
          | returned =>
              rw [hc] at henters
              cases henters
          | body p i =>
              rw [hc] at henters
              obtain ⟨b, hb, _⟩ := hi.body p i hc
              simp only [hb, Bool.and_eq_true, Option.isNone_iff_eq_none] at henters
              simp only [hb, henters.1, henters.2]
              exact hfail (some p)
        · cases ht

end Vm

end Rvvk
