import Rvvk.Exec.LoopHidden

/-!
# What holds in every state of the loop

The invariant of the executor, the guest and the kernel in every run that does not disturb
the emulator, and all the ways in which such a run can end.
-/

namespace Rvvk

/-! ## The executor -/

namespace Vm

variable {s s' : Vm}

/-- `cpu_exec` returns with an exception. -/
def Pending (s : Vm) : Prop := s.ctl = .returned → s.m.exception ≠ .none

theorem step_pending (hp : s.Pending) (hs : s.step = .ok s') : s'.Pending := by
  have henter {prev : Option Ptr} (h : enter prev s.m s.cache = .ok s') : s'.Pending := by
    rcases enter_cases h with ⟨he, rfl⟩ | ⟨_, c₁, p, _, rfl⟩
    · exact fun _ => he
    · exact nofun
  cases step_move hs with
  | returned _ h => exact h ▸ hp
  | call _ h => exact henter h
  | reenter _ _ _ _ h => exact henter h
  | chain _ _ _ _ h =>
      rw [h]
      exact nofun
  | exec _ _ _ _ h =>
      rw [h]
      exact nofun

end Vm

namespace Binary

variable {x : Binary} {c : Setup} {s s' : Vm}

theorem Sound.step_pending (hs : x.Sound c s) (hk : x.KeepsOff c s) (hp : s.Pending)
    (h : x.step c s = .ok s') : s'.Pending := by
  obtain ⟨s₁, h₁, rfl⟩ := step_cases hs hk h
  have hp₁ : s₁.Pending := Vm.step_pending hp h₁
  exact hp₁

/-- A step that does not disturb the emulator fails in these ways only. -/
theorem Sound.step_eq_error (hs : x.Sound c s) (hk : x.KeepsOff c s) (h0 : s.m.gpr 0 = 0)
    {f : Fault} : x.step c s = .error f ↔ s.Faults (x.insn? c s) f := by
  rw [hs.insn?_eq, ← Vm.step_eq_error hs.inv h0, step_eq hs hk]
  cases s.step <;> simp [Except.map]

end Binary

/-! ## The loop -/

namespace Loop

variable {x : Binary} {h : Host} {y : HostCalls} {c : Setup} {s s' : Loop x.executor} {g : Guest}

/-- What holds of the executor, the guest and the kernel in every state. -/
structure Inv (c : Setup) (s : Loop x.executor) : Prop where
  sound : x.Sound c s.cpu
  pending : Vm.Pending s.cpu
  zero : s.machine.gpr 0 = 0
  anchored : s.kernel.space.Anchored c
  brk : s.brk.initial ≤ s.brk.target

structure Startable (c : Setup) (g : Guest) : Prop where
  fresh : FreshBuffer c g.space.mem
  zero : g.env.gpr 0 = 0
  anchored : g.space.Anchored c
  brk : g.kernel.brk.initial ≤ g.kernel.brk.target

theorem Inv.start (hg : Startable c g) : Inv c (start x g) where
  sound := .start hg.fresh
  pending := nofun
  zero := hg.zero
  anchored := hg.anchored.congr rfl
  brk := hg.brk

theorem Inv.step (hi : Inv c s) (hk : s.KeepsOff c) (hs : s.step h y c = .ok s') :
    Inv c s' ∧ s'.brk.initial = s.brk.initial := by
  have hsound := step_sound hi.sound hk hs
  cases step_move hs with
  | exec hr hc he =>
      subst he
      exact ⟨⟨hsound, hi.sound.step_pending hk.cpu hi.pending hc,
        hi.sound.step_gpr_zero hk.cpu hc hi.zero, hi.anchored.congr rfl, hi.brk⟩, rfl⟩
  | @call hr hx g hg he =>
      subst he
      obtain ⟨ret, ha, hres⟩ := Guest.ecall_answered hg
      refine ⟨⟨hsound, nofun, ?_, (ha.anchored hi.anchored).congr rfl, ha.brk_le hi.brk⟩,
        ha.initial⟩
      exact (hres.gpr 0 (by decide)).trans hi.zero

theorem returned_iff {cpu : Vm} : x.executor.returned cpu = true ↔ cpu.ctl = .returned :=
  decide_eq_true_iff

theorem Inv.stops (hi : Inv c s) {e : Stop} : s.step h y c = .error e ↔ Stops y c s e :=
  step_eq_error fun hr => hi.pending (returned_iff.mp hr)

theorem reach_inv {n : Nat} (hg : Startable c g)
    (hk : Run.Throughout (step h y c) (KeepsOff c) n (start x g))
    (hr : (start x g).run h y c n = .ok s) :
    Inv c s ∧ s.brk.initial = g.kernel.brk.initial := by
  have hstep : ∀ t t' : Loop x.executor, Inv c t ∧ t.brk.initial = g.kernel.brk.initial →
      t.step h y c = .ok t' → KeepsOff c t → Inv c t' ∧ t'.brk.initial = g.kernel.brk.initial :=
    fun _ _ hi hs hk => ⟨(hi.1.step hk hs).1, (hi.1.step hk hs).2.trans hi.2⟩
  have hi := Run.invariant hstep ⟨.start hg, rfl⟩ hk.along hr
  exact hi

/-- In every state of an undisturbed run the invariant holds and the initial break is the one
it was started with. There is no other end than these: not the assertion that `cpu_exec`
returns with a known exception, and `cpu_exec` itself fails only on a fetch, in a handler or
behind one that dirties `x0`. -/
theorem run_inv {x : Binary} {h : Host} {y : HostCalls} {c : Setup} {g : Guest} {n : Nat}
    {s : Loop x.executor} (hg : Startable c g)
    (hk : Run.Throughout (step h y c) (KeepsOff c) n (start x g))
    (hr : (start x g).run h y c n = .ok s) :
    Inv c s ∧ s.brk.initial = g.kernel.brk.initial ∧
      (∀ e, s.step h y c = .error e ↔ Stops y c s e) ∧
      (s.KeepsOff c → ∀ f, x.step c s.cpu = .error f ↔ Vm.Faults s.cpu (x.insn? c s.cpu) f) := by
  obtain ⟨hi, hb⟩ := reach_inv hg hk hr
  exact ⟨hi, hb, fun e => hi.stops, fun hk f => hi.sound.step_eq_error hk.cpu hi.zero⟩

end Loop

theorem Caller.startable : Loop.Startable .default Caller.guest :=
  ⟨Caller.fresh, rfl, (Space.start_anchored _).congr rfl, BitVec.le_refl _⟩

/-- The guest that counts, when it is about to exit. -/
theorem Loop.caller_inv : ∃ s, (start Binary.static Caller.guest).run Layout.host47
      Guest.noDescriptors .default 22 = .ok s ∧ s.guest.nr = TargetNr.exit ∧ Inv .default s ∧
    s.brk.initial = Caller.guest.kernel.brk.initial ∧
    (∀ e, s.step Layout.host47 Guest.noDescriptors .default = .error e ↔
      Stops Guest.noDescriptors .default s e) ∧
    ∀ f, Binary.static.step .default s.cpu = .error f ↔
      Vm.Faults s.cpu (Binary.static.insn? .default s.cpu) f := by
  obtain ⟨s, hr, hnr⟩ := Caller.exits
  have hk := Caller.apart.mono fun _ ha => ha.keepsOff
  obtain ⟨hi, hb, hs, hf⟩ := run_inv Caller.startable (hk.take (m := 22) (by decide)) hr
  exact ⟨s, hr, hnr, hi, hb, hs, hf (hk.at (by decide) hr)⟩

end Rvvk
