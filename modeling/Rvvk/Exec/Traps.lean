import Rvvk.Exec.Stepwise
import Rvvk.Exec.Zero

/-!
# Illegal instructions

A word that the decoder rejects ends its block and records its own address, and a
block that ends so is never linked, so the trap is precise as long as the guest does not
disturb the emulator. A CSR instruction that its handler refuses has recorded no address
and does not end the block.
-/

namespace Rvvk

/-- The emulator treats the instruction as illegal. -/
def Insn.Illegal (insn : Insn) : Prop := insn.handler = .doIllegal ∨ insn.unknownCsr = true

namespace Vm

theorem enter_exception {prev : Option Ptr} {m : Machine} {c : Cache} {s' : Vm}
    (h : enter prev m c = .ok s') : s'.ctl = .returned ∨ s'.m.exception = .none := by
  rcases enter_cases h with ⟨_, rfl⟩ | ⟨he, c₁, p, _, rfl⟩
  · exact .inl rfl
  · exact .inr he

/-- No exception is pending before the last handler of a block. -/
def Unraised (s : Vm) : Prop :=
  ∀ p i b, s.ctl = .body p i → s.cache.heap[p]? = some b → i < b.insns.length →
    s.m.exception = .none

theorem step_unraised {s s' : Vm} (hinv : s.Inv) (hk : s.KnownCsr) (h : s.Unraised)
    (hs : s.step = .ok s') : s'.Unraised := by
  intro p i b hc hb hi
  cases step_move hs with
  | returned hr h' =>
      rw [h', hr] at hc
      cases hc
  | call _ h' =>
      rcases enter_exception h' with hr | he
      · rw [hr] at hc
        cases hc
      · exact he
  | reenter _ _ _ _ h' =>
      rcases enter_exception h' with hr | he
      · rw [hr] at hc
        cases hc
      · exact he
  | @chain q j b' next hc' hb' hj hn h' =>
      subst h'
      obtain ⟨b'', hb'', ha⟩ := hinv.body q j hc'
      cases hb'.symm.trans hb''
      exact (jmpNext_spec hinv.cache hb' ha hj hn).1
  | @exec q j b' insn m hc' hb' hj hx h' =>
      subst h'
      cases hc
      cases hb.symm.trans hb'
      obtain ⟨init, last, hs⟩ := (hinv.cache.translated b (List.mem_of_getElem? hb)).split
      have hlen : b.insns.length = init.length + 1 := by simp [hs.insns]
      have hmem : insn ∈ init := by
        rw [hs.insns, List.getElem?_append_left (by omega)] at hj
        exact List.mem_of_getElem? hj
      have hu := hk insn (by simp only [insn?, hc', hb', Option.bind_some, hj])
      rw [(Insn.straight (hs.straight insn hmem) hu).exception (Insn.exec_eq_ok hx).1]
      exact h p _ b hc' hb' (by omega)

theorem jmpNext_eq_none {c : Cache} (hc : c.Good) {b : Block} (hb : b ∈ c.heap) (hq : ¬ b.Quiet)
    (pc : Word) : jmpNext b pc = none := by
  have hl := hc.links b hb
  unfold jmpNext
  split
  · cases hn : b.jmpNext0.blk with
    | none => rfl
    | some p => exact (hq (hl.link0 p hn).2).elim
  · cases hn : b.jmpNext1.blk with
    | none => rfl
    | some p => exact (hq (hl.link1 p hn).2.1).elim

/-- The handler of an illegal instruction leaves its address, and it is the last of its
block. -/
theorem Inv.illegal {s : Vm} (hinv : s.Inv) (h0 : s.m.gpr 0 = 0) (hk : s.KnownCsr) {insn : Insn}
    (hx : s.insn? = some insn) (hill : insn.Illegal) :
    ∃ p i b mem, s.ctl = .body p i ∧ s.cache.heap[p]? = some b ∧
      translate mem b.pc = .ok b.translation ∧ i + 1 = b.insns.length ∧ ¬ b.Quiet ∧
      s.step = .ok ⟨s.m.raise .illegalInst (pcAt mem b.pc i), s.cache, .body p (i + 1)⟩ := by
  obtain ⟨p, i, b, hc, hb, hi, mem, opcode, ht, hat⟩ := hinv.insn? hx
  have hlt : i < b.insns.length := (List.getElem?_eq_some_iff.mp hi).1
  have hop : insn.op = .illegal := by
    rcases hill with hh | hu
    · rw [Insn.op, hh]
      rfl
    · rw [hk insn hx] at hu
      cases hu
  have hpc : insn.pc = pcAt mem b.pc i := by
    rw [hat]
    exact insnAt_pc (by rw [← hat, hop]; rfl)
  have hrun : insn.run s.m = .ok (s.m.raise .illegalInst (pcAt mem b.pc i)) := by
    rw [← hpc]
    exact congrArg (fun op => Op.run op insn s.m) hop
  have hexec : insn.exec s.m = .ok (s.m.raise .illegalInst (pcAt mem b.pc i)) := by
    unfold Insn.exec
    rw [hrun]
    exact if_pos h0
  refine ⟨p, i, b, mem, hc, hb, ht, ?_, fun hq => ?_, ?_⟩
  · obtain ⟨init, last, hs⟩ := (hinv.cache.translated b (List.mem_of_getElem? hb)).split
    have hlen : b.insns.length = init.length + 1 := by simp [hs.insns]
    rcases Nat.lt_or_ge i init.length with hi' | hi'
    · rw [hs.insns, List.getElem?_append_left hi'] at hi
      have hstr := hs.straight insn (List.mem_of_getElem? hi)
      rw [hop] at hstr
      cases hstr
    · omega
  · have hr := hq insn (List.mem_of_getElem? hi)
    rw [Insn.raises, hop] at hr
    cases hr
  · simp only [Vm.step, hc, hb, hi, hexec]
    rfl

end Vm

namespace Binary

variable {x : Binary} {c : Setup} {s s' : Vm}

/-- Nothing disturbs the emulator, and the next handler is not refused its CSR. -/
structure Calm (x : Binary) (c : Setup) (s : Vm) : Prop where
  keepsOff : x.KeepsOff c s
  known : ∀ insn, x.insn? c s = some insn → insn.unknownCsr = false

/-- Calm runs that start with `x0` zero. -/
abbrev CsrReach (x : Binary) (c : Setup) : Vm → Prop :=
  x.Reach c (fun m => m.gpr 0 = 0) fun s _ => x.Calm c s

theorem Sound.knownCsr (hs : x.Sound c s) (hk : x.Calm c s) : s.KnownCsr :=
  fun insn hi => hk.known insn (hs.insn?_eq.trans hi)

theorem Reach.unraised (h : x.CsrReach c s) : s.Unraised := by
  induction h with
  | start m _ _ => exact fun _ _ _ hc => by cases hc
  | call _ _ m _ _ _ _ => exact fun _ _ _ hc => by cases hc
  | step h hs hk ih =>
      have hsound := h.sound fun _ _ hk => hk.keepsOff
      obtain ⟨s₁, h₁, rfl⟩ := step_cases hsound hk.keepsOff hs
      have hun := Vm.step_unraised hsound.inv (hsound.knownCsr hk) ih h₁
      exact hun

/-- With an exception pending, a block that has no links is left for good. -/
theorem step_pending {m : Machine} {cache : Cache} {p i : Nat} {b : Block}
    (hb : cache.heap[p]? = some b) (hi : i = b.insns.length) (hn : Vm.jmpNext b m.pc = none)
    (he : m.exception ≠ .none) :
    x.step c ⟨m, cache, .body p i⟩ = .ok ⟨m, cache, .returned⟩ := by
  subst hi
  simp only [step, hb, Nat.lt_irrefl, if_false, hn]
  exact if_neg he

end Binary

/-- In a calm run an illegal instruction is the first exception. Its handler is the last of
its block; then `cpu_exec` returns with the address of the instruction and everything else
as the instructions before left it. -/
theorem illegal_precise {x : Binary} {c : Setup} {s : Vm} (h : x.CsrReach c s) (hk : x.Calm c s) {insn : Insn}
    (hx : x.insn? c s = some insn) (hill : insn.Illegal) :
    s.m.exception = .none ∧ ∃ p i b mem s₁ s₂, s.ctl = .body p i ∧ s.cache.heap[p]? = some b ∧
      translate mem b.pc = .ok b.translation ∧ x.step c s = .ok s₁ ∧ x.step c s₁ = .ok s₂ ∧
      s₂.ctl = .returned ∧ s₂.m = s.m.raise .illegalInst (pcAt mem b.pc i) := by
  have hs : x.Sound c s := h.sound fun _ _ hk => hk.keepsOff
  have h0 : s.m.gpr 0 = 0 := h.gpr_zero fun _ _ hk => hk.keepsOff
  obtain ⟨p, i, b, mem, hc, hb, ht, hi, hq, hstep⟩ :=
    hs.inv.illegal h0 (hs.knownCsr hk) (hs.insn?_eq.symm.trans hx) hill
  refine ⟨h.unraised p i b hc hb (by omega), p, i, b, mem, _, _, hc, hb, ht, ?_,
    Binary.step_pending hb hi ?_ (fun he => by cases he), rfl, rfl⟩
  · rw [Binary.step_eq hs hk.keepsOff, hstep]
    exact congrArg Except.ok (Binary.commit_of_arrays rfl)
  · exact Vm.jmpNext_eq_none hs.inv.cache (List.mem_of_getElem? hb) hq _

/-! ## The guest that counts, with `c.addi t0, 1` and an illegal halfword at its end -/

namespace Trapped

theorem clear : Run.Throughout Vm.step (Binary.static.Clear .default) 15
    (Vm.hide .default (.start (Counter.machine 0x00000285))) := by
  decide +kernel

theorem known : Run.Throughout Vm.step Vm.KnownCsr 15
    (Vm.hide .default (.start (Counter.machine 0x00000285))) := by
  decide +kernel

theorem calm : Run.Throughout (Binary.static.step .default) (Binary.static.Calm .default) 15
    (.start (Counter.machine 0x00000285)) := by
  have hapart := Binary.throughout_of_clear (Counter.sound 0x00000285) clear
  refine Run.Throughout.pull (fun _ hs ha => Binary.step_hide hs ha)
    (fun _ _ hs ha h => hs.step ha.keepsOff h) (fun s hs ha hq => ⟨ha.keepsOff, fun insn hi => ?_⟩)
    (Counter.sound _) hapart known
  exact hq insn (Vm.insn?_hide.trans (hs.insn?_eq.symm.trans hi))

end Trapped

/-- The loop is left with 3 in `t0`, the next block adds 1 and traps. -/
theorem trapped_precise : ∃ s, Binary.static.run .default 14 (.start (Counter.machine 0x00000285)) =
      .ok s ∧ s.m.gpr 5 = 4 ∧ s.m.exception = .none ∧ ∃ p i b mem s₁ s₂, s.ctl = .body p i ∧
      s.cache.heap[p]? = some b ∧ translate mem b.pc = .ok b.translation ∧
      Binary.static.step .default s = .ok s₁ ∧ Binary.static.step .default s₁ = .ok s₂ ∧
      s₂.ctl = .returned ∧ s₂.m = s.m.raise .illegalInst (pcAt mem b.pc i) := by
  have hapart := Binary.throughout_of_clear (Counter.sound 0x00000285) Trapped.clear
  have hend : (((Vm.start (Counter.machine 0x00000285)).hide .default).run 14).toOption.map
      (fun t => (t.insn?.map Insn.handler, t.m.gpr 5)) = some (some .doIllegal, 4) := by
    decide +kernel
  obtain ⟨s, hr, -, hv⟩ :=
    Binary.run_shows (Counter.sound _) (hapart.take (m := 14) (by decide)) hend
  obtain ⟨hill, ha⟩ := Prod.mk.inj hv
  rw [Vm.insn?_hide] at hill
  rw [Vm.m_hide, Machine.gpr_without] at ha
  have hreach : Binary.static.CsrReach .default s :=
    .run (.start _ rfl (Counter.fresh _)) (Trapped.calm.take (m := 14) (by decide)).along hr
  obtain ⟨insn, hi, hh⟩ := Option.map_eq_some_iff.mp hill
  have hs : Binary.static.Sound .default s := hreach.sound fun _ _ hk => hk.keepsOff
  exact ⟨s, hr, ha, illegal_precise hreach (Trapped.calm.at (by decide) hr)
    (hs.insn?_eq.trans hi) (.inl hh)⟩

/-- `csrrs t0, cycle, x0` before an `ecall`: the refused CSR is answered as a system
call, and `env->pc` is not the address of the instruction. -/
theorem unknown_csr_imprecise :
    (insnAt 0 0xc00022f3).unknownCsr = true ∧
      (Binary.static.run .default 4 (.start (.ofWords [0xc00022f3, 0x00000073]))).toOption.map
        (fun s => (s.ctl, s.m.exception, s.m.pc)) = some (.returned, .uEcall, 4) := by
  refine ⟨by decide, ?_⟩
  decide +kernel

end Rvvk
