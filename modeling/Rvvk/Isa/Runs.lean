import Rvvk.Exec.Stepwise
import Rvvk.Isa.Fetch
import Rvvk.Lib.Refine

/-!
# Runs of the emulator

A run of `cpu_exec`, with blocks, table and links, is a run of the hart: it does the
same instructions, and stops with the hart's trap when there is one.
-/

namespace Rvvk.Isa

namespace Core

variable {c : Core} {m : Machine}

theorem not_agrees_moved (h : c.Shows .none m) {m' : Machine} (he : m'.exception = .illegalInst)
    (hpc : m'.pc ≠ m.pc) (o : Except Trap Core) : ¬ c.Agrees o (.ok m') := by
  intro ha
  cases o with
  | ok c' => exact nomatch he.symm.trans ha.exception
  | error t =>
      cases t with
      | illegal => exact hpc (ha.pc.trans h.pc.symm)
      | ecall => exact nomatch he.symm.trans ha.exception
      | breakpoint | misaligned | access => exact ha

theorem pending_of_agrees {t : Trap} (h : c.Agrees (.error t) (.ok m)) : m.exception ≠ .none := by
  intro he
  cases t with
  | illegal => exact nomatch he.symm.trans h.exception
  | ecall => exact nomatch he.symm.trans h.exception
  | breakpoint | misaligned | access => exact h

/-- A CSR that is refused is no step of the hart: the pc moves on. -/
theorem known_of_agrees (h : c.Shows .none m) {opcode : BitVec 32}
    (ho : cpuLduw m.mem m.pc 0 = .ok opcode) {o : Except Trap Core} (ha : c.Agrees o m.step) :
    (insnAt m.pc opcode).unknownCsr = false := by
  cases hu : (insnAt m.pc opcode).unknownCsr with
  | false => rfl
  | true =>
      have ht : (insnAt m.pc opcode).op.transfers = false := by
        simp only [Insn.unknownCsr, Bool.and_eq_true] at hu
        cases hop : (insnAt m.pc opcode).op with
        | csr newValue wrMask => rfl
        | _ =>
            rw [hop] at hu
            cases hu.1
      have hstep : m.step = .ok ((m.raise .illegalInst (insnAt m.pc opcode).pc).setPc
          (m.pc + insnLen opcode)) := by
        unfold Machine.step
        rw [ho]
        simp only [bind, Except.bind, Insn.run_unknownCsr hu, ht, Bool.false_eq_true, if_false]
      rw [hstep] at ha
      refine (not_agrees_moved h ?_ ?_ o ha).elim
      · rfl
      · intro hpc
        have hlen : insnLen opcode = 0 := BitVec.add_right_eq_self.mp hpc
        rcases insnLen_eq opcode with ⟨h4, _⟩ | ⟨h2, _⟩
        · rw [h4] at hlen
          cases hlen
        · rw [h2] at hlen
          cases hlen

end Core

/-! ## Steps of the emulator -/

section

variable {s s' : Vm}

/-- The handler that runs next is the one of the instruction at the pc. -/
theorem flat_fetch (hi : s.Inv) (hcur : s.Current) {insn : Insn} (hx : s.insn? = some insn) :
    ∃ opcode, cpuLduw s.flat.mem s.flat.pc 0 = .ok opcode ∧ insn = insnAt s.flat.pc opcode := by
  cases hc : s.ctl with
  | start => simp [Vm.insn?, hc] at hx
  | returned => simp [Vm.insn?, hc] at hx
  | body p i =>
      obtain ⟨b, hb, _⟩ := hi.body p i hc
      simp only [Vm.insn?, hc, hb, Option.bind_some] at hx
      have hlt : i < b.insns.length := (List.getElem?_eq_some_iff.mp hx).1
      rw [Vm.flat_body hc hb, if_pos hlt]
      exact translate_getElem? (hcur b (List.mem_of_getElem? hb)) hx

/-- A handler that raises an exception is the last one of its block. -/
theorem insn?_of_raised (hi : s.Inv) (hk : s.KnownCsr) (hs : s.step = .ok s') {insn : Insn}
    (hx : s.insn? = some insn) (he : s.m.exception = .none) (he' : s'.m.exception ≠ .none) :
    s'.insn? = none := by
  cases Vm.step_move hs with
  | returned hc h => simp [Vm.insn?, hc] at hx
  | call hc h => simp [Vm.insn?, hc] at hx
  | chain hc hb hn _ h => simp [Vm.insn?, hc, hb, hn] at hx
  | reenter hc hb hn _ h => simp [Vm.insn?, hc, hb, hn] at hx
  | @exec p i b insn' m hc hb hj hr h =>
      subst h
      obtain ⟨init, last, hsp⟩ := (hi.cache.translated b (List.mem_of_getElem? hb)).split
      have hlen : b.insns.length = init.length + 1 := by simp [hsp.insns]
      have hge : init.length ≤ i := by
        rcases Nat.lt_or_ge i init.length with hlt | hge
        · -- in the middle of a block nothing is raised
          have hmem : insn' ∈ init := by
            rw [hsp.insns, List.getElem?_append_left hlt] at hj
            exact List.mem_of_getElem? hj
          have hu := hk insn' (by simp only [Vm.insn?, hc, hb, Option.bind_some, hj])
          have hsame := (Insn.straight (hsp.straight insn' hmem) hu).exception
            (Insn.exec_eq_ok hr).1
          exact (he' (hsame.trans he)).elim
        · exact hge
      simp only [Vm.insn?, hb, Option.bind_some]
      exact List.getElem?_eq_none_iff.mpr (by omega)

/-- With an exception pending and no handler to run, `cpu_exec` returns. -/
theorem flat_of_pending (hi : s.Inv) (hs : s.step = .ok s') (hx : s.insn? = none)
    (he : s.m.exception ≠ .none) : s'.insn? = none ∧ s'.m = s.m := by
  have henter {prev : Option Ptr} {c : Cache} (h : Vm.enter prev s.m c = .ok s') :
      s'.insn? = none ∧ s'.m = s.m := by
    rcases Vm.enter_cases h with ⟨_, rfl⟩ | ⟨hn, _⟩
    · exact ⟨rfl, rfl⟩
    · exact (he hn).elim
  cases Vm.step_move hs with
  | returned hc h =>
      subst h
      exact ⟨hx, rfl⟩
  | call hc h => exact henter h
  | reenter hc hb hn _ h => exact henter h
  | @chain p i b next hc hb hj hn h =>
      obtain ⟨b', hb', ha⟩ := hi.body p i hc
      cases hb.symm.trans hb'
      exact (he (Vm.jmpNext_spec hi.cache hb ha hj hn).1).elim
  | exec hc hb hj hr h => simp [Vm.insn?, hc, hb, hj] at hx

/-- Translated code is not written to, and no block that runs is cut. -/
structure Whole (s s' : Vm) : Prop where
  keeps : s.KeepsCode s'
  uncut : s.Uncut

instance (s s' : Vm) : Decidable (Whole s s') :=
  decidable_of_iff (s.KeepsCode s' ∧ s.Uncut) ⟨fun h => ⟨h.1, h.2⟩, fun h => ⟨h.keeps, h.uncut⟩⟩

/-- The emulator has stopped at an instruction that traps. -/
def Trapped (c : Core) (s : Vm) : Prop :=
  s.insn? = none ∧ ∃ t, c.Outcome (.error t) ∧ c.Agrees (.error t) (.ok s.flat)

theorem Trapped.pending {c : Core} (h : Trapped c s) : s.m.exception ≠ .none := by
  obtain ⟨_, t, _, ha⟩ := h
  have hp : s.flat.exception ≠ .none := Core.pending_of_agrees ha
  exact hp

theorem flat_of_whole {c : Core} (hi : s.Inv) (hcur : s.Current) (hcov : c.Covered)
    (h : c.Shows .none s.flat) (hg : Whole s s') : s.Flat s' := by
  refine ⟨hg.keeps, fun insn hx => ?_, hg.uncut⟩
  obtain ⟨opcode, ho, rfl⟩ := flat_fetch hi hcur hx
  obtain ⟨o, hout⟩ := c.exists_outcome
  exact Core.known_of_agrees h ho (Core.agrees_of_covered h hcov hout)

/-- A step of the emulator is silent, or one instruction of the hart, or a trap. -/
theorem step_refines {c : Core} (hcov : c.Covered) (hi : s.Inv) (hcur : s.Current)
    (h : c.Shows .none s.flat) (hs : s.step = .ok s') (hg : Whole s s') :
    (s.insn?.toList = [] ∧ c.Shows .none s'.flat) ∨
      ∃ insn, s.insn?.toList = [insn] ∧
        ((∃ i c', c.Step i c' ∧ c'.Shows .none s'.flat) ∨ Trapped c s') := by
  have hflat := flat_of_whole hi hcur hcov h hg
  rcases Vm.step_flat hi hcur hs hflat with ⟨hx, hf⟩ | ⟨hx, hf⟩
  · exact .inl ⟨hx, hf ▸ h⟩
  · refine .inr ⟨_, hx.symm, ?_⟩
    obtain ⟨o, hout⟩ := c.exists_outcome
    have ha := Core.agrees_of_covered h hcov hout
    rw [hf] at ha
    cases o with
    | ok c' =>
        refine .inl ?_
        generalize ho : (Except.ok c' : Except Trap Core) = o at hout
        cases hout with
        | @fetched i len hfe => exact ⟨i, c', ⟨len, hfe, ho.symm⟩, ha⟩
        | undefined hu => cases ho
        | unfetchable hu => cases ho
    | error t =>
        obtain ⟨insn, hin⟩ : ∃ insn, s.insn? = some insn := by
          cases hin : s.insn? with
          | none =>
              rw [hin] at hx
              cases hx
          | some insn => exact ⟨insn, rfl⟩
        have hp : s'.flat.exception ≠ .none := Core.pending_of_agrees ha
        exact .inr ⟨insn?_of_raised hi hflat.known hs hin h.exception hp, t, hout, ha⟩

theorem step_trapped {c : Core} (hi : s.Inv) (hcur : s.Current) (h : Trapped c s)
    (hs : s.step = .ok s') (hg : Whole s s') : s.insn?.toList = [] ∧ Trapped c s' := by
  have hx := h.1
  have hflat : s.Flat s' := ⟨hg.keeps, fun insn hi => (nomatch hx.symm.trans hi), hg.uncut⟩
  have hn : s.insn?.toList = [] := by rw [hx]; rfl
  rcases Vm.step_flat hi hcur hs hflat with ⟨_, hf⟩ | ⟨hy, _⟩
  · refine ⟨hn, (flat_of_pending hi hs hx h.pending).1, ?_⟩
    rw [hf]
    exact h.2
  · rw [hn] at hy
    cases hy

end

/-! ## Every run -/

section

variable {c₀ : Core} {s₀ s : Vm} {n : Nat}

/-- While what the hart meets is covered, a run of the executor over its table is a run of
the hart, up to the trap that may have ended it. -/
theorem vm_refines (hi : s₀.Inv) (hcur : s₀.Current) (hc : s₀.ctl = .start)
    (hs : c₀.Shows .none s₀.m)
    (hcov : ∀ is c, Feed.Reaches Core.Step c₀ is c → c.Covered)
    (hg : Run.Along Vm.step Whole n s₀) (hr : s₀.run n = .ok s) (hb : s.Boundary) :
    ∃ is c, Feed.Reaches Core.Step c₀ is c ∧
      ((is.length = (s₀.log n).length ∧ c.Shows .none s.m) ∨
        ∃ t, is.length + 1 = (s₀.log n).length ∧ c.Outcome (.error t) ∧
          c.Agrees (.error t) (.ok s.m)) := by
  have hinv : ∀ s s' : Vm, (s.Inv ∧ s.Current) → s.step = .ok s' → Whole s s' →
      s'.Inv ∧ s'.Current := fun _ _ h hs hg => ⟨h.1.step hs, h.2.step h.1 hs hg.keeps⟩
  have hflat₀ : s₀.flat = s₀.m := Vm.flat_of_boundary hi fun _ _ _ h => by simp [hc] at h
  have hR : c₀.Shows .none s₀.flat := hflat₀ ▸ hs
  have hflat : s.flat = s.m := Vm.flat_of_boundary (Run.invariant hinv ⟨hi, hcur⟩ hg hr).1 hb
  obtain ⟨is, c, his, hout⟩ := Run.refines (R := fun c s => c.Shows .none s.flat) (T := Trapped)
    (fun _ _ _ hcov hi h hs hg => step_refines hcov hi.1 hi.2 h hs hg)
    (fun _ _ _ hi h hs hg => step_trapped hi.1 hi.2 h hs hg) hinv hcov ⟨hi, hcur⟩ hR hg hr
  refine ⟨is, c, his, ?_⟩
  rcases hout with ⟨hl, hsh⟩ | ⟨hl, _, t, hout, ha⟩
  · exact .inl ⟨hl, hflat ▸ hsh⟩
  · exact .inr ⟨t, hl, hout, hflat ▸ ha⟩

end

/-- A run of `cpu_exec` that keeps clear of the emulator's memory is a run of the hart, while
what the hart meets is covered: each handler is an instruction, and whenever a block has
ended the machine is the hart, unless the last instruction trapped and its exception is
pending. -/
theorem run_refines {x : Binary} {k : Setup} {c₀ : Core} {s₀ s : Vm} {n : Nat}
    (h₀ : x.Reach k (fun _ => True) (x.Steady k) s₀) (hc : s₀.ctl = .start)
    (hs : c₀.Shows .none (s₀.m.without (InBuffer k)))
    (hcov : ∀ is c, Feed.Reaches Core.Step c₀ is c → c.Covered)
    (ha : Run.Throughout (x.step k) (x.Apart k) n s₀)
    (hg : Run.Along (x.step k) (fun s s' => Whole (s.hide k) (s'.hide k)) n s₀)
    (hr : x.run k n s₀ = .ok s) (hb : s.Boundary) :
    ∃ is c, Feed.Reaches Core.Step c₀ is c ∧
      ((is.length = (x.log k n s₀).length ∧ c.Shows .none (s.m.without (InBuffer k))) ∨
        ∃ t, is.length + 1 = (x.log k n s₀).length ∧ c.Outcome (.error t) ∧
          c.Agrees (.error t) (.ok (s.m.without (InBuffer k)))) := by
  have hsound : x.Sound k s₀ := h₀.sound fun _ _ hg => hg.apart.keepsOff
  have hrun : (s₀.hide k).run n = .ok (s.hide k) := by
    rw [← Binary.run_hide hsound ha, hr]
    rfl
  have hbound : (s.hide k).Boundary := by
    intro p i b hctl hblk
    rw [Vm.ctl_hide] at hctl
    rw [Vm.cache_hide] at hblk
    exact hb p i b hctl hblk
  have hsh : c₀.Shows .none (s₀.hide k).m := by rwa [Vm.m_hide]
  have h := vm_refines hsound.inv.hide (h₀.current fun _ _ hg => hg) (Vm.ctl_hide.trans hc) hsh
    hcov (hsound.along_hide ha hg) hrun hbound
  rwa [Vm.m_hide, Binary.log_hide hsound ha] at h

namespace Core

/-- Where the instructions are exact whatever the operands up to a trap, all is covered. -/
theorem covered_of_run {c₀ c : Core} {n : Nat} {t : Trap} {is : List Instr}
    (h : Run.Throughout next Easy n c₀) (hr : Run.run next n c₀ = .error t)
    (hc : Feed.Reaches Step c₀ is c) : c.Covered :=
  covered_of_easy ((h.of_run_error hr (is.length + 1)).at (Nat.lt_succ_self _)
    (Run.run_of_reaches (fun _ _ _ h => next_of_step h) hc))

end Core

namespace Counter

def core : Core :=
  .ofMachine ((Rvvk.Counter.machine 0x00000073).without (InBuffer .default)) rfl

theorem easy : Run.Throughout Core.next Core.Easy 10 core := by
  decide +kernel

theorem traps : Run.failure (Run.run Core.next 10 core) = some .ecall := by
  decide +kernel

theorem covered {is : List Instr} {c : Core} (h : Feed.Reaches Core.Step core is c) : c.Covered :=
  Core.covered_of_run easy (Run.failure_eq_some.mp traps) h

end Counter

/-- The guest that counts to three, when its system call has been reached. -/
theorem counter_refines : ∃ s, Binary.static.run .default 14
      (.start (Rvvk.Counter.machine 0x00000073)) = .ok s ∧ s.ctl = .body 1 1 ∧
    ∃ is c, Feed.Reaches Core.Step Counter.core is c ∧
      ((is.length = (Binary.static.log .default 14
            (.start (Rvvk.Counter.machine 0x00000073))).length ∧
          c.Shows .none (s.m.without (InBuffer .default))) ∨
        ∃ t, is.length + 1 = (Binary.static.log .default 14
            (.start (Rvvk.Counter.machine 0x00000073))).length ∧ c.Outcome (.error t) ∧
          c.Agrees (.error t) (.ok (s.m.without (InBuffer .default)))) := by
  obtain ⟨s, hr, hctl, hb⟩ := Rvvk.Counter.stops
  have hapart := Rvvk.Counter.apart.take (m := 14) (by decide)
  have hwhole : Run.Along Vm.step Whole 14
      (Vm.hide .default (.start (Rvvk.Counter.machine 0x00000073))) :=
    Rvvk.Counter.flat.mono fun _ _ h => ⟨h.keeps, h.uncut⟩
  refine ⟨s, hr, hctl, run_refines (.start _ trivial (Rvvk.Counter.fresh _)) rfl
    (Core.shows_ofMachine rfl ?_ rfl) (fun _ _ h => Counter.covered h) hapart
    ((Rvvk.Counter.sound _).along_of_hide hapart hwhole) hr hb⟩
  exact Cleared.coherent ⟨rfl, rfl, rfl, rfl, rfl, rfl⟩

end Rvvk.Isa
