import Rvvk.Exec.Frame

/-!
# Code on pages that are not writable

A guest that executes from pages that are not writable, maps nothing over them and keeps
clear of the emulator does not see that its code is cached, system calls included.
-/

namespace Rvvk

theorem Vm.follows {c : Setup} {s : Vm} (hi : s.Inv) (hcur : s.Current) :
    Executor.Follows (E := executor) (F := Plain.executor) c view s where
  machine := rfl
  returned := by
    show decide (s.view.ctl = .stopped) = decide (s.ctl = .returned)
    cases hc : s.ctl with
    | start => simp only [view, hc, reduceCtorEq]
    | returned => simp only [view, hc]
    | body p i =>
        obtain ⟨b, hb, _⟩ := hi.body p i hc
        simp only [view, hc, hb, reduceCtorEq]
  step := step_view hi hcur
  call _ := rfl

namespace Loop

variable {h : Host} {y : HostCalls} {c : Setup}

def startPlain (g : Guest) : Loop Plain.executor :=
  ⟨⟨g.cleared.machine, .start⟩, g.space.mmapNextStart, g.space.calls, g.kernel.brk⟩

theorem startVm_view (g : Guest) : (startVm g).map (F := Plain.executor) Vm.view = startPlain g :=
  rfl

/-- The windows of a straight line of instructions lie in the set. -/
def Within (C : Word → Prop) (mem : Memory) (pc : Word) (insns : List Insn) : Prop :=
  ∀ j < insns.length, ∀ k < 4, C (pcAt mem pc j + BitVec.ofNat 64 k)

/-- The guest executes from the set, and maps nothing over it. -/
structure Sealed (C : Word → Prop) (s s' : Loop Plain.executor) : Prop where
  fetches : ∀ pc insns i, Plain.ctl s'.cpu = .body pc insns i → Within C s'.machine.mem pc insns
  maps : ∀ a, C a → ¬ s.Maps a

/-- The table holds code from the set, which is not writable. -/
structure Held (C : Word → Prop) (s : Loop Vm.executor) : Prop where
  vm : Vm.Inv s.cpu
  current : Vm.Current s.cpu
  readOnly : ∀ a, C a → ¬ s.machine.mem.Writable a
  within : ∀ b ∈ (Vm.cache s.cpu).heap, Within C s.machine.mem b.pc b.insns

section

variable {C : Word → Prop} {s s' : Vm}

/-- Code of the set that stays the same is translated code that stays the same. -/
theorem keepsCode_of_within (hcur : s.Current)
    (hw : ∀ b ∈ s.cache.heap, Within C s.m.mem b.pc b.insns)
    (hm : ∀ a, C a → s'.m.mem a = s.m.mem a) : s.KeepsCode s' := by
  intro b hb j hj
  have hbyte {i : Nat} (hi : i < 4) : s'.m.mem.byte? (pcAt s.m.mem b.pc j + BitVec.ofNat 64 i) =
      s.m.mem.byte? (pcAt s.m.mem b.pc j + BitVec.ofNat 64 i) := by
    unfold Memory.byte?
    rw [hm _ (hw b hb j hj i hi)]
  obtain ⟨opcode, ho⟩ := hcur.fetched hb hj
  refine ⟨fun i hi => ?_, fun i hi => hbyte ?_⟩
  · rw [hbyte hi, Memory.cpuLduw_eq_ok.mp ho i hi]
    rfl
  · rcases insnLen_eq (fetch s.m.mem (pcAt s.m.mem b.pc j)) with ⟨hl, _⟩ | ⟨hl, _⟩
    · rwa [hl] at hi
    · rw [hl] at hi
      exact Nat.lt_trans hi (by decide)

theorem Within.congr {mem mem' : Memory} {pc : Word} {insns : List Insn}
    (hw : Within C mem pc insns) (hs : SameCode mem mem' pc insns.length)
    (hf : ∀ j < insns.length, ∃ opcode, cpuLduw mem (pcAt mem pc j) 0 = .ok opcode) :
    Within C mem' pc insns := by
  intro j hj k hk
  rw [pcAt_congr hs hf (Nat.le_of_lt hj)]
  exact hw j hj k hk

/-- A new block of the table is the one that is about to run. -/
theorem enter_within {prev : Option Ptr} {m : Machine} {cache : Cache}
    (hc : cache.Good) (hcur : ∀ b ∈ cache.heap, translate m.mem b.pc = .ok b.translation)
    (h : Vm.enter prev m cache = .ok s')
    (hw : ∀ b ∈ cache.heap, Within C m.mem b.pc b.insns)
    (hrun : ∀ pc insns i, s'.view.ctl = .body pc insns i → Within C m.mem pc insns) :
    ∀ b ∈ s'.cache.heap, Within C m.mem b.pc b.insns := by
  have hview : (Vm.enter prev m cache).map Vm.view = Plain.enter m := Vm.enter_view hc hcur
  rw [h] at hview
  rcases Vm.enter_cases h with ⟨_, rfl⟩ | ⟨he, c₁, p, hl, rfl⟩
  · exact hw
  · have hnow := (Vm.lookup_good hc hl).2
    have hw₁ : ∀ b ∈ c₁.heap, Within C m.mem b.pc b.insns := by
      rcases Vm.lookup_cases hl with ⟨_, rfl⟩ | ⟨_, _, t, ht, rfl⟩
      · exact hw
      · refine Cache.forall_insert hw (fun _ _ h => h) (hrun m.pc t.insns 0 ?_)
        have hplain : Plain.enter m = .ok ⟨m, .body m.pc t.insns 0⟩ := by
          unfold Plain.enter
          rw [if_pos he, ht]
          rfl
        exact congrArg Plain.ctl (Except.ok.inj (hview.trans hplain))
    cases prev with
    | none => exact hw₁
    | some q =>
        refine Cache.forall_patchBlock hnow hw₁ fun b _ h => ?_
        have hpatch := Cache.patch_eq p m.pc b
        rw [hpatch.1, show (b.patch p m.pc).insns = b.insns from congrArg Translation.insns hpatch.2]
        exact h

end

section

variable {C : Word → Prop} {s s' : Loop Vm.executor}

theorem vm_step_readOnly {a : Word} (hs : s.step h y c = .ok s')
    (hw : ¬ s.machine.mem.Writable a) (hm : ¬ s.Maps a) :
    s'.machine.mem a = s.machine.mem a := by
  cases step_move hs with
  | exec _ hc he =>
      subst he
      rcases Vm.step_mem_of_insn hc with hmem | ⟨insn, m, _, hr, hmem⟩
      · exact congrFun hmem a
      · exact (congrFun hmem a).trans (Insn.run_readOnly hr hw)
  | call hr hx hg he =>
      subst he
      obtain ⟨ret, hans, _⟩ := Guest.ecall_answered hg
      exact hans.readOnly hw fun hn hmem => hm ⟨hr, hx, hn, hmem⟩

theorem Held.same (hh : Held C s) (hs : s.step h y c = .ok s')
    (hg : Sealed C (s.map (F := Plain.executor) Vm.view) (s'.map Vm.view)) {a : Word} (ha : C a) :
    s'.machine.mem a = s.machine.mem a := by
  refine vm_step_readOnly hs (hh.readOnly a ha) fun hm => hg.maps a ha ?_
  exact ⟨(Vm.follows (c := c) hh.vm hh.current).returned.trans hm.1, hm.2⟩

theorem Held.keeps (hh : Held C s) (hs : s.step h y c = .ok s')
    (hg : Sealed C (s.map (F := Plain.executor) Vm.view) (s'.map Vm.view)) : Vm.KeepsCode s.cpu s'.cpu :=
  keepsCode_of_within hh.current hh.within fun _ => hh.same hs hg

theorem Held.step (hh : Held C s) (hs : s.step h y c = .ok s')
    (hg : Sealed C (s.map (F := Plain.executor) Vm.view) (s'.map Vm.view)) : Held C s' := by
  have hk := hh.keeps hs hg
  have hcur : Vm.Inv s'.cpu ∧ Vm.Current s'.cpu := by
    cases step_move hs with
    | call _ _ _ he =>
        subst he
        exact ⟨hh.vm.call _, hh.current.of_keepsCode hk rfl⟩
    | exec _ hc he =>
        subst he
        exact ⟨hh.vm.step hc, hh.current.step hh.vm hc hk⟩
  have hold : ∀ b ∈ (Vm.cache s.cpu).heap, Within C s'.machine.mem b.pc b.insns := fun b hb =>
    (hh.within b hb).congr (hk b hb) fun _ hj => hh.current.fetched hb hj
  refine ⟨hcur.1, hcur.2, fun a ha => ?_, ?_⟩
  · rw [writable_congr (hh.same hs hg ha)]
    exact hh.readOnly a ha
  · cases step_move hs with
    | call _ _ _ he =>
        subst he
        exact hold
    | exec _ hc he =>
        subst he
        have henter {prev : Option Ptr}
            (h : Vm.enter prev (Vm.m s.cpu) (Vm.cache s.cpu) = .ok _) := by
          have hm := Vm.enter_m h
          have hw := enter_within hh.vm.cache hh.current h hh.within
          rw [← hm] at hw
          exact hw hg.fetches
        cases Vm.step_move hc with
        | returned _ h => exact h ▸ hold
        | exec _ _ _ _ h =>
            subst h
            exact hold
        | chain _ _ _ _ h =>
            subst h
            exact hold
        | call _ h => exact henter h
        | reenter _ _ _ _ h => exact henter h

/-- Under the seal the loop over the executor with table and links passes through the states
of the one over the plain executor. -/
theorem run_shown {n : Nat} (hh : Held C s)
    (hg : Run.Along (step h y c) (Sealed C) n (s.map (F := Plain.executor) Vm.view)) :
    (s.run h y c n).map (map Vm.view) = (s.map (F := Plain.executor) Vm.view).run h y c n := by
  have hmap : ∀ s : Loop Vm.executor, Held C s → True →
      (s.step h y c).map (map Vm.view) = (s.map (F := Plain.executor) Vm.view).step h y c :=
    fun _ hh _ => step_map (Vm.follows hh.vm hh.current)
  have hall : Run.Throughout (step h y c) (fun _ => True) n s :=
    Run.throughout_of_forall fun _ => trivial
  have hgood := Run.Along.of_map hmap (fun _ _ hh _ hs hg => hh.step hs hg) hh hall hg
  exact Run.run_map hmap (fun _ _ hh _ hs hg => hh.step hs hg) hh hall hgood

end

end Loop

/-! ## The guest that counts, asks for its break and exits -/

namespace Plain

def block? (s : Plain) : Option (Word × List Insn) :=
  match s.ctl with
  | .body pc insns _ => some (pc, insns)
  | _ => none

end Plain

namespace Caller

/-- The guest runs a block from its first page, if any, and calls no `mmap`. -/
def Stays (s : Loop Plain.executor) : Prop :=
  (∀ b ∈ Plain.block? s.cpu, Loop.Within (· < 0x1000) s.machine.mem b.1 b.2) ∧
    s.guest.nr ≠ TargetNr.mmap

instance (mem : Memory) (pc : Word) (insns : List Insn) :
    Decidable (Loop.Within (· < 0x1000) mem pc insns) :=
  inferInstanceAs (Decidable (∀ j < insns.length, ∀ k < 4, _))

instance : DecidablePred Stays := fun s =>
  @instDecidableAnd _ _ (Option.decidableForallMem (Plain.block? s.cpu)) inferInstance

theorem sealed_of_stays {s s' : Loop Plain.executor} (h : s.guest.nr ≠ TargetNr.mmap)
    (h' : Stays s') : Loop.Sealed (· < 0x1000) s s' where
  fetches pc insns i hc := h'.1 (pc, insns) (by unfold Plain.block?; rw [hc]; rfl)
  maps _ _ hm := h hm.2.2.1

theorem stays : Run.Along (Loop.step Layout.host47 Guest.noDescriptors .default)
    (fun s s' => s.guest.nr ≠ TargetNr.mmap ∧ Stays s') 22
    (Loop.startPlain (guest.without (InBuffer .default))) := by
  decide +kernel

end Caller

end Rvvk
