import Rvvk.Exec.LoopInvariant

/-!
# What a run of the emulator leaves alone

A byte changes only when a handler stores to it, a translation puts a record there or a
system call writes it. What lies on pages that are not writable changes only when `mmap`
places other pages over it.
-/

namespace Rvvk

/-! ## A step of `cpu_exec` -/

namespace Vm

variable {s s' : Vm}

theorem insn?_of_translates {pc : Word} (h : s.translates? = some pc) : s.insn? = none := by
  have hen : s.enters = true := by
    unfold translates? at h
    split at h
    · rename_i hen
      exact hen.1
    · cases h
  unfold enters at hen
  unfold insn?
  cases hc : s.ctl with
  | start => rfl
  | returned => rfl
  | body p i =>
      simp only [hc] at hen
      show ((s.cache.heap[p]?).bind fun b => b.insns[i]?) = none
      cases hb : s.cache.heap[p]? with
      | none => rfl
      | some b =>
          simp only [hb, Bool.and_eq_true, Option.isNone_iff_eq_none] at hen
          exact hen.1

theorem step_mem_of_insn (hs : s.step = .ok s') : s'.m.mem = s.m.mem ∨
    ∃ insn m, s.insn? = some insn ∧ insn.run s.m = .ok m ∧ s'.m.mem = m.mem := by
  cases step_move hs with
  | returned _ h => exact .inl (by rw [h])
  | call _ h => exact .inl (by rw [enter_m h])
  | chain _ _ _ _ h => exact .inl (by rw [h])
  | reenter _ _ _ _ h => exact .inl (by rw [enter_m h])
  | exec hc hb hi hx h =>
      refine .inr ⟨_, _, ?_, (Insn.exec_eq_ok hx).1, by rw [h]⟩
      simp only [insn?, hc, hb, Option.bind_some, hi]

end Vm

namespace Binary

variable {x : Binary} {c : Setup} {s s' : Vm} {a : Word}

/-- The records of the code that the next step translates. -/
def Records (c : Setup) (s : Vm) (a : Word) : Prop :=
  ∃ pc, s.translates? = some pc ∧
    Span.Mem (h2g c s.cache.insnBufferPtr) (insnSize * lineLength s.m.mem transMax pc) a

/-- How a step that does not disturb the emulator changes memory. -/
inductive Memorizes (x : Binary) (c : Setup) (s : Vm) (mem : Memory) : Prop
  | same (h : mem = s.m.mem)
  | handler {insn : Insn} {m : Machine} (hx : x.insn? c s = some insn) (hr : insn.run s.m = .ok m)
      (h : mem = m.mem)
  | records {pc : Word} {t : Translation} (ht : s.translates? = some pc)
      (hl : t.insns.length = lineLength s.m.mem transMax pc)
      (h : mem = s.m.mem.fill (h2g c s.cache.insnBufferPtr) (x.records t.insns))

theorem Sound.step_mem (hs : x.Sound c s) (hk : x.KeepsOff c s) (h : x.step c s = .ok s') :
    x.Memorizes c s s'.m.mem := by
  obtain ⟨s₁, h₁, rfl⟩ := step_cases hs hk h
  show x.Memorizes c s (x.stored c s.cache s₁.cache s₁.m.mem)
  rcases Vm.step_arrays h₁ with ⟨_, ha, _⟩ | ⟨pc, t, hpc, ht, ha, _⟩
  · rw [stored_of_arrays ha]
    rcases Vm.step_mem_of_insn h₁ with hm | ⟨insn, m, hx, hr, hm⟩
    · exact .same hm
    · exact .handler (hs.insn?_eq.trans hx) hr hm
  · rw [stored_insert ha]
    rcases Vm.step_mem_of_insn h₁ with hm | ⟨insn, m, hx, _⟩
    · rw [hm]
      exact .records hpc (translate_length ht) rfl
    · rw [Vm.insn?_of_translates hpc] at hx
      cases hx

/-- A byte that no handler stores to and no record takes is as it was. -/
theorem Sound.step_other (hs : x.Sound c s) (hk : x.KeepsOff c s) (h : x.step c s = .ok s')
    (hstore : ¬ x.Stores c s a) (hrec : ¬ Records c s a) : s'.m.mem a = s.m.mem a := by
  cases hs.step_mem hk h with
  | same h => rw [h]
  | handler hx hr h =>
      rw [h]
      exact Insn.run_other hr fun ha => hstore ⟨_, hx, ha⟩
  | records ht hl h =>
      rw [h]
      refine Memory.fill_other fun ha => hrec ⟨_, ht, ?_⟩
      rwa [x.length_records, hl] at ha

/-- A byte on a page that is not writable is as it was: the records go to pages that are. -/
theorem Sound.step_readOnly (hs : x.Sound c s) (hk : x.KeepsOff c s) (h : x.step c s = .ok s')
    (hw : ¬ s.m.mem.Writable a) : s'.m.mem a = s.m.mem a := by
  cases hs.step_mem hk h with
  | same h => rw [h]
  | handler _ hr h =>
      rw [h]
      exact Insn.run_readOnly hr hw
  | @records pc _ ht hl h =>
      rw [h]
      refine Memory.fill_other fun ha => hw ⟨_, hs.free a ?_, rfl⟩
      rw [x.length_records, hl] at ha
      exact (hk.room pc ht).free ha

end Binary

/-! ## A step of the loop -/

namespace Loop

/-- The guest is about to place pages over the address. -/
def Maps {E : Executor} (s : Loop E) (a : Word) : Prop :=
  E.returned s.cpu = true ∧ s.machine.exception = .uEcall ∧ s.guest.nr = TargetNr.mmap ∧
    Span.Mem (s.guest.mmapArgs.placed s.kernel.space) (pageUp (s.guest.arg 1).toNat) a

instance {E : Executor} (s : Loop E) (a : Word) : Decidable (s.Maps a) :=
  inferInstanceAs (Decidable (_ ∧ _ ∧ _ ∧ _))

section

variable {x : Binary} {h : Host} {y : HostCalls} {c : Setup} {s s' : Loop x.executor} {g : Guest}
  {n : Nat} {a : Word}

inductive Writes (c : Setup) (s : Loop x.executor) (a : Word) : Prop
  | handler (ha : x.Stores c s.cpu a)
  | records (ha : Binary.Records c s.cpu a)
  | call (hr : x.executor.returned s.cpu = true) (hx : s.machine.exception = .uEcall)
      (ha : s.guest.Touches a)

theorem step_other (hs : x.Sound c s.cpu) (hk : s.KeepsOff c) (h : s.step h y c = .ok s')
    (ha : ¬ s.Writes c a) : s'.machine.mem a = s.machine.mem a := by
  cases step_move h with
  | exec _ hc he =>
      subst he
      exact hs.step_other hk.cpu hc (fun h => ha (.handler h)) fun h => ha (.records h)
  | call hr hx hg he =>
      subst he
      obtain ⟨ret, hans, _⟩ := Guest.ecall_answered hg
      exact hans.frame fun ht => ha (.call hr hx ht)

theorem step_readOnly (hs : x.Sound c s.cpu) (hk : s.KeepsOff c) (h : s.step h y c = .ok s')
    (hw : ¬ s.machine.mem.Writable a) (hm : ¬ s.Maps a) :
    s'.machine.mem a = s.machine.mem a := by
  cases step_move h with
  | exec _ hc he =>
      subst he
      exact hs.step_readOnly hk.cpu hc hw
  | call hr hx hg he =>
      subst he
      obtain ⟨ret, hans, _⟩ := Guest.ecall_answered hg
      exact hans.readOnly hw fun hn hmem => hm ⟨hr, hx, hn, hmem⟩

theorem writable_congr {m m' : Memory} (hm : m' a = m a) : m'.Writable a ↔ m.Writable a := by
  unfold Memory.Writable
  rw [hm]

/-- Neither a handler nor a system call writes the byte. -/
def Avoids (a : Word) (s : Loop Vm.executor) : Prop :=
  (∀ insn ∈ Vm.insn? s.cpu, ∀ r ∈ insn.target? s.machine, ¬ Span.Mem r.1 r.2 a) ∧
    (Vm.executor.returned s.cpu = true → s.machine.exception = .uEcall →
      ∀ r ∈ s.guest.touched?, ¬ Span.Mem r.1 r.2 a)

instance (a : Word) : DecidablePred (Avoids a) := fun _ => inferInstanceAs (Decidable (_ ∧ _))

theorem not_touches_of_avoids (h : (s.hide c).Avoids a)
    (hr : x.executor.returned s.cpu = true) (hx : s.machine.exception = .uEcall) :
    ¬ s.guest.Touches a := by
  intro ht
  have hcall := h.2
  rw [returned_hide, machine_hide, Machine.exception_without, guest_hide, touched?_without] at hcall
  obtain ⟨base, n, hat, hmem⟩ := Guest.touched_of_touches ht
  exact hcall hr hx (base, n) hat hmem

theorem not_maps_of_avoids (h : (s.hide c).Avoids a) : ¬ s.Maps a :=
  fun hm => not_touches_of_avoids h hm.1 hm.2.1 (.inr hm.2.2)

theorem not_writes_of_avoids (hs : x.Sound c s.cpu) (ha : s.Apart c) (hb : ¬ InBuffer c a)
    (h : (s.hide c).Avoids a) : ¬ s.Writes c a := by
  intro hw
  cases hw with
  | handler hst =>
      obtain ⟨insn, hx, base, n, ht, hmem⟩ := hst
      have hinsn := h.1
      rw [show (s.hide c).cpu = Vm.hide c s.cpu from rfl, Vm.insn?_hide, machine_hide] at hinsn
      refine hinsn insn (hs.insn?_eq.symm.trans hx) (base, n) ?_ hmem
      rwa [Insn.target?_without]
  | records hrec =>
      obtain ⟨pc, ht, hmem⟩ := hrec
      exact hb (hs.packed.inBuffer_of_free ((ha.cpu.keepsOff.room pc ht).free hmem))
  | call hr hx ht => exact not_touches_of_avoids h hr hx ht

end

end Loop

namespace Caller

theorem readOnly {a : Word} (ha : a < 0x1000) : ¬ guest.space.mem.Writable a := by
  have hlt : a.toNat < 0x1000 := ha
  have hcell : guest.space.mem a = memory a :=
    buffered_other (Binary.static_low (Nat.lt_trans hlt (by decide))).1
  rintro ⟨cell, hc, hw⟩
  rw [hcell, memory, if_pos ha] at hc
  obtain ⟨b, _, rfl⟩ := Option.map_eq_some_iff.mp hc
  cases hw

theorem avoids : Run.Throughout (Loop.step Layout.host47 Guest.noDescriptors .default)
    (fun s => s.Avoids 0 ∧ s.Avoids 0x1200) 22
    ((Loop.start Binary.static guest).hide .default) := by
  decide +kernel

end Caller

namespace Loop

end Loop

end Rvvk
