import Rvvk.Exec.Stepwise

/-!
# Stores to translated code

Nothing ever discards a translated block: FENCE.I is decoded to `do_empty`, and the
table only grows. A pc that has been executed once runs the instructions that were
decoded then, for as long as nothing is stored over their records.
-/

namespace Rvvk

namespace Vm

/-! ## The table only grows -/

/-- The block at `p` has the same pc and the same instructions in both tables. -/
def SameBlock (c c' : Cache) (p : Ptr) : Prop :=
  ∀ b, c.heap[p]? = some b → ∃ b', c'.heap[p]? = some b' ∧ b'.pc = b.pc ∧ b'.insns = b.insns

theorem enter_sameBlock {prev : Option Ptr} {m : Machine} {c : Cache} {s' : Vm} (hc : c.Good)
    (h : enter prev m c = .ok s') (p : Ptr) : SameBlock c s'.cache p := by
  intro b hb
  rcases enter_cases h with ⟨_, rfl⟩ | ⟨_, c₁, q, hl, rfl⟩
  · exact ⟨b, hb, rfl, rfl⟩
  · obtain ⟨next, hk⟩ := lookup_keeps hl hb
    obtain ⟨b', hb', hpc, ht⟩ := patchPrev_getElem? prev (lookup_good hc hl).2 hk
    exact ⟨b', hb', hpc, congrArg Translation.insns ht⟩

theorem step_sameBlock {s s' : Vm} (hi : s.Inv) (hs : s.step = .ok s') (p : Ptr) :
    SameBlock s.cache s'.cache p := by
  have hrefl : SameBlock s.cache s.cache p := fun b hb => ⟨b, hb, rfl, rfl⟩
  cases step_move hs with
  | returned _ h => rwa [h]
  | call _ h => exact enter_sameBlock hi.cache h p
  | exec _ _ _ _ h => rwa [h]
  | chain _ _ _ _ h => rwa [h]
  | reenter _ _ _ _ h => exact enter_sameBlock hi.cache h p

/-- A block that appears is the translation of the memory as it is then. -/
theorem enter_new {prev : Option Ptr} {m : Machine} {c : Cache} {s' : Vm} (hc : c.Good)
    (h : enter prev m c = .ok s') {p : Nat} {b : Block} (hn : c.heap[p]? = none)
    (hb : s'.cache.heap[p]? = some b) :
    b.pc = m.pc ∧ translate m.mem b.pc = .ok b.translation := by
  rcases enter_cases h with ⟨_, rfl⟩ | ⟨_, c₁, q, hl, rfl⟩
  · rw [hn] at hb
    cases hb
  · rcases lookup_cases hl with ⟨_, rfl⟩ | ⟨_, rfl, t, ht, rfl⟩
    · have hlen := (patchPrev_length c₁ prev q).symm ▸ (List.getElem?_eq_some_iff.mp hb).1
      have := List.getElem?_eq_none_iff.mp hn
      omega
    · have hp : p = c.heap.length := by
        have hlt := (patchPrev_length (c.insert m.pc t) prev c.heap.length) ▸
          (List.getElem?_eq_some_iff.mp hb).1
        have := List.getElem?_eq_none_iff.mp hn
        rw [Cache.insert_length] at hlt
        omega
      have hnew : (c.insert m.pc t).heap[p]? = some
          ⟨m.pc, c.insnBufferPtr, t.insns, ⟨t.next0, none⟩, ⟨t.next1, none⟩, none⟩ := by
        rw [Cache.insert_getElem?, if_pos hp]
      obtain ⟨b', hb', hpc, htr⟩ := patchPrev_getElem? prev (lookup_good hc hl).2 hnew
      cases hb.symm.trans hb'
      rw [hpc, htr]
      exact ⟨rfl, ht⟩

theorem step_new {s s' : Vm} (hi : s.Inv) (hs : s.step = .ok s') {p : Nat} {b : Block}
    (hn : s.cache.heap[p]? = none) (hb : s'.cache.heap[p]? = some b) :
    b.pc = s.m.pc ∧ translate s.m.mem b.pc = .ok b.translation := by
  have hsame : s'.cache = s.cache → False := fun h => by
    rw [h, hn] at hb
    cases hb
  cases step_move hs with
  | returned _ h => exact (hsame (by rw [h])).elim
  | call _ h => exact enter_new hi.cache h hn hb
  | exec _ _ _ _ h => exact (hsame (by rw [h])).elim
  | chain _ _ _ _ h => exact (hsame (by rw [h])).elim
  | reenter _ _ _ _ h => exact enter_new hi.cache h hn hb

/-- The block that runs for a pc is the one that was translated for it. -/
theorem Inv.running_block {s : Vm} (hi : s.Inv) {p q : Nat} {b : Block}
    (hb : s.cache.heap[p]? = some b) (hc : s.ctl = .body q 0) (hpc : s.m.pc = b.pc) : q = p := by
  have hq : s.cache.pcOf q = some b.pc := hpc ▸ hi.atPc q hc
  have hp : s.cache.pcOf p = some b.pc := by
    simp only [Cache.pcOf, hb, Option.map_some]
  exact hi.cache.wf.unique hq hp

end Vm

/-! ## FENCE.I -/

theorem switch32_fenceI {opcode : BitVec 32} (h : opcode &&& 0x0000707f = 0x0000100f) :
    insnLen opcode = 4 ∧ switch32 opcode = .fenceI := by
  have hand : ∀ x, opcode &&& (0x0000707f &&& x) = 0x0000100f &&& x := fun x => by
    rw [← BitVec.and_assoc, h]
  have h3 : opcode &&& 3 = 3 := hand 3
  have ho : opcode &&& opcodeMask = 0x0000000f#32 := hand opcodeMask
  have hf : opcode &&& funct3Mask = 0x00001000#32 := hand funct3Mask
  constructor
  · exact if_pos h3
  · unfold switch32 switchMiscMem
    rw [ho, hf]
    rfl

theorem fenceI_run {opcode : BitVec 32} (h : opcode &&& 0x0000707f = 0x0000100f) (pc : Word)
    (m : Machine) : (insnAt pc opcode).run m = .ok m := by
  obtain ⟨hl, hs⟩ := switch32_fenceI h
  have hinsn : insnAt pc opcode = { Insn.fresh with handler := .doEmpty } := by
    unfold insnAt decodeInsn decodeInsn32
    rw [hl, hs]
    rfl
  rw [hinsn]
  rfl

/-- While translated code stays the same, the instruction that runs is the one in
memory. -/
theorem Vm.Current.coherent {s : Vm} (hi : s.Inv) (h : s.Current) {insn : Insn}
    (hx : s.insn? = some insn) : insn = insnAt s.flat.pc (fetch s.m.mem s.flat.pc) := by
  obtain ⟨p, i, b, hc, hb, hins, _⟩ := hi.insn? hx
  obtain ⟨opcode, ho, hat⟩ := translate_getElem? (h b (List.mem_of_getElem? hb)) hins
  have hlt : i < b.insns.length := (List.getElem?_eq_some_iff.mp hins).1
  rw [Vm.flat_body hc hb, if_pos hlt, Machine.pc_setPc, fetch_eq ho, hat]

namespace Binary

variable {x : Binary} {c : Setup} {s t : Vm}

/-- Any run that does not disturb the emulator. -/
abbrev AnyReach (x : Binary) (c : Setup) : Vm → Prop :=
  x.Reach c (fun _ => True) fun s _ => x.KeepsOff c s

inductive Later (x : Binary) (c : Setup) (s : Vm) : Vm → Prop
  | refl : Later x c s s
  | step {t t' : Vm} (h : Later x c s t) (ht : x.step c t = .ok t') (hk : x.KeepsOff c t) :
      Later x c s t'
  | call {t : Vm} (h : Later x c s t) (ht : t.ctl = .returned) (m : Machine)
      (hb : ∀ a, InBuffer c a ∨ x.Own c a → m.mem a = t.m.mem a) (hk : x.KeepsOff c t) :
      Later x c s ⟨m, t.cache, .start⟩

theorem Later.reach (hs : x.AnyReach c s) (h : x.Later c s t) : x.AnyReach c t := by
  induction h with
  | refl => exact hs
  | step _ ht hk ih => exact ih.step ht hk
  | call _ ht m hb hk ih => exact ih.call ht m trivial hb hk

theorem Later.run {n : Nat} (hk : Run.Throughout (x.step c) (x.KeepsOff c) n s)
    (hr : x.run c n s = .ok t) : x.Later c s t := by
  have hstep : ∀ t t', x.Later c s t → x.step c t = .ok t' → x.KeepsOff c t → x.Later c s t' :=
    fun _ _ h ht hk => h.step ht hk
  exact Run.invariant hstep .refl hk.along hr

theorem Later.sameBlock (hs : x.AnyReach c s) (h : x.Later c s t) (p : Ptr) :
    Vm.SameBlock s.cache t.cache p := by
  induction h with
  | refl => exact fun b hb => ⟨b, hb, rfl, rfl⟩
  | call _ _ m _ _ ih => exact ih
  | step h ht hk ih =>
      intro b hb
      have hsound := (h.reach hs).sound fun _ _ hk => hk
      obtain ⟨s₁, h₁, rfl⟩ := step_cases hsound hk ht
      obtain ⟨b', hb', hpc, hins⟩ := ih b hb
      obtain ⟨b'', hb'', hpc', hins'⟩ := Vm.step_sameBlock hsound.inv h₁ p b' hb'
      exact ⟨b'', hb'', hpc'.trans hpc, hins'.trans hins⟩

/-- While translated code stays the same, the record whose handler is called spells the
instruction in memory. -/
theorem Reach.coherent (h : x.Reach c (fun _ => True) (x.Steady c) s) {insn : Insn}
    (hx : x.insn? c s = some insn) :
    insn = insnAt (s.hide c).flat.pc (fetch (s.hide c).m.mem (s.hide c).flat.pc) := by
  have hs : x.Sound c s := h.sound fun _ _ hg => hg.apart.keepsOff
  refine (h.current fun _ _ hg => hg).coherent hs.inv.hide ?_
  rw [Vm.insn?_hide, ← hs.insn?_eq, hx]

end Binary

/-- FENCE.I has no effect. A block is decoded once, from the memory as it is when its pc is
first executed. Whatever the guest and its system calls do later, the pc then runs that
block again, with the records that were stored then, unless they disturb the emulator. The
instructions are those in memory as long as the bytes are not changed. -/
theorem translated_once {x : Binary} {c : Setup} :
    (∀ opcode pc m, opcode &&& 0x0000707f = 0x0000100f → (insnAt pc opcode).run m = .ok m) ∧
      (∀ s s', x.AnyReach c s → x.KeepsOff c s → x.step c s = .ok s' →
        ∀ (p : Nat) b, s.cache.heap[p]? = none → s'.cache.heap[p]? = some b →
          b.pc = s.m.pc ∧ translate s.m.mem b.pc = .ok b.translation) ∧
      (∀ s t, x.AnyReach c s → x.Later c s t → ∀ (p : Nat) b, s.cache.heap[p]? = some b →
        (∃ b', t.cache.heap[p]? = some b' ∧ b'.pc = b.pc ∧ b'.insns = b.insns ∧
          ∀ i insn, b.insns[i]? = some insn → x.loadInsn t.m.mem (b'.slot c i) = .ok insn) ∧
        ∀ q, t.ctl = .body q 0 → t.m.pc = b.pc → q = p) ∧
      ∀ s, x.Reach c (fun _ => True) (x.Steady c) s → ∀ insn, x.insn? c s = some insn →
        insn = insnAt (s.hide c).flat.pc (fetch (s.hide c).m.mem (s.hide c).flat.pc) := by
  refine ⟨fun opcode pc m h => fenceI_run h pc m, fun s s' hs hk hstep p b hn hb => ?_,
    fun s t hs hl p b hb => ?_, fun s hs insn hx => hs.coherent hx⟩
  · have hsound := hs.sound fun _ _ hk => hk
    obtain ⟨s₁, h₁, rfl⟩ := Binary.step_cases hsound hk hstep
    exact Vm.step_new hsound.inv h₁ hn hb
  · have ht := (hl.reach hs).sound fun _ _ hk => hk
    obtain ⟨b', hb', hpc, hins⟩ := hl.sameBlock hs p b hb
    exact ⟨⟨b', hb', hpc, hins, fun i insn hi => ht.loadInsn hb' (hins ▸ hi)⟩,
      fun q hc hq => ht.inv.running_block hb' hc (hq.trans hpc.symm)⟩

/-- The loop of the guest that counts to three, entered by its link after two stores. -/
theorem counter_translated_once : ∃ s t b,
    Binary.static.run .default 1 (.start (Counter.machine 0x00000073)) = .ok s ∧
    Binary.static.run .default 8 s = .ok t ∧ s.cache.heap[0]? = some b ∧ t.ctl = .body 0 0 ∧
    (∃ b', t.cache.heap[0]? = some b' ∧ b'.pc = b.pc ∧ b'.insns = b.insns ∧
      ∀ i insn, b.insns[i]? = some insn →
        Binary.static.loadInsn t.m.mem (b'.slot .default i) = .ok insn) ∧
    ∀ insn, Binary.static.insn? .default t = some insn →
      insn = insnAt (t.hide .default).flat.pc
        (fetch (t.hide .default).m.mem (t.hide .default).flat.pc) := by
  have hapart := Counter.apart.take (m := 9) (by decide)
  have hone : (((Vm.start (Counter.machine 0x00000073)).hide .default).run 1).toOption.map
      (fun t => (t.cache.heap[0]?).isSome) = some true := by decide +kernel
  have hnine : (((Vm.start (Counter.machine 0x00000073)).hide .default).run 9).toOption.map
      (fun t => t.ctl) = some (.body 0 0) := by decide +kernel
  obtain ⟨s, hs, -, hb⟩ := Binary.run_shows (Counter.sound _) (hapart.take (m := 1) (by decide)) hone
  obtain ⟨t, ht, -, hc⟩ := Binary.run_shows (Counter.sound _) hapart hnine
  rw [Vm.cache_hide] at hb
  rw [Vm.ctl_hide] at hc
  obtain ⟨b, hb⟩ := Option.isSome_iff_exists.mp hb
  have hrest : Binary.static.run .default 8 s = .ok t := (Run.run_add hs).symm.trans ht
  have hoff := hapart.mono fun _ h => h.keepsOff
  have hreach : Binary.static.AnyReach .default s :=
    Binary.Reach.run (.start _ trivial (Counter.fresh _)) (hoff.take (m := 1) (by decide)).along hs
  have hlater : Binary.static.Later .default s t :=
    .run (hoff.drop (m := 1) hs) hrest
  have hsteady : Binary.static.Reach .default (fun _ => True) (Binary.static.Steady .default) t := by
    refine Binary.Reach.run (.start _ trivial (Counter.fresh _)) ?_ ht
    exact (hapart.along.and ((Counter.sound _).along_of_hide hapart
      (Counter.keeps.take (by decide)))).mono fun _ _ h => ⟨h.1, h.2⟩
  exact ⟨s, t, b, hs, hrest, hb, hc, (translated_once.2.2.1 s t hreach hlater 0 b hb).1,
    translated_once.2.2.2 t hsteady⟩

/-- `sw t0, 0(t1); fence.i; j 0` at address 0 overwrites its own first word with 0.
After FENCE.I and the jump the old store runs again, where memory holds an illegal
instruction. -/
theorem fence_i_incoherent :
    Binary.static.log .default 5 (.start (.ofWords [0x00532023, 0x0000100f, 0xff9ff06f])) =
        [insnAt 0 0x00532023, insnAt 4 0x0000100f, insnAt 8 0xff9ff06f] ∧
      (Binary.static.run .default 5 (.start (.ofWords [0x00532023, 0x0000100f, 0xff9ff06f]))).toOption.map
        (fun s => (s.m.pc, Binary.static.insn? .default s, insnAt 0 (fetch s.m.mem 0))) =
          some (0, some (insnAt 0 0x00532023), ⟨0, 0, 0, 0, 0, .doIllegal⟩) := by
  constructor
  · decide +kernel
  · decide +kernel

end Rvvk
