import Rvvk.Isa.Accepts
import Rvvk.Isa.Conforms
import Rvvk.Exec.Vm

/-!
# One step of the emulator

The emulator fetches, decodes and executes the instruction at the pc of the hart
it shows. `Core.Sound` says when that comes to what the instruction set asks for.
-/

namespace Rvvk.Isa

/-! ## Lengths -/

theorem Instr.encode_low (i : Instr) : i.encode.extractLsb' 0 2 = 3 := by
  have hlow (w : BitVec 32) : w.extractLsb' 0 2 = (w.extractLsb' 0 7).extractLsb' 0 2 :=
    (BitVec.extractLsb'_extractLsb'_of_le (by decide)).symm
  rw [hlow]
  cases i with
  | r op _ _ _ =>
      rw [encode, word_opcode]
      cases op <;> rfl
  | i op _ _ _ =>
      rw [encode, wordI, word_opcode]
      cases op <;> rfl
  | lui _ _ | auipc _ _ =>
      rw [encode, wordU_opcode]
      rfl
  | jal _ _ =>
      rw [encode, wordJ, wordU_opcode]
      rfl
  | ecall | ebreak => rfl
  | _ =>
      simp only [encode, wordI, wordS, wordB, word_opcode]
      rfl

theorem insnLen_encode (i : Instr) : insnLen i.encode = 4 := by
  rw [insnLen_low, i.encode_low]
  rfl

theorem Rvc.quadrant_of_form {w : BitVec 16} {f : Rvc.Form} (h : Rvc.form w = some f) :
    Rvc.quadrant w ≠ 3 := by
  intro hq
  unfold Rvc.form at h
  rw [hq] at h
  cases h

theorem insnLen_half {opcode : BitVec 32} (h : Rvc.quadrant (opcode.setWidth 16) ≠ 3) :
    insnLen opcode = 2 := by
  rw [Rvc.quadrant, BitVec.extractLsb'_setWidth_of_le (by decide)] at h
  rw [insnLen_low, if_neg h]

/-! ## The instruction in its place -/

section

variable {m : Machine} {len : Word}

/-- A branch that is not taken goes on behind itself by its own. -/
theorem runAt_eq_placed {r : Ctx × Insn} (he : r.1.exit = r.2.op.transfers)
    (hb : ∀ cond size, r.2.op = .branch cond size → size = len ∧ r.2.pc = m.pc) :
    runAt m.pc len r m = placed len r.2 m := by
  unfold runAt placed fallsThrough
  rw [he]
  cases hop : r.2.op with
  | branch cond size =>
      obtain ⟨rfl, hpc⟩ := hb cond size hop
      rw [run_op, hop, Op.run, hpc]
      cases hc : cond (m.gpr r.2.rs1) (m.gpr r.2.rs2) with
      | true =>
          simp only [hc]
          rfl
      | false =>
          simp only [hc]
          rfl
  | _ => cases r.2.run m <;> rfl

theorem Instr.handler_branch {i : Instr} {cond : Word → Word → Bool} {size : Word}
    (h : handlerOp i.handler = .branch cond size) : size = 4 := by
  cases i with
  | b op _ _ _ =>
      have ho : Op.branch op.taken 4 = .branch cond size := op.handler_op.symm.trans h
      cases ho
      rfl
  | r op _ _ _ | i op _ _ _ | shift op _ _ _ | shiftW op _ _ _ | s op _ _ _ | csr op _ _ _ =>
      cases op <;> cases h
  | lr width _ _ _ => cases width <;> cases h
  | amo op width _ _ _ _ => cases op <;> cases width <;> cases h
  | _ => cases h

theorem runAt_translate (i : Instr) (insn : Insn) :
    runAt m.pc 4 (i.translate (.start m.pc) insn) m =
      placed 4 (i.translate (.start m.pc) insn).2 m := by
  have hd : Decoded (.start m.pc) (i.translate (.start m.pc) insn) := by
    rw [← decodeInsn32_encode]
    exact decodeInsn32_decoded _
  refine runAt_eq_placed ?_ fun cond size hop => ⟨?_, hd.pc (by rw [hop]; rfl)⟩
  · rw [hd.after, Ctx.after_exit]
    rfl
  · rw [Insn.op, i.translate_handler] at hop
    cases hi : i.discards with
    | true =>
        rw [hi] at hop
        cases hop
    | false =>
        rw [hi] at hop
        exact Instr.handler_branch hop

theorem step_eq_runAt {opcode : BitVec 32} (ho : cpuLduw m.mem m.pc 0 = .ok opcode) :
    m.step = runAt m.pc (insnLen opcode) (decodeInsn (.start m.pc) .fresh opcode) m := by
  unfold Machine.step runAt
  rw [ho, decodeInsn_eq, Ctx.after_exit]
  cases hr : (insnAt m.pc opcode).run m with
  | error e => simp only [bind, Except.bind, Ctx.start, hr, Except.map]
  | ok m' => simp only [bind, Except.bind, Ctx.start, hr, Except.map, Bool.false_or]

theorem step_word {i : Instr} (ho : cpuLduw m.mem m.pc 0 = .ok i.encode) :
    m.step = placed 4 (i.translate (.start m.pc) .fresh).2 m := by
  have hd : decodeInsn (.start m.pc) .fresh i.encode = i.translate (.start m.pc) .fresh := by
    unfold decodeInsn
    rw [insnLen_encode, if_neg (by decide), decodeInsn32_encode]
  rw [step_eq_runAt ho, insnLen_encode, hd, runAt_translate]

theorem step_half {opcode : BitVec 32} {f : Rvc.Form} (ho : cpuLduw m.mem m.pc 0 = .ok opcode)
    (hf : Rvc.form (opcode.setWidth 16) = some f) :
    m.step = runAt m.pc 2
      ((f.sel (opcode.setWidth 16)).trans (.start m.pc) .fresh (opcode.setWidth 16)) m := by
  have hlen := insnLen_half (Rvc.quadrant_of_form hf)
  have hd : decodeInsn (.start m.pc) .fresh opcode =
      (f.sel (opcode.setWidth 16)).trans (.start m.pc) .fresh (opcode.setWidth 16) := by
    unfold decodeInsn
    rw [if_pos hlen, Rvc.decodeInsn16_form _ _ hf]
  rw [step_eq_runAt ho, hlen, hd]

/-- An accepted word that is not `c.ebreak` or `c.jalr` is its expansion, two bytes long. -/
theorem runAt_expand {w : BitVec 16} {f : Rvc.Form} (insn : Insn) (hne : f ≠ .ebreak)
    (hnj : f ≠ .jalr)
    (hacc : ((f.sel w).trans (.start m.pc) insn w).2.handler ≠ .doIllegal) (h0 : m.gpr 0 = 0) :
    runAt m.pc 2 ((f.sel w).trans (.start m.pc) insn w) m =
      placed 2 ((f.expand w).translate (.start m.pc) insn).2 m := by
  rw [(Rvc.agree_expand insn f hne hnj hacc h0).run, runAt_translate]
  unfold placed
  cases ((f.expand w).translate (.start m.pc) insn).2.run m with
  | error e => rfl
  | ok m' =>
      simp only [Except.map]
      cases fallsThrough ((f.expand w).translate (.start m.pc) insn).2 m <;> rfl

/-- `c.jalr` links the address behind its two bytes. -/
theorem runAt_jalr {w : BitVec 16} (insn : Insn)
    (hacc : ((Rvc.Form.jalr.sel w).trans (.start m.pc) insn w).2.handler ≠ .doIllegal) :
    runAt m.pc 2 ((Rvc.Form.jalr.sel w).trans (.start m.pc) insn w) m =
      placed 2 (transExit .doCJalr (.start m.pc)
        { insn with rd := 1, imm := 0, rs1 := Rvc.rd w }).2 m := by
  have hc : (Rvc.Form.jalr.sel w).trans (.start m.pc) insn w =
      transExit .doCJalr (.start m.pc) { insn with rd := 1, imm := 0, rs1 := Rvc.rd w } := by
    refine (Rvc.guardOperands_accepted hacc).2.trans ?_
    rw [decodeInsn16ExtractCJalr, Rvc.rd_eq]
  rw [hc]
  refine runAt_eq_placed rfl fun _ _ hop => ?_
  cases hop

end

/-! ## Reading the instruction -/

namespace Core

variable {c : Core} {m : Machine} {i : Instr} {len : Word}

theorem load_eq_ok {n : Nat} {a : Word} {v : BitVec (8 * n)} :
    c.load n a = .ok v ↔
      ∀ i < n, c.mem.byte? (a + BitVec.ofNat 64 i) = some (v.extractLsb' (8 * i) 8) := by
  rw [← Memory.value_loadBytes_eq_ok, load]
  cases c.mem.loadBytes a n with
  | ok bs => exact ⟨fun h => congrArg Except.ok (Except.ok.inj h),
      fun h => congrArg Except.ok (Except.ok.inj h)⟩
  | error e => exact ⟨nofun, nofun⟩

theorem load_four_iff {a : Word} {opcode : BitVec 32} :
    c.load 4 a = .ok opcode ↔ cpuLduw c.mem a 0 = .ok opcode :=
  load_eq_ok.trans Memory.cpuLduw_eq_ok.symm

/-- The low half of a word is read from the same address. -/
theorem load_low {a : Word} {opcode : BitVec 32} (h : c.load 4 a = .ok opcode) :
    c.load 2 a = .ok (opcode.setWidth 16) := by
  refine load_eq_ok.mpr fun i hi => ?_
  rw [load_eq_ok.mp h i (by omega), BitVec.extractLsb'_setWidth_of_le (by omega)]

/-- Four bytes can be read at the pc. -/
def Window (c : Core) : Prop := ∃ opcode, c.load 4 c.pc = .ok opcode

/-- There is a HINT at the pc that the decoder rejects. -/
def Hint (c : Core) : Prop := ∃ w, c.load 2 c.pc = .ok w ∧ Rvc.IsRejectedHint w

/-- The emulator gets an instruction right: it can read the window, it knows the
instruction and is exact on the operands. Where it cannot read the window, the
instruction happens to access memory that is missing. -/
def Sound (c : Core) (i : Instr) (len : Word) : Prop :=
  (c.Window ∧ ¬ c.Hint ∧ c.Exact len i) ∨ (¬ c.Window ∧ c.exec len i = .error .access)

theorem Shows.fetch (h : c.Shows .none m) {opcode : BitVec 32} :
    cpuLduw m.mem m.pc 0 = .ok opcode ↔ c.load 4 c.pc = .ok opcode := by
  rw [h.mem, h.pc]
  exact load_four_iff.symm

theorem Shows.step_error (h : c.Shows .none m) (hw : ¬ c.Window) : m.step = .error .sigsegv := by
  unfold Machine.step
  cases ho : cpuLduw m.mem m.pc 0 with
  | ok opcode => exact (hw ⟨opcode, h.fetch.mp ho⟩).elim
  | error e =>
      obtain rfl := Memory.value_loadBytes_error ho
      rfl

theorem agrees_illegal (h : c.Shows .none m) (o : Except Trap Core) :
    c.Agrees o (.ok (m.raise .illegalInst m.pc)) ↔ o = .error .illegal := by
  constructor
  · intro ha
    cases o with
    | ok c' => exact nomatch ha.exception
    | error t =>
        cases t with
        | illegal => rfl
        | ecall => exact nomatch ha.exception
        | breakpoint | misaligned | access => exact ha.elim
  · rintro rfl
    exact h.raise .illegalInst

theorem agrees_error {o : Except Trap Core} :
    c.Agrees o (.error .sigsegv) ↔ o = .error .access := by
  constructor
  · intro ha
    cases o with
    | ok c' => exact ha.elim
    | error t =>
        cases t with
        | access => rfl
        | breakpoint | misaligned | illegal | ecall => exact ha.elim
  · rintro rfl
    rfl

/-! ## The instructions of the hart -/

theorem step_rejected {opcode : BitVec 32} (ho : cpuLduw m.mem m.pc 0 = .ok opcode)
    (hr : (insnAt m.pc opcode).handler = .doIllegal) :
    m.step = .ok (m.raise .illegalInst m.pc) := by
  have hop : (insnAt m.pc opcode).op = .illegal := by
    rw [Insn.op, hr]
    rfl
  have hrun : (insnAt m.pc opcode).run m = .ok (m.raise .illegalInst m.pc) := by
    rw [run_op, hop, Op.run, insnAt_pc (by rw [hop]; rfl)]
  unfold Machine.step
  rw [ho]
  simp only [bind, Except.bind, hrun, hop]
  rfl

/-- Of the words that are no reserved encodings, the HINTs are rejected. -/
theorem rejected_iff_hint {w : BitVec 16} {f : Rvc.Form} (hf : Rvc.form w = some f)
    (hr : ¬ Rvc.Reserved w f) (ctx : Ctx) (insn : Insn) :
    ((f.sel w).trans ctx insn w).2.handler = .doIllegal ↔ f.rejectsHint = true ∧ Rvc.rd w = 0 := by
  have hz : ¬ (f = .addi16sp ∧ Rvc.imm6 w = 0) := by
    rintro ⟨rfl, h0⟩
    exact hr h0
  rw [f.illegal_iff, f.rejected_iff (Rvc.form_operands hf) hz]
  exact or_iff_right hr

theorem hint_iff {w : BitVec 16} {f : Rvc.Form} (h2 : c.load 2 c.pc = .ok w)
    (hf : Rvc.form w = some f) (hr : ¬ Rvc.Reserved w f) :
    c.Hint ↔ f.rejectsHint = true ∧ Rvc.rd w = 0 := by
  constructor
  · rintro ⟨w', h2', f', hf', -, hh⟩
    cases h2.symm.trans h2'
    cases hf.symm.trans hf'
    exact hh
  · exact fun hh => ⟨w, h2, f, hf, hr, hh⟩

theorem exec_hint {w : BitVec 16} {f : Rvc.Form} (h : f.rejectsHint = true) :
    ∃ c', c.exec len (f.expand w) = .ok c' := by
  cases f with
  | li | lui | slli | mv | add => exact ⟨_, rfl⟩
  | _ => cases h

theorem noLink_expand {w : BitVec 16} {f : Rvc.Form} (h : f ≠ .jalr) : (f.expand w).NoLink := by
  cases f with
  | jalr => exact (h rfl).elim
  | j | jr => exact rfl
  | _ => trivial

theorem word_conforms_iff (h : c.Shows .none m) (h4 : c.load 4 c.pc = .ok i.encode) :
    c.Agrees (c.exec 4 i) m.step ↔ ¬ c.Hint ∧ c.Exact 4 i := by
  have hn : ¬ c.Hint := by
    rintro ⟨w, h2, f, hf, -⟩
    cases (load_low h4).symm.trans h2
    refine Rvc.quadrant_of_form hf ?_
    rw [Rvc.quadrant, BitVec.extractLsb'_setWidth_of_le (by decide), i.encode_low]
  rw [step_word (h.fetch.mpr h4), agrees_iff _ h (by decide) i (.inl rfl)]
  exact (and_iff_right hn).symm

theorem half_conforms_iff (h : c.Shows .none m) {opcode : BitVec 32} {f : Rvc.Form}
    (h4 : c.load 4 c.pc = .ok opcode) (hf : Rvc.form (opcode.setWidth 16) = some f)
    (hr : ¬ Rvc.Reserved (opcode.setWidth 16) f) :
    c.Agrees (c.exec 2 (f.expand (opcode.setWidth 16))) m.step ↔
      ¬ c.Hint ∧ c.Exact 2 (f.expand (opcode.setWidth 16)) := by
  have ho := h.fetch.mpr h4
  have hlen := insnLen_half (Rvc.quadrant_of_form hf)
  have hat : (insnAt m.pc opcode) =
      ((f.sel (opcode.setWidth 16)).trans (.start m.pc) .fresh (opcode.setWidth 16)).2 := by
    unfold insnAt decodeInsn
    rw [if_pos hlen, Rvc.decodeInsn16_form _ _ hf]
  rw [hint_iff (load_low h4) hf hr]
  by_cases hh : f.rejectsHint = true ∧ Rvc.rd (opcode.setWidth 16) = 0
  · have hrej := (rejected_iff_hint hf hr (.start m.pc) .fresh).mpr hh
    obtain ⟨c', hc⟩ := exec_hint hh.1
    rw [step_rejected ho (hat ▸ hrej), agrees_illegal h, hc]
    exact iff_of_false nofun fun hn => hn.1 hh
  · have hacc := (not_congr (rejected_iff_hint hf hr (.start m.pc) .fresh)).mpr hh
    rw [step_half ho hf]
    refine Iff.trans ?_ (and_iff_right hh).symm
    by_cases hne : f = .ebreak
    · subst hne
      exact iff_of_false (not_agrees (.inl rfl) _) id
    · by_cases hnj : f = .jalr
      · subst hnj
        rw [runAt_jalr .fresh hacc]
        exact agrees_indirect h (transExit .doCJalr (.start m.pc)
          { Insn.fresh with rd := 1, imm := 0, rs1 := Rvc.rd (opcode.setWidth 16) }).2 rfl rfl
          (.inl rfl) rfl
      · have h0 : m.gpr 0 = 0 := (h.gpr_apply 0).trans c.zero
        rw [runAt_expand .fresh hne hnj hacc h0]
        exact agrees_iff _ h (by decide) _ (.inr (noLink_expand hnj))

theorem agrees_step_iff (h : c.Shows .none m) (hf : c.Fetches i len) :
    c.Agrees (c.exec len i) m.step ↔ c.Sound i len := by
  by_cases hw : c.Window
  · have hs : c.Sound i len ↔ ¬ c.Hint ∧ c.Exact len i :=
      ⟨fun hs => hs.elim And.right fun hn => (hn.1 hw).elim, fun hs => .inl ⟨hw, hs⟩⟩
    rw [hs]
    obtain ⟨opcode, h4⟩ := hw
    cases hf with
    | word i hi => exact word_conforms_iff h hi
    | half w f h2 hf hr =>
        cases h2.symm.trans (load_low h4)
        exact half_conforms_iff h h4 hf hr
  · rw [h.step_error hw, agrees_error]
    exact ⟨fun he => .inr ⟨hw, he⟩, fun hs => hs.elim (fun hn => (hw hn.1).elim) And.right⟩

/-! ## Words that are no instructions -/

/-- The word at the pc is not the encoding of an instruction. -/
def Undefined (c : Core) : Prop :=
  (∃ w : BitVec 32, c.load 4 c.pc = .ok w ∧ w.extractLsb' 0 2 = 3 ∧ ¬ IsEncoding w) ∨
    ∃ w : BitVec 16, c.load 2 c.pc = .ok w ∧ Rvc.quadrant w ≠ 3 ∧ ¬ Rvc.IsEncoding w

/-- The word at the pc is not there. -/
def Unfetchable (c : Core) : Prop :=
  ∀ w : BitVec 16, c.load 2 c.pc = .ok w → Rvc.quadrant w = 3 ∧ ¬ c.Window

/-- The decoder takes the word for an instruction: a SYSTEM word with `funct3` 0 for
`ecall`, the reserved `c.addi16sp` for one that adds zero. -/
def Misread (opcode : BitVec 32) : Prop :=
  (opcode.extractLsb' 0 7 = 0b1110011#7 ∧ opcode.extractLsb' 12 3 = 0) ∨
    (Rvc.form (opcode.setWidth 16) = some .addi16sp ∧ Rvc.imm6 (opcode.setWidth 16) = 0)

instance (opcode : BitVec 32) : Decidable (Misread opcode) := inferInstanceAs (Decidable (_ ∨ _))

/-- The emulator reads the window and rejects what it finds. -/
def Refused (c : Core) : Prop := ∃ opcode, c.load 4 c.pc = .ok opcode ∧ ¬ Misread opcode

inductive Outcome (c : Core) : Except Trap Core → Prop
  | fetched {i : Instr} {len : Word} (hf : c.Fetches i len) : Outcome c (c.exec len i)
  | undefined (hu : c.Undefined) : Outcome c (.error .illegal)
  | unfetchable (hu : c.Unfetchable) : Outcome c (.error .access)

theorem quadrant_low (opcode : BitVec 32) :
    Rvc.quadrant (opcode.setWidth 16) = opcode.extractLsb' 0 2 :=
  BitVec.extractLsb'_setWidth_of_le (by decide)

/-- A hart fetches an instruction, or a word that is none, or nothing. -/
theorem exists_outcome (c : Core) : ∃ o, c.Outcome o := by
  by_cases h2 : ∃ w, c.load 2 c.pc = .ok w
  · obtain ⟨w, h2⟩ := h2
    by_cases hq : Rvc.quadrant w = 3
    · by_cases h4 : c.Window
      · obtain ⟨opcode, h4⟩ := h4
        cases h2.symm.trans (load_low h4)
        by_cases he : IsEncoding opcode
        · obtain ⟨i, rfl⟩ := he
          exact ⟨_, .fetched (.word i h4)⟩
        · exact ⟨_, .undefined (.inl ⟨opcode, h4, quadrant_low opcode ▸ hq, he⟩)⟩
      · refine ⟨_, .unfetchable fun w' h2' => ?_⟩
        cases h2.symm.trans h2'
        exact ⟨hq, h4⟩
    · by_cases he : Rvc.IsEncoding w
      · obtain ⟨f, hf, hr⟩ := he
        exact ⟨_, .fetched (.half w f h2 hf hr)⟩
      · exact ⟨_, .undefined (.inr ⟨w, h2, hq, he⟩)⟩
  · exact ⟨_, .unfetchable fun w h => (h2 ⟨w, h⟩).elim⟩

theorem handler_system {w : BitVec 32} (ho : w.extractLsb' 0 7 = 0b1110011#7)
    (hf : w.extractLsb' 12 3 = 0) (ctx : Ctx) (insn : Insn) :
    (decodeInsn32 ctx insn w).2.handler = .doEcall := by
  have hs : switch32 w = .ecall := by
    simp only [switch32, and_opcodeMask, ho]
    refine (switchSystem_word w).trans ?_
    rw [hf]
    rfl
  rw [decodeInsn32, hs]
  rfl

theorem low_of_opcode {opcode : BitVec 32} {opc : BitVec 7} (h : opcode.extractLsb' 0 7 = opc) :
    opcode.extractLsb' 0 2 = opc.extractLsb' 0 2 := by
  rw [← h]
  exact (BitVec.extractLsb'_extractLsb'_of_le (by decide)).symm

/-- An undefined word of four bytes is rejected unless it is a SYSTEM word. -/
theorem undefined_word_iff (h : c.Shows .none m) {opcode : BitVec 32}
    (h4 : c.load 4 c.pc = .ok opcode) (hq : opcode.extractLsb' 0 2 = 3)
    (hne : ¬ IsEncoding opcode) : c.Agrees (.error .illegal) m.step ↔ ¬ Misread opcode := by
  have hlen : insnLen opcode = 4 := by
    rw [insnLen_low, if_pos hq]
  have hat : insnAt m.pc opcode = (decodeInsn32 (.start m.pc) .fresh opcode).2 := by
    unfold insnAt decodeInsn
    rw [hlen, if_neg (by decide)]
  have ho := h.fetch.mpr h4
  by_cases hsys : opcode.extractLsb' 0 7 = 0b1110011#7 ∧ opcode.extractLsb' 12 3 = 0
  · have hop : (insnAt m.pc opcode).op = .ecall := by
      rw [Insn.op, hat, handler_system hsys.1 hsys.2]
      rfl
    have hstep : m.step = .ok (m.raise .uEcall (insnAt m.pc opcode).pc) := by
      unfold Machine.step
      rw [ho]
      simp only [bind, Except.bind, run_op, hop, Op.run]
      rfl
    rw [hstep]
    refine iff_of_false (fun ha => ?_) fun hn => hn (.inl hsys)
    cases ha.exception
  · have hr := (decodeInsn32_illegal_iff (.start m.pc) .fresh hsys).mpr hne
    rw [step_rejected ho (hat ▸ hr), agrees_illegal h]
    refine iff_of_true rfl fun hm => ?_
    rcases hm with hm | hm
    · exact hsys hm
    · exact Rvc.quadrant_of_form hm.1 (quadrant_low opcode ▸ hq)

/-- An undefined word of two bytes is rejected unless it is the reserved `c.addi16sp`. -/
theorem undefined_half_iff (h : c.Shows .none m) {opcode : BitVec 32}
    (h4 : c.load 4 c.pc = .ok opcode) (hq : Rvc.quadrant (opcode.setWidth 16) ≠ 3)
    (hne : ¬ Rvc.IsEncoding (opcode.setWidth 16)) :
    c.Agrees (.error .illegal) m.step ↔ ¬ Misread opcode := by
  have hlen := insnLen_half hq
  have ho := h.fetch.mpr h4
  by_cases hz : Rvc.form (opcode.setWidth 16) = some .addi16sp ∧ Rvc.imm6 (opcode.setWidth 16) = 0
  · have h0 : m.gpr 0 = 0 := (h.gpr_apply 0).trans c.zero
    have hacc : ((Rvc.Form.addi16sp.sel (opcode.setWidth 16)).trans (.start m.pc) .fresh
        (opcode.setWidth 16)).2.handler ≠ .doIllegal := fun hr =>
      (Rvc.Form.addi16sp.illegal_iff _ _).mp hr
    have ha := (agrees_iff .fresh h (by decide : (2 : Word) ≠ 0)
      (Rvc.Form.addi16sp.expand (opcode.setWidth 16)) (.inr trivial)).mpr fun h2 => nomatch h2
    rw [step_half ho hz.1,
      runAt_expand (f := .addi16sp) .fresh (by decide) (by decide) hacc h0]
    refine iff_of_false (fun hill => ?_) fun hn => hn (.inr hz)
    cases hs : placed 2 ((Rvc.Form.addi16sp.expand (opcode.setWidth 16)).translate
        (.start m.pc) .fresh).2 m with
    | error e =>
        rw [hs] at ha
        exact ha
    | ok m' =>
        rw [hs] at ha hill
        exact nomatch ha.exception.symm.trans hill.exception
  · have hat : insnAt m.pc opcode =
        (decodeInsn16 (.start m.pc) .fresh (opcode.setWidth 16)).2 := by
      unfold insnAt decodeInsn
      rw [if_pos hlen]
    have hr := (Rvc.decodeInsn16_illegal_iff (.start m.pc) .fresh hz).mpr (.inl hne)
    rw [step_rejected ho (hat ▸ hr), agrees_illegal h]
    refine iff_of_true rfl fun hm => ?_
    rcases hm with hm | hm
    · exact hq ((quadrant_low opcode).trans (low_of_opcode hm.1))
    · exact hz hm

theorem undefined_agrees_iff (h : c.Shows .none m) (hu : c.Undefined) :
    c.Agrees (.error .illegal) m.step ↔ c.Refused := by
  by_cases hw : c.Window
  · obtain ⟨opcode, h4⟩ := hw
    have hr : c.Refused ↔ ¬ Misread opcode := by
      constructor
      · rintro ⟨opcode', h4', hm⟩
        cases h4.symm.trans h4'
        exact hm
      · exact fun hm => ⟨opcode, h4, hm⟩
    rw [hr]
    rcases hu with ⟨w, hw4, hq, hne⟩ | ⟨w, h2, hq, hne⟩
    · cases h4.symm.trans hw4
      exact undefined_word_iff h h4 hq hne
    · cases h2.symm.trans (load_low h4)
      exact undefined_half_iff h h4 hq hne
  · rw [h.step_error hw, agrees_error]
    exact iff_of_false nofun fun ⟨opcode, h4, _⟩ => hw ⟨opcode, h4⟩

theorem unfetchable_agrees (h : c.Shows .none m) (hu : c.Unfetchable) :
    c.Agrees (.error .access) m.step := by
  have hw : ¬ c.Window := fun ⟨opcode, h4⟩ => (hu _ (load_low h4)).2 ⟨opcode, h4⟩
  rw [h.step_error hw]
  rfl

/-- The emulator gets right what is at the pc. -/
structure Covered (c : Core) : Prop where
  fetched : ∀ i len, c.Fetches i len → c.Sound i len
  undefined : c.Undefined → c.Refused

theorem agrees_of_covered (h : c.Shows .none m) (hc : c.Covered) {o : Except Trap Core}
    (ho : c.Outcome o) : c.Agrees o m.step := by
  cases ho with
  | fetched hf => exact (agrees_step_iff h hf).mpr (hc.fetched _ _ hf)
  | undefined hu => exact (undefined_agrees_iff h hu).mpr (hc.undefined hu)
  | unfetchable hu => exact unfetchable_agrees h hu

/-- The hart that a machine shows, with nothing reserved. -/
def ofMachine (m : Machine) (h0 : m.gpr 0 = 0) : Core where
  x := m.gpr
  zero := h0
  pc := m.pc
  mem := m.mem
  frm := m.env.frm.setWidth 3
  fflags := m.env.fflags.setWidth 5
  vxrm := m.env.vxrm.setWidth 2
  vxsat := m.env.vxsat.setWidth 1
  csrs n := readCsr m.env (n.setWidth 32)
  reserved := none

theorem setWidth_of_lt {v : Word} {w : Nat} (hv : v.toNat < 2 ^ w) :
    (v.setWidth w).setWidth 64 = v := by
  apply BitVec.eq_of_toNat_eq
  rw [BitVec.toNat_setWidth, BitVec.toNat_setWidth, Nat.mod_eq_of_lt hv,
    Nat.mod_eq_of_lt v.isLt]

theorem append_of_lt {a b : Word} {m n : Nat} (hw : m + n ≤ 64) (ha : a.toNat < 2 ^ m)
    (hb : b.toNat < 2 ^ n) :
    (a.setWidth m ++ b.setWidth n).setWidth 64 = (a <<< n) ||| b := by
  have hlt : a.toNat <<< n ||| b.toNat < 2 ^ 64 := by
    refine Nat.lt_of_lt_of_le ?_ (Nat.pow_le_pow_right (by decide) hw)
    rw [← Nat.shiftLeft_add_eq_or_of_lt hb, Nat.shiftLeft_eq, Nat.pow_add]
    calc a.toNat * 2 ^ n + b.toNat < a.toNat * 2 ^ n + 2 ^ n := Nat.add_lt_add_left hb _
      _ = (a.toNat + 1) * 2 ^ n := (Nat.succ_mul _ _).symm
      _ ≤ 2 ^ m * 2 ^ n := Nat.mul_le_mul_right _ ha
  have hshift : a.toNat <<< n < 2 ^ 64 := Nat.lt_of_le_of_lt Nat.left_le_or hlt
  apply BitVec.eq_of_toNat_eq
  rw [BitVec.toNat_setWidth, BitVec.toNat_append, BitVec.toNat_setWidth, BitVec.toNat_setWidth,
    Nat.mod_eq_of_lt ha, Nat.mod_eq_of_lt hb, Nat.mod_eq_of_lt hlt, BitVec.toNat_or,
    BitVec.toNat_shiftLeft, Nat.mod_eq_of_lt hshift]

/-- A machine shows a hart only while its CSRs are made of their parts. -/
theorem shows_ofMachine (h0 : m.gpr 0 = 0) (hc : Coherent m.env) (he : m.exception = .none) :
    (ofMachine m h0).Shows .none m := by
  refine ⟨rfl, rfl, rfl, fun n => ?_, he⟩
  cases hn : composite n with
  | false => exact (csr_other (ofMachine m h0) hn).symm
  | true =>
      rcases composite_iff.mp hn with rfl | rfl | rfl | rfl | rfl | rfl
      · exact congrArg some (setWidth_of_lt hc.fflags).symm
      · exact congrArg some (setWidth_of_lt hc.frm).symm
      · exact congrArg some (hc.fcsr.trans (append_of_lt (by decide) hc.frm hc.fflags).symm)
      · exact congrArg some (setWidth_of_lt hc.vxsat).symm
      · exact congrArg some (setWidth_of_lt hc.vxrm).symm
      · exact congrArg some (hc.vcsr.trans (append_of_lt (by decide) hc.vxrm hc.vxsat).symm)

theorem coherent_boot (mem : Memory) : Coherent (Machine.boot mem).env :=
  Cleared.coherent ⟨rfl, rfl, rfl, rfl, rfl, rfl⟩

end Core

end Rvvk.Isa
