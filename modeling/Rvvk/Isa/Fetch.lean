import Rvvk.Isa.Refinement

/-!
# The instruction at the pc

A word encodes one instruction at most, so that the hart fetches one at most and its steps
are those of a function.
-/

namespace Rvvk.Isa

/-! ## The instruction of a word -/

def ofCode {α : Type} (all : List α) (code : α → Bool) (f : α → Instr) : Option Instr :=
  (all.find? code).map f

/-- Bits 12 and 10 to 5, and bits 4 to 1 and 11, in the fields of the R layout. -/
def offsetOfB (f7 : BitVec 7) (rd : Reg) : BitVec 12 :=
  (f7.extractLsb' 6 1 ++ (rd.extractLsb' 0 1 ++ (f7.extractLsb' 0 6 ++ rd.extractLsb' 1 4))
    : BitVec (1 + (1 + (6 + 4))))

/-- Bits 20, 10 to 1, 11 and 19 to 12. -/
def offsetOfJ (imm : BitVec 20) : BitVec 20 :=
  (imm.extractLsb' 19 1 ++ (imm.extractLsb' 0 8 ++ (imm.extractLsb' 8 1 ++ imm.extractLsb' 9 10))
    : BitVec (1 + (8 + (1 + 10))))

def Width.ofFunct3 (f3 : BitVec 3) : Option Width :=
  if f3 = 0b010#3 then some .w else if f3 = 0b011#3 then some .d else none

/-- The fields of the R layout tell the instruction, but for the immediates of the U layout. -/
def Instr.ofFields (f7 : BitVec 7) (rs2 rs1 : Reg) (f3 : BitVec 3) (rd : Reg) (opc : BitVec 7)
    (imm : BitVec 12) (high : BitVec 20) : Option Instr :=
  if opc = 0b0110011#7 ∨ opc = 0b0111011#7 then
    ofCode ROp.all (fun op => op.opcode = opc ∧ op.funct3 = f3 ∧ op.funct7 = f7)
      fun op => .r op rd rs1 rs2
  else if opc = 0b0000011#7 ∨ opc = 0b0010011#7 ∨ opc = 0b0011011#7 then
    ofCode IOp.all (fun op => op.opcode = opc ∧ op.funct3 = f3) (fun op => .i op rd rs1 imm) <|>
      if opc = 0b0010011#7 then
        ofCode ShiftOp.all
          (fun op => op.funct3 = f3 ∧ op.funct6 = imm.extractLsb' 6 6)
          fun op => .shift op rd rs1 (imm.extractLsb' 0 6)
      else
        ofCode ShiftWOp.all
          (fun op => op.funct3 = f3 ∧ op.funct7 = imm.extractLsb' 5 7)
          fun op => .shiftW op rd rs1 (imm.extractLsb' 0 5)
  else if opc = 0b0100011#7 then
    ofCode SOp.all (fun op => op.funct3 = f3) fun op =>
      .s op rs1 rs2 (f7 ++ rd : BitVec (7 + 5))
  else if opc = 0b1100011#7 then
    ofCode BOp.all (fun op => op.funct3 = f3) fun op =>
      .b op rs1 rs2 (offsetOfB f7 rd)
  else if opc = 0b0110111#7 then some (.lui rd high)
  else if opc = 0b0010111#7 then some (.auipc rd high)
  else if opc = 0b1101111#7 then some (.jal rd (offsetOfJ high))
  else if opc = 0b1100111#7 then if f3 = 0 then some (.jalr rd rs1 imm) else none
  else if opc = 0b1110011#7 then
    ofCode CsrOp.all (fun op => op.funct3 = f3)
        (fun op => .csr op rd rs1 imm) <|>
      if f3 = 0 ∧ rd = 0 ∧ rs1 = 0 then
        if imm = 0 then some .ecall else if imm = 1 then some .ebreak else none
      else none
  else if opc = 0b0101111#7 then
    (Width.ofFunct3 f3).bind fun width =>
      if f7.extractLsb' 2 5 = 0b00010#5 then
        if rs2 = 0 then some (.lr width (f7.extractLsb' 0 2) rd rs1) else none
      else
        ofCode AmoOp.all (fun op => op.funct5 = f7.extractLsb' 2 5) fun op =>
          .amo op width (f7.extractLsb' 0 2) rd rs1 rs2
  else if opc = 0b0001111#7 then
    if f3 = 0 then some (.fence rd rs1 imm) else if f3 = 1 then some (.fenceI rd rs1 imm) else none
  else none

def Instr.candidate (w : BitVec 32) : Option Instr :=
  ofFields (w.extractLsb' 25 7) (w.extractLsb' 20 5) (w.extractLsb' 15 5) (w.extractLsb' 12 3)
    (w.extractLsb' 7 5) (w.extractLsb' 0 7) (w.extractLsb' 20 12) (w.extractLsb' 12 20)

theorem offsetOfB_word (offset : BitVec 12) :
    offsetOfB (offset.extractLsb' 11 1 ++ offset.extractLsb' 4 6)
      (offset.extractLsb' 0 4 ++ offset.extractLsb' 10 1) = offset := by
  unfold offsetOfB
  rw [BitVec.extractLsb'_append_eq_left, BitVec.extractLsb'_append_eq_right,
    BitVec.extractLsb'_append_eq_right, BitVec.extractLsb'_append_eq_left,
    BitVec.extractLsb'_append_extractLsb'_eq_extractLsb' (by decide),
    BitVec.extractLsb'_append_extractLsb'_eq_extractLsb' (by decide),
    BitVec.extractLsb'_append_extractLsb'_eq_extractLsb' (by decide)]
  exact BitVec.extractLsb'_eq_self

theorem offsetOfJ_word (offset : BitVec 20) :
    offsetOfJ (offset.extractLsb' 19 1 ++ (offset.extractLsb' 0 10 ++
      (offset.extractLsb' 10 1 ++ offset.extractLsb' 11 8) : BitVec (10 + (1 + 8)))) = offset := by
  unfold offsetOfJ
  rw [BitVec.extractLsb'_append_eq_left,
    BitVec.extractLsb'_append_eq_of_add_le (by decide : 0 + 8 ≤ 10 + (1 + 8)),
    BitVec.extractLsb'_append_eq_of_add_le (by decide : 0 + 8 ≤ 1 + 8),
    BitVec.extractLsb'_append_eq_right,
    BitVec.extractLsb'_append_eq_of_add_le (by decide : 8 + 1 ≤ 10 + (1 + 8)),
    BitVec.extractLsb'_append_eq_of_add_le (by decide : 8 + 1 ≤ 1 + 8),
    BitVec.extractLsb'_append_eq_left,
    BitVec.extractLsb'_append_eq_of_add_le (by decide : 9 + 10 ≤ 10 + (1 + 8)),
    BitVec.extractLsb'_append_eq_left,
    BitVec.extractLsb'_append_extractLsb'_eq_extractLsb' (by decide),
    BitVec.extractLsb'_append_extractLsb'_eq_extractLsb' (by decide),
    BitVec.extractLsb'_append_extractLsb'_eq_extractLsb' (by decide)]
  exact BitVec.extractLsb'_eq_self

theorem candidate_wordI (imm : BitVec 12) (rs1 : Reg) (f3 : BitVec 3) (rd : Reg) (opc : BitVec 7) :
    Instr.candidate (wordI imm rs1 f3 rd opc) =
      Instr.ofFields (imm.extractLsb' 5 7) (imm.extractLsb' 0 5) rs1 f3 rd opc imm
        ((wordI imm rs1 f3 rd opc).extractLsb' 12 20) := by
  unfold Instr.candidate
  rw [wordI_imm]
  unfold wordI
  rw [word_funct7, word_rs2, word_rs1, word_funct3, word_rd, word_opcode]

theorem Instr.candidate_encode (i : Instr) : candidate i.encode = some i := by
  cases i with
  | r op rd rs1 rs2 =>
      unfold candidate encode
      rw [word_funct7, word_rs2, word_rs1, word_funct3, word_rd, word_opcode]
      cases op <;> rfl
  | i op rd rs1 imm =>
      rw [encode, candidate_wordI]
      cases op <;> rfl
  | shift op rd rs1 shamt =>
      rw [encode, candidate_wordI]
      have h6 : (op.funct6 ++ shamt).extractLsb' 6 6 = op.funct6 :=
        BitVec.extractLsb'_append_eq_left
      have h0 : (op.funct6 ++ shamt).extractLsb' 0 6 = shamt := BitVec.extractLsb'_append_eq_right
      unfold ofFields
      rw [h6, h0]
      cases op <;> rfl
  | shiftW op rd rs1 shamt =>
      rw [encode, candidate_wordI]
      have h5 : (op.funct7 ++ shamt).extractLsb' 5 7 = op.funct7 :=
        BitVec.extractLsb'_append_eq_left
      have h0 : (op.funct7 ++ shamt).extractLsb' 0 5 = shamt := BitVec.extractLsb'_append_eq_right
      unfold ofFields
      rw [h5, h0]
      cases op <;> rfl
  | s op rs1 rs2 imm =>
      have himm : imm.extractLsb' 5 7 ++ imm.extractLsb' 0 5 = imm := by
        rw [BitVec.extractLsb'_append_extractLsb'_eq_extractLsb' (by decide)]
        exact BitVec.extractLsb'_eq_self
      unfold candidate encode wordS
      rw [word_funct7, word_rs2, word_rs1, word_funct3, word_rd, word_opcode]
      have hfields {f : BitVec 12} {u : BitVec 20} :
          ofFields (imm.extractLsb' 5 7) rs2 rs1 op.funct3 (imm.extractLsb' 0 5) 0b0100011#7 f u =
            some (.s op rs1 rs2 (imm.extractLsb' 5 7 ++ imm.extractLsb' 0 5)) := by
        cases op <;> rfl
      rw [hfields, himm]
  | b op rs1 rs2 offset =>
      unfold candidate encode wordB
      rw [word_funct7, word_rs2, word_rs1, word_funct3, word_rd, word_opcode]
      have hfields {f7 : BitVec 7} {rd : Reg} {f : BitVec 12} {u : BitVec 20} :
          ofFields f7 rs2 rs1 op.funct3 rd 0b1100011#7 f u =
            some (.b op rs1 rs2 (offsetOfB f7 rd)) := by
        cases op <;> rfl
      rw [hfields, offsetOfB_word]
  | lui rd imm =>
      unfold candidate encode
      rw [wordU_opcode, wordU_rd, wordU_imm]
      rfl
  | auipc rd imm =>
      unfold candidate encode
      rw [wordU_opcode, wordU_rd, wordU_imm]
      rfl
  | jal rd offset =>
      unfold candidate encode wordJ
      rw [wordU_opcode, wordU_rd, wordU_imm]
      exact congrArg (fun o => some (Instr.jal rd o)) (offsetOfJ_word offset)
  | jalr rd rs1 imm =>
      rw [encode, candidate_wordI]
      rfl
  | csr op rd rs1 num =>
      rw [encode, candidate_wordI]
      cases op <;> rfl
  | lr width aqrl rd rs1 =>
      unfold candidate encode
      rw [word_funct7, word_rs2, word_rs1, word_funct3, word_rd, word_opcode]
      have hf : (0b00010#5 ++ aqrl).extractLsb' 2 5 = 0b00010#5 := BitVec.extractLsb'_append_eq_left
      have ha : (0b00010#5 ++ aqrl).extractLsb' 0 2 = aqrl := BitVec.extractLsb'_append_eq_right
      unfold ofFields
      rw [hf, ha]
      cases width <;> rfl
  | amo op width aqrl rd rs1 rs2 =>
      unfold candidate encode
      rw [word_funct7, word_rs2, word_rs1, word_funct3, word_rd, word_opcode]
      have hf : (op.funct5 ++ aqrl).extractLsb' 2 5 = op.funct5 := BitVec.extractLsb'_append_eq_left
      have ha : (op.funct5 ++ aqrl).extractLsb' 0 2 = aqrl := BitVec.extractLsb'_append_eq_right
      unfold ofFields
      rw [hf, ha]
      cases op <;> cases width <;> rfl
  | fence rd rs1 imm =>
      rw [encode, candidate_wordI]
      rfl
  | fenceI rd rs1 imm =>
      rw [encode, candidate_wordI]
      rfl
  | ecall => rfl
  | ebreak => rfl

theorem Instr.encode_injective {i j : Instr} (h : i.encode = j.encode) : i = j := by
  have hi := i.candidate_encode
  rw [h, j.candidate_encode] at hi
  exact (Option.some.inj hi).symm

def Instr.ofWord (w : BitVec 32) : Option Instr := (candidate w).filter fun i => i.encode = w

theorem Instr.ofWord_eq_some {w : BitVec 32} {i : Instr} : ofWord w = some i ↔ i.encode = w := by
  unfold ofWord
  rw [Option.filter_eq_some_iff, decide_eq_true_eq]
  constructor
  · exact And.right
  · rintro rfl
    exact ⟨i.candidate_encode, rfl⟩

/-! ## The instruction at the pc -/

instance (w : BitVec 16) (f : Rvc.Form) : Decidable (Rvc.Reserved w f) :=
  match f with
  | .addi4spn => inferInstanceAs (Decidable (w.extractLsb' 5 8 = 0))
  | .addiw | .lwsp | .ldsp | .jr => inferInstanceAs (Decidable (Rvc.rd w = 0))
  | .addi16sp | .lui => inferInstanceAs (Decidable (Rvc.imm6 w = 0))
  | .lw | .ld | .sw | .sd | .addi | .li | .srli | .srai | .andi | .sub | .xor | .or | .and
  | .subw | .addw | .j | .beqz | .bnez | .slli | .mv | .ebreak | .jalr | .add | .swsp | .sdsp =>
      inferInstanceAs (Decidable False)

namespace Core

def fetch (c : Core) : Option (Instr × Word) :=
  match c.load 2 c.pc with
  | .error _ => none
  | .ok w =>
      match Rvc.form w with
      | some f => if Rvc.Reserved w f then none else some (f.expand w, 2)
      | none =>
          match c.load 4 c.pc with
          | .error _ => none
          | .ok w => (Instr.ofWord w).map fun i => (i, 4)

variable {c c' c'' : Core} {i j : Instr} {len : Word}

theorem fetch_eq_some : c.fetch = some (i, len) ↔ c.Fetches i len := by
  constructor
  · intro h
    unfold fetch at h
    cases h2 : c.load 2 c.pc with
    | error t =>
        rw [h2] at h
        cases h
    | ok w =>
        rw [h2] at h
        dsimp only at h
        cases hf : Rvc.form w with
        | some f =>
            rw [hf] at h
            dsimp only at h
            split at h
            · cases h
            · rename_i hr
              cases h
              exact .half w f h2 hf hr
        | none =>
            rw [hf] at h
            dsimp only at h
            cases h4 : c.load 4 c.pc with
            | error t =>
                rw [h4] at h
                cases h
            | ok w =>
                rw [h4] at h
                obtain ⟨i', hi, he⟩ := Option.map_eq_some_iff.mp h
                cases he
                exact .word i (h4.trans (congrArg _ (Instr.ofWord_eq_some.mp hi).symm))
  · intro h
    unfold fetch
    cases h with
    | word i h4 =>
        have hf : Rvc.form (i.encode.setWidth 16) = none := by
          cases hf : Rvc.form (i.encode.setWidth 16) with
          | none => rfl
          | some f =>
              exact (Rvc.quadrant_of_form hf ((quadrant_low _).trans i.encode_low)).elim
        rw [load_low h4]
        simp only [hf, h4, Instr.ofWord_eq_some.mpr rfl, Option.map_some]
    | half w f h2 hf hr =>
        rw [h2]
        simp only [hf, if_neg hr]

/-- A step as a function, which says nothing of the trap where no instruction is fetched. -/
def next (c : Core) : Except Trap Core :=
  match c.fetch with
  | some (i, len) => c.exec len i
  | none => .error .illegal

theorem next_of_step (h : c.Step i c') : c.next = .ok c' := by
  obtain ⟨len, hf, he⟩ := h
  unfold next
  rw [fetch_eq_some.mpr hf]
  exact he

theorem step_unique (h : c.Step i c') (h' : c.Step j c'') : i = j ∧ c' = c'' := by
  refine ⟨?_, Except.ok.inj ((next_of_step h).symm.trans (next_of_step h'))⟩
  obtain ⟨len, hf, _⟩ := h
  obtain ⟨len', hf', _⟩ := h'
  cases (fetch_eq_some.mpr hf).symm.trans (fetch_eq_some.mpr hf')
  rfl

theorem not_undefined (hf : c.Fetches i len) : ¬ c.Undefined := by
  rintro (⟨w, h4, hq, hne⟩ | ⟨w, h2, hq, hne⟩)
  · cases hf with
    | word i h => exact hne ⟨i, Except.ok.inj (h.symm.trans h4)⟩
    | half w' f h hf hr =>
        cases h.symm.trans (load_low h4)
        exact Rvc.quadrant_of_form hf ((quadrant_low w).trans hq)
  · cases hf with
    | word i h =>
        cases h2.symm.trans (load_low h)
        exact hq ((quadrant_low _).trans i.encode_low)
    | half w' f h hf hr =>
        cases h2.symm.trans h
        exact hne ⟨f, hf, hr⟩

end Core

/-! ## Instructions that are exact whatever the operands -/

/-- The emulator gets these right on all operands. -/
def Instr.alwaysExact : Instr → Bool
  | .i _ rd _ _ | .lui rd _ | .auipc rd _ => rd != 0
  | .shift _ _ _ _ | .s _ _ _ _ | .b _ _ _ _ | .jal _ _ | .fence _ _ _ | .fenceI _ _ _ => true
  | .ecall => true
  | _ => false

namespace Core

variable {c : Core}

theorem exact_of_alwaysExact {i : Instr} (h : i.alwaysExact = true) (len : Word) :
    c.Exact len i := by
  have hrd {rd : Reg} (h : (rd != 0) = true) {p : Prop} (h0 : rd = 0) : p := by
    rw [h0] at h
    cases h
  cases i with
  | i | lui | auipc => exact hrd h
  | shift | s | b | jal | fence | fenceI | ecall => trivial
  | _ => cases h

/-- The window can be read, and what is fetched is exact whatever the operands. -/
def Easy (c : Core) : Prop :=
  c.Window ∧ ¬ c.Hint ∧ ∃ x, c.fetch = some x ∧ x.1.alwaysExact = true

instance (c : Core) : Decidable c.Window :=
  match h : c.load 4 c.pc with
  | .ok w => isTrue ⟨w, h⟩
  | .error _ => isFalse fun ⟨_, h'⟩ => nomatch h.symm.trans h'

instance (w : BitVec 16) : Decidable (Rvc.IsRejectedHint w) :=
  match h : Rvc.form w with
  | some f =>
      decidable_of_iff (¬ Rvc.Reserved w f ∧ f.rejectsHint = true ∧ Rvc.rd w = 0)
        ⟨fun hr => ⟨f, h, hr⟩, fun ⟨_, h', hr⟩ => Option.some.inj (h.symm.trans h') ▸ hr⟩
  | none => isFalse fun ⟨_, h', _⟩ => nomatch h.symm.trans h'

instance (c : Core) : Decidable c.Hint :=
  match h : c.load 2 c.pc with
  | .ok w =>
      decidable_of_iff (Rvc.IsRejectedHint w)
        ⟨fun hr => ⟨w, h, hr⟩, fun ⟨_, h', hr⟩ => Except.ok.inj (h.symm.trans h') ▸ hr⟩
  | .error _ => isFalse fun ⟨_, h', _⟩ => nomatch h.symm.trans h'

instance : DecidablePred Easy := fun c =>
  inferInstanceAs (Decidable (_ ∧ _ ∧ ∃ x, c.fetch = some x ∧ _))

theorem covered_of_easy (h : c.Easy) : c.Covered := by
  obtain ⟨hw, hh, ⟨i, len⟩, hf, ha⟩ := h
  refine ⟨fun j len' hj => ?_, fun hu => (not_undefined (fetch_eq_some.mp hf) hu).elim⟩
  cases hf.symm.trans (fetch_eq_some.mpr hj)
  exact .inl ⟨hw, hh, exact_of_alwaysExact ha _⟩

end Core

end Rvvk.Isa
