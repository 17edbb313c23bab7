import Rvvk.Isa.Decode
import Rvvk.Isa.DecodeCompressed

/-!
# What the decoder accepts

The words that `decode_insn16` and `decode_insn32` send to `trans_illegal`,
against the encodings of the instruction set.
-/

namespace Rvvk.Isa

/-- The word is the encoding of an instruction. -/
def IsEncoding (w : BitVec 32) : Prop := ∃ i : Instr, i.encode = w

/-! ## Codes that the switch knows -/

def ROp.all : List ROp :=
  [add, sub, sll, slt, sltu, xor, srl, sra, or, and, addw, subw, sllw, srlw, sraw, mul, mulh,
    mulhsu, mulhu, div, divu, rem, remu, mulw, divw, divuw, remw, remuw]

def IOp.all : List IOp :=
  [lb, lh, lw, ld, lbu, lhu, lwu, addi, slti, sltiu, xori, ori, andi, addiw]

def ShiftOp.all : List ShiftOp := [slli, srli, srai]

def ShiftWOp.all : List ShiftWOp := [slliw, srliw, sraiw]

def SOp.all : List SOp := [sb, sh, sw, sd]

def BOp.all : List BOp := [beq, bne, blt, bge, bltu, bgeu]

def CsrOp.all : List CsrOp := [csrrw, csrrs, csrrc, csrrwi, csrrsi, csrrci]

def AmoOp.all : List AmoOp := [sc, swap, add, xor, and, or, min, max, minu, maxu]

theorem switchOp_codes : ∀ (f3 : BitVec 3) (f7 : BitVec 7),
    switchOp (word f7 0 0 f3 0 0b0110011#7) ≠ .illegal →
      ∃ op ∈ ROp.all, op.opcode = 0b0110011#7 ∧ op.funct3 = f3 ∧ op.funct7 = f7 := by
  decide +kernel

theorem switchOp32_codes : ∀ (f3 : BitVec 3) (f7 : BitVec 7),
    switchOp32 (word f7 0 0 f3 0 0b0111011#7) ≠ .illegal →
      ∃ op ∈ ROp.all, op.opcode = 0b0111011#7 ∧ op.funct3 = f3 ∧ op.funct7 = f7 := by
  decide +kernel

theorem switchLoad_codes : ∀ f3 : BitVec 3,
    switchLoad (word 0 0 0 f3 0 0b0000011#7) ≠ .illegal →
      ∃ op ∈ IOp.all, op.opcode = 0b0000011#7 ∧ op.funct3 = f3 := by
  decide

theorem switchOpImm_codes : ∀ (f3 : BitVec 3) (f6 : BitVec 6),
    switchOpImm (word (f6 ++ 0#1) 0 0 f3 0 0b0010011#7) ≠ .illegal →
      (∃ op ∈ IOp.all, op.opcode = 0b0010011#7 ∧ op.funct3 = f3) ∨
        ∃ op ∈ ShiftOp.all, op.funct3 = f3 ∧ op.funct6 = f6 := by
  decide +kernel

theorem switchOpImm32_codes : ∀ (f3 : BitVec 3) (f7 : BitVec 7),
    switchOpImm32 (word f7 0 0 f3 0 0b0011011#7) ≠ .illegal →
      (∃ op ∈ IOp.all, op.opcode = 0b0011011#7 ∧ op.funct3 = f3) ∨
        ∃ op ∈ ShiftWOp.all, op.funct3 = f3 ∧ op.funct7 = f7 := by
  decide +kernel

theorem switchStore_codes : ∀ f3 : BitVec 3,
    switchStore (word 0 0 0 f3 0 0b0100011#7) ≠ .illegal → ∃ op ∈ SOp.all, op.funct3 = f3 := by
  decide

theorem switchBranch_codes : ∀ f3 : BitVec 3,
    switchBranch (word 0 0 0 f3 0 0b1100011#7) ≠ .illegal → ∃ op ∈ BOp.all, op.funct3 = f3 := by
  decide

theorem switchSystem_codes : ∀ f3 : BitVec 3, f3 ≠ 0 →
    switchSystem (word 0 0 0 f3 0 0b1110011#7) ≠ .illegal → ∃ op ∈ CsrOp.all, op.funct3 = f3 := by
  decide

theorem switchAmo_codes : ∀ (f3 : BitVec 3) (f5 : BitVec 5) (b : BitVec 1),
    switchAmo (word (f5 ++ 0#2) (b.setWidth 5) 0 f3 0 0b0101111#7) ≠ .illegal →
      (f3 = Width.w.funct3 ∨ f3 = Width.d.funct3) ∧
        ((f5 = 0b00010#5 ∧ b = 0) ∨ ∃ op ∈ AmoOp.all, op.funct5 = f5) := by
  decide +kernel

/-! ## The switch sees the codes only -/

section

variable (w : BitVec 32)

theorem switchOp_word :
    switchOp w = switchOp (word (w.extractLsb' 25 7) 0 0 (w.extractLsb' 12 3) 0 0b0110011#7) := by
  simp only [switchOp, and_funct3Mask, and_funct7Mask, word_funct3, word_funct7]

theorem switchOp32_word :
    switchOp32 w = switchOp32 (word (w.extractLsb' 25 7) 0 0 (w.extractLsb' 12 3) 0 0b0111011#7) := by
  simp only [switchOp32, and_funct3Mask, and_funct7Mask, word_funct3, word_funct7]

theorem switchLoad_word :
    switchLoad w = switchLoad (word 0 0 0 (w.extractLsb' 12 3) 0 0b0000011#7) := by
  simp only [switchLoad, and_funct3Mask, word_funct3]

theorem switchOpImm_word :
    switchOpImm w =
      switchOpImm (word (w.extractLsb' 26 6 ++ 0#1) 0 0 (w.extractLsb' 12 3) 0 0b0010011#7) := by
  have h6 (f6 : BitVec 6) (f3 : BitVec 3) :
      (word (f6 ++ 0#1) 0 0 f3 0 0b0010011#7).extractLsb' 26 6 = f6 := by
    rw [word_high _ _ _ _ _ _ _ _ (by decide), BitVec.extractLsb'_append_eq_left]
  simp only [switchOpImm, and_funct3Mask, and_i11xMask, word_funct3, h6]

theorem switchOpImm32_word :
    switchOpImm32 w =
      switchOpImm32 (word (w.extractLsb' 25 7) 0 0 (w.extractLsb' 12 3) 0 0b0011011#7) := by
  simp only [switchOpImm32, and_funct3Mask, and_funct7Mask, word_funct3, word_funct7]

theorem switchStore_word :
    switchStore w = switchStore (word 0 0 0 (w.extractLsb' 12 3) 0 0b0100011#7) := by
  simp only [switchStore, and_funct3Mask, word_funct3]

theorem switchBranch_word :
    switchBranch w = switchBranch (word 0 0 0 (w.extractLsb' 12 3) 0 0b1100011#7) := by
  simp only [switchBranch, and_funct3Mask, word_funct3]

theorem switchSystem_word :
    switchSystem w = switchSystem (word 0 0 0 (w.extractLsb' 12 3) 0 0b1110011#7) := by
  simp only [switchSystem, and_funct3Mask, word_funct3]

/-- Of `rs2` the switch sees whether it is zero. -/
theorem switchAmo_word :
    switchAmo w = switchAmo (word (w.extractLsb' 27 5 ++ 0#2)
      ((if w.extractLsb' 20 5 = 0 then 0#1 else 1#1).setWidth 5) 0 (w.extractLsb' 12 3) 0
        0b0101111#7) := by
  simp only [switchAmo, and_funct3Mask, and_op2731Mask, and_op2024Mask, word_funct3, word_funct5,
    word_rs2]
  by_cases hz : w.extractLsb' 20 5 = 0
  · rw [hz]
    rfl
  · have hx : (w.extractLsb' 20 5).setWidth 32 <<< 20 ≠ 0x00000000#32 := by
      intro h
      have h' := congrArg (BitVec.extractLsb' 20 5) h
      rw [Slice.extract_place _ 20 (by decide)] at h'
      exact hz h'
    have hy : (BitVec.setWidth 5 1#1).setWidth 32 <<< 20 ≠ 0x00000000#32 := by decide
    rw [if_neg hz]
    simp only [switch_miss hx, switch_miss hy, switch_nil]

end

/-! ## Every accepted word is an encoding -/

section

variable {w : BitVec 32}

theorem wordI_eta (w : BitVec 32) :
    wordI (w.extractLsb' 20 12) (w.extractLsb' 15 5) (w.extractLsb' 12 3) (w.extractLsb' 7 5)
      (w.extractLsb' 0 7) = w := by
  rw [wordI, Slice.extract_extract _ 20 5 12 7 (by decide),
    Slice.extract_extract _ 20 0 12 5 (by decide)]
  exact word_eta w

theorem wordS_eta (w : BitVec 32) :
    wordS (w.extractLsb' 25 7 ++ w.extractLsb' 7 5) (w.extractLsb' 20 5) (w.extractLsb' 15 5)
      (w.extractLsb' 12 3) (w.extractLsb' 0 7) = w := by
  rw [wordS, BitVec.extractLsb'_append_eq_left, BitVec.extractLsb'_append_eq_right, word_eta]

theorem wordU_eta (w : BitVec 32) :
    wordU (w.extractLsb' 12 20) (w.extractLsb' 7 5) (w.extractLsb' 0 7) = w := by
  unfold wordU
  rw [BitVec.extractLsb'_append_extractLsb'_eq_extractLsb' (by decide),
    BitVec.extractLsb'_append_extractLsb'_eq_extractLsb' (by decide)]
  exact BitVec.extractLsb'_eq_self

theorem wordB_eta (w : BitVec 32) :
    wordB (w.extractLsb' 31 1 ++ (w.extractLsb' 7 1 ++ (w.extractLsb' 25 6 ++ w.extractLsb' 8 4))
        : BitVec (1 + (1 + (6 + 4))))
      (w.extractLsb' 20 5) (w.extractLsb' 15 5) (w.extractLsb' 12 3) (w.extractLsb' 0 7) = w := by
  rw [wordB, BitVec.extractLsb'_append_eq_left, BitVec.extractLsb'_append_eq_of_add_le (by decide),
    BitVec.extractLsb'_append_eq_of_add_le (by decide), BitVec.extractLsb'_append_eq_left,
    BitVec.extractLsb'_append_eq_of_add_le (by decide),
    BitVec.extractLsb'_append_eq_of_add_le (by decide), BitVec.extractLsb'_append_eq_right,
    BitVec.extractLsb'_append_eq_of_add_le (by decide), BitVec.extractLsb'_append_eq_left,
    BitVec.extractLsb'_append_extractLsb'_eq_extractLsb' (by decide),
    BitVec.extractLsb'_append_extractLsb'_eq_extractLsb' (by decide)]
  exact word_eta w

theorem wordJ_eta (w : BitVec 32) :
    wordJ (w.extractLsb' 31 1 ++ (w.extractLsb' 12 8 ++ (w.extractLsb' 20 1 ++ w.extractLsb' 21 10))
        : BitVec (1 + (8 + (1 + 10))))
      (w.extractLsb' 7 5) (w.extractLsb' 0 7) = w := by
  rw [wordJ, BitVec.extractLsb'_append_eq_left, BitVec.extractLsb'_append_eq_of_add_le (by decide),
    BitVec.extractLsb'_append_eq_of_add_le (by decide), BitVec.extractLsb'_append_eq_right,
    BitVec.extractLsb'_append_eq_of_add_le (by decide),
    BitVec.extractLsb'_append_eq_of_add_le (by decide), BitVec.extractLsb'_append_eq_left,
    BitVec.extractLsb'_append_eq_of_add_le (by decide), BitVec.extractLsb'_append_eq_left,
    BitVec.extractLsb'_append_extractLsb'_eq_extractLsb' (by decide),
    BitVec.extractLsb'_append_extractLsb'_eq_extractLsb' (by decide),
    BitVec.extractLsb'_append_extractLsb'_eq_extractLsb' (by decide)]
  exact wordU_eta w

theorem opcode_of_mask {c : BitVec 7} (h : w &&& opcodeMask = c.setWidth 32) :
    w.extractLsb' 0 7 = c := by
  have hx := (Slice.and_mask_eq_iff w 0 c (by decide)).mp
  rw [show Slice.mask 32 0 7 = opcodeMask by decide, BitVec.shiftLeft_zero] at hx
  exact hx h

theorem funct3_of_mask {c : BitVec 3} (h : w &&& funct3Mask = c.setWidth 32 <<< 12) :
    w.extractLsb' 12 3 = c := by
  have hx := (Slice.and_mask_eq_iff w 12 c (by decide)).mp
  rw [show Slice.mask 32 12 3 = funct3Mask by decide] at hx
  exact hx h

/-- The words of an opcode that the switch sends on to a family of operations. -/
theorem isEncoding_op (ho : w.extractLsb' 0 7 = 0b0110011#7) (h : switchOp w ≠ .illegal) :
    IsEncoding w := by
  rw [switchOp_word] at h
  obtain ⟨op, -, h0, h3, h7⟩ := switchOp_codes _ _ h
  refine ⟨.r op (w.extractLsb' 7 5) (w.extractLsb' 15 5) (w.extractLsb' 20 5), ?_⟩
  rw [Instr.encode, h0, h3, h7, ← ho, word_eta]

theorem isEncoding_op32 (ho : w.extractLsb' 0 7 = 0b0111011#7) (h : switchOp32 w ≠ .illegal) :
    IsEncoding w := by
  rw [switchOp32_word] at h
  obtain ⟨op, -, h0, h3, h7⟩ := switchOp32_codes _ _ h
  refine ⟨.r op (w.extractLsb' 7 5) (w.extractLsb' 15 5) (w.extractLsb' 20 5), ?_⟩
  rw [Instr.encode, h0, h3, h7, ← ho, word_eta]

theorem isEncoding_load (ho : w.extractLsb' 0 7 = 0b0000011#7) (h : switchLoad w ≠ .illegal) :
    IsEncoding w := by
  rw [switchLoad_word] at h
  obtain ⟨op, -, h0, h3⟩ := switchLoad_codes _ h
  refine ⟨.i op (w.extractLsb' 7 5) (w.extractLsb' 15 5) (w.extractLsb' 20 12), ?_⟩
  rw [Instr.encode, h0, h3, ← ho, wordI_eta]

theorem isEncoding_opImm (ho : w.extractLsb' 0 7 = 0b0010011#7) (h : switchOpImm w ≠ .illegal) :
    IsEncoding w := by
  rw [switchOpImm_word] at h
  rcases switchOpImm_codes _ _ h with ⟨op, -, h0, h3⟩ | ⟨op, -, h3, h6⟩
  · refine ⟨.i op (w.extractLsb' 7 5) (w.extractLsb' 15 5) (w.extractLsb' 20 12), ?_⟩
    rw [Instr.encode, h0, h3, ← ho, wordI_eta]
  · have hi : (w.extractLsb' 26 6 ++ w.extractLsb' 20 6 : BitVec (6 + 6)) = w.extractLsb' 20 12 :=
      BitVec.extractLsb'_append_extractLsb'_eq_extractLsb' rfl
    refine ⟨.shift op (w.extractLsb' 7 5) (w.extractLsb' 15 5) (w.extractLsb' 20 6), ?_⟩
    rw [Instr.encode, h6, h3, ← ho, hi, wordI_eta]

theorem isEncoding_opImm32 (ho : w.extractLsb' 0 7 = 0b0011011#7)
    (h : switchOpImm32 w ≠ .illegal) : IsEncoding w := by
  rw [switchOpImm32_word] at h
  rcases switchOpImm32_codes _ _ h with ⟨op, -, h0, h3⟩ | ⟨op, -, h3, h7⟩
  · refine ⟨.i op (w.extractLsb' 7 5) (w.extractLsb' 15 5) (w.extractLsb' 20 12), ?_⟩
    rw [Instr.encode, h0, h3, ← ho, wordI_eta]
  · have hi : (w.extractLsb' 25 7 ++ w.extractLsb' 20 5 : BitVec (7 + 5)) = w.extractLsb' 20 12 :=
      BitVec.extractLsb'_append_extractLsb'_eq_extractLsb' rfl
    refine ⟨.shiftW op (w.extractLsb' 7 5) (w.extractLsb' 15 5) (w.extractLsb' 20 5), ?_⟩
    rw [Instr.encode, h7, h3, ← ho, hi, wordI_eta]

theorem isEncoding_store (ho : w.extractLsb' 0 7 = 0b0100011#7) (h : switchStore w ≠ .illegal) :
    IsEncoding w := by
  rw [switchStore_word] at h
  obtain ⟨op, -, h3⟩ := switchStore_codes _ h
  refine ⟨.s op (w.extractLsb' 15 5) (w.extractLsb' 20 5)
    (w.extractLsb' 25 7 ++ w.extractLsb' 7 5), ?_⟩
  rw [Instr.encode, h3, ← ho, wordS_eta]

theorem isEncoding_branch (ho : w.extractLsb' 0 7 = 0b1100011#7) (h : switchBranch w ≠ .illegal) :
    IsEncoding w := by
  rw [switchBranch_word] at h
  obtain ⟨op, -, h3⟩ := switchBranch_codes _ h
  have hw := wordB_eta w
  rw [ho, ← h3] at hw
  exact ⟨.b op (w.extractLsb' 15 5) (w.extractLsb' 20 5) _, hw⟩

theorem isEncoding_jalr (ho : w.extractLsb' 0 7 = 0b1100111#7) (h : switchJalr w ≠ .illegal) :
    IsEncoding w := by
  have h3 : w.extractLsb' 12 3 = 0#3 := by
    have hx : ∀ f3 : BitVec 3,
        switchJalr (word 0 0 0 f3 0 0b1100111#7) ≠ .illegal → f3 = 0#3 := by decide
    apply hx
    simpa only [switchJalr, and_funct3Mask, word_funct3] using h
  have hw := wordI_eta w
  rw [ho, h3] at hw
  exact ⟨.jalr (w.extractLsb' 7 5) (w.extractLsb' 15 5) (w.extractLsb' 20 12), hw⟩

theorem isEncoding_system (ho : w.extractLsb' 0 7 = 0b1110011#7) (hf : w.extractLsb' 12 3 ≠ 0)
    (h : switchSystem w ≠ .illegal) : IsEncoding w := by
  rw [switchSystem_word] at h
  obtain ⟨op, -, h3⟩ := switchSystem_codes _ hf h
  refine ⟨.csr op (w.extractLsb' 7 5) (w.extractLsb' 15 5) (w.extractLsb' 20 12), ?_⟩
  rw [Instr.encode, h3, ← ho, wordI_eta]

theorem isEncoding_miscMem (ho : w.extractLsb' 0 7 = 0b0001111#7)
    (h : switchMiscMem w ≠ .illegal) : IsEncoding w := by
  have h3 : w.extractLsb' 12 3 = 0#3 ∨ w.extractLsb' 12 3 = 1#3 := by
    obtain ⟨label, r, hmem, hl, -⟩ := exists_case h
    rcases List.mem_cons.mp hmem with heq | hmem
    · cases heq
      exact .inl (funct3_of_mask hl)
    · cases List.mem_singleton.mp hmem
      exact .inr (funct3_of_mask hl)
  have hw := wordI_eta w
  rcases h3 with h3 | h3
  · rw [ho, h3] at hw
    exact ⟨.fence (w.extractLsb' 7 5) (w.extractLsb' 15 5) (w.extractLsb' 20 12), hw⟩
  · rw [ho, h3] at hw
    exact ⟨.fenceI (w.extractLsb' 7 5) (w.extractLsb' 15 5) (w.extractLsb' 20 12), hw⟩

theorem isEncoding_amo (ho : w.extractLsb' 0 7 = 0b0101111#7) (h : switchAmo w ≠ .illegal) :
    IsEncoding w := by
  rw [switchAmo_word] at h
  obtain ⟨hf, h5⟩ := switchAmo_codes _ _ _ h
  obtain ⟨width, h3⟩ : ∃ width : Width, width.funct3 = w.extractLsb' 12 3 := by
    rcases hf with hf | hf
    · exact ⟨.w, hf.symm⟩
    · exact ⟨.d, hf.symm⟩
  have hi : (w.extractLsb' 27 5 ++ w.extractLsb' 25 2 : BitVec (5 + 2)) = w.extractLsb' 25 7 :=
    BitVec.extractLsb'_append_extractLsb'_eq_extractLsb' rfl
  have hw := word_eta w
  rcases h5 with ⟨h5, hz⟩ | ⟨op, -, h5⟩
  · have hrs2 : w.extractLsb' 20 5 = 0 := by
      by_cases hn : w.extractLsb' 20 5 = 0
      · exact hn
      · rw [if_neg hn] at hz
        cases hz
    rw [← hi, h5, hrs2, ← h3, ho] at hw
    exact ⟨.lr width (w.extractLsb' 25 2) (w.extractLsb' 7 5) (w.extractLsb' 15 5), hw⟩
  · rw [← hi, ← h5, ← h3, ho] at hw
    exact ⟨.amo op width (w.extractLsb' 25 2) (w.extractLsb' 7 5) (w.extractLsb' 15 5)
      (w.extractLsb' 20 5), hw⟩

theorem isEncoding_of_ne_illegal
    (hsys : ¬ (w.extractLsb' 0 7 = 0b1110011#7 ∧ w.extractLsb' 12 3 = 0))
    (h : switch32 w ≠ .illegal) : IsEncoding w := by
  obtain ⟨label, r, hmem, hl, hr⟩ := exists_case h
  have hr : r ≠ .illegal := fun hn => h (hr.trans hn)
  simp only [List.mem_cons, Prod.mk.injEq, List.not_mem_nil, or_false] at hmem
  rcases hmem with ⟨rfl, rfl⟩ | ⟨rfl, rfl⟩ | ⟨rfl, rfl⟩ | ⟨rfl, rfl⟩ | ⟨rfl, rfl⟩ | ⟨rfl, rfl⟩ |
    ⟨rfl, rfl⟩ | ⟨rfl, rfl⟩ | ⟨rfl, rfl⟩ | ⟨rfl, rfl⟩ | ⟨rfl, rfl⟩ | ⟨rfl, rfl⟩ | ⟨rfl, rfl⟩ |
    ⟨rfl, rfl⟩
  · exact isEncoding_load (opcode_of_mask hl) hr
  · exact isEncoding_miscMem (opcode_of_mask hl) hr
  · exact isEncoding_opImm (opcode_of_mask hl) hr
  · have hw := wordU_eta w
    rw [opcode_of_mask (c := 0b0010111#7) hl] at hw
    exact ⟨.auipc (w.extractLsb' 7 5) (w.extractLsb' 12 20), hw⟩
  · exact isEncoding_opImm32 (opcode_of_mask hl) hr
  · exact isEncoding_store (opcode_of_mask hl) hr
  · exact isEncoding_amo (opcode_of_mask hl) hr
  · exact isEncoding_op (opcode_of_mask hl) hr
  · have hw := wordU_eta w
    rw [opcode_of_mask (c := 0b0110111#7) hl] at hw
    exact ⟨.lui (w.extractLsb' 7 5) (w.extractLsb' 12 20), hw⟩
  · exact isEncoding_op32 (opcode_of_mask hl) hr
  · exact isEncoding_branch (opcode_of_mask hl) hr
  · exact isEncoding_jalr (opcode_of_mask hl) hr
  · have hw := wordJ_eta w
    rw [opcode_of_mask (c := 0b1101111#7) hl] at hw
    exact ⟨.jal (w.extractLsb' 7 5) _, hw⟩
  · have ho : w.extractLsb' 0 7 = 0b1110011#7 := opcode_of_mask hl
    exact isEncoding_system ho (fun hf => hsys ⟨ho, hf⟩) hr

end

/-! ## 32-bit words -/

section

variable (ctx : Ctx) (insn : Insn)

theorem Instr.handler_ne_illegal (i : Instr) : i.handler ≠ .doIllegal := by
  cases i with
  | r op | i op | shift op | shiftW op | s op | b op | csr op => cases op <;> nofun
  | lr width => cases width <;> nofun
  | amo op width => cases width <;> cases op <;> nofun
  | _ => nofun

theorem Instr.handler_eq_ecall {i : Instr} (h : i.handler = .doEcall) :
    i = .ecall ∨ i = .ebreak := by
  cases i with
  | r op | i op | shift op | shiftW op | s op | b op | csr op => cases op <;> cases h
  | lr width => cases width <;> cases h
  | amo op width => cases width <;> cases op <;> cases h
  | ecall => exact .inl rfl
  | ebreak => exact .inr rfl
  | _ => cases h

theorem accepted_of_encoding {w : BitVec 32} (h : IsEncoding w) :
    (decodeInsn32 ctx insn w).2.handler ≠ .doIllegal := by
  obtain ⟨i, rfl⟩ := h
  rw [(decode_encode i ctx insn).1]
  cases i.discards with
  | true => nofun
  | false => exact i.handler_ne_illegal

/-- A word outside the SYSTEM words with `funct3` 0 is rejected exactly if it is
not an encoding. -/
theorem decodeInsn32_illegal_iff {w : BitVec 32}
    (hsys : ¬ (w.extractLsb' 0 7 = 0b1110011#7 ∧ w.extractLsb' 12 3 = 0)) :
    (decodeInsn32 ctx insn w).2.handler = .doIllegal ↔ ¬ IsEncoding w := by
  constructor
  · intro h he
    exact accepted_of_encoding ctx insn he h
  · intro h
    have hs : switch32 w = .illegal := by
      by_cases hs : switch32 w = .illegal
      · exact hs
      · exact (h (isEncoding_of_ne_illegal hsys hs)).elim
    rw [decodeInsn32, hs]
    rfl

/-- Only a SYSTEM word with `funct3` 0 is taken for a system call. -/
theorem system_of_ecall {w : BitVec 32} (h : (decodeInsn32 ctx insn w).2.handler = .doEcall) :
    w.extractLsb' 0 7 = 0b1110011#7 ∧ w.extractLsb' 12 3 = 0 := by
  by_cases hsys : w.extractLsb' 0 7 = 0b1110011#7 ∧ w.extractLsb' 12 3 = 0
  · exact hsys
  · have hs : switch32 w ≠ .illegal := by
      intro hs
      rw [decodeInsn32, hs] at h
      cases h
    obtain ⟨i, rfl⟩ := isEncoding_of_ne_illegal hsys hs
    rw [(decode_encode i ctx insn).1] at h
    cases hd : i.discards with
    | true =>
        rw [hd] at h
        cases h
    | false =>
        rw [hd] at h
        rcases Instr.handler_eq_ecall h with rfl | rfl
        · exact ⟨by decide, by decide⟩
        · exact ⟨by decide, by decide⟩

end

/-! ## 16-bit words -/

namespace Rvc

/-- What a format says about the operands of its words. -/
def Form.Operands (w : BitVec 16) : Form → Prop
  | lui => rd w ≠ 2
  | mv | add => rs2 w ≠ 0
  | jalr => rd w ≠ 0
  | _ => True

theorem form_operands {w : BitVec 16} {f : Form} (h : form w = some f) : f.Operands w := by
  simp only [form, form0, form1, form2, formAlu, formCr] at h
  rcases two_bits_cases (quadrant w) with hq | hq | hq | hq
  · rcases three_bits_cases (funct3 w) with hf | hf | hf | hf | hf | hf | hf | hf <;>
      (rw [hq, hf] at h; cases h) <;> trivial
  · rcases three_bits_cases (funct3 w) with hf | hf | hf | hf | hf | hf | hf | hf
    case inr.inr.inr.inl =>
      rw [hq, hf] at h
      by_cases hsp : rd w = 2
      · rw [if_pos hsp] at h
        cases h
        trivial
      · rw [if_neg hsp] at h
        cases h
        exact hsp
    case inr.inr.inr.inr.inl =>
      rw [hq, hf] at h
      rcases two_bits_cases (w.extractLsb' 10 2) with h10 | h10 | h10 | h10
      case inr.inr.inr =>
        rcases bit_cases (w.extractLsb' 12 1) with h12 | h12 <;>
          rcases two_bits_cases (w.extractLsb' 5 2) with h5 | h5 | h5 | h5 <;>
            (rw [h10, h12, h5] at h; cases h) <;> trivial
      all_goals
        rw [h10] at h
        cases h
        trivial
    all_goals
      rw [hq, hf] at h
      cases h
      trivial
  · rcases three_bits_cases (funct3 w) with hf | hf | hf | hf | hf | hf | hf | hf
    case inr.inr.inr.inr.inl =>
      rw [hq, hf] at h
      rcases bit_cases (w.extractLsb' 12 1) with h12 | h12 <;> rw [h12] at h <;>
        by_cases hrs2 : rs2 w = 0 <;> by_cases hrd : rd w = 0 <;>
          (simp only [hrs2, hrd] at h; cases h) <;> trivial
    all_goals
      rw [hq, hf] at h
      cases h
      try trivial
  · rcases three_bits_cases (funct3 w) with hf | hf | hf | hf | hf | hf | hf | hf <;>
      (rw [hq, hf] at h; cases h)

/-- A format whose words with `rd` zero are HINTs that the decoder rejects. -/
def Form.rejectsHint : Form → Bool
  | li | lui | slli | mv | add => true
  | _ => false

/-- The word is a HINT of `c.li`, `c.lui`, `c.slli`, `c.mv` or `c.add`. -/
def IsRejectedHint (w : BitVec 16) : Prop :=
  ∃ f, form w = some f ∧ ¬ Reserved w f ∧ f.rejectsHint = true ∧ rd w = 0

theorem guardOperands_illegal_iff {bad : Insn → Prop} [DecidablePred bad] {ctx : Ctx}
    {insn : Insn} {k : Ctx → Insn → Ctx × Insn} (hk : (k ctx insn).2.handler ≠ .doIllegal) :
    (guardOperands bad ctx insn k).2.handler = .doIllegal ↔ bad insn := by
  unfold guardOperands
  by_cases hb : bad insn
  · rw [if_pos hb]
    exact ⟨fun _ => hb, fun _ => rfl⟩
  · rw [if_neg hb]
    exact ⟨fun h => (hk h).elim, fun h => (hb h).elim⟩

/-- The operands on which the words of a format are rejected. -/
def Form.Rejected (w : BitVec 16) : Form → Prop
  | addi4spn => w.extractLsb' 5 8 = 0
  | addiw | li | slli | lwsp | ldsp | jr | jalr => rd w = 0
  | lui => rd w = 0 ∨ rd w = 2 ∨ imm6 w = 0
  | mv | add => rd w = 0 ∨ rs2 w = 0
  | _ => False

theorem immLui_zero (w : BitVec 16) : (imm6 w).signExtend 20 ++ 0#12 = 0 ↔ imm6 w = 0 := by
  constructor
  · intro h
    have h : (imm6 w).signExtend 20 ++ 0#12 = 0#20 ++ 0#12 := h
    have hx := (Slice.append_inj_iff.mp h).1
    have hy := congrArg (BitVec.extractLsb' 0 6) hx
    rw [Slice.extract_signExtend _ 0 6 (by decide) (by decide), BitVec.extractLsb'_eq_self] at hy
    exact hy
  · intro h
    rw [h]
    decide

theorem guardPlain_illegal_iff {bad : Insn → Prop} [DecidablePred bad] {ctx : Ctx} {insn : Insn}
    {h : Handler} (hh : h ≠ .doIllegal) :
    (guardOperands bad ctx insn (transPlain h)).2.handler = .doIllegal ↔ bad insn :=
  guardOperands_illegal_iff hh

theorem guardExit_illegal_iff {bad : Insn → Prop} [DecidablePred bad] {ctx : Ctx} {insn : Insn}
    {h : Handler} (hh : h ≠ .doIllegal) :
    (guardOperands bad ctx insn (transExit h)).2.handler = .doIllegal ↔ bad insn :=
  guardOperands_illegal_iff hh

theorem Form.illegal_iff {w : BitVec 16} (ctx : Ctx) (insn : Insn) (f : Form) :
    ((f.sel w).trans ctx insn w).2.handler = .doIllegal ↔ f.Rejected w := by
  cases f with
  | addi4spn =>
      unfold sel Rejected
      by_cases hz : w.extractLsb' 5 8 = 0
      · rw [if_pos hz]
        exact ⟨fun _ => hz, fun _ => rfl⟩
      · rw [if_neg hz]
        constructor
        · intro h
          cases h
        · intro h
          exact (hz h).elim
  | addi =>
      have hne : (transCAddi ctx insn w).2.handler ≠ .doIllegal := by
        unfold transCAddi
        dsimp only
        split <;> nofun
      exact ⟨fun h => (hne h).elim, False.elim⟩
  | addiw =>
      refine (guardPlain_illegal_iff (by decide)).trans ?_
      rw [decodeInsn16ExtractCAddi, rd_eq, Rejected]
  | li =>
      refine (guardPlain_illegal_iff (by decide)).trans ?_
      rw [decodeInsn16ExtractCLi, rd_eq, Rejected]
  | lui =>
      refine (guardPlain_illegal_iff (by decide)).trans ?_
      rw [decodeInsn16ExtractCLui, rd_eq, immLui_eq, immLui_zero, Rejected]
  | slli =>
      refine (guardPlain_illegal_iff (by decide)).trans ?_
      rw [decodeInsn16ExtractCSlli, rd_eq, Rejected]
  | lwsp =>
      refine (guardPlain_illegal_iff (by decide)).trans ?_
      rw [decodeInsn16ExtractCLwsp, rd_eq, Rejected]
  | ldsp =>
      refine (guardPlain_illegal_iff (by decide)).trans ?_
      rw [decodeInsn16ExtractCLdsp, rd_eq, Rejected]
  | jr =>
      refine (guardExit_illegal_iff (by decide)).trans ?_
      rw [decodeInsn16ExtractCJr, rd_eq, Rejected]
  | jalr =>
      refine (guardExit_illegal_iff (by decide)).trans ?_
      rw [decodeInsn16ExtractCJalr, rd_eq, Rejected]
  | mv =>
      refine (guardPlain_illegal_iff (by decide)).trans ?_
      rw [decodeInsn16ExtractCMv, rd_eq, rs2_eq, Rejected]
  | add =>
      refine (guardPlain_illegal_iff (by decide)).trans ?_
      rw [decodeInsn16ExtractCAdd, rd_eq, rs2_eq, Rejected]
  | _ => exact ⟨nofun, False.elim⟩

/-- Rejected operands are the reserved ones and the rejected HINTs, but for the
zero immediate of `c.addi16sp`. -/
theorem Form.rejected_iff {w : BitVec 16} {f : Form} (ho : f.Operands w)
    (hz : ¬ (f = .addi16sp ∧ imm6 w = 0)) :
    f.Rejected w ↔ Reserved w f ∨ (f.rejectsHint = true ∧ rd w = 0) := by
  cases f with
  | addi16sp => exact ⟨False.elim, fun h => h.elim (fun h => hz ⟨rfl, h⟩) fun h => nomatch h.1⟩
  | lui =>
      have ho : rd w ≠ 2 := ho
      simp only [Rejected, Reserved, rejectsHint, ho, false_or, true_and]
      exact Or.comm
  | mv =>
      have ho : rs2 w ≠ 0#5 := ho
      simp [Rejected, Reserved, rejectsHint, ho]
  | add =>
      have ho : rs2 w ≠ 0#5 := ho
      simp [Rejected, Reserved, rejectsHint, ho]
  | jalr =>
      have ho : rd w ≠ 0#5 := ho
      simp [Rejected, Reserved, rejectsHint, ho]
  | _ => simp [Rejected, Reserved, rejectsHint]

/-- A word is rejected exactly if it is no encoding or one of the rejected HINTs.
`c.addi16sp` with immediate zero is left out. -/
theorem decodeInsn16_illegal_iff {w : BitVec 16} (ctx : Ctx) (insn : Insn)
    (hz : ¬ (form w = some .addi16sp ∧ imm6 w = 0)) :
    (decodeInsn16 ctx insn w).2.handler = .doIllegal ↔ ¬ IsEncoding w ∨ IsRejectedHint w := by
  cases hf : form w with
  | none =>
      have hn : ¬ IsEncoding w := by
        rintro ⟨f, hf', -⟩
        rw [hf] at hf'
        cases hf'
      rw [decodeInsn16, switch16_form, hf]
      exact ⟨fun _ => .inl hn, fun _ => rfl⟩
  | some f =>
      have hz : ¬ (f = .addi16sp ∧ imm6 w = 0) := by
        rintro ⟨rfl, h0⟩
        exact hz ⟨hf, h0⟩
      rw [decodeInsn16_form ctx insn hf, f.illegal_iff, f.rejected_iff (form_operands hf) hz]
      constructor
      · intro h
        by_cases hr : Reserved w f
        · refine .inl ?_
          rintro ⟨f', hf', hr'⟩
          cases hf.symm.trans hf'
          exact hr' hr
        · exact .inr ⟨f, hf, hr, h.resolve_left hr⟩
      · rintro (h | ⟨f', hf', -, hh⟩)
        · by_cases hr : Reserved w f
          · exact .inl hr
          · exact (h ⟨f, hf, hr⟩).elim
        · cases hf.symm.trans hf'
          exact .inr hh

end Rvc

/-! ## The accepted instruction set -/

/-- The words that are rejected, of both sizes. `c.addi16sp` with immediate zero
and the SYSTEM words with `funct3` 0 other than `ecall` are left out. -/
theorem accepts_instruction_set (ctx : Ctx) (insn : Insn) :
    (∀ w : BitVec 16, ¬ (Rvc.form w = some .addi16sp ∧ Rvc.imm6 w = 0) →
      ((decodeInsn16 ctx insn w).2.handler = .doIllegal ↔
        ¬ Rvc.IsEncoding w ∨ Rvc.IsRejectedHint w)) ∧
    (∀ w : BitVec 32, ¬ (w.extractLsb' 0 7 = 0b1110011#7 ∧ w.extractLsb' 12 3 = 0) →
      ((decodeInsn32 ctx insn w).2.handler = .doIllegal ↔ ¬ IsEncoding w)) ∧
    (decodeInsn32 ctx insn Instr.ecall.encode).2.handler = .doEcall ∧
    (∀ w : BitVec 32, (decodeInsn32 ctx insn w).2.handler = .doEcall →
      w.extractLsb' 0 7 = 0b1110011#7 ∧ w.extractLsb' 12 3 = 0) :=
  ⟨fun _ hz => Rvc.decodeInsn16_illegal_iff ctx insn hz,
    fun _ hsys => decodeInsn32_illegal_iff ctx insn hsys,
    (decode_encode .ecall ctx insn).1,
    fun _ h => system_of_ecall ctx insn h⟩

/-- The HINT `c.li x0, 0` is an encoding and is rejected. -/
theorem c_li_x0_rejected :
    Rvc.IsEncoding 0x4001#16 ∧ (decodeInsn16 (.start 0) .fresh 0x4001).2.handler = .doIllegal :=
  ⟨⟨.li, by decide, id⟩, by decide⟩

-- `ebreak` is not told from `ecall`, and `c.addi16sp` takes the immediate zero.
example : (decodeInsn32 (.start 0) .fresh Instr.ebreak.encode).2.handler = .doEcall := by decide
example : (decodeInsn16 (.start 0) .fresh 0x6101).2.handler = .doAddi := by decide

end Rvvk.Isa
