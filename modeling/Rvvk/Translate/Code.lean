import Rvvk.Translate.Block

/-!
# Code that does not change

A block is translated from the bytes of its instructions, each fetched through a
window of four bytes. While those bytes keep their values and the windows stay
readable, translating again gives the same block.
-/

namespace Rvvk

/-- The instruction at `pc` is the same in both memories. -/
structure SameInsn (mem mem' : Memory) (pc : Word) : Prop where
  window : ∀ i < 4, (mem'.byte? (pc + BitVec.ofNat 64 i)).isSome = true
  bytes : ∀ i < (insnLen (fetch mem pc)).toNat,
    mem'.byte? (pc + BitVec.ofNat 64 i) = mem.byte? (pc + BitVec.ofNat 64 i)

/-- So are the first `n` instructions of the straight line from `pc`. -/
def SameCode (mem mem' : Memory) (pc : Word) (n : Nat) : Prop :=
  ∀ j < n, SameInsn mem mem' (pcAt mem pc j)

theorem sameInsn_iff {mem mem' : Memory} {pc : Word} :
    ((∀ i < 4, (mem'.byte? (pc + BitVec.ofNat 64 i)).isSome = true) ∧
      ∀ i < (insnLen (fetch mem pc)).toNat,
        mem'.byte? (pc + BitVec.ofNat 64 i) = mem.byte? (pc + BitVec.ofNat 64 i)) ↔
      SameInsn mem mem' pc :=
  ⟨fun h => ⟨h.1, h.2⟩, fun h => ⟨h.window, h.bytes⟩⟩

instance (mem mem' : Memory) (pc : Word) : Decidable (SameInsn mem mem' pc) :=
  decidable_of_iff _ sameInsn_iff

instance (mem mem' : Memory) (pc : Word) (n : Nat) : Decidable (SameCode mem mem' pc n) :=
  inferInstanceAs (Decidable (∀ j < n, SameInsn mem mem' (pcAt mem pc j)))

theorem insnLen_eq (opcode : BitVec 32) :
    insnLen opcode = 4 ∧ opcode &&& 3 = 3 ∨ insnLen opcode = 2 ∧ opcode &&& 3 ≠ 3 := by
  unfold insnLen
  split
  · exact .inl ⟨rfl, ‹_›⟩
  · exact .inr ⟨rfl, ‹_›⟩

theorem insnLen_low (opcode : BitVec 32) :
    insnLen opcode = if opcode.extractLsb' 0 2 = 3 then 4 else 2 := by
  have h := Slice.and_mask_eq_iff opcode 0 (3 : BitVec 2) (by decide)
  rw [show Slice.mask 32 0 2 = 3 by decide,
    show (3 : BitVec 2).setWidth 32 <<< 0 = (3 : BitVec 32) by decide] at h
  unfold insnLen
  simp only [h]

def SameOpcode (opcode opcode' : BitVec 32) : Prop :=
  insnLen opcode' = insnLen opcode ∧ ∀ ctx insn, decodeInsn ctx insn opcode' =
    decodeInsn ctx insn opcode

/-- Opcodes that agree on the bytes of the instruction spell the same one. -/
theorem sameOpcode_of_bytes {opcode opcode' : BitVec 32}
    (h : ∀ i < (insnLen opcode).toNat,
      opcode'.extractLsb' (8 * i) 8 = opcode.extractLsb' (8 * i) 8) :
    SameOpcode opcode opcode' := by
  have hbit : ∀ j < 8 * (insnLen opcode).toNat, opcode'.getLsbD j = opcode.getLsbD j := by
    intro j hj
    have hb := congrArg (fun b : BitVec 8 => b.getLsbD (j % 8)) (h (j / 8) (by omega))
    have h8 : j % 8 < 8 := Nat.mod_lt _ (by omega)
    have hd : 8 * (j / 8) + j % 8 = j := by omega
    simpa [h8, hd] using hb
  rcases insnLen_eq opcode with ⟨hl, _⟩ | ⟨hl, _⟩
  · have he : opcode' = opcode := by
      apply BitVec.eq_of_getLsbD_eq
      intro j hj
      exact hbit j (by rw [hl]; exact hj)
    exact he ▸ ⟨rfl, fun _ _ => rfl⟩
  · have hlow : opcode'.setWidth 16 = opcode.setWidth 16 := by
      apply BitVec.eq_of_getLsbD_eq
      intro j hj
      simp only [BitVec.getLsbD_setWidth, hj, decide_true, Bool.true_and]
      exact hbit j (by rw [hl]; exact hj)
    have hlen : insnLen opcode' = insnLen opcode := by
      have h2 : opcode'.extractLsb' 0 2 = opcode.extractLsb' 0 2 := by
        apply BitVec.eq_of_getLsbD_eq
        intro j hj
        have hb := hbit j (by rw [hl]; exact Nat.lt_trans hj (by decide))
        simpa [hj] using hb
      rw [insnLen_low, insnLen_low, h2]
    refine ⟨hlen, fun ctx insn => ?_⟩
    unfold decodeInsn
    rw [if_pos (hlen.trans hl), if_pos hl, hlow]

theorem SameOpcode.insnAt {opcode opcode' : BitVec 32} (h : SameOpcode opcode opcode') (pc : Word) :
    insnAt pc opcode' = insnAt pc opcode := by
  unfold Rvvk.insnAt
  rw [h.2]

theorem SameInsn.opcode {mem mem' : Memory} {pc : Word} (hs : SameInsn mem mem' pc)
    {opcode : BitVec 32} (h : cpuLduw mem pc 0 = .ok opcode) :
    ∃ opcode', cpuLduw mem' pc 0 = .ok opcode' ∧ SameOpcode opcode opcode' := by
  have hb := Memory.cpuLduw_eq_ok.mp h
  obtain ⟨opcode', h'⟩ := Memory.exists_cpuLduw.mpr hs.window
  have hb' := Memory.cpuLduw_eq_ok.mp h'
  refine ⟨opcode', h', sameOpcode_of_bytes fun i hi => ?_⟩
  have h4 : i < 4 := by
    rcases insnLen_eq opcode with ⟨hl, _⟩ | ⟨hl, _⟩ <;> rw [hl] at hi <;> simp at hi <;> omega
  have he := hs.bytes i (by rwa [fetch_eq h])
  rw [hb' i h4, hb i h4] at he
  exact Option.some.inj he

theorem SameInsn.nextPc {mem mem' : Memory} {pc : Word} (hs : SameInsn mem mem' pc)
    {opcode : BitVec 32} (h : cpuLduw mem pc 0 = .ok opcode) :
    nextPc mem' pc = nextPc mem pc := by
  obtain ⟨opcode', h', hl, _⟩ := hs.opcode h
  unfold Rvvk.nextPc
  rw [fetch_eq h, fetch_eq h', hl]

/-- While its instructions stay the same, a block is translated the same. -/
theorem decode_congr {mem mem' : Memory} {room : Nat} {ctx ctx' : Ctx} {insns : List Insn}
    (hx : ctx.exit = false) (h : decode mem room ctx = .ok (ctx', insns))
    (hs : SameCode mem mem' ctx.pc insns.length) :
    decode mem' room ctx = .ok (ctx', insns) := by
  induction room generalizing ctx insns with
  | zero => exact h
  | succ room ih =>
      obtain ⟨opcode, ho, hc⟩ := decode_cases hx h
      have hpos : 0 < insns.length := by
        rcases hc with ⟨_, hc⟩ | ⟨_, _, hc⟩ | ⟨_, _, rest, _, hc⟩
        · cases hc; simp
        · cases hc; simp
        · dsimp only at hc; simp [hc]
      obtain ⟨opcode', ho', hl, hd'⟩ := (hs 0 hpos).opcode ho
      rw [pcAt_zero] at ho'
      have hi : insnAt ctx.pc opcode' = insnAt ctx.pc opcode := SameOpcode.insnAt ⟨hl, hd'⟩ _
      rw [decode_succ mem' room hx, ho']
      simp only [bind, Except.bind, hi]
      rcases hc with ⟨ht, hc⟩ | ⟨ht, h0, hc⟩ | ⟨ht, h0, rest, hd, hc⟩
      · rw [if_pos ht, hc]
      · rw [if_neg (by simp [ht]), if_pos h0, hc]
        unfold Ctx.cut
        rw [hl]
      · dsimp only at hc hd
        subst hc
        have hn : ctx.next opcode' = ctx.next opcode := by
          unfold Ctx.next
          rw [hl]
        rw [if_neg (by simp [ht]), if_neg h0, hn, ih (Ctx.next_exit hx) hd ?_]
        · rfl
        · intro j hj
          have hj' := hs (j + 1) (by simpa using hj)
          rwa [pcAt_succ, ← Ctx.next_pc ho] at hj'

theorem translate_eq_ok {mem : Memory} {pc : Word} {t : Translation} :
    translate mem pc = .ok t ↔ ∃ ctx, decode mem transMax (.start pc) = .ok (ctx, t.insns) ∧
      ctx.pcNext0 = t.next0 ∧ ctx.pcNext1 = t.next1 := by
  unfold translate
  constructor
  · intro h
    obtain ⟨⟨ctx, insns⟩, hd, h⟩ := bind_eq_ok h
    cases h
    exact ⟨ctx, hd, rfl, rfl⟩
  · rintro ⟨ctx, hd, h0, h1⟩
    rw [hd]
    simp only [bind, Except.bind, h0, h1]

theorem translate_getElem? {mem : Memory} {pc : Word} {t : Translation}
    (h : translate mem pc = .ok t) {j : Nat} {insn : Insn} (hj : t.insns[j]? = some insn) :
    ∃ opcode, cpuLduw mem (pcAt mem pc j) 0 = .ok opcode ∧
      insn = insnAt (pcAt mem pc j) opcode := by
  obtain ⟨ctx, hd, _, _⟩ := translate_eq_ok.mp h
  obtain ⟨opcode, ho, hi⟩ := decode_getElem? rfl hd (List.getElem?_eq_some_iff.mp hj).1
  rw [hj] at hi
  exact ⟨opcode, ho, Option.some.inj hi⟩

theorem translate_congr {mem mem' : Memory} {pc : Word} {t : Translation}
    (h : translate mem pc = .ok t) (hs : SameCode mem mem' pc t.insns.length) :
    translate mem' pc = .ok t := by
  obtain ⟨ctx, hd, h0, h1⟩ := translate_eq_ok.mp h
  exact translate_eq_ok.mpr ⟨ctx, decode_congr rfl hd hs, h0, h1⟩

theorem pcAt_congr {mem mem' : Memory} {pc : Word} {n : Nat} (hs : SameCode mem mem' pc n)
    (hf : ∀ j < n, ∃ opcode, cpuLduw mem (pcAt mem pc j) 0 = .ok opcode) {j : Nat} (hj : j ≤ n) :
    pcAt mem' pc j = pcAt mem pc j := by
  induction j with
  | zero => rfl
  | succ j ih =>
      obtain ⟨opcode, ho⟩ := hf j hj
      rw [pcAt_succ', pcAt_succ', ih (by omega), (hs j hj).nextPc ho]

end Rvvk
