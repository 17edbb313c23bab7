import Rvvk.Translate.Code

/-!
# The shape of a translated block

A block is a straight line of instructions, each behind the one before, that ends
at the first control transfer or when it is full. The loop of `decode` keeps the
address in the context, the place in the block and the count apart; here they
are seen to agree.
-/

namespace Rvvk

/-- The address behind instructions with these opcodes, from `pc` on. -/
def behind (pc : Word) (opcodes : List (BitVec 32)) : Word :=
  opcodes.foldl (fun pc opcode => pc + insnLen opcode) pc

/-- What the handler does depends on `insn->pc`. -/
def Insn.ReadsPc (insn : Insn) : Prop := ∃ pc m, { insn with pc := pc }.run m ≠ insn.run m

/-- The instructions of a block from `pc` on, with the opcodes they were decoded from. -/
structure Shaped (mem : Memory) (pc : Word) (insns : List Insn) (opcodes : List (BitVec 32)) :
    Prop where
  pos : 1 ≤ insns.length
  le : insns.length ≤ transMax
  length : opcodes.length = insns.length
  /-- Entry `k` is the instruction behind the entries before it. -/
  entry : ∀ k insn, insns[k]? = some insn → ∃ opcode, opcodes[k]? = some opcode ∧
    cpuLduw mem (behind pc (opcodes.take k)) 0 = .ok opcode ∧
      insn = insnAt (behind pc (opcodes.take k)) opcode
  ownPc : ∀ k insn, insns[k]? = some insn → insn.ReadsPc → insn.op.isCsr = false →
    insn.pc = behind pc (opcodes.take k)
  /-- Only the last entry transfers control, and it does so unless the block is full. -/
  inner : ∀ k insn, insns[k]? = some insn → k + 1 < insns.length → insn.op.transfers = false
  last : ∀ k insn, insns[k]? = some insn → k + 1 = insns.length →
    insn.op.transfers = true ∨ insns.length = transMax

/-! ## Handlers that read `insn->pc` -/

theorem Op.run_setPc {op : Op} (h : op.readsPc = false) (hc : op.isCsr = false) (insn : Insn)
    (pc : Word) (m : Machine) : op.run { insn with pc := pc } m = op.run insn m := by
  cases op with
  | csr => cases hc
  | auipc | illegal | ecall | jal | jalr | branch => cases h
  | _ => rfl

theorem Insn.readsPc_of {insn : Insn} (h : insn.ReadsPc) (hc : insn.op.isCsr = false) :
    insn.op.readsPc = true := by
  obtain ⟨pc, m, hne⟩ := h
  cases hr : insn.op.readsPc with
  | true => rfl
  | false => exact absurd (Op.run_setPc hr hc insn pc m) hne

/-! ## The loop -/

/-- The opcodes on the straight line from `pc`. -/
def opcodesFrom (mem : Memory) (pc : Word) (n : Nat) : List (BitVec 32) :=
  (List.range n).map fun j => fetch mem (pcAt mem pc j)

theorem opcodesFrom_take {mem : Memory} {pc : Word} {k n : Nat} (h : k ≤ n) :
    (opcodesFrom mem pc n).take k = opcodesFrom mem pc k := by
  rw [opcodesFrom, ← List.map_take, List.take_range, Nat.min_eq_left h]
  rfl

theorem behind_opcodesFrom (mem : Memory) (pc : Word) (k : Nat) :
    behind pc (opcodesFrom mem pc k) = pcAt mem pc k := by
  induction k with
  | zero => rfl
  | succ k ih =>
      have hs : opcodesFrom mem pc (k + 1) =
          opcodesFrom mem pc k ++ [fetch mem (pcAt mem pc k)] := by
        simp [opcodesFrom, List.range_succ]
      rw [hs, behind, List.foldl_append, pcAt_succ', ← ih]
      rfl

theorem translate_shaped {mem : Memory} {pc : Word} {t : Translation}
    (h : translate mem pc = .ok t) :
    Shaped mem pc t.insns (opcodesFrom mem pc t.insns.length) := by
  obtain ⟨ctx, hd, -, -⟩ := translate_eq_ok.mp h
  obtain ⟨init, last, hsplit, hstraight, hend⟩ := decode_end rfl (by decide) hd
  have hlen : t.insns.length = init.length + 1 := by
    rw [hsplit, List.length_append, List.length_singleton]
  have hentry : ∀ k insn, t.insns[k]? = some insn →
      ∃ opcode, (opcodesFrom mem pc t.insns.length)[k]? = some opcode ∧
        cpuLduw mem (behind pc ((opcodesFrom mem pc t.insns.length).take k)) 0 = .ok opcode ∧
          insn = insnAt (behind pc ((opcodesFrom mem pc t.insns.length).take k)) opcode := by
    intro k insn hk
    have hlt := (List.getElem?_eq_some_iff.mp hk).1
    obtain ⟨opcode, ho, hi⟩ := translate_getElem? h hk
    rw [opcodesFrom_take (by omega), behind_opcodesFrom]
    refine ⟨opcode, ?_, ho, hi⟩
    rw [opcodesFrom, List.getElem?_map, List.getElem?_range hlt, Option.map_some, fetch_eq ho]
  constructor
  case pos => omega
  case le => exact decode_length_le rfl hd
  case length => simp [opcodesFrom]
  case entry => exact hentry
  case ownPc =>
    intro k insn hk hr hc
    obtain ⟨opcode, -, -, hi⟩ := hentry k insn hk
    have hp := Insn.readsPc_of hr hc
    rw [hi] at hp ⊢
    exact insnAt_pc hp
  case inner =>
    intro k insn hk hlt
    rw [hsplit, List.getElem?_append_left (by omega)] at hk
    exact hstraight insn (List.mem_of_getElem? hk)
  case last =>
    intro k insn hk he
    rw [hsplit, List.getElem?_append_right (by omega), show k - init.length = 0 by omega] at hk
    cases hk
    rcases hend with ⟨ht, -⟩ | ⟨-, hfull, -, -⟩
    · exact .inl ht
    · exact .inr (hlen.trans hfull)

/-- The loop fails only when an instruction cannot be read, and none before it ends
the block. -/
theorem decode_error {mem : Memory} {room : Nat} {ctx : Ctx} {e : Fault} (hx : ctx.exit = false)
    (h : decode mem room ctx = .error e) : ∃ k < room, cpuLduw mem (pcAt mem ctx.pc k) 0 = .error e ∧
      ∀ j < k, ∃ opcode, cpuLduw mem (pcAt mem ctx.pc j) 0 = .ok opcode ∧
        (insnAt (pcAt mem ctx.pc j) opcode).op.transfers = false := by
  induction room generalizing ctx with
  | zero => cases h
  | succ room ih =>
      rw [decode_succ mem room hx] at h
      cases ho : cpuLduw mem ctx.pc 0 with
      | error e' =>
          rw [ho] at h
          cases h
          exact ⟨0, Nat.succ_pos room, ho, fun j hj => absurd hj (Nat.not_lt_zero j)⟩
      | ok opcode =>
          simp only [ho, bind, Except.bind] at h
          split at h
          · cases h
          · rename_i ht
            split at h
            · cases h
            · cases hd : decode mem room (ctx.next opcode) with
              | ok r =>
                  rw [hd] at h
                  cases h
              | error e' =>
                  rw [hd] at h
                  cases h
                  obtain ⟨k, hk, hf, hbefore⟩ := ih (Ctx.next_exit hx) hd
                  rw [Ctx.next_pc ho] at hf hbefore
                  refine ⟨k + 1, Nat.succ_lt_succ hk, hf, fun j hj => ?_⟩
                  cases j with
                  | zero => exact ⟨opcode, ho, by simpa using ht⟩
                  | succ j => exact hbefore j (Nat.lt_of_succ_lt_succ hj)

/-- The straight line from `pc` breaks off before the block is complete: the four bytes that
are fetched at the `k`-th instruction, however short it is, cannot be read. -/
def BreaksOff (mem : Memory) (pc : Word) (e : Fault) : Prop :=
  ∃ k < transMax, cpuLduw mem (behind pc (opcodesFrom mem pc k)) 0 = .error e ∧
    ∀ j < k, ∃ opcode, cpuLduw mem (behind pc (opcodesFrom mem pc j)) 0 = .ok opcode ∧
      (insnAt (behind pc (opcodesFrom mem pc j)) opcode).op.transfers = false

/-- For every memory and every pc, `translate` gives a block of the right shape, unless
one of the fetches for it fails. -/
theorem translate_shape (mem : Memory) (pc : Word) :
    match translate mem pc with
    | .ok t => ∃ opcodes, Shaped mem pc t.insns opcodes
    | .error e => BreaksOff mem pc e := by
  cases h : translate mem pc with
  | ok t => exact ⟨_, translate_shaped h⟩
  | error e =>
      have hd : decode mem transMax (.start pc) = .error e := by
        unfold translate at h
        cases hd : decode mem transMax (.start pc) with
        | error e' =>
            rw [hd] at h
            cases h
            rfl
        | ok r =>
            rw [hd] at h
            cases h
      obtain ⟨k, hk, hf, hbefore⟩ := decode_error rfl hd
      refine ⟨k, hk, (behind_opcodesFrom mem pc k).symm ▸ hf, fun j hj => ?_⟩
      rw [behind_opcodesFrom]
      exact hbefore j hj

/-- `c.addi a0, 1` and a jump back to it. -/
example : (translate (.ofWords [0xf06f0505, 0x0000ffff]) 0).toOption.map
    (fun t => t.insns.map Insn.pc) = some [0, 2] := by decide +kernel

end Rvvk
