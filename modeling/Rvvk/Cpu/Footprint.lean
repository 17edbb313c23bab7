import Rvvk.Cpu.Effects

/-!
# What a handler reads and writes

A handler loads from one span of addresses or from none and stores to one or to none, and
the host takes the store only where the pages are writable.
-/

namespace Rvvk

namespace Memory

variable {m m' : Memory} {base a : Word} {bs : List (BitVec 8)}

theorem storeBytes_other (h : m.storeBytes base bs = .ok m') (hl : bs.length ≤ 2 ^ 64)
    (ha : ¬ Span.Mem base bs.length a) : m' a = m a := by
  have hnone : bs[(a - base).toNat]? = none := List.getElem?_eq_none (Nat.le_of_not_lt ha)
  have hat := storeBytes_apply h hl a
  rw [hnone] at hat
  exact hat.trans Option.map_id'

theorem storeBytes_readOnly (h : m.storeBytes base bs = .ok m') (hl : bs.length ≤ 2 ^ 64)
    (ha : ¬ m.Writable a) : m' a = m a := by
  refine storeBytes_other h hl fun hmem => ha ?_
  have hw := storeBytes_eq_ok.mp ⟨m', h⟩ (a - base).toNat hmem
  rwa [BitVec.ofNat_toNat, BitVec.setWidth_eq, BitVec.add_comm, BitVec.sub_add_cancel] at hw

theorem loadBytes_congr {n : Nat}
    (h : ∀ i < n, m' (a + BitVec.ofNat 64 i) = m (a + BitVec.ofNat 64 i)) :
    m'.loadBytes a n = m.loadBytes a n := by
  induction n generalizing a with
  | zero => rfl
  | succ n ih =>
      have h0 := h 0 (Nat.succ_pos n)
      rw [BitVec.add_zero] at h0
      have hrest : m'.loadBytes (a + 1) n = m.loadBytes (a + 1) n := ih fun i hi => by
        rw [add_one_add_ofNat]
        exact h (i + 1) (Nat.succ_lt_succ hi)
      unfold loadBytes readByte byte?
      rw [h0, hrest]

theorem cpuLduw_congr (h : ∀ i < 4, m' (a + BitVec.ofNat 64 i) = m (a + BitVec.ofNat 64 i)) :
    cpuLduw m' a 0 = cpuLduw m a 0 := by
  unfold cpuLduw
  rw [show a + 0 = a from BitVec.add_zero a, loadBytes_congr h]

end Memory

/-- How many bytes `cpuSt` stores. -/
def stSize (n : Nat) : Nat :=
  match n with
  | 1 => 1
  | 2 => 2
  | 4 => 4
  | _ => 8

namespace Insn

variable {insn : Insn} {m m' : Machine} {a : Word}

def target? (insn : Insn) (m : Machine) : Option (Word × Nat) :=
  match insn.op with
  | .store n => some (m.gpr insn.rs1 + insn.immLong, stSize n)
  | .scW | .amoW _ | .amoSelW _ => some (m.gpr insn.rs1, 4)
  | .scD | .amoD _ | .amoSelD _ => some (m.gpr insn.rs1, 8)
  | _ => none

def source? (insn : Insn) (m : Machine) : Option (Word × Nat) :=
  match insn.op with
  | @Op.load w _ _ => some (m.gpr insn.rs1 + insn.immLong, w / 8)
  | .lrW | .amoW _ | .amoSelW _ => some (m.gpr insn.rs1, 4)
  | .lrD | .amoD _ | .amoSelD _ => some (m.gpr insn.rs1, 8)
  | _ => none

inductive Effect (insn : Insn) (m : Machine) (mem : Memory) : Prop
  | keeps (ht : insn.target? m = none) (hm : mem = m.mem)
  | stores {base : Word} {bs : List (BitVec 8)} (ht : insn.target? m = some (base, bs.length))
      (hl : bs.length ≤ 8) (hm : m.mem.storeBytes base bs = .ok mem)

theorem Effect.word {mem : Memory} (ht : insn.target? m = some (m.gpr insn.rs1, 4)) {v : BitVec 32}
    (hm : cpuStuw m.mem (m.gpr insn.rs1) 0 v = .ok mem) : Effect insn m mem := by
  have hlen : (LittleEndian.bytes v 4).length = 4 := LittleEndian.length_bytes v 4
  rw [cpuStuw, show m.gpr insn.rs1 + 0 = m.gpr insn.rs1 from BitVec.add_zero _] at hm
  exact .stores (hlen.symm ▸ ht) (by rw [hlen]; decide) hm

theorem Effect.double {mem : Memory} (ht : insn.target? m = some (m.gpr insn.rs1, 8))
    {v : BitVec 64} (hm : cpuStud m.mem (m.gpr insn.rs1) 0 v = .ok mem) : Effect insn m mem := by
  have hlen : (LittleEndian.bytes v 8).length = 8 := LittleEndian.length_bytes v 8
  rw [cpuStud, show m.gpr insn.rs1 + 0 = m.gpr insn.rs1 from BitVec.add_zero _] at hm
  exact .stores (hlen.symm ▸ ht) (Nat.le_of_eq hlen) hm

theorem cpuSt_bytes {n : Nat} {mem mem' : Memory} {addr off v : Word}
    (hm : cpuSt n mem addr off v = .ok mem') :
    ∃ bs, bs.length = stSize n ∧ mem.storeBytes (addr + off) bs = .ok mem' := by
  unfold cpuSt at hm
  split at hm
  · exact ⟨_, LittleEndian.length_bytes _ 1, hm⟩
  · exact ⟨_, LittleEndian.length_bytes _ 2, hm⟩
  · exact ⟨_, LittleEndian.length_bytes _ 4, hm⟩
  · rename_i h1 h2 h4
    refine ⟨_, ?_, hm⟩
    rw [LittleEndian.length_bytes, stSize]
    · exact h1
    · exact h2
    · exact h4

theorem stSize_le (n : Nat) : stSize n ≤ 8 := by
  unfold stSize
  split <;> decide

theorem stSize_pos (n : Nat) : 0 < stSize n := by
  unfold stSize
  split <;> decide

theorem target?_pos {base : Word} {n : Nat} (ht : insn.target? m = some (base, n)) : 0 < n := by
  unfold target? at ht
  split at ht <;> cases ht
  · exact stSize_pos _
  all_goals decide

theorem run_effect (h : insn.run m = .ok m') : Effect insn m m'.mem := by
  have hr : insn.op.run insn m = .ok m' := h
  cases hop : insn.op with
  | empty | illegal | ecall | auipc | lui | branch | aluR | aluI =>
      rw [hop] at hr
      cases hr
      exact .keeps (by rw [target?, hop]) rfl
  | jal size | jalr size =>
      rw [hop] at hr
      cases hr
      exact .keeps (by rw [target?, hop]) (mem_link size insn m)
  | aluDiv fault f =>
      rw [hop] at hr
      simp only [Op.run] at hr
      split at hr
      · cases hr
      · cases hr
        exact .keeps (by rw [target?, hop]) rfl
  | load ld ext =>
      rw [hop] at hr
      obtain ⟨v, _, hr⟩ := bind_eq_ok hr
      cases hr
      exact .keeps (by rw [target?, hop]) rfl
  | store n =>
      rw [hop] at hr
      obtain ⟨mem, hm, hr⟩ := bind_eq_ok hr
      cases hr
      obtain ⟨bs, hlen, hs⟩ := cpuSt_bytes hm
      exact .stores (by rw [target?, hop, hlen]) (hlen ▸ stSize_le n) hs
  | csr newValue wrMask =>
      rw [hop] at hr
      refine .keeps (by rw [target?, hop]) ?_
      cases hk : csrKnown insn.csr with
      | true =>
          obtain ⟨env, value, _, hrun⟩ := csr_known newValue wrMask insn m hk
          rw [hrun] at hr
          cases hr
          rfl
      | false =>
          rw [csr_unknown newValue wrMask insn m hk] at hr
          cases hr
          rfl
  | lrW | lrD =>
      rw [hop] at hr
      obtain ⟨v, _, hr⟩ := bind_eq_ok hr
      cases hr
      exact .keeps (by rw [target?, hop]) rfl
  | scW =>
      rw [hop] at hr
      obtain ⟨mem, hm, hr⟩ := bind_eq_ok hr
      cases hr
      exact .word (by rw [target?, hop]) hm
  | scD =>
      rw [hop] at hr
      obtain ⟨mem, hm, hr⟩ := bind_eq_ok hr
      cases hr
      exact .double (by rw [target?, hop]) hm
  | amoW f =>
      rw [hop] at hr
      obtain ⟨v, _, hr⟩ := bind_eq_ok hr
      obtain ⟨mem, hm, hr⟩ := bind_eq_ok hr
      cases hr
      exact .word (by rw [target?, hop]) hm
  | amoD f =>
      rw [hop] at hr
      obtain ⟨v, _, hr⟩ := bind_eq_ok hr
      obtain ⟨mem, hm, hr⟩ := bind_eq_ok hr
      cases hr
      exact .double (by rw [target?, hop]) hm
  | amoSelW f =>
      rw [hop, amoSelW_run] at hr
      obtain ⟨v, _, hr⟩ := bind_eq_ok hr
      obtain ⟨mem, hm, hr⟩ := bind_eq_ok hr
      cases hr
      exact .word (by rw [target?, hop]) hm
  | amoSelD f =>
      rw [hop, amoSelD_run] at hr
      obtain ⟨v, _, hr⟩ := bind_eq_ok hr
      obtain ⟨mem, hm, hr⟩ := bind_eq_ok hr
      cases hr
      exact .double (by rw [target?, hop]) hm

def Loads (insn : Insn) (m : Machine) (a : Word) : Prop :=
  ∃ base n, insn.source? m = some (base, n) ∧ Span.Mem base n a

def Stores (insn : Insn) (m : Machine) (a : Word) : Prop :=
  ∃ base n, insn.target? m = some (base, n) ∧ Span.Mem base n a

theorem run_other (h : insn.run m = .ok m') (ha : ¬ insn.Stores m a) : m'.mem a = m.mem a := by
  cases run_effect h with
  | keeps _ hm => rw [hm]
  | stores ht hl hm =>
      exact Memory.storeBytes_other hm (Nat.le_trans hl (by decide)) fun hmem => ha ⟨_, _, ht, hmem⟩

theorem run_readOnly (h : insn.run m = .ok m') (ha : ¬ m.mem.Writable a) :
    m'.mem a = m.mem a := by
  cases run_effect h with
  | keeps _ hm => rw [hm]
  | stores _ hl hm => exact Memory.storeBytes_readOnly hm (Nat.le_trans hl (by decide)) ha

end Insn

end Rvvk
