import Rvvk.Cpu.Footprint

/-!
# Memory out of reach

A handler that neither loads from nor stores to a part of the memory does the same to a
machine that has nothing mapped there.
-/

namespace Rvvk

namespace Memory

/-- Nothing is mapped where the condition holds. -/
def without (m : Memory) (p : Word → Prop) [DecidablePred p] : Memory := fun a =>
  if p a then none else m a

variable {m m' : Memory} {p : Word → Prop} [DecidablePred p] {a : Word}

theorem without_other (ha : ¬ p a) : m.without p a = m a := if_neg ha

theorem of_without {x : Cell} (h : m.without p a = some x) : m a = some x := by
  unfold without at h
  split at h
  · cases h
  · exact h

theorem byte?_without {b : BitVec 8} (h : (m.without p).byte? a = some b) : m.byte? a = some b := by
  unfold byte? without at h
  split at h
  · cases h
  · exact h

theorem without_congr (h : ∀ a, ¬ p a → m' a = m a) : m'.without p = m.without p := by
  funext a
  unfold without
  split
  · rfl
  · exact h a ‹_›

theorem loadBytes_without {n : Nat} (h : ∀ x, Span.Mem a n x → ¬ p x) :
    (m.without p).loadBytes a n = m.loadBytes a n :=
  loadBytes_congr fun _ hi => without_other (h _ (Span.mem_offset a hi))

theorem cpuLduw_without (h : ∀ x, Span.Mem a 4 x → ¬ p x) :
    cpuLduw (m.without p) a 0 = cpuLduw m a 0 := by
  unfold cpuLduw
  rw [show a + 0 = a from BitVec.add_zero a, loadBytes_without h]

theorem cpuLdud_without (h : ∀ x, Span.Mem a 8 x → ¬ p x) :
    cpuLdud (m.without p) a 0 = cpuLdud m a 0 := by
  unfold cpuLdud
  rw [show a + 0 = a from BitVec.add_zero a, loadBytes_without h]

theorem writeByte_without {b : BitVec 8} (ha : ¬ p a) :
    (m.without p).writeByte a b = (m.writeByte a b).map fun m' => m'.without p := by
  unfold writeByte
  rw [without_other ha]
  cases hm : m a with
  | none => rfl
  | some c =>
      dsimp only
      split
      · refine congrArg Except.ok (funext fun x => ?_)
        by_cases hx : x = a
        · subst hx
          simp only [without, if_neg ha, if_true]
        · simp only [without, if_neg hx]
      · rfl

theorem storeBytes_without {bs : List (BitVec 8)} (h : ∀ x, Span.Mem a bs.length x → ¬ p x) :
    (m.without p).storeBytes a bs = (m.storeBytes a bs).map fun m' => m'.without p := by
  have hat : ∀ i < bs.length, ¬ p (a + BitVec.ofNat 64 i) := fun i hi => h _ (Span.mem_offset a hi)
  clear h
  induction bs generalizing m a with
  | nil => rfl
  | cons b bs ih =>
      have h0 := hat 0 (Nat.succ_pos _)
      rw [BitVec.add_zero] at h0
      simp only [storeBytes, bind, Except.bind, writeByte_without h0]
      cases m.writeByte a b with
      | error e => rfl
      | ok m₁ =>
          refine ih fun i hi => ?_
          rw [add_one_add_ofNat]
          exact hat (i + 1) (Nat.succ_lt_succ hi)

theorem cpuStuw_without (h : ∀ x, Span.Mem a 4 x → ¬ p x) (v : BitVec 32) :
    cpuStuw (m.without p) a 0 v = (cpuStuw m a 0 v).map (·.without p) := by
  unfold cpuStuw
  rw [show a + 0 = a from BitVec.add_zero a]
  exact Memory.storeBytes_without (by rwa [LittleEndian.length_bytes])

theorem cpuStud_without (h : ∀ x, Span.Mem a 8 x → ¬ p x) (v : BitVec 64) :
    cpuStud (m.without p) a 0 v = (cpuStud m a 0 v).map (·.without p) := by
  unfold cpuStud
  rw [show a + 0 = a from BitVec.add_zero a]
  exact Memory.storeBytes_without (by rwa [LittleEndian.length_bytes])

theorem cpuSt_without {n : Nat} {off v : Word}
    (h : ∀ x, Span.Mem (a + off) (stSize n) x → ¬ p x) :
    cpuSt n (m.without p) a off v = (cpuSt n m a off v).map (·.without p) := by
  unfold cpuSt
  split
  all_goals
    refine Memory.storeBytes_without ?_
    rw [LittleEndian.length_bytes]
  · exact h
  · exact h
  · exact h
  · rename_i h1 h2 h4
    rwa [stSize] at h
    · exact h1
    · exact h2
    · exact h4

end Memory

def Machine.without (m : Machine) (p : Word → Prop) [DecidablePred p] : Machine :=
  m.setMem (m.mem.without p)

namespace Machine

variable (m : Machine) (p : Word → Prop) [DecidablePred p]

@[simp] theorem pc_without : (m.without p).pc = m.pc := rfl

@[simp] theorem exception_without : (m.without p).exception = m.exception := rfl

@[simp] theorem gpr_without (r : Reg) : (m.without p).gpr r = m.gpr r := rfl

@[simp] theorem mem_without : (m.without p).mem = m.mem.without p := rfl

end Machine

namespace Insn

variable {insn : Insn} {m : Machine} {p : Word → Prop} [DecidablePred p]

theorem target?_without : insn.target? (m.without p) = insn.target? m := rfl

theorem source?_without : insn.source? (m.without p) = insn.source? m := rfl

/-- What a handler does after a load is the same where the load is. -/
theorem load_without {α : Type} {x y : Except Fault α} (hxy : y = x) {f g : α → Except Fault Machine}
    (hfg : ∀ a, g a = (f a).map (·.without p)) : (y >>= g) = (x >>= f).map (·.without p) := by
  subst hxy
  cases y with
  | error e => rfl
  | ok a => exact hfg a

theorem store_without {x y : Except Fault Memory} (hxy : y = x.map (·.without p))
    {f g : Memory → Except Fault Machine} (hfg : ∀ mem, g (mem.without p) = (f mem).map (·.without p)) :
    (y >>= g) = (x >>= f).map (·.without p) := by
  subst hxy
  cases x with
  | error e => rfl
  | ok mem => exact hfg mem

theorem load_reads {w : Nat} {ld : Memory → Word → Word → Except Fault (BitVec w)}
    {ext : BitVec w → Word} (hop : insn.op = .load ld ext) {mem mem' : Memory} {a off : Word}
    (h : mem'.loadBytes (a + off) (w / 8) = mem.loadBytes (a + off) (w / 8)) :
    ld mem' a off = ld mem a off := by
  unfold Insn.op at hop
  cases hh : insn.handler <;> rw [hh] at hop <;> cases hop
  all_goals exact congrArg (_ <$> ·) h

/-- A handler whose loads and stores keep clear of a part of the memory does the same
without it. -/
theorem run_without (hl : ∀ a, insn.Loads m a → ¬ p a) (hs : ∀ a, insn.Stores m a → ¬ p a) :
    insn.run (m.without p) = (insn.run m).map (·.without p) := by
  have hload : ∀ base n, insn.source? m = some (base, n) → ∀ a, Span.Mem base n a → ¬ p a :=
    fun base n ht a ha => hl a ⟨base, n, ht, ha⟩
  have hstore : ∀ base n, insn.target? m = some (base, n) → ∀ a, Span.Mem base n a → ¬ p a :=
    fun base n ht a ha => hs a ⟨base, n, ht, ha⟩
  show insn.op.run insn (m.without p) = (insn.op.run insn m).map (·.without p)
  unfold source? at hload
  unfold target? at hstore
  cases hop : insn.op with
  | empty | illegal | ecall | auipc | lui | branch | aluR | aluI => rfl
  | jal size | jalr size =>
      simp only [Op.run, link]
      split <;> rfl
  | aluDiv fault f =>
      simp only [Op.run]
      show (if fault (m.gpr insn.rs1) (m.gpr insn.rs2) then _ else _) = _
      split <;> rfl
  | load ld ext =>
      rw [hop] at hload
      exact load_without (load_reads hop (Memory.loadBytes_without (hload _ _ rfl))) fun v => rfl
  | store n =>
      rw [hop] at hstore
      exact store_without (Memory.cpuSt_without (hstore _ _ rfl)) fun mem => rfl
  | csr newValue wrMask =>
      cases hk : csrKnown insn.csr with
      | true =>
          obtain ⟨env, value, hc, hrun⟩ := csr_known newValue wrMask insn m hk
          obtain ⟨env', value', hc', hrun'⟩ := csr_known newValue wrMask insn (m.without p) hk
          cases hc.symm.trans hc'
          rw [hrun, hrun']
          rfl
      | false =>
          rw [csr_unknown newValue wrMask insn m hk, csr_unknown newValue wrMask insn _ hk]
          rfl
  | lrW =>
      rw [hop] at hload
      exact load_without (Memory.cpuLduw_without (hload _ _ rfl)) fun v => rfl
  | lrD =>
      rw [hop] at hload
      exact load_without (Memory.cpuLdud_without (hload _ _ rfl)) fun v => rfl
  | scW =>
      rw [hop] at hstore
      exact store_without (Memory.cpuStuw_without (hstore _ _ rfl) _) fun mem => rfl
  | scD =>
      rw [hop] at hstore
      exact store_without (Memory.cpuStud_without (hstore _ _ rfl) _) fun mem => rfl
  | amoW f =>
      rw [hop] at hload hstore
      exact load_without (Memory.cpuLduw_without (hload _ _ rfl)) fun v =>
        store_without (Memory.cpuStuw_without (hstore _ _ rfl) _) fun mem => rfl
  | amoD f =>
      rw [hop] at hload hstore
      exact load_without (Memory.cpuLdud_without (hload _ _ rfl)) fun v =>
        store_without (Memory.cpuStud_without (hstore _ _ rfl) _) fun mem => rfl
  | amoSelW f =>
      rw [hop] at hload hstore
      rw [amoSelW_run]
      exact load_without (Memory.cpuLduw_without (hload _ _ rfl)) fun v =>
        store_without (Memory.cpuStuw_without (hstore _ _ rfl) _) fun mem => rfl
  | amoSelD f =>
      rw [hop] at hload hstore
      rw [amoSelD_run]
      exact load_without (Memory.cpuLdud_without (hload _ _ rfl)) fun v =>
        store_without (Memory.cpuStud_without (hstore _ _ rfl) _) fun mem => rfl

end Insn

end Rvvk
