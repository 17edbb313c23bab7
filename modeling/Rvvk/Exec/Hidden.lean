import Rvvk.Cpu.Hidden
import Rvvk.Exec.Simulation

/-!
# The machine without its buffer

A guest that keeps clear of the instruction buffer does the same whether the buffer is
there or not. Its runs are those of the machine that keeps the arrays apart from memory.
-/

namespace Rvvk

/-! ## Code that reads the same -/

/-- The windows through which the straight line from `pc` is read. -/
def SameLine (mem mem' : Memory) (room : Nat) (pc : Word) : Prop :=
  ∀ j < lineLength mem room pc, ∀ k < 4,
    mem' (pcAt mem pc j + BitVec.ofNat 64 k) = mem (pcAt mem pc j + BitVec.ofNat 64 k)

section

variable {mem mem' : Memory}

theorem SameLine.word {room : Nat} {pc : Word} (h : SameLine mem mem' (room + 1) pc) :
    cpuLduw mem' pc 0 = cpuLduw mem pc 0 :=
  Memory.cpuLduw_congr fun k hk => h 0 (lineLength_pos mem room pc) k hk

theorem SameLine.tail {room : Nat} {pc : Word} (h : SameLine mem mem' (room + 1) pc)
    (ht : (insnAt pc (fetch mem pc)).op.transfers = false) :
    SameLine mem mem' room (nextPc mem pc) := by
  intro j hj k hk
  refine h (j + 1) ?_ k hk
  rw [lineLength, if_neg (by simp [ht])]
  exact Nat.succ_lt_succ hj

theorem decode_sameLine {room : Nat} {ctx : Ctx} (hx : ctx.exit = false)
    (h : SameLine mem mem' room ctx.pc) : Rvvk.decode mem' room ctx = Rvvk.decode mem room ctx := by
  induction room generalizing ctx with
  | zero => rfl
  | succ room ih =>
      rw [decode_succ mem' room hx, decode_succ mem room hx, h.word]
      cases ho : cpuLduw mem ctx.pc 0 with
      | error e => rfl
      | ok opcode =>
          simp only [bind, Except.bind]
          cases ht : (insnAt ctx.pc opcode).op.transfers with
          | true => rfl
          | false =>
              have hrest := h.tail (by rwa [fetch_eq ho])
              rw [← Ctx.next_pc ho] at hrest
              rw [ih (Ctx.next_exit hx) hrest]

theorem translate_sameLine {pc : Word} (h : SameLine mem mem' transMax pc) :
    translate mem' pc = translate mem pc := by
  unfold translate
  rw [decode_sameLine rfl h]

theorem SameLine.fetch {room : Nat} {pc : Word} (h : SameLine mem mem' (room + 1) pc) :
    fetch mem' pc = fetch mem pc := by
  unfold Rvvk.fetch
  rw [h.word]

theorem lineLength_sameLine {room : Nat} {pc : Word} (h : SameLine mem mem' room pc) :
    lineLength mem' room pc = lineLength mem room pc ∧
      ∀ j < lineLength mem room pc, pcAt mem' pc j = pcAt mem pc j := by
  induction room generalizing pc with
  | zero => exact ⟨rfl, fun _ _ => by rename_i j hj; exact absurd hj (Nat.not_lt_zero j)⟩
  | succ room ih =>
      have hnext : nextPc mem' pc = nextPc mem pc := by
        unfold nextPc
        rw [h.fetch]
      rw [lineLength, lineLength, h.fetch, hnext]
      cases ht : (insnAt pc (fetch mem pc)).op.transfers with
      | true =>
          refine ⟨rfl, fun j hj => ?_⟩
          obtain rfl : j = 0 := Nat.lt_one_iff.mp hj
          rfl
      | false =>
          obtain ⟨hl, hp⟩ := ih (h.tail ht)
          simp only [Bool.false_eq_true, if_false, hl, true_and]
          intro j hj
          cases j with
          | zero => rfl
          | succ j =>
              rw [pcAt_succ, pcAt_succ, hnext]
              exact hp j (Nat.lt_of_succ_lt_succ hj)

theorem line_without {p : Word → Prop} [DecidablePred p] {room : Nat} {pc : Word}
    (h : ∀ j < lineLength (mem.without p) room pc, ∀ k < 4,
      ¬ p (pcAt (mem.without p) pc j + BitVec.ofNat 64 k)) :
    (∀ j < lineLength mem room pc, pcAt (mem.without p) pc j = pcAt mem pc j) ∧
      lineLength (mem.without p) room pc = lineLength mem room pc := by
  have hsame : SameLine (mem.without p) mem room pc :=
    fun j hj k hk => (Memory.without_other (h j hj k hk)).symm
  obtain ⟨hl, hp⟩ := lineLength_sameLine hsame
  exact ⟨fun j hj => (hp j (hl ▸ hj)).symm, hl.symm⟩

end

/-! ## Steps -/

/-- The state with part of the memory unmapped. -/
def Vm.without (s : Vm) (p : Word → Prop) [DecidablePred p] : Vm := { s with m := s.m.without p }

section

variable {p : Word → Prop} [DecidablePred p] {s : Vm}

theorem Vm.m_without : (s.without p).m = s.m.without p := rfl

theorem Vm.cache_without : (s.without p).cache = s.cache := rfl

theorem Vm.ctl_without : (s.without p).ctl = s.ctl := rfl

theorem Vm.without_start (m : Machine) : (Vm.start m).without p = .start (m.without p) := rfl

theorem Vm.Inv.without (h : s.Inv) : (s.without p).Inv := h.setMem _

theorem Vm.without_setMem {mem : Memory} (h : mem.without p = s.m.mem.without p) :
    Vm.without { s with m := s.m.setMem mem } p = s.without p :=
  congrArg (fun mem => (⟨s.m.setMem mem, s.cache, s.ctl⟩ : Vm)) h

theorem Vm.insn?_without : (s.without p).insn? = s.insn? := rfl

theorem Vm.translates?_without : (s.without p).translates? = s.translates? := rfl

theorem Vm.sameLine_without (hf : ∀ a, s.Fetches a → ¬ p a) {pc : Word}
    (hpc : s.translates? = some pc) : SameLine s.m.mem (s.m.mem.without p) transMax pc :=
  fun j hj k hk => Memory.without_other (hf _ ⟨pc, hpc, j, hj, k, hk, rfl⟩)

theorem Vm.enter_without (hf : ∀ a, s.Fetches a → ¬ p a) (hen : s.enters = true)
    (prev : Option Ptr) :
    (enter prev s.m s.cache).map (·.without p) = enter prev (s.m.without p) s.cache := by
  have hl (he : s.m.exception = .none) :
      lookup s.cache (s.m.mem.without p) s.m.pc = lookup s.cache s.m.mem s.m.pc := by
    unfold lookup
    cases hb : s.cache.findBlock s.m.pc with
    | some b => rfl
    | none =>
        have ht : s.translates? = some s.m.pc := if_pos ⟨hen, he, hb⟩
        dsimp only
        rw [translate_sameLine (sameLine_without hf ht)]
  unfold enter
  rw [Machine.exception_without, Machine.pc_without, Machine.mem_without]
  by_cases he : s.m.exception = .none
  · rw [if_pos he, if_pos he, hl he]
    cases lookup s.cache s.m.mem s.m.pc <;> rfl
  · rw [if_neg he, if_neg he]
    rfl

theorem Insn.exec_without {insn : Insn} {m : Machine} (hl : ∀ a, insn.Loads m a → ¬ p a) (hs : ∀ a, insn.Stores m a → ¬ p a) :
    insn.exec (m.without p) = (insn.exec m).map (·.without p) := by
  unfold exec
  rw [run_without hl hs]
  cases insn.run m with
  | error e => rfl
  | ok m' =>
      have hg : (m'.without p).gpr 0 = m'.gpr 0 := rfl
      simp only [Except.map, bind, Except.bind]
      by_cases h0 : m'.gpr 0 = 0
      · rw [if_pos (hg.trans h0), if_pos h0]
      · rw [if_neg fun h => h0 (hg.symm.trans h), if_neg h0]

/-- A step that keeps clear of a part of the memory is one of the machine without it. -/
theorem Vm.step_without (hl : ∀ insn, s.insn? = some insn → ∀ a, insn.Loads s.m a → ¬ p a)
    (hst : ∀ insn, s.insn? = some insn → ∀ a, insn.Stores s.m a → ¬ p a)
    (hf : ∀ a, s.Fetches a → ¬ p a) : s.step.map (·.without p) = (s.without p).step := by
  unfold step
  cases hc : s.ctl with
  | start =>
      simp only [without, hc]
      exact enter_without hf (by simp only [enters, hc]) none
  | returned => simp only [without, hc, Except.map]
  | body q i =>
      simp only [without, hc]
      cases hb : s.cache.heap[q]? with
      | none => rfl
      | some b =>
          simp only
          cases hi : b.insns[i]? with
          | some insn =>
              have hin : s.insn? = some insn := by
                simp only [insn?, hc, hb, Option.bind_some, hi]
              simp only [Insn.exec_without (hl insn hin) (hst insn hin)]
              cases insn.exec s.m <;> rfl
          | none =>
              simp only [Machine.pc_without]
              cases hn : jmpNext b s.m.pc with
              | some next => rfl
              | none => exact enter_without hf (by simp only [enters, hc, hb, hi, hn]; rfl) (some q)

end

/-! ## Without the buffer -/

/-- The state with the buffer unmapped. -/
@[irreducible] def Vm.hide (c : Setup) (s : Vm) : Vm := s.without (InBuffer c)

/-- The next step meets neither the instruction buffer nor the emulator's own memory, and
finds room for the code it translates. -/
structure Binary.Apart (x : Binary) (c : Setup) (s : Vm) : Prop where
  keepsOff : x.KeepsOff c s
  loads : ∀ a, x.Loads c s a → ¬ InBuffer c a
  fetches : ∀ a, s.Fetches a → ¬ InBuffer c a

section

variable {x : Binary} {c : Setup} {s s' : Vm}

theorem Vm.hide_eq : s.hide c = s.without (InBuffer c) := by rw [hide]

@[simp] theorem Vm.cache_hide : (s.hide c).cache = s.cache := by rw [hide_eq, cache_without]

@[simp] theorem Vm.ctl_hide : (s.hide c).ctl = s.ctl := by rw [hide_eq, ctl_without]

@[simp] theorem Vm.insn?_hide : (s.hide c).insn? = s.insn? := by rw [hide_eq, insn?_without]

theorem Vm.m_hide : (s.hide c).m = s.m.without (InBuffer c) := by rw [hide_eq, m_without]

@[simp] theorem Vm.pc_hide : (s.hide c).m.pc = s.m.pc := by rw [m_hide, Machine.pc_without]

theorem Vm.Inv.hide (h : s.Inv) : (s.hide c).Inv := by
  rw [hide_eq]
  exact h.without

theorem Vm.hide_start (m : Machine) :
    (Vm.start m).hide c = .start (m.without (InBuffer c)) := by
  rw [hide_eq, without_start]

/-- What is stored when a translation is committed lies in the buffer. -/
theorem Binary.hide_commit (hs : x.Sound c s) (hk : x.KeepsOff c s) (h : s.step = .ok s') :
    (x.commit c s.cache s').hide c = s'.hide c := by
  rcases Vm.step_arrays h with ⟨_, ha, _⟩ | ⟨pc, t, hpc, ht, ha, _⟩
  · rw [commit_of_arrays ha]
  · have hfits : s.cache.Fits t.insns.length := translate_length ht ▸ hk.room pc hpc
    have hmem : (x.stored c s.cache s'.cache s'.m.mem).without (InBuffer c) =
        s'.m.mem.without (InBuffer c) := by
      rw [stored_insert (x := x) (c := c) ha]
      refine Memory.without_congr fun a hout => Memory.fill_other fun hin => hout ?_
      rw [x.length_records] at hin
      exact hs.packed.inBuffer_of_free (hfits.free hin)
    rw [Vm.hide_eq, Vm.hide_eq]
    exact Vm.without_setMem hmem

/-- A guest that keeps clear of the buffer takes the steps of the machine without it. -/
theorem Binary.step_hide (hs : x.Sound c s) (ha : x.Apart c s) :
    (x.step c s).map (Vm.hide c) = (s.hide c).step := by
  have hin : x.insn? c s = s.insn? := hs.insn?_eq
  have hstep : s.step.map (·.without (InBuffer c)) = (s.without (InBuffer c)).step :=
    Vm.step_without (fun insn hi a hl => ha.loads a ⟨insn, hin.trans hi, hl⟩)
      (fun insn hi a hst => (ha.keepsOff.stores a ⟨insn, hin.trans hi, hst⟩).1) ha.fetches
  simp only [← Vm.hide_eq] at hstep
  rw [step_eq hs ha.keepsOff, ← hstep]
  cases h : s.step with
  | error e => rfl
  | ok s' => exact congrArg Except.ok (hide_commit hs ha.keepsOff h)

theorem Binary.run_hide {n : Nat} (hs : x.Sound c s)
    (ha : Run.Throughout (x.step c) (x.Apart c) n s) :
    (x.run c n s).map (Vm.hide c) = (s.hide c).run n := by
  have hany : Run.Along (x.step c) (fun _ _ => True) n s := ha.along.mono fun _ _ _ => trivial
  exact Run.run_map (fun _ hs ha => step_hide hs ha) (fun _ _ hs ha h _ => hs.step ha.keepsOff h)
    hs ha hany

theorem Binary.run_of_hide {n : Nat} (hs : x.Sound c s)
    (ha : Run.Throughout (x.step c) (x.Apart c) n s) {t : Vm} (ht : (s.hide c).run n = .ok t) :
    ∃ s', x.run c n s = .ok s' ∧ s'.hide c = t := by
  have hmap := run_hide hs ha
  rw [ht] at hmap
  exact map_eq_ok hmap

/-- What a run leaves can be told from the run without the buffer. -/
theorem Binary.run_shows {α : Type} {f : Vm → α} {v : α} {n : Nat} (hs : x.Sound c s)
    (ha : Run.Throughout (x.step c) (x.Apart c) n s)
    (hv : ((s.hide c).run n).toOption.map f = some v) :
    ∃ s', x.run c n s = .ok s' ∧ (s.hide c).run n = .ok (s'.hide c) ∧ f (s'.hide c) = v := by
  cases ht : (s.hide c).run n with
  | error e =>
      rw [ht] at hv
      cases hv
  | ok t =>
      rw [ht] at hv
      obtain ⟨s', hr, rfl⟩ := run_of_hide hs ha ht
      exact ⟨s', hr, rfl, Option.some.inj hv⟩

/-! ## Telling without the buffer -/

/-- The condition on a state of the machine without the buffer, address by address. -/
def Binary.Clear (x : Binary) (c : Setup) (s : Vm) : Prop :=
  (∀ insn ∈ s.insn?, (∀ y ∈ insn.target? s.m, ∀ i < y.2,
      ¬ InBuffer c (y.1 + BitVec.ofNat 64 i) ∧ ¬ x.Own c (y.1 + BitVec.ofNat 64 i)) ∧
    ∀ y ∈ insn.source? s.m, ∀ i < y.2,
      ¬ InBuffer c (y.1 + BitVec.ofNat 64 i) ∧ ¬ x.Own c (y.1 + BitVec.ofNat 64 i)) ∧
  ∀ pc ∈ s.translates?, s.cache.Fits (lineLength s.m.mem transMax pc) ∧
    ∀ j < lineLength s.m.mem transMax pc, ∀ k < 4,
      ¬ InBuffer c (pcAt s.m.mem pc j + BitVec.ofNat 64 k) ∧
        ¬ x.Own c (pcAt s.m.mem pc j + BitVec.ofNat 64 k)

instance (a : Word) : Decidable (x.Own c a) := inferInstanceAs (Decidable (_ = true))

instance (cache : Cache) (n : Nat) : Decidable (cache.Fits n) :=
  inferInstanceAs (Decidable (_ ≤ _))

-- the second half is no matter of all words
instance : DecidablePred (x.Clear c) := fun s =>
  @instDecidableAnd _ _ inferInstance (Option.decidableForallMem s.translates?)

theorem Binary.apart_of_clear {p : Word → Prop} [DecidablePred p] (hp : ∀ a, p a ↔ InBuffer c a)
    (hs : x.Sound c s) (h : x.Clear c (s.without p)) : x.Apart c s := by
  unfold Clear at h
  simp only [Vm.insn?_without, Vm.translates?_without, Vm.m_without, Vm.cache_without,
    Machine.mem_without, Insn.target?_without, Insn.source?_without] at h
  obtain ⟨hinsn, hpc⟩ := h
  have hin : x.insn? c s = s.insn? := hs.insn?_eq
  have hline : ∀ pc, s.translates? = some pc →
      (∀ j < lineLength s.m.mem transMax pc,
          pcAt (s.m.mem.without p) pc j = pcAt s.m.mem pc j) ∧
        lineLength (s.m.mem.without p) transMax pc = lineLength s.m.mem transMax pc :=
    fun pc h => line_without fun j hj k hk => mt (hp _).mp ((hpc pc h).2 j hj k hk).1
  have hfetch : ∀ a, s.Fetches a → ¬ InBuffer c a ∧ ¬ x.Own c a := by
    rintro a ⟨pc, h, j, hj, k, hk, rfl⟩
    obtain ⟨hat, hl⟩ := hline pc h
    rw [← hat j hj]
    exact (hpc pc h).2 j (hl ▸ hj) k hk
  have hload : ∀ a, x.Loads c s a → ¬ InBuffer c a ∧ ¬ x.Own c a := by
    rintro a ⟨insn, hi, base, n, ht, ha⟩
    obtain ⟨i, hlt, rfl⟩ := Span.exists_offset ha
    exact (hinsn insn (hin.symm.trans hi)).2 (base, n) ht i hlt
  refine ⟨⟨?_, fun a ha => (hload a ha).2, fun a ha => ⟨fun hfree => ?_, (hfetch a ha).2⟩,
    fun pc h => ?_⟩, fun a ha => (hload a ha).1, fun a ha => (hfetch a ha).1⟩
  · rintro a ⟨insn, hi, base, n, ht, ha⟩
    obtain ⟨i, hlt, rfl⟩ := Span.exists_offset ha
    exact (hinsn insn (hin.symm.trans hi)).1 (base, n) ht i hlt
  · exact (hfetch a ha).1 (hs.packed.inBuffer_of_free hfree)
  · rw [← (hline pc h).2]
    exact (hpc pc h).1

/-- A run that is clear without the buffer is one apart from it. -/
theorem Binary.throughout_of_clear {n : Nat} (hs : x.Sound c s)
    (h : Run.Throughout Vm.step (x.Clear c) n (s.hide c)) :
    Run.Throughout (x.step c) (x.Apart c) n s :=
  Run.Throughout.of_map (fun _ hs ha => step_hide hs ha) (fun _ hs h => apart_of_clear (fun _ => Iff.rfl) hs (Vm.hide_eq ▸ h))
    (fun _ _ hs ha h => hs.step ha.keepsOff h) hs h

end

/-! ## A guest that counts to three -/

/-- A static binary whose handlers begin every 16 bytes. -/
def Binary.static : Binary where
  handler h := 0x401000 + 16 * BitVec.ofNat 64 h.ctorIdx
  handlerAt p :=
    let h := Handler.ofNat ((p - 0x401000).toNat / 16)
    if 0x401000 + 16 * BitVec.ofNat 64 h.ctorIdx = p then some h else none
  handlerAt_handler h := by cases h <;> rfl
  own a := 0x400000 ≤ a && a < 0x500000

theorem Binary.static_low {a : Word} (ha : a.toNat < 2 ^ 32) :
    ¬ InBuffer .default a ∧ ¬ Binary.static.Own .default a := by
  have hg : (g2h .default a).toNat = a.toNat + 0x400000000000 := by
    show (a + 0x400000000000#64).toNat = _
    rw [BitVec.toNat_add, BitVec.toNat_ofNat]
    omega
  constructor
  · rw [inBuffer_iff, hg]
    have hlo : insnBufferMapStart.toNat = 0x500000000000 := rfl
    omega
  · intro ho
    simp only [Binary.Own, Binary.static, Bool.and_eq_true, decide_eq_true_eq, BitVec.lt_def,
      hg] at ho
    exact absurd ho.2 (Nat.not_lt.mpr (Nat.le_trans (by decide) (Nat.le_add_left _ _)))

/-- A page with the words of a guest at address 0, and a fresh buffer. -/
def Machine.ofWords (ws : List (BitVec 32)) : Machine :=
  (Machine.boot fun a => if a < 0x1000 then Memory.ofWords ws a else none).buffered .default

namespace Counter

/-- `sw t0, 0x100(x0); c.addi t0, 1; bne t0, t1, -6` and a last word. -/
def machine (last : BitVec 32) : Machine :=
  (Machine.ofWords [0x10502023, 0x9de30285, last.extractLsb' 0 16 ++ 0xfe62#16,
    (last.extractLsb' 16 16).setWidth 32]).setGpr 6 3

theorem fresh (last : BitVec 32) : FreshBuffer .default (machine last).mem :=
  buffered_fresh _ _

theorem sound (last : BitVec 32) : Binary.static.Sound .default (.start (machine last)) :=
  .start (fresh last)

theorem clear : Run.Throughout Vm.step (Binary.static.Clear .default) 15
    (Vm.hide .default (.start (machine 0x00000073))) := by
  decide +kernel

theorem apart : Run.Throughout (Binary.static.step .default) (Binary.static.Apart .default) 15
    (.start (machine 0x00000073)) :=
  Binary.throughout_of_clear (sound _) clear

end Counter

end Rvvk
