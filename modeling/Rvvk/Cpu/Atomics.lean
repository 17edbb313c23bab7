import Rvvk.Cpu.Effects

/-!
# Atomic memory operations

The eighteen AMO handlers differ in an operator and a width. Each leaves the
operator's value at the address and the old value in `rd`, and nothing else
changes; where the bytes cannot be read and written, the host raises SIGSEGV.
-/

namespace Rvvk

namespace Memory

/-- The word at the address is `v`, and it can be read and written. -/
def Holds {n : Nat} (m : Memory) (a : Word) (v : BitVec (8 * n)) : Prop :=
  ∀ i < n, ∃ c, m (a + BitVec.ofNat 64 i) = some c ∧ c.val = v.extractLsb' (8 * i) 8 ∧
    c.prot.read = true ∧ c.prot.write = true

theorem Holds.load {n : Nat} {m : Memory} {a : Word} {v : BitVec (8 * n)} (h : m.Holds a v) :
    LittleEndian.value (8 * n) <$> m.loadBytes a n = .ok v := by
  refine value_loadBytes_eq_ok.mpr fun i hi => ?_
  obtain ⟨c, hc, hv, hr, _⟩ := h i hi
  simp [byte?, hc, hr, hv]

theorem Holds.store {n : Nat} {m : Memory} {a : Word} {v : BitVec (8 * n)} (h : m.Holds a v)
    (new : BitVec (8 * n)) : ∃ m', m.storeBytes a (LittleEndian.bytes new n) = .ok m' := by
  refine storeBytes_eq_ok.mpr fun i hi => ?_
  obtain ⟨c, hc, _, _, hw⟩ := h i (by simpa using hi)
  exact ⟨c, hc, hw⟩

/-- A word that is loaded and then stored to can be read and written. -/
theorem holds_of_ok {n : Nat} {m m' : Memory} {a : Word} {v new : BitVec (8 * n)}
    (hl : LittleEndian.value (8 * n) <$> m.loadBytes a n = .ok v)
    (hs : m.storeBytes a (LittleEndian.bytes new n) = .ok m') : m.Holds a v := by
  intro i hi
  obtain ⟨c, hc, hw⟩ := storeBytes_eq_ok.mp ⟨m', hs⟩ i (by simpa using hi)
  have hb := value_loadBytes_eq_ok.mp hl i hi
  simp only [byte?, hc, Option.bind_some] at hb
  split at hb
  · rename_i hr
    exact ⟨c, hc, Option.some.inj hb, hr, hw⟩
  · cases hb

/-- `new` replaces the word at the address, and no other byte changes. -/
structure Replaces {n : Nat} (m m' : Memory) (a : Word) (new : BitVec (8 * n)) : Prop where
  word : ∀ i < n, m' (a + BitVec.ofNat 64 i) =
    (m (a + BitVec.ofNat 64 i)).map fun c => { c with val := new.extractLsb' (8 * i) 8 }
  others : ∀ x, ¬ Span.Mem a n x → m' x = m x

theorem storeBytes_replaces {n : Nat} {m m' : Memory} {a : Word} {new : BitVec (8 * n)}
    (hn : n ≤ 2 ^ 64) (h : m.storeBytes a (LittleEndian.bytes new n) = .ok m') :
    m.Replaces m' a new where
  word i hi := by
    have hoff : (a + BitVec.ofNat 64 i - a).toNat = i := by
      rw [BitVec.add_comm, BitVec.add_sub_cancel, BitVec.toNat_ofNat, Nat.mod_eq_of_lt (by omega)]
    rw [storeBytes_apply h (by simpa using hn), hoff, LittleEndian.getElem?_bytes new hi]
    rfl
  others x hx := by
    have hnone : (LittleEndian.bytes new n)[(x - a).toNat]? = none := by
      rw [List.getElem?_eq_none_iff, LittleEndian.length_bytes]
      exact Nat.le_of_not_lt hx
    rw [storeBytes_apply h (by simpa using hn), hnone]
    simp

end Memory

/-! ## One read and one write of a word -/

/-- Load a word, store the operator's value. -/
def exchange (n : Nat) (f : BitVec (8 * n) → BitVec (8 * n) → BitVec (8 * n)) (m : Memory)
    (a : Word) (x : BitVec (8 * n)) : Except Fault (Memory × BitVec (8 * n)) := do
  let old ← LittleEndian.value (8 * n) <$> m.loadBytes a n
  let m ← m.storeBytes a (LittleEndian.bytes (f old x) n)
  .ok (m, old)

theorem exchange_ok {n : Nat} {f : BitVec (8 * n) → BitVec (8 * n) → BitVec (8 * n)} {m : Memory}
    {a : Word} {x old : BitVec (8 * n)} (hn : n ≤ 2 ^ 64) (h : m.Holds a old) :
    ∃ m', exchange n f m a x = .ok (m', old) ∧ m.Replaces m' a (f old x) := by
  obtain ⟨m', hs⟩ := h.store (f old x)
  refine ⟨m', ?_, Memory.storeBytes_replaces hn hs⟩
  unfold exchange
  rw [h.load]
  simp only [bind, Except.bind, hs]

theorem exchange_error {n : Nat} {f : BitVec (8 * n) → BitVec (8 * n) → BitVec (8 * n)}
    {m : Memory} {a : Word} {x : BitVec (8 * n)} (h : ∀ old, ¬ m.Holds a (n := n) old) :
    exchange n f m a x = .error .sigsegv := by
  unfold exchange
  cases hl : LittleEndian.value (8 * n) <$> m.loadBytes a n with
  | error e =>
      rw [Memory.value_loadBytes_error hl]
      rfl
  | ok old =>
      simp only [bind, Except.bind]
      cases hs : m.storeBytes a (LittleEndian.bytes (f old x) n) with
      | error e =>
          rw [Memory.storeBytes_error hs]
      | ok m' => exact absurd (Memory.holds_of_ok hl hs) (h old)

theorem amoW_eq_exchange (f : BitVec 32 → BitVec 32 → BitVec 32) (insn : Insn) (m : Machine) :
    (Op.amoW f).run insn m =
      (exchange 4 f m.mem (m.gpr insn.rs1) (low32 (m.gpr insn.rs2))).map fun r =>
        (m.setMem r.1).setGpr insn.rd (r.2.signExtend 64) := by
  have ha : m.gpr insn.rs1 + 0 = m.gpr insn.rs1 := BitVec.add_zero _
  simp only [Op.run, exchange, cpuLduw, cpuStuw, ha, bind, Except.bind]
  cases LittleEndian.value 32 <$> m.mem.loadBytes (m.gpr insn.rs1) 4 with
  | error e => rfl
  | ok old =>
      dsimp only
      cases m.mem.storeBytes (m.gpr insn.rs1)
        (LittleEndian.bytes (f old (low32 (m.gpr insn.rs2))) 4) <;> rfl

theorem amoD_eq_exchange (f : BitVec 64 → BitVec 64 → BitVec 64) (insn : Insn) (m : Machine) :
    (Op.amoD f).run insn m =
      (exchange 8 f m.mem (m.gpr insn.rs1) (m.gpr insn.rs2)).map fun r =>
        (m.setMem r.1).setGpr insn.rd r.2 := by
  have ha : m.gpr insn.rs1 + 0 = m.gpr insn.rs1 := BitVec.add_zero _
  simp only [Op.run, exchange, cpuLdud, cpuStud, ha, bind, Except.bind]
  cases LittleEndian.value 64 <$> m.mem.loadBytes (m.gpr insn.rs1) 8 with
  | error e => rfl
  | ok old =>
      dsimp only
      cases m.mem.storeBytes (m.gpr insn.rs1)
        (LittleEndian.bytes (f old (m.gpr insn.rs2)) 8) <;> rfl

/-! ## The operators -/

inductive Amo
  | swap | add | xor | or | and | min | max | minu | maxu

namespace Amo

def apply {w : Nat} (k : Amo) (old x : BitVec w) : BitVec w :=
  match k with
  | swap => x
  | add => old + x
  | xor => old ^^^ x
  | or => old ||| x
  | and => old &&& x
  | min => if old.toInt ≤ x.toInt then old else x
  | max => if x.toInt ≤ old.toInt then old else x
  | minu => if old.toNat ≤ x.toNat then old else x
  | maxu => if x.toNat ≤ old.toNat then old else x

def handlerW : Amo → Handler
  | swap => .doAmoswapW
  | add => .doAmoaddW
  | xor => .doAmoxorW
  | or => .doAmoorW
  | and => .doAmoandW
  | min => .doAmominW
  | max => .doAmomaxW
  | minu => .doAmominuW
  | maxu => .doAmomaxuW

def handlerD : Amo → Handler
  | swap => .doAmoswapD
  | add => .doAmoaddD
  | xor => .doAmoxorD
  | or => .doAmoorD
  | and => .doAmoandD
  | min => .doAmominD
  | max => .doAmomaxD
  | minu => .doAmominuD
  | maxu => .doAmomaxuD

/-! The source's ternaries compare strictly; on equal operands either branch is
the same word. -/

theorem min_eq {w : Nat} (n x : BitVec w) : (if n.slt x then n else x) = min.apply n x := by
  unfold apply BitVec.slt
  dsimp only
  by_cases he : n = x
  · subst he
    simp
  · have hne : n.toInt ≠ x.toInt := fun h => he (BitVec.eq_of_toInt_eq h)
    simp only [decide_eq_true_eq, Int.lt_iff_le_and_ne, hne, ne_eq, not_false_eq_true, and_true]

theorem max_eq {w : Nat} (n x : BitVec w) : (if x.slt n then n else x) = max.apply n x := by
  unfold apply BitVec.slt
  dsimp only
  by_cases he : n = x
  · subst he
    simp
  · have hne : x.toInt ≠ n.toInt := fun h => he (BitVec.eq_of_toInt_eq h).symm
    simp only [decide_eq_true_eq, Int.lt_iff_le_and_ne, hne, ne_eq, not_false_eq_true, and_true]

theorem minu_eq {w : Nat} (n x : BitVec w) : (if n.ult x then n else x) = minu.apply n x := by
  unfold apply BitVec.ult
  dsimp only
  by_cases he : n = x
  · subst he
    simp
  · have hne : n.toNat ≠ x.toNat := fun h => he (BitVec.eq_of_toNat_eq h)
    simp only [decide_eq_true_eq, Nat.lt_iff_le_and_ne, hne, ne_eq, not_false_eq_true, and_true]

theorem maxu_eq {w : Nat} (n x : BitVec w) : (if x.ult n then n else x) = maxu.apply n x := by
  unfold apply BitVec.ult
  dsimp only
  by_cases he : n = x
  · subst he
    simp
  · have hne : x.toNat ≠ n.toNat := fun h => he (BitVec.eq_of_toNat_eq h).symm
    simp only [decide_eq_true_eq, Nat.lt_iff_le_and_ne, hne, ne_eq, not_false_eq_true, and_true]

theorem handlerW_op (k : Amo) :
    handlerOp k.handlerW = .amoW k.apply ∨ handlerOp k.handlerW = .amoSelW k.apply := by
  cases k with
  | min => exact .inr (congrArg Op.amoSelW (funext fun n => funext fun x => min_eq n x))
  | max => exact .inr (congrArg Op.amoSelW (funext fun n => funext fun x => max_eq n x))
  | minu => exact .inr (congrArg Op.amoSelW (funext fun n => funext fun x => minu_eq n x))
  | maxu => exact .inr (congrArg Op.amoSelW (funext fun n => funext fun x => maxu_eq n x))
  | _ => exact .inl rfl

theorem handlerW_run (k : Amo) (insn : Insn) (m : Machine) :
    { insn with handler := k.handlerW }.run m = (Op.amoW k.apply).run insn m := by
  have hrun : { insn with handler := k.handlerW }.run m =
      (handlerOp k.handlerW).run { insn with handler := k.handlerW } m := rfl
  rw [hrun]
  rcases k.handlerW_op with h | h
  · rw [h]
    rfl
  · rw [h, amoSelW_run]
    rfl

theorem handlerD_op (k : Amo) :
    handlerOp k.handlerD = .amoD k.apply ∨ handlerOp k.handlerD = .amoSelD k.apply := by
  cases k with
  | min => exact .inr (congrArg Op.amoSelD (funext fun n => funext fun x => min_eq n x))
  | max => exact .inr (congrArg Op.amoSelD (funext fun n => funext fun x => max_eq n x))
  | minu => exact .inr (congrArg Op.amoSelD (funext fun n => funext fun x => minu_eq n x))
  | maxu => exact .inr (congrArg Op.amoSelD (funext fun n => funext fun x => maxu_eq n x))
  | _ => exact .inl rfl

theorem handlerD_run (k : Amo) (insn : Insn) (m : Machine) :
    { insn with handler := k.handlerD }.run m = (Op.amoD k.apply).run insn m := by
  have hrun : { insn with handler := k.handlerD }.run m =
      (handlerOp k.handlerD).run { insn with handler := k.handlerD } m := rfl
  rw [hrun]
  rcases k.handlerD_op with h | h
  · rw [h]
    rfl
  · rw [h, amoSelD_run]
    rfl

end Amo

/-! ## What the handlers leave -/

/-- `new` replaces the word at `gpr[rs1]`, `rd` holds `left`, and nothing else has
changed. -/
structure Swapped {n : Nat} (insn : Insn) (m m' : Machine) (left : Word) (new : BitVec (8 * n)) :
    Prop where
  mem : m.mem.Replaces m'.mem (m.gpr insn.rs1) new
  rd : m'.gpr insn.rd = left
  gpr : ∀ r, r ≠ insn.rd → m'.gpr r = m.gpr r
  env : m'.env = { m.env with gpr := m'.env.gpr }

theorem swapped_of_replaces {n : Nat} {insn : Insn} {m : Machine} {mem : Memory} {left : Word}
    {new : BitVec (8 * n)} (h : m.mem.Replaces mem (m.gpr insn.rs1) new) :
    Swapped insn m ((m.setMem mem).setGpr insn.rd left) left new where
  mem := h
  rd := Machine.gpr_setGpr_self _ _ _
  gpr _ hr := Machine.gpr_setGpr_of_ne _ _ hr
  env := rfl

/-- Every AMO handler does its operation exactly, at every address whose bytes
can be read and written; at any other the host raises SIGSEGV. -/
theorem Amo.exact (k : Amo) (insn : Insn) (m : Machine) :
    ((∀ old : BitVec (8 * 4), m.mem.Holds (m.gpr insn.rs1) old →
        ∃ m', { insn with handler := k.handlerW }.run m = .ok m' ∧
          Swapped insn m m' (old.signExtend 64) (k.apply old (low32 (m.gpr insn.rs2)))) ∧
      ((∀ old : BitVec (8 * 4), ¬ m.mem.Holds (m.gpr insn.rs1) old) →
        { insn with handler := k.handlerW }.run m = .error .sigsegv)) ∧
    ((∀ old : BitVec (8 * 8), m.mem.Holds (m.gpr insn.rs1) old →
        ∃ m', { insn with handler := k.handlerD }.run m = .ok m' ∧
          Swapped insn m m' old (k.apply old (m.gpr insn.rs2))) ∧
      ((∀ old : BitVec (8 * 8), ¬ m.mem.Holds (m.gpr insn.rs1) old) →
        { insn with handler := k.handlerD }.run m = .error .sigsegv)) := by
  rw [k.handlerW_run, k.handlerD_run, amoW_eq_exchange, amoD_eq_exchange]
  refine ⟨⟨fun old h => ?_, fun h => ?_⟩, ⟨fun old h => ?_, fun h => ?_⟩⟩
  · obtain ⟨mem, he, hm⟩ := exchange_ok (f := k.apply) (x := low32 (m.gpr insn.rs2)) (by decide) h
    rw [he]
    exact ⟨_, rfl, swapped_of_replaces hm⟩
  · rw [exchange_error h]
    rfl
  · obtain ⟨mem, he, hm⟩ := exchange_ok (f := k.apply) (x := m.gpr insn.rs2) (by decide) h
    rw [he]
    exact ⟨_, rfl, swapped_of_replaces hm⟩
  · rw [exchange_error h]
    rfl

end Rvvk
