import Rvvk.Bitops
import Rvvk.Cpu.Handlers

/-!
# Division

Quotient and remainder as the M extension defines them for every pair of
operands, and the eight handlers, which leave the division to the host. The
host divides as the extension wants wherever it does not trap.
-/

namespace Rvvk

structure SignedDivision {w : Nat} (x y q r : BitVec w) : Prop where
  byZero : y = 0 → q = -1 ∧ r = x
  overflow : y ≠ 0 → x = BitVec.intMin w ∧ y = -1 → q = x ∧ r = 0
  truncated : y ≠ 0 → ¬ (x = BitVec.intMin w ∧ y = -1) →
    q.toInt = x.toInt.tdiv y.toInt ∧ x.toInt = q.toInt * y.toInt + r.toInt

structure UnsignedDivision {w : Nat} (x y q r : BitVec w) : Prop where
  byZero : y = 0 → q = -1 ∧ r = x
  truncated : y ≠ 0 → q.toNat = x.toNat / y.toNat ∧ x.toNat = q.toNat * y.toNat + r.toNat

/-- A signed division with a quotient that fits. -/
def SignedDefined {w : Nat} (x y : BitVec w) : Prop :=
  y ≠ 0 ∧ ¬ (x = BitVec.intMin w ∧ y = -1)

theorem sdivTraps_eq_false {w : Nat} {x y : BitVec w} :
    sdivTraps x y = false ↔ SignedDefined x y := by
  simp only [sdivTraps, SignedDefined, Bool.or_eq_false_iff, Bool.and_eq_false_iff, beq_eq_false_iff_ne,
    ne_eq, not_and]
  constructor
  · rintro ⟨hy, hx | hy'⟩
    · exact ⟨hy, fun he => absurd he hx⟩
    · exact ⟨hy, fun _ => hy'⟩
  · rintro ⟨hy, hxy⟩
    refine ⟨hy, ?_⟩
    by_cases hx : x = BitVec.intMin w
    · exact .inr (hxy hx)
    · exact .inl hx

theorem udivTraps_eq_false {w : Nat} {x y : BitVec w} : udivTraps x y = false ↔ y ≠ 0 := by
  simp [udivTraps]

theorem sdiv_conforms {w : Nat} {x y : BitVec w} (h : SignedDefined x y) :
    SignedDivision x y (x.sdiv y) (x.srem y) where
  byZero hy := absurd hy h.1
  overflow _ ho := absurd ho h.2
  truncated _ _ := by
    have hq : (x.sdiv y).toInt = x.toInt.tdiv y.toInt := by
      apply BitVec.toInt_sdiv_of_ne_or_ne
      by_cases hx : x = BitVec.intMin w
      · exact .inr fun hy => h.2 ⟨hx, hy⟩
      · exact .inl hx
    rw [hq, BitVec.toInt_srem, Int.tdiv_mul_add_tmod]
    exact ⟨rfl, rfl⟩

theorem udiv_conforms {w : Nat} {x y : BitVec w} (h : y ≠ 0) :
    UnsignedDivision x y (x.udiv y) (x.umod y) where
  byZero hy := absurd hy h
  truncated _ := by
    have hq : (x.udiv y).toNat = x.toNat / y.toNat := BitVec.toNat_udiv
    have hr : (x.umod y).toNat = x.toNat % y.toNat := BitVec.toNat_umod
    rw [hq, hr, Nat.mul_comm, Nat.div_add_mod]
    exact ⟨rfl, rfl⟩

theorem low32_signExtend (v : BitVec 32) : low32 (v.signExtend 64) = v := by
  unfold low32
  rw [← BitVec.signExtend_eq_setWidth_of_le _ (by decide), Slice.signExtend_signExtend _ (by decide),
    BitVec.signExtend_eq]

theorem low32_setWidth (v : BitVec 32) : low32 (v.setWidth 64) = v := by
  unfold low32
  rw [BitVec.setWidth_setWidth_of_le _ (by decide), BitVec.setWidth_eq]

/-! ## The handlers -/

/-- The four kinds of division, each with a handler for either result. -/
inductive Division
  | div
  | divu
  | divw
  | divuw

namespace Division

def quotient : Division → Handler
  | div => .doDiv
  | divu => .doDivu
  | divw => .doDivw
  | divuw => .doDivuw

def remainder : Division → Handler
  | div => .doRem
  | divu => .doRemu
  | divw => .doRemw
  | divuw => .doRemuw

/-- What the M extension asks of the results; the word forms work on low halves. -/
def Conforms : Division → Word → Word → Word → Word → Prop
  | div, x, y, q, r => SignedDivision x y q r
  | divu, x, y, q, r => UnsignedDivision x y q r
  | divw, x, y, q, r => SignedDivision (low32 x) (low32 y) (low32 q) (low32 r)
  | divuw, x, y, q, r => UnsignedDivision (low32 x) (low32 y) (low32 q) (low32 r)

/-- The divisor is not zero, and the quotient fits. -/
def Defined : Division → Word → Word → Prop
  | div, x, y => SignedDefined x y
  | divu, _, y => y ≠ 0
  | divw, x, y => SignedDefined (low32 x) (low32 y)
  | divuw, _, y => low32 y ≠ 0

def traps : Division → Word → Word → Bool
  | div => sdivTraps
  | divu => udivTraps
  | divw => fun x y => sdivTraps (low32 x) (low32 y)
  | divuw => fun x y => udivTraps (low32 x) (low32 y)

theorem traps_eq_false (d : Division) (x y : Word) : d.traps x y = false ↔ d.Defined x y := by
  cases d with
  | div => exact sdivTraps_eq_false
  | divu => exact udivTraps_eq_false (x := x)
  | divw => exact sdivTraps_eq_false
  | divuw => exact udivTraps_eq_false (x := low32 x)

theorem not_traps {d : Division} {x y : Word} (h : d.Defined x y) : ¬ d.traps x y = true := by
  rw [(d.traps_eq_false x y).mpr h]
  exact Bool.false_ne_true

/-- What the two handlers compute where the host does not trap. -/
def results : Division → Word → Word → Word × Word
  | div, x, y => (x.sdiv y, x.srem y)
  | divu, x, y => (x.udiv y, x.umod y)
  | divw, x, y =>
      (((low32 x).sdiv (low32 y)).signExtend 64, ((low32 x).srem (low32 y)).signExtend 64)
  | divuw, x, y =>
      (((low32 x).udiv (low32 y)).setWidth 64, ((low32 x).umod (low32 y)).setWidth 64)

theorem results_conform {d : Division} {x y : Word} (h : d.Defined x y) :
    d.Conforms x y (d.results x y).1 (d.results x y).2 := by
  cases d with
  | div => exact sdiv_conforms h
  | divu => exact udiv_conforms h
  | divw =>
      unfold Conforms results
      dsimp only
      rw [low32_signExtend, low32_signExtend]
      exact sdiv_conforms h
  | divuw =>
      unfold Conforms results
      dsimp only
      rw [low32_setWidth, low32_setWidth]
      exact udiv_conforms h

theorem run_quotient (d : Division) (insn : Insn) (m : Machine) :
    { insn with handler := d.quotient }.run m =
      if d.traps (m.gpr insn.rs1) (m.gpr insn.rs2) then .error .sigfpe
      else .ok (m.setGpr insn.rd (d.results (m.gpr insn.rs1) (m.gpr insn.rs2)).1) := by
  cases d <;> rfl

theorem run_remainder (d : Division) (insn : Insn) (m : Machine) :
    { insn with handler := d.remainder }.run m =
      if d.traps (m.gpr insn.rs1) (m.gpr insn.rs2) then .error .sigfpe
      else .ok (m.setGpr insn.rd (d.results (m.gpr insn.rs1) (m.gpr insn.rs2)).2) := by
  cases d <;> rfl

/-- Both handlers complete, with results that the M extension allows. -/
def Works (d : Division) (insn : Insn) (m : Machine) : Prop :=
  ∃ mq mr, { insn with handler := d.quotient }.run m = .ok mq ∧
    { insn with handler := d.remainder }.run m = .ok mr ∧
    d.Conforms (m.gpr insn.rs1) (m.gpr insn.rs2) (mq.gpr insn.rd) (mr.gpr insn.rd)

/-- Division works exactly where the host's is defined; elsewhere both handlers
raise SIGFPE. -/
theorem works_iff (d : Division) (insn : Insn) (m : Machine) :
    (d.Works insn m ↔ d.Defined (m.gpr insn.rs1) (m.gpr insn.rs2)) ∧
    (¬ d.Defined (m.gpr insn.rs1) (m.gpr insn.rs2) →
      { insn with handler := d.quotient }.run m = .error .sigfpe ∧
      { insn with handler := d.remainder }.run m = .error .sigfpe) := by
  unfold Works
  rw [run_quotient, run_remainder, ← d.traps_eq_false]
  cases ht : d.traps (m.gpr insn.rs1) (m.gpr insn.rs2) with
  | true =>
      rw [if_pos rfl, if_pos rfl]
      refine ⟨⟨?_, fun h => nomatch h⟩, fun _ => ⟨rfl, rfl⟩⟩
      rintro ⟨mq, mr, hq, _⟩
      cases hq
  | false =>
      have hc := results_conform ((d.traps_eq_false _ _).mp ht)
      rw [if_neg (by simp), if_neg (by simp)]
      refine ⟨⟨fun _ => rfl, fun _ => ⟨_, _, rfl, rfl, ?_⟩⟩, fun h => absurd rfl h⟩
      rw [Machine.gpr_setGpr_self, Machine.gpr_setGpr_self]
      exact hc

/-- `div x1, x2, x3` with 1 in `x2` and 0 in `x3` raises SIGFPE. -/
theorem div_by_zero_fails :
    ¬ Works .div ⟨2, 3, 1, 0, 0, .doDiv⟩ ((Machine.boot (Memory.filled 0)).setGpr 2 1) := by
  rintro ⟨mq, mr, hq, _⟩
  cases hq

end Division

end Rvvk
