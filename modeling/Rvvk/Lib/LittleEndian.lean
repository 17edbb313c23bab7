/-!
# Little-endian words

A `w`-bit word as a list of bytes, least significant byte first, and back.
-/

namespace LittleEndian

/-- The `n` low bytes of a word, least significant first. -/
def bytes {w : Nat} (v : BitVec w) (n : Nat) : List (BitVec 8) :=
  (List.range n).map fun i => v.extractLsb' (8 * i) 8

/-- The word a list of bytes spells, least significant first. -/
def value (w : Nat) : List (BitVec 8) → BitVec w
  | [] => 0
  | b :: bs => (value w bs <<< 8) ||| b.setWidth w

@[simp] theorem length_bytes {w : Nat} (v : BitVec w) (n : Nat) : (bytes v n).length = n := by
  simp [bytes]

theorem getElem?_bytes {w : Nat} (v : BitVec w) {n i : Nat} (h : i < n) :
    (bytes v n)[i]? = some (v.extractLsb' (8 * i) 8) := by
  simp [bytes, h]

/-- Bit `i` of the word is bit `i % 8` of byte `i / 8`. -/
theorem getLsbD_value (w : Nat) (bs : List (BitVec 8)) (i : Nat) (hi : i < w) :
    (value w bs).getLsbD i = (bs[i / 8]?.getD 0).getLsbD (i % 8) := by
  induction bs generalizing i with
  | nil => simp [value]
  | cons b bs ih =>
      simp only [value, BitVec.getLsbD_or, BitVec.getLsbD_shiftLeft, BitVec.getLsbD_setWidth, hi,
        decide_true, Bool.true_and]
      by_cases h8 : i < 8
      · have h1 : i / 8 = 0 := by omega
        have h2 : i % 8 = i := by omega
        simp [h8, h1, h2]
      · have h1 : i / 8 = (i - 8) / 8 + 1 := by omega
        have h2 : i % 8 = (i - 8) % 8 := by omega
        have h3 : b.getLsbD i = false := BitVec.getLsbD_of_ge b i (by omega)
        rw [ih (i - 8) (by omega), h3, h1, List.getElem?_cons_succ, h2]
        simp [h8]

theorem value_bytes {w : Nat} (v : BitVec w) (n : Nat) (h : w ≤ 8 * n) :
    value w (bytes v n) = v := by
  apply BitVec.eq_of_getLsbD_eq
  intro i hi
  rw [getLsbD_value w _ i hi, getElem?_bytes v (by omega)]
  have h1 : i % 8 < 8 := Nat.mod_lt _ (by omega)
  have h2 : 8 * (i / 8) + i % 8 = i := by omega
  simp [h1, h2]

/-- Byte `i` of the word is byte `i` of the list. -/
theorem extractLsb'_value {w i : Nat} {bs : List (BitVec 8)} (hw : 8 * i + 8 ≤ w)
    (hi : i < bs.length) : some ((value w bs).extractLsb' (8 * i) 8) = bs[i]? := by
  rw [List.getElem?_eq_getElem hi]
  congr 1
  apply BitVec.eq_of_getLsbD_eq
  intro j hj
  have h1 : (8 * i + j) / 8 = i := by omega
  have h2 : (8 * i + j) % 8 = j := by omega
  simp [hj, getLsbD_value w bs (8 * i + j) (by omega), h1, h2, hi]

end LittleEndian
