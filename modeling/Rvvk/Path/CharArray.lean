import Mathlib.Data.List.Basic
import Mathlib.Logic.Function.Basic
import Rvvk.Elf.Tables

/-!
# Arrays of characters

The arrays that `get_real_path` reads and writes, with the string functions of the
C library it calls. An index outside the array is an error of its own, and a string
that no NUL ends inside the array is one too.
-/

namespace Rvvk

/-- How `get_real_path` ends without a path. -/
inductive PathError
  /-- It returns NULL and has filled in `errp`. -/
  | returned (e : Failure)
  /-- A byte outside the array is read or written. -/
  | overrun
  /-- A null pointer is written through. -/
  | null
deriving DecidableEq, Repr

/-- An array of bytes; what lies beyond its size is never looked at. -/
structure CharArray where
  size : Nat
  byte : Nat → BitVec 8

namespace CharArray

variable {b b' : CharArray} {n i pos : Nat} {v c : BitVec 8} {bytes : List (BitVec 8)}

def set (b : CharArray) (i : Nat) (v : BitVec 8) : CharArray :=
  { b with byte := Function.update b.byte i v }

def fill (b : CharArray) (pos : Nat) (bytes : List (BitVec 8)) : CharArray :=
  { b with byte := fun i => if i < pos then b.byte i else bytes[i - pos]?.getD (b.byte i) }

def put (b : CharArray) (i : Nat) (v : BitVec 8) : Except PathError CharArray :=
  if i < b.size then .ok (b.set i v) else .error .overrun

/-- `memcpy` of bytes that lie elsewhere. -/
def memcpy (b : CharArray) (pos : Nat) (bytes : List (BitVec 8)) : Except PathError CharArray :=
  if pos + bytes.length ≤ b.size then .ok (b.fill pos bytes) else .error .overrun

def strlen (b : CharArray) : Except PathError Nat :=
  match (List.range b.size).find? fun i => b.byte i == 0 with
  | some n => .ok n
  | none => .error .overrun

/-- The last place of a byte in the string, its NUL included. -/
def strrchr (b : CharArray) (c : BitVec 8) : Except PathError (Option Nat) := do
  let n ← b.strlen
  .ok ((List.range (n + 1)).reverse.find? fun i => b.byte i == c)

/-- The first `n` bytes. -/
def text (b : CharArray) (n : Nat) : List (BitVec 8) := (List.range n).map b.byte

def cString (b : CharArray) : Except PathError (List (BitVec 8)) := do
  let n ← b.strlen
  .ok (b.text n)

@[simp] theorem set_size : (b.set i v).size = b.size := rfl

@[simp] theorem set_byte_self : (b.set i v).byte i = v := Function.update_self ..

theorem set_byte_ne (h : n ≠ i) : (b.set i v).byte n = b.byte n := Function.update_of_ne h ..

@[simp] theorem fill_size : (b.fill pos bytes).size = b.size := rfl

theorem fill_byte_below (h : i < pos) : (b.fill pos bytes).byte i = b.byte i := by
  simp [fill, h]

theorem fill_byte_above (h : pos + bytes.length ≤ i) :
    (b.fill pos bytes).byte i = b.byte i := by
  have hlen : bytes.length ≤ i - pos := by omega
  simp [fill, List.getElem?_eq_none hlen]

theorem put_ok (h : i < b.size) : b.put i v = .ok (b.set i v) := if_pos h

theorem of_put (h : b.put i v = .ok b') : i < b.size ∧ b' = b.set i v := by
  unfold put at h
  split at h
  · cases h
    exact ⟨‹_›, rfl⟩
  · cases h

theorem of_memcpy (h : b.memcpy pos bytes = .ok b') :
    pos + bytes.length ≤ b.size ∧ b' = b.fill pos bytes := by
  unfold memcpy at h
  split at h
  · cases h
    exact ⟨‹_›, rfl⟩
  · cases h

theorem memcpy_ok (h : pos + bytes.length ≤ b.size) :
    b.memcpy pos bytes = .ok (b.fill pos bytes) := if_pos h

/-! ## The first bytes -/

@[simp] theorem text_length : (b.text n).length = n := by simp [text]

theorem text_succ : b.text (n + 1) = b.text n ++ [b.byte n] := by
  simp [text, List.range_succ]

theorem byte_mem_text (h : i < n) : b.byte i ∈ b.text n :=
  List.mem_map.mpr ⟨i, List.mem_range.mpr h, rfl⟩

theorem text_congr (h : ∀ i, i < n → b'.byte i = b.byte i) : b'.text n = b.text n :=
  List.map_congr_left fun i hi => h i (List.mem_range.mp hi)

theorem text_set (h : n ≤ i) : (b.set i v).text n = b.text n :=
  text_congr fun k hk => set_byte_ne (by omega)

theorem text_fill : (b.fill pos bytes).text (pos + bytes.length) = b.text pos ++ bytes := by
  apply List.ext_getElem
  · simp
  · intro k hk _
    rw [text_length] at hk
    by_cases hp : k < pos
    · rw [List.getElem_append_left (by simpa using hp)]
      simp [text, fill_byte_below hp]
    · have hlen : k - pos < bytes.length := by omega
      rw [List.getElem_append_right (by simpa using hp)]
      simp [text, fill, hp, List.getElem?_eq_getElem hlen]

/-- A text in two parts: the first, and the bytes of the second. -/
theorem text_append {front back : List (BitVec 8)}
    (h : b.text (front ++ back).length = front ++ back) :
    b.text front.length = front ∧
      ∀ i, front.length ≤ i → i < (front ++ back).length → b.byte i ∈ back := by
  have hget : ∀ i (hi : i < (front ++ back).length), b.byte i = (front ++ back)[i] := by
    intro i hi
    have hlt : i < (b.text (front ++ back).length).length := by rwa [text_length]
    calc b.byte i = (b.text (front ++ back).length)[i] := by simp [text]
      _ = (front ++ back)[i] := by simp only [h]
  constructor
  · apply List.ext_getElem
    · simp
    · intro i _ hi
      have hall := hget i (by rw [List.length_append]; omega)
      rw [List.getElem_append_left hi] at hall
      simpa [text] using hall
  · intro i hle hi
    rw [hget i hi, List.getElem_append_right hle]
    exact List.getElem_mem _

/-! ## Strings -/

theorem strlen_ok : b.strlen = .ok n ↔ n < b.size ∧ b.byte n = 0 ∧ ∀ i, i < n → b.byte i ≠ 0 := by
  have hfind : (List.range b.size).find? (fun i => b.byte i == 0) = some n ↔
      n < b.size ∧ b.byte n = 0 ∧ ∀ i, i < n → b.byte i ≠ 0 := by
    simp [List.find?_range_eq_some]
    tauto
  rw [← hfind]
  unfold strlen
  cases (List.range b.size).find? fun i => b.byte i == 0 <;> simp

theorem strlen_overrun (h : ∀ i, i < b.size → b.byte i ≠ 0) : b.strlen = .error .overrun := by
  have hnone : (List.range b.size).find? (fun i => b.byte i == 0) = none := by
    simpa [List.find?_eq_none] using h
  unfold strlen
  rw [hnone]

theorem exists_strlen (hn : n < b.size) (h0 : b.byte n = 0) : ∃ k, b.strlen = .ok k ∧ k ≤ n := by
  cases hk : b.strlen with
  | error e =>
      unfold strlen at hk
      split at hk
      · cases hk
      · rename_i hnone
        exact absurd (beq_iff_eq.mpr h0)
          (List.find?_eq_none.mp hnone n (List.mem_range.mpr hn))
  | ok k =>
      refine ⟨k, rfl, ?_⟩
      by_contra hlt
      exact (strlen_ok.mp hk).2.2 n (by omega) h0

theorem cString_ok (h : b.strlen = .ok n) : b.cString = .ok (b.text n) := by
  unfold cString
  rw [h]
  rfl

theorem cString_of_text {s : List (BitVec 8)} (htext : b.text s.length = s) (hs : 0 ∉ s)
    (hlt : s.length < b.size) (h0 : b.byte s.length = 0) : b.cString = .ok s := by
  have hlen : b.strlen = .ok s.length := by
    refine strlen_ok.mpr ⟨hlt, h0, fun i hi hz => hs ?_⟩
    have hmem := byte_mem_text (b := b) hi
    rwa [htext, hz] at hmem
  rw [cString_ok hlen, htext]

theorem find_last {p : Nat → Bool} (hi : i < n) (hp : p i = true)
    (hlast : ∀ k, i < k → k < n → p k = false) :
    (List.range n).reverse.find? p = some i := by
  induction n with
  | zero => omega
  | succ n ih =>
      rw [List.range_succ, List.reverse_concat, List.find?_cons]
      by_cases hin : i = n
      · rw [← hin, hp]
      · rw [hlast n (by omega) (by omega)]
        exact ih (by omega) fun k hk hkn => hlast k hk (by omega)

theorem strrchr_ok (hn : b.strlen = .ok n) (hi : i ≤ n) (hc : b.byte i = c)
    (hlast : ∀ k, i < k → k ≤ n → b.byte k ≠ c) : b.strrchr c = .ok (some i) := by
  unfold strrchr
  rw [hn]
  refine congrArg _ (find_last (by omega) (by simpa using hc) ?_)
  intro k hk hkn
  simpa using hlast k hk (by omega)

end CharArray

end Rvvk
