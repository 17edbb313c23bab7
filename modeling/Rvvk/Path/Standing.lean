import Rvvk.Path.RealPath

/-!
# What the array holds while a path is resolved

The bytes before the cursor are the names so far. Behind the cursor the array may
still hold what it held at first, so the search for the last slash comes out right
only while the NUL that the start wrote is not overwritten.
-/

namespace Rvvk

open Lexical

namespace RealPath

variable {limit : Nat} {prior : Nat → BitVec 8} {names : List (List (BitVec 8))} {behind : Bool}
  {st st' : State} {comp : List (BitVec 8)}

/-- The names stand before the cursor; the start wrote `limit` bytes and a NUL. A
relative path in the root starts `behind` its slash. -/
structure Standing (limit : Nat) (prior : Nat → BitVec 8) (names : List (List (BitVec 8)))
    (behind : Bool) (st : State) : Prop where
  size : st.1.size = pathMax
  limit_pos : 0 < limit
  limit_lt : limit < pathMax
  cursor : st.2 = (joined slash names).length + behind.toNat
  cursor_lt : st.2 < pathMax
  behind : behind = true → names = [] ∧ limit = 1
  named : ∀ name ∈ names, PathName name
  text : st.1.text (joined slash names).length = joined slash names
  root : names = [] → st.1.byte 0 = slash ∧ st.1.byte 1 = 0
  stop : st.2 ≤ limit → st.1.byte limit = 0
  clear : st.2 ≤ limit → ∀ i, st.2 ≤ i → i ≤ limit → 0 < i → st.1.byte i ≠ slash
  prior : ∀ i, limit < i → st.2 ≤ i → st.1.byte i = prior i

/-- The array holds the path of the names, with a NUL at the cursor. -/
structure Ended (names : List (List (BitVec 8))) (st : State) : Prop where
  size : st.1.size = pathMax
  cursor : st.2 = (render slash names).length
  cursor_lt : st.2 < pathMax
  text : st.1.text st.2 = render slash names
  stop : st.1.byte st.2 = 0

theorem slash_ne_zero : slash ≠ 0 := by decide

theorem zero_notMem_joined (h : ∀ name ∈ names, PathName name) : 0 ∉ joined slash names := by
  intro hm
  rcases mem_joined hm with hz | ⟨name, hn, hz⟩
  · exact slash_ne_zero hz.symm
  · exact (h name hn).nonzero hz

theorem zero_notMem_render (h : ∀ name ∈ names, PathName name) : 0 ∉ render slash names := by
  unfold render
  split
  · simpa using slash_ne_zero.symm
  · exact zero_notMem_joined h

theorem Ended.cString (h : Ended names st) (hn : ∀ name ∈ names, PathName name) {size : Nat}
    (hs : st.2 < size) :
    CharArray.cString { st.1 with size := size } = .ok (render slash names) := by
  have hcur := h.cursor
  have htext := h.text
  have hstop := h.stop
  rw [hcur] at htext hstop
  exact CharArray.cString_of_text htext (zero_notMem_render hn) (hcur ▸ hs) hstop

/-! ## What appending does -/

/-- The name and the slash before it follow the text, all else is left as it was. -/
structure Added (st : State) (comp : List (BitVec 8)) (st' : State) : Prop where
  size : st'.1.size = st.1.size
  cursor : st'.2 = st.2 + 1 + comp.length
  cursor_le : st'.2 ≤ st.1.size
  text : st'.1.text st'.2 = st.1.text st.2 ++ slash :: comp
  below : ∀ i, i < st.2 → st'.1.byte i = st.1.byte i
  separator : st'.1.byte st.2 = slash
  above : ∀ i, st'.2 ≤ i → st'.1.byte i = st.1.byte i

theorem addName_ok (hfit : st.2 + 1 + comp.length ≤ st.1.size) :
    ∃ st', addName st comp = .ok st' := by
  have hput : st.1.put st.2 slash = .ok (st.1.set st.2 slash) := CharArray.put_ok (by omega)
  have hcpy : (st.1.set st.2 slash).memcpy (st.2 + 1) comp = .ok _ := CharArray.memcpy_ok hfit
  refine ⟨((st.1.set st.2 slash).fill (st.2 + 1) comp, st.2 + 1 + comp.length), ?_⟩
  simp only [addName, hput, hcpy, bind, Except.bind]

theorem added_of_addName (h : addName st comp = .ok st') : Added st comp st' := by
  obtain ⟨b, hput, h⟩ := bind_eq_ok h
  obtain ⟨b', hcpy, h⟩ := bind_eq_ok h
  cases h
  obtain ⟨-, rfl⟩ := CharArray.of_put hput
  obtain ⟨hle, rfl⟩ := CharArray.of_memcpy hcpy
  constructor
  case size => rfl
  case cursor => rfl
  case cursor_le => exact hle
  case text =>
    rw [CharArray.text_fill, CharArray.text_succ, CharArray.set_byte_self,
      CharArray.text_set (Nat.le_refl _), List.append_assoc, List.singleton_append]
  case below =>
    intro i hi
    exact (CharArray.fill_byte_below (by omega)).trans (CharArray.set_byte_ne (by omega))
  case separator => exact (CharArray.fill_byte_below (by omega)).trans CharArray.set_byte_self
  case above =>
    intro i hi
    simp only at hi
    exact (CharArray.fill_byte_above hi).trans (CharArray.set_byte_ne (by omega))

/-! ## What the components keep -/

namespace Standing

theorem byte_ne_zero (h : Standing limit prior names behind st) {i : Nat}
    (hi : i < (joined slash names).length) : st.1.byte i ≠ 0 := by
  intro hz
  have hmem := CharArray.byte_mem_text (b := st.1) hi
  rw [h.text, hz] at hmem
  exact zero_notMem_joined h.named hmem

theorem begins (h : Standing limit prior names behind st) : st.1.byte 0 = slash := by
  cases names with
  | nil => exact (h.root rfl).1
  | cons name names =>
      have htext : st.1.text ([slash] ++ (name ++ joined slash names)).length =
        [slash] ++ (name ++ joined slash names) := h.text
      have hfirst := (CharArray.text_append htext).1
      exact List.head_eq_of_cons_eq hfirst

/-- The bytes before the cursor are the names, or the slash of the root. -/
theorem below_ne_zero (h : Standing limit prior names behind st) (i : Nat) (hi : i < st.2) :
    st.1.byte i ≠ 0 := by
  rw [h.cursor] at hi
  by_cases hin : i < (joined slash names).length
  · exact h.byte_ne_zero hin
  · have hb : behind = true := by
      cases behind with
      | false => exact absurd hi (by simpa using hin)
      | true => rfl
    obtain ⟨rfl, -⟩ := h.behind hb
    subst hb
    have h0 : i = 0 := by simpa using hi
    rw [h0, (h.root rfl).1]
    exact slash_ne_zero

/-- Only in front of the first name may the cursor be off. -/
theorem cursor_eq (h : Standing limit prior names behind st) (hn : names ≠ []) :
    st.2 = (joined slash names).length := by
  have hc := h.cursor
  cases behind with
  | false => exact hc
  | true => exact absurd (h.behind rfl).1 hn

theorem cursor_le (h : Standing limit prior names behind st)
    (hd : (joined slash names).length ≤ limit) : st.2 ≤ limit := by
  rw [h.cursor]
  cases behind with
  | false => simpa using hd
  | true =>
      obtain ⟨rfl, rfl⟩ := h.behind rfl
      exact Nat.le_refl 1

/-- While the first NUL stands, the string reaches from the names to it at most. -/
theorem strlen (h : Standing limit prior names behind st)
    (hd : (joined slash names).length ≤ limit) :
    ∃ n, st.1.strlen = .ok n ∧ (joined slash names).length ≤ n ∧ n ≤ limit := by
  have hsize := h.size
  have hlt := h.limit_lt
  obtain ⟨n, hn, hle⟩ := CharArray.exists_strlen (by omega) (h.stop (h.cursor_le hd))
  refine ⟨n, hn, ?_, hle⟩
  by_contra hlt
  exact h.byte_ne_zero (by omega) (CharArray.strlen_ok.mp hn).2.1

theorem lastName (h : Standing limit prior names behind st)
    (hd : (joined slash names).length ≤ limit) :
    st.1.byte (joined slash names.dropLast).length = slash ∧
      st.1.text (joined slash names.dropLast).length = joined slash names.dropLast ∧
      (joined slash names.dropLast).length ≤ (joined slash names).length ∧
      ∀ i, (joined slash names.dropLast).length < i → i ≤ limit → st.1.byte i ≠ slash := by
  have hcur := h.cursor_le hd
  rcases List.eq_nil_or_concat' names with rfl | ⟨init, last, rfl⟩
  · refine ⟨(h.root rfl).1, rfl, Nat.le_refl _, fun i hi hil => ?_⟩
    have hb : behind.toNat ≤ 1 := Bool.toNat_le behind
    have hc := h.cursor
    simp only [joined_nil, List.length_nil, List.dropLast_nil] at hc hi
    exact h.clear hcur i (by omega) hil (by omega)
  · have htext := h.text
    have hlast : slash ∉ last := (h.named last (by simp)).lexical.noSlash
    rw [joined_concat, ← List.singleton_append, ← List.append_assoc] at htext
    obtain ⟨hfront, hback⟩ := CharArray.text_append htext
    obtain ⟨hinit, hslash⟩ := CharArray.text_append hfront
    rw [List.dropLast_concat]
    refine ⟨List.mem_singleton.mp (hslash _ (Nat.le_refl _) (by simp)), hinit, by simp,
      fun i hi hil => ?_⟩
    have hc := h.cursor_eq (by simp)
    rw [joined_concat] at hc
    by_cases hin : i < (joined slash (init ++ [last])).length
    · intro hs
      have hmem := hback i (by simpa [Nat.succ_le_iff] using hi) (by simpa using hin)
      exact hlast (hs ▸ hmem)
    · rw [joined_concat] at hin
      exact h.clear hcur i (by omega) hil (by omega)

/-- A `..` takes the last name away. -/
theorem dropName (h : Standing limit prior names behind st)
    (hd : (joined slash names).length ≤ limit) :
    ∃ st', RealPath.dropName st.1 = .ok st' ∧
      Standing limit prior names.dropLast false st' := by
  obtain ⟨n, hn, hnames, hnl⟩ := h.strlen hd
  obtain ⟨hslash, htext, hle, hlast⟩ := h.lastName hd
  have hcur := h.cursor_le hd
  have hpos := h.limit_pos
  have hlt := h.limit_lt
  have hrr : st.1.strrchr slash = .ok (some (joined slash names.dropLast).length) :=
    CharArray.strrchr_ok hn (by omega) hslash fun i hi hin => hlast i hi (by omega)
  generalize hk : (joined slash names.dropLast).length = k at hslash htext hle hlast hrr
  generalize hj : (if k ≠ 0 then k else 1) = j
  have hjk : k ≤ j ∧ j ≤ limit ∧ (0 < k → j = k) ∧ (k = 0 → j = 1) := by
    split at hj <;> omega
  have hput : st.1.put j 0 = .ok (st.1.set j 0) := CharArray.put_ok (by rw [h.size]; omega)
  refine ⟨(st.1.set j 0, k), ?_, ?_⟩
  · simp only [RealPath.dropName, hrr, bind, Except.bind, hj, hput]
  · constructor
    case size => exact h.size
    case limit_pos => exact hpos
    case limit_lt => exact hlt
    case cursor => simp [hk]
    case cursor_lt => exact Nat.lt_of_le_of_lt (by omega) hlt
    case behind => exact fun hb => absurd hb Bool.false_ne_true
    case named => exact fun name hn => h.named name (List.dropLast_subset _ hn)
    case text =>
      rw [hk, CharArray.text_set hjk.1]
      exact htext
    case root =>
      intro hnil
      have hk0 : k = 0 := by rw [← hk, hnil]; rfl
      rw [hk0] at hslash
      rw [hjk.2.2.2 hk0]
      exact ⟨(CharArray.set_byte_ne (by decide)).trans hslash, CharArray.set_byte_self⟩
    case stop =>
      intro _
      by_cases hl : limit = j
      · rw [hl]
        exact CharArray.set_byte_self
      · exact (CharArray.set_byte_ne hl).trans (h.stop hcur)
    case clear =>
      intro _ i hi hil h0
      by_cases hij : i = j
      · rw [hij]
        exact fun hs => slash_ne_zero (hs.symm.trans CharArray.set_byte_self)
      · rw [show (st.1.set j 0, k).1.byte i = st.1.byte i from CharArray.set_byte_ne hij]
        have hik : i ≠ k := fun hik => hij (by omega)
        exact hlast i (by simp only at hi; omega) hil
    case prior =>
      intro i hi _
      exact (CharArray.set_byte_ne (by omega)).trans (h.prior i hi (by omega))

/-- A name that fits is appended, and the rest of the array left as it was. -/
theorem addName (h : Standing limit prior names false st) (hc : PathName comp)
    (hroom : (joined slash names).length + 1 + comp.length < pathMax) :
    ∃ st', RealPath.addName st comp = .ok st' ∧
      Standing limit prior (names ++ [comp]) false st' := by
  have hcur : st.2 = (joined slash names).length := h.cursor
  have hsize := h.size
  have hfit : st.2 + 1 + comp.length ≤ st.1.size := by omega
  obtain ⟨st', hst'⟩ := addName_ok hfit
  have hadd := added_of_addName hst'
  have hcur' := hadd.cursor
  have hlen : (joined slash (names ++ [comp])).length = st'.2 := by
    rw [joined_concat, List.length_append, List.length_cons]
    omega
  refine ⟨st', hst', ?_⟩
  constructor
  case size => exact hadd.size.trans hsize
  case limit_pos => exact h.limit_pos
  case limit_lt => exact h.limit_lt
  case cursor => exact hlen.symm
  case cursor_lt => omega
  case behind => exact fun hb => absurd hb Bool.false_ne_true
  case named =>
    intro name hn
    rcases List.mem_append.mp hn with hn | hn
    · exact h.named name hn
    · rwa [List.mem_singleton.mp hn]
  case text => rw [hlen, hadd.text, hcur, h.text, joined_concat]
  case root => exact fun hnil => absurd hnil (by simp)
  case stop =>
    intro hle
    exact (hadd.above limit hle).trans (h.stop (by omega))
  case clear =>
    intro hle i hi hil h0
    rw [hadd.above i hi]
    exact h.clear (by omega) i (by omega) hil h0
  case prior =>
    intro i hi hle
    exact (hadd.above i hle).trans (h.prior i hi (by omega))

theorem finish (h : Standing limit prior names behind st) :
    ∃ st', RealPath.finish st = .ok st' ∧ Ended names st' := by
  have hsize := h.size
  have hlt := h.cursor_lt
  have hend : (if st.2 = 0 then st.2 + 1 else st.2) = (render slash names).length ∧
      st.1.text (render slash names).length = render slash names := by
    by_cases hn : names = []
    · have hb : behind.toNat ≤ 1 := Bool.toNat_le behind
      have hc := h.cursor
      subst hn
      simp only [joined_nil, List.length_nil, Nat.zero_add] at hc
      refine ⟨?_, ?_⟩
      · rw [show (render slash ([] : List (List (BitVec 8)))).length = 1 from rfl]
        split <;> omega
      · exact congrArg (fun v => [v]) (h.root rfl).1
    · have hpos : 0 < (joined slash names).length :=
        List.length_pos_iff.mpr fun hj => hn (joined_eq_nil.mp hj)
      have hc := h.cursor_eq hn
      rw [render_of_ne_nil hn]
      exact ⟨by rw [if_neg (by omega), hc], h.text⟩
  generalize hj : (if st.2 = 0 then st.2 + 1 else st.2) = j at hend
  have hjlt : j < st.1.size := by
    rw [hsize]
    unfold pathMax at hlt ⊢
    split at hj <;> omega
  refine ⟨(st.1.set j 0, j), ?_, hsize, hend.1, hsize ▸ hjlt, ?_, CharArray.set_byte_self⟩
  · simp only [RealPath.finish, hj, CharArray.put_ok hjlt, bind, Except.bind]
  · rw [hend.1, CharArray.text_set (Nat.le_refl _)]
    exact hend.2

end Standing

/-! ## The loop -/

/-- The component is taken right after the names: no `..` once the first NUL is
overwritten, no name beyond the end of the array, none behind the slash of the root. -/
structure Taken (limit : Nat) (names : List (List (BitVec 8))) (behind : Bool)
    (comp : List (BitVec 8)) : Prop where
  dots : comp = [dot, dot] → (joined slash names).length ≤ limit
  room : IsName slash dot comp → (joined slash names).length + 1 + comp.length < pathMax
  root : IsName slash dot comp → behind = false

theorem step_name (hc : IsName slash dot comp) : step st comp = addName st comp := by
  unfold step
  rw [if_neg hc.nonempty, if_neg hc.notDot, if_neg hc.notDots]

theorem step_skip (hc : comp = [] ∨ comp = [dot]) : step st comp = .ok st := by
  rcases hc with rfl | rfl <;> rfl

theorem Standing.step (h : Standing limit prior names behind st)
    (hc : slash ∉ comp) (h0 : 0 ∉ comp) (ht : Taken limit names behind comp) :
    ∃ st', RealPath.step st comp = .ok st' ∧
      Standing limit prior (push dot names comp) (behind && comp != [dot, dot]) st' := by
  obtain hname | rfl | hskip :
      IsName slash dot comp ∨ comp = [dot, dot] ∨ comp = [] ∨ comp = [dot] := component_cases hc
  · obtain rfl := ht.root hname
    obtain ⟨st', ha, hs⟩ := h.addName ⟨hname, h0⟩ (ht.room hname)
    exact ⟨st', (step_name hname).trans ha, by rwa [push_name hname]⟩
  · obtain ⟨st', hd, hs⟩ := h.dropName (ht.dots rfl)
    refine ⟨st', hd, ?_⟩
    rw [bne_self_eq_false, Bool.and_false]
    exact hs
  · have hne : (comp != [dot, dot]) = true := by
      rcases hskip with rfl | rfl <;> rfl
    exact ⟨st, step_skip hskip, by rwa [push_skip hskip, hne, Bool.and_true]⟩

end RealPath

end Rvvk
