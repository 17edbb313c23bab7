import Rvvk.Path.Standing

/-!
# Arrays that no component brings right again

When the array holds no NUL, the first component that is not taken right leads
out of the array, at once or with the next `..` or the end, or leaves two
slashes at its start for good.
-/

namespace Rvvk

open Lexical

namespace RealPath

variable {limit : Nat} {prior : Nat → BitVec 8} {names : List (List (BitVec 8))} {behind : Bool}
  {st st' : State} {comp : List (BitVec 8)}

/-- There is no NUL to end a search, and the result is wrong already. -/
structure Lost (st : State) : Prop where
  size : st.1.size = pathMax
  full : ∀ i, i < pathMax → st.1.byte i ≠ 0
  wrong : pathMax ≤ st.2 ∨ 2 ≤ st.2 ∧ st.1.byte 0 = slash ∧ st.1.byte 1 = slash

theorem Added.byte_ne_zero (h : Added st comp st') (hc : 0 ∉ comp)
    (hb : ∀ k, k < st.2 → st.1.byte k ≠ 0) {i : Nat} (hi : i < st'.2 ∨ st.1.byte i ≠ 0) :
    st'.1.byte i ≠ 0 := by
  by_cases hin : i < st'.2
  · intro hz
    have hmem := CharArray.byte_mem_text (b := st'.1) hin
    rw [h.text, hz, List.mem_append, List.mem_cons] at hmem
    rcases hmem with hm | hm | hm
    · obtain ⟨k, hk, hz⟩ := List.mem_map.mp hm
      exact hb k (List.mem_range.mp hk) hz
    · exact slash_ne_zero hm.symm
    · exact hc hm
  · rw [h.above i (by omega)]
    exact hi.resolve_left hin

/-- A `..` needs a NUL. -/
theorem dropName_overrun (hsize : st.1.size = pathMax)
    (hfull : ∀ i, i < pathMax → st.1.byte i ≠ 0) :
    dropName st.1 = .error .overrun := by
  have hlen : st.1.strlen = .error .overrun :=
    CharArray.strlen_overrun fun i hi => hfull i (hsize ▸ hi)
  simp [dropName, CharArray.strrchr, hlen, bind, Except.bind]

namespace Lost

theorem addName (h : Lost st) (hc : 0 ∉ comp) (ha : RealPath.addName st comp = .ok st') :
    Lost st' := by
  have hadd := added_of_addName ha
  have hle := hadd.cursor_le
  have hcur := hadd.cursor
  rw [h.size] at hle
  obtain ⟨h2, h0, h1⟩ : 2 ≤ st.2 ∧ st.1.byte 0 = slash ∧ st.1.byte 1 = slash := by
    rcases h.wrong with hw | hw
    · omega
    · exact hw
  refine ⟨hadd.size.trans h.size, fun i hi => ?_, .inr ⟨by omega, ?_, ?_⟩⟩
  · exact hadd.byte_ne_zero hc (fun k _ => h.full k (by omega)) (.inr (h.full i hi))
  · rw [hadd.below 0 (by omega), h0]
  · rw [hadd.below 1 (by omega), h1]

theorem step (h : Lost st) (hc : 0 ∉ comp) (hs : RealPath.step st comp = .ok st') :
    Lost st' := by
  unfold RealPath.step at hs
  split at hs
  · cases hs
    exact h
  · split at hs
    · cases hs
      exact h
    · split at hs
      · rw [dropName_overrun h.size h.full] at hs
        cases hs
      · exact h.addName hc hs

theorem run {comps : List (List (BitVec 8))} (h : Lost st) (hc : ∀ comp ∈ comps, 0 ∉ comp)
    (hs : comps.foldlM RealPath.step st = .ok st') : Lost st' := by
  induction comps generalizing st with
  | nil =>
      cases hs
      exact h
  | cons comp comps ih =>
      rw [List.foldlM_cons] at hs
      obtain ⟨st₁, hstep, hs⟩ := bind_eq_ok hs
      exact ih (h.step (hc comp List.mem_cons_self) hstep)
        (fun c hm => hc c (List.mem_cons_of_mem _ hm)) hs

theorem finish (h : Lost st) (hf : RealPath.finish st = .ok st') {s : List (BitVec 8)}
    (hs : st'.1.cString = .ok s) (hn : ∀ name ∈ names, IsName slash dot name) :
    s ≠ render slash names := by
  intro hsr
  obtain ⟨b, hput, hf⟩ := bind_eq_ok hf
  cases hf
  obtain ⟨k, hk, hs⟩ := bind_eq_ok hs
  cases hs
  obtain ⟨hlt, rfl⟩ := CharArray.of_put hput
  rw [h.size] at hlt
  obtain ⟨h2, h0, h1⟩ : 2 ≤ st.2 ∧ st.1.byte 0 = slash ∧ st.1.byte 1 = slash := by
    rcases h.wrong with hw | hw
    · split at hlt <;> omega
    · exact hw
  rw [if_neg (by omega)] at hsr hk
  have hbyte : ∀ i, i < 2 → (st.1.set st.2 0).byte i = slash := by
    intro i hi
    rw [CharArray.set_byte_ne (by omega)]
    have h01 : i = 0 ∨ i = 1 := by omega
    rcases h01 with rfl | rfl
    · exact h0
    · exact h1
  have hk2 : 2 ≤ k := by
    by_contra hlt
    have hz := (CharArray.strlen_ok.mp hk).2.1
    exact slash_ne_zero ((hbyte k (by omega)).symm.trans hz)
  apply render_second hn
  rw [← hsr, CharArray.text, List.getElem?_map, List.getElem?_range (by omega),
    Option.map_some, hbyte 1 (by omega)]

end Lost

/-! ## The first component that goes wrong -/

namespace Standing

theorem full (h : Standing limit prior names behind st) (hp : ∀ i, prior i ≠ 0)
    (hlt : limit < (joined slash names).length) (i : Nat) : st.1.byte i ≠ 0 := by
  by_cases hi : i < (joined slash names).length
  · exact h.byte_ne_zero hi
  · have hc := h.cursor_eq fun hn => by simp [hn] at hlt
    rw [h.prior i (by omega) (by omega)]
    exact hp i

theorem lost_of_behind (h : Standing limit prior names true st) (hp : ∀ i, prior i ≠ 0)
    (hc : PathName comp) (ha : RealPath.addName st comp = .ok st') : Lost st' := by
  have hadd := added_of_addName ha
  obtain ⟨rfl, rfl⟩ := h.behind rfl
  have hcur : st.2 = 1 := h.cursor
  have hne : 0 < comp.length := List.length_pos_iff.mpr hc.lexical.nonempty
  have hcur' := hadd.cursor
  have h0 : st.1.byte 0 = slash := (h.root rfl).1
  have hbelow : ∀ i, i < st.2 → st.1.byte i ≠ 0 := by
    intro i hi
    rw [show i = 0 by omega, h0]
    exact slash_ne_zero
  refine ⟨hadd.size.trans h.size, fun i _ => ?_, .inr ⟨by omega, ?_, ?_⟩⟩
  · refine hadd.byte_ne_zero hc.nonzero hbelow ?_
    by_cases hin : i < st'.2
    · exact .inl hin
    · rw [h.prior i (by omega) (by omega)]
      exact .inr (hp i)
  · rw [hadd.below 0 (by omega), h0]
  · exact hcur ▸ hadd.separator

/-- A name that does not fit leaves no room for the NUL, if it can be copied at all. -/
theorem lost_of_full (h : Standing limit prior names false st) (hc : 0 ∉ comp)
    (hfull : pathMax ≤ (joined slash names).length + 1 + comp.length)
    (ha : RealPath.addName st comp = .ok st') : Lost st' := by
  have hadd := added_of_addName ha
  have hcur : st.2 = (joined slash names).length := h.cursor
  have hcur' := hadd.cursor
  refine ⟨hadd.size.trans h.size, fun i hi => ?_, .inl (by omega)⟩
  exact hadd.byte_ne_zero hc (fun k hk => h.byte_ne_zero (by omega)) (.inl (by omega))

theorem taken_or_lost (h : Standing limit prior names behind st) (hp : ∀ i, prior i ≠ 0)
    (h0 : 0 ∉ comp) (hs : RealPath.step st comp = .ok st') :
    Taken limit names behind comp ∨ Lost st' := by
  by_cases hname : IsName slash dot comp
  · rw [step_name hname] at hs
    cases behind with
    | true => exact .inr (h.lost_of_behind hp ⟨hname, h0⟩ hs)
    | false =>
        by_cases hroom : (joined slash names).length + 1 + comp.length < pathMax
        · exact .inl ⟨fun hd => absurd hd hname.notDots, fun _ => hroom, fun _ => rfl⟩
        · exact .inr (h.lost_of_full h0 (by omega) hs)
  · refine .inl ⟨fun hd => ?_, fun hn => absurd hn hname, fun hn => absurd hn hname⟩
    by_contra hlt
    subst hd
    have hfull := h.full hp (Nat.lt_of_not_le hlt)
    rw [show RealPath.step st [dot, dot] = RealPath.dropName st.1 from rfl,
      dropName_overrun h.size fun i _ => hfull i] at hs
    cases hs

end Standing

end RealPath

end Rvvk
