import Rvvk.Path.Resolve

/-!
# When resolving a path stays inside the array

Nothing compares the cursor with `PATH_MAX`. The loop stays inside as long as every
name fits behind the cursor and no `..` comes once the first NUL is overwritten;
otherwise an array without a NUL is left. The search for the last slash finds one
whenever the string ends inside the array.
-/

namespace Rvvk

open Lexical

namespace RealPath

variable {limit : Nat} {prior : Nat → BitVec 8} {names : List (List (BitVec 8))} {behind : Bool}
  {st st' : State} {comp : List (BitVec 8)} {cwd : Option Directory} {dir : Directory}
  {path : CString}

/-- The component is taken inside the array, rightly or not. -/
structure Inside (limit : Nat) (names : List (List (BitVec 8))) (behind : Bool)
    (comp : List (BitVec 8)) : Prop where
  dots : comp = [dot, dot] → (joined slash names).length ≤ limit
  room : IsName slash dot comp →
    (joined slash names).length + behind.toNat + 1 + comp.length < pathMax

/-- A component among those of a path, taken inside the array after the ones before it. -/
def InsideAfter (dir : Directory) (path : CString) (before : List (List (BitVec 8)))
    (comp : List (BitVec 8)) : Prop :=
  Inside (render slash (startNames dir path)).length
    (before.foldl (push dot) (startNames dir path)) (behindRoot dir path before) comp

/-- The loop is entered: in any directory for an absolute path, in the current one
for a relative path when `getcwd` returns it. -/
def Starts (cwd : Option Directory) (path : CString) (dir : Directory) : Prop :=
  path.absolute = true ∨ cwd = some dir ∧ dir.path.length < pathMax

def PathInside (cwd : Option Directory) (path : CString) : Prop :=
  ∀ dir, Starts cwd path dir → ∀ before comp after,
    path.bytes.splitOn slash = before ++ comp :: after → InsideAfter dir path before comp

/-- Whatever the arrays hold, the call returns a path, or NULL with an error. A search that
reads beyond the array counts as leaving it: a `/` that it found there would be overwritten. -/
def StaysInside (cwd : Option Directory) (path : CString) : Prop :=
  ∀ buf malloc realPath,
    (∃ b, getRealPath ⟨cwd, buf, malloc⟩ (some path) realPath = .ok b) ∨
      ∃ e, getRealPath ⟨cwd, buf, malloc⟩ (some path) realPath = .error (.returned e)

/-! ## Beyond the first NUL -/

/-- The names have overwritten the first NUL; where they stand does not matter any more. -/
structure Past (limit : Nat) (prior : Nat → BitVec 8) (names : List (List (BitVec 8)))
    (behind : Bool) (st : State) : Prop where
  size : st.1.size = pathMax
  cursor : st.2 = (joined slash names).length + behind.toNat
  cursor_lt : st.2 < pathMax
  beyond : limit < (joined slash names).length
  full : (∀ i, prior i ≠ 0) → ∀ i, i < pathMax → st.1.byte i ≠ 0

/-- The array before a component, as long as all were taken inside it. -/
def Holding (limit : Nat) (prior : Nat → BitVec 8) (names : List (List (BitVec 8)))
    (behind : Bool) (st : State) : Prop :=
  Standing limit prior names behind st ∨ Past limit prior names behind st

abbrev HoldingAfter (dir : Directory) (path : CString) (prior : Nat → BitVec 8)
    (before : List (List (BitVec 8))) (st : State) : Prop :=
  Holding (render slash (startNames dir path)).length prior
    (before.foldl (push dot) (startNames dir path)) (behindRoot dir path before) st

theorem Standing.addBehind (h : Standing limit prior names true st) (hc : PathName comp)
    (hroom : (joined slash names).length + 1 + 1 + comp.length < pathMax) :
    ∃ st', RealPath.addName st comp = .ok st' ∧ Past limit prior (names ++ [comp]) true st' := by
  obtain ⟨hnames, hlimit⟩ := h.behind rfl
  have hcur : st.2 = (joined slash names).length + 1 := h.cursor
  have hsize := h.size
  have hpos : 0 < comp.length := List.length_pos_iff.mpr hc.lexical.nonempty
  have hfit : st.2 + 1 + comp.length ≤ st.1.size := by omega
  obtain ⟨st', hst'⟩ := addName_ok hfit
  have hadd := added_of_addName hst'
  have hcur' := hadd.cursor
  have hlen : (joined slash (names ++ [comp])).length =
      (joined slash names).length + 1 + comp.length := by
    rw [joined_concat, List.length_append, List.length_cons]
    omega
  refine ⟨st', hst', hadd.size.trans hsize, ?_, by omega, by omega, fun hp => ?_⟩
  · rw [hlen, Bool.toNat_true]
    omega
  · exact (h.lost_of_behind hp hc hst').full

theorem Past.addName (h : Past limit prior names behind st) (hc : 0 ∉ comp)
    (hroom : (joined slash names).length + behind.toNat + 1 + comp.length < pathMax) :
    ∃ st', RealPath.addName st comp = .ok st' ∧
      Past limit prior (names ++ [comp]) behind st' := by
  have hcur := h.cursor
  have hsize := h.size
  have hbeyond := h.beyond
  have hfit : st.2 + 1 + comp.length ≤ st.1.size := by omega
  obtain ⟨st', hst'⟩ := addName_ok hfit
  have hadd := added_of_addName hst'
  have hcur' := hadd.cursor
  have hlen : (joined slash (names ++ [comp])).length =
      (joined slash names).length + 1 + comp.length := by
    rw [joined_concat, List.length_append, List.length_cons]
    omega
  refine ⟨st', hst', hadd.size.trans hsize, by omega, by omega, by omega, fun hp i hi => ?_⟩
  exact hadd.byte_ne_zero hc (fun k hk => h.full hp k (by omega)) (.inr (h.full hp i hi))

theorem Holding.addName (h : Holding limit prior names behind st) (hc : PathName comp)
    (hroom : (joined slash names).length + behind.toNat + 1 + comp.length < pathMax) :
    ∃ st', RealPath.addName st comp = .ok st' ∧
      Holding limit prior (names ++ [comp]) behind st' := by
  rcases h with h | h
  · cases behind with
    | false =>
        obtain ⟨st', ha, hs⟩ := h.addName hc hroom
        exact ⟨st', ha, .inl hs⟩
    | true =>
        obtain ⟨st', ha, hs⟩ := h.addBehind hc hroom
        exact ⟨st', ha, .inr hs⟩
  · obtain ⟨st', ha, hs⟩ := h.addName hc.nonzero hroom
    exact ⟨st', ha, .inr hs⟩

theorem Holding.step (h : Holding limit prior names behind st) (hc : slash ∉ comp)
    (h0 : 0 ∉ comp) (hi : Inside limit names behind comp) :
    ∃ st', RealPath.step st comp = .ok st' ∧
      Holding limit prior (push dot names comp) (behind && comp != [dot, dot]) st' := by
  obtain hname | rfl | hskip :
      IsName slash dot comp ∨ comp = [dot, dot] ∨ comp = [] ∨ comp = [dot] := component_cases hc
  · obtain ⟨st', ha, hs⟩ := h.addName ⟨hname, h0⟩ (hi.room hname)
    have hne : (comp != [dot, dot]) = true := by simpa using hname.notDots
    exact ⟨st', (step_name hname).trans ha, by rwa [push_name hname, hne, Bool.and_true]⟩
  · rcases h with h | h
    · obtain ⟨st', hd, hs⟩ := h.dropName (hi.dots rfl)
      refine ⟨st', hd, .inl ?_⟩
      rw [bne_self_eq_false, Bool.and_false]
      exact hs
    · exact absurd (hi.dots rfl) (Nat.not_le_of_lt h.beyond)
  · have hne : (comp != [dot, dot]) = true := by
      rcases hskip with rfl | rfl <;> rfl
    exact ⟨st, step_skip hskip, by rwa [push_skip hskip, hne, Bool.and_true]⟩

theorem Holding.finish (h : Holding limit prior names behind st) :
    ∃ st', RealPath.finish st = .ok st' := by
  rcases h with h | h
  · obtain ⟨st', hf, -⟩ := h.finish
    exact ⟨st', hf⟩
  · have hlt : (if st.2 = 0 then st.2 + 1 else st.2) < st.1.size := by
      have hcur := h.cursor_lt
      rw [h.size]
      unfold pathMax at hcur ⊢
      split <;> omega
    simp only [RealPath.finish, CharArray.put_ok hlt, bind, Except.bind]
    exact ⟨_, rfl⟩

theorem HoldingAfter.step {before : List (List (BitVec 8))}
    (h : HoldingAfter dir path prior before st) (hc : slash ∉ comp ∧ 0 ∉ comp)
    (hi : InsideAfter dir path before comp) :
    ∃ st', RealPath.step st comp = .ok st' ∧
      HoldingAfter dir path prior (before ++ [comp]) st' := by
  obtain ⟨st', hs, hst⟩ := Holding.step h hc.1 hc.2 hi
  refine ⟨st', hs, ?_⟩
  rwa [HoldingAfter, behindRoot_append, List.foldl_append]

theorem HoldingAfter.run {before comps : List (List (BitVec 8))}
    (h : HoldingAfter dir path prior before st)
    (hc : ∀ comp ∈ comps, slash ∉ comp ∧ 0 ∉ comp)
    (hi : Feed.Along (InsideAfter dir path) before comps) :
    ∃ st', comps.foldlM RealPath.step st = .ok st' ∧
      HoldingAfter dir path prior (before ++ comps) st' :=
  hi.foldlM_ok (fun _ _ h comp hm hi => HoldingAfter.step h (hc comp hm) hi) h

theorem start_eq (h : Starts cwd path dir) (b : CharArray) :
    start cwd path b = start (some dir) path b := by
  rcases h with ha | ⟨rfl, -⟩
  · simp [start, ha]
  · rfl

theorem Starts.room (h : Starts cwd path dir) : path.absolute = false →
    dir.path.length < pathMax := by
  intro ha
  rcases h with ha' | ⟨-, hlen⟩
  · rw [ha] at ha'
    cases ha'
  · exact hlen

/-- A call that does not come to the loop returns an error. -/
theorem start_returns (h : ∀ dir, ¬ Starts cwd path dir) (b : CharArray) :
    start cwd path b = .error (.returned .syserr) := by
  have ha : path.absolute = false := by
    by_contra ha
    exact h ⟨[], by simp⟩ (.inl (by simpa using ha))
  cases cwd with
  | none => simp [start, ha, getcwd, bind, Except.bind]
  | some dir => exact start_fails ha (Nat.le_of_not_lt fun hlen => h dir (.inr ⟨rfl, hlen⟩)) b

theorem PathInside.staysInside (h : PathInside cwd path) : StaysInside cwd path := by
  intro buf malloc realPath
  by_cases hstarts : ∃ dir, Starts cwd path dir
  · obtain ⟨dir, hdir⟩ := hstarts
    obtain ⟨st, hst, hstand⟩ := start_ok hdir.room (realPath.getD buf)
    rw [← start_eq hdir] at hst
    have hhold : HoldingAfter dir path (realPath.getD buf) [] st := .inl hstand
    obtain ⟨st₁, hrun, h₁⟩ := hhold.run (fun comp hc => component_clean hc) (h dir hdir)
    obtain ⟨⟨b, rp2⟩, hfin⟩ := h₁.finish
    rw [← foldlM_components] at hrun
    simp only [getRealPath, hst, hrun, hfin, bind, Except.bind]
    split
    · exact .inl ⟨b, rfl⟩
    · split
      · exact .inl ⟨_, rfl⟩
      · exact .inr ⟨_, rfl⟩
  · refine .inr ⟨.syserr, ?_⟩
    simp only [getRealPath, start_returns (not_exists.mp hstarts), bind, Except.bind]

/-! ## Leaving the array -/

/-- The cursor is at the end of an array without a NUL. -/
structure Stuck (st : State) : Prop where
  size : st.1.size = pathMax
  full : ∀ i, i < pathMax → st.1.byte i ≠ 0
  cursor : pathMax ≤ st.2

theorem Stuck.step (h : Stuck st) (comp : List (BitVec 8)) :
    RealPath.step st comp = .error .overrun ∨ RealPath.step st comp = .ok st := by
  have hsize := h.size
  have hcur := h.cursor
  unfold RealPath.step
  split
  · exact .inr rfl
  · split
    · exact .inr rfl
    · split
      · exact .inl (dropName_overrun h.size h.full)
      · have hput : st.1.put st.2 slash = .error .overrun := if_neg (by omega)
        exact .inl (by simp only [RealPath.addName, hput, bind, Except.bind])

theorem Stuck.run (h : Stuck st) (comps : List (List (BitVec 8))) :
    comps.foldlM RealPath.step st >>= RealPath.finish = .error .overrun := by
  induction comps with
  | nil =>
      have hsize := h.size
      have hcur := h.cursor
      have hput : st.1.put (if st.2 = 0 then st.2 + 1 else st.2) 0 = .error .overrun :=
        if_neg (by split <;> omega)
      simp only [List.foldlM_nil, pure, Except.pure, bind, Except.bind, RealPath.finish, hput]
  | cons comp comps ih =>
      rw [List.foldlM_cons]
      rcases h.step comp with hs | hs
      · rw [hs]
        rfl
      · rw [hs]
        exact ih

theorem addName_error {e : PathError} (h : addName st comp = .error e) : e = .overrun := by
  unfold addName at h
  by_cases hp : st.2 < st.1.size
  · rw [CharArray.put_ok hp] at h
    by_cases hm : st.2 + 1 + comp.length ≤ (st.1.set st.2 slash).size
    · simp only [CharArray.memcpy_ok hm, bind, Except.bind, reduceCtorEq] at h
    · simp only [CharArray.memcpy, if_neg hm, bind, Except.bind, Except.error.injEq] at h
      exact h.symm
  · simp only [CharArray.put, if_neg hp, bind, Except.bind, Except.error.injEq] at h
    exact h.symm

theorem Holding.inside_or_stuck (h : Holding limit prior names behind st)
    (hp : ∀ i, prior i ≠ 0) (h0 : 0 ∉ comp) :
    Inside limit names behind comp ∨ RealPath.step st comp = .error .overrun ∨
      ∃ st', RealPath.step st comp = .ok st' ∧ Stuck st' := by
  have hsize : st.1.size = pathMax := h.elim Standing.size Past.size
  have hcur : st.2 = (joined slash names).length + behind.toNat :=
    h.elim Standing.cursor Past.cursor
  by_cases hname : IsName slash dot comp
  · by_cases hroom : (joined slash names).length + behind.toNat + 1 + comp.length < pathMax
    · exact .inl ⟨fun hd => absurd hd hname.notDots, fun _ => hroom⟩
    · refine .inr ?_
      rw [step_name hname]
      cases ha : RealPath.addName st comp with
      | error e => exact .inl (by rw [addName_error ha])
      | ok st' =>
          have hadd := added_of_addName ha
          have hcur' := hadd.cursor
          have hbelow : ∀ k, k < st.2 → st.1.byte k ≠ 0 := by
            rcases h with h | h
            · exact h.below_ne_zero
            · have hlt := h.cursor_lt
              exact fun k hk => h.full hp k (by omega)
          refine .inr ⟨st', rfl, hadd.size.trans hsize, fun i hi => ?_, by omega⟩
          exact hadd.byte_ne_zero h0 hbelow (.inl (by omega))
  · by_cases hd : comp = [dot, dot] ∧ limit < (joined slash names).length
    · have hfull : ∀ i, i < pathMax → st.1.byte i ≠ 0 := by
        rcases h with h | h
        · exact fun i _ => h.full hp hd.2 i
        · exact h.full hp
      refine .inr (.inl ?_)
      rw [hd.1]
      exact dropName_overrun hsize hfull
    · exact .inl ⟨fun he => Nat.le_of_not_lt fun hlt => hd ⟨he, hlt⟩,
        fun hn => absurd hn hname⟩

theorem HoldingAfter.along_or_overrun {before comps : List (List (BitVec 8))}
    (h : HoldingAfter dir path prior before st) (hp : ∀ i, prior i ≠ 0)
    (hc : ∀ comp ∈ comps, slash ∉ comp ∧ 0 ∉ comp) :
    Feed.Along (InsideAfter dir path) before comps ∨
      comps.foldlM RealPath.step st >>= RealPath.finish = .error .overrun := by
  induction comps generalizing before st with
  | nil => exact .inl Feed.along_nil
  | cons comp comps ih =>
      have hcomp := hc comp List.mem_cons_self
      rw [List.foldlM_cons]
      rcases Holding.inside_or_stuck h hp hcomp.2 with hi | hs | ⟨st', hs, hstuck⟩
      · obtain ⟨st', hs, hst⟩ := h.step hcomp hi
        rw [hs]
        rcases ih hst (fun c hm => hc c (List.mem_cons_of_mem _ hm)) with ha | ho
        · exact .inl (Feed.along_cons.mpr ⟨hi, ha⟩)
        · exact .inr ho
      · rw [hs]
        exact .inr rfl
      · rw [hs]
        exact .inr (hstuck.run comps)

/-- Where the loop or the end of the string leaves the array, so does the call. -/
theorem getRealPath_overrun {e : PathContext} {realPath : Option (Nat → BitVec 8)}
    (hst : start e.cwd path ⟨pathMax, realPath.getD e.buf⟩ = .ok st)
    (h : (components path).foldlM step st >>= finish = .error .overrun) :
    getRealPath e (some path) realPath = .error .overrun := by
  simp only [getRealPath, hst, bind, Except.bind] at h ⊢
  cases hrun : (components path).foldlM step st with
  | error e' =>
      simp only [hrun, Except.error.injEq] at h
      simp only [h]
  | ok st₁ =>
      simp only [hrun] at h
      simp only [h]

theorem StaysInside.pathInside (h : StaysInside cwd path) : PathInside cwd path := by
  intro dir hdir
  have hdot : dot ≠ 0 := by decide
  obtain ⟨st, hst, hstand⟩ := start_ok hdir.room fun _ => dot
  have hhold : HoldingAfter dir path (fun _ => dot) [] st := .inl hstand
  refine (hhold.along_or_overrun (fun _ => hdot) fun comp hc => component_clean hc).resolve_right
    fun ho => ?_
  rw [← foldlM_components] at ho
  rw [← start_eq hdir] at hst
  have hover : getRealPath ⟨cwd, fun _ => dot, true⟩ (some path) none = .error .overrun :=
    getRealPath_overrun hst ho
  rcases h (fun _ => dot) true none with ⟨b, hb⟩ | ⟨e, he⟩
  · rw [hover] at hb
    cases hb
  · rw [hover] at he
    cases he

/-! ## The search for the last slash -/

/-- What a step may end with when the array begins with a slash. -/
def Rooted (r : Except PathError State) : Prop :=
  r ≠ .error .null ∧ ∀ st', r = .ok st' → st'.1.byte 0 = slash

theorem Rooted.ok {b : CharArray} {rp2 : Nat} (h : b.byte 0 = slash) : Rooted (.ok (b, rp2)) := by
  refine ⟨fun he => ?_, fun st' hs => ?_⟩
  · cases he
  · cases hs
    exact h

theorem Rooted.error {e : PathError} (h : e ≠ .null) : Rooted (.error e) := by
  refine ⟨fun he => h (Except.error.inj he), fun st' hs => ?_⟩
  cases hs

theorem put_rooted {b : CharArray} {i : Nat} {v : BitVec 8} (h : b.byte 0 = slash)
    (hi : i = 0 → v = slash) {k : CharArray → Except PathError State}
    (hk : ∀ b', b'.byte 0 = slash → Rooted (k b')) : Rooted (b.put i v >>= k) := by
  by_cases hlt : i < b.size
  · rw [CharArray.put_ok hlt]
    refine hk _ ?_
    by_cases h0 : i = 0
    · subst h0
      rw [CharArray.set_byte_self, hi rfl]
    · rw [CharArray.set_byte_ne (Ne.symm h0), h]
  · rw [show b.put i v = .error .overrun from if_neg hlt]
    exact .error (by decide)

theorem addName_rooted (h : st.1.byte 0 = slash) (comp : List (BitVec 8)) :
    Rooted (addName st comp) := by
  refine put_rooted h (fun _ => rfl) fun b hb => ?_
  by_cases hm : st.2 + 1 + comp.length ≤ b.size
  · rw [CharArray.memcpy_ok hm]
    exact .ok ((CharArray.fill_byte_below (Nat.succ_pos _)).trans hb)
  · rw [show b.memcpy (st.2 + 1) comp = .error .overrun from if_neg hm]
    exact .error (by decide)

theorem dropName_rooted {b : CharArray} (h : b.byte 0 = slash) : Rooted (dropName b) := by
  cases hlen : b.strlen with
  | error e =>
      have he : e = .overrun := by
        unfold CharArray.strlen at hlen
        split at hlen
        · cases hlen
        · exact (Except.error.inj hlen).symm
      subst he
      simp only [dropName, CharArray.strrchr, hlen, bind, Except.bind]
      exact .error (by decide)
  | ok n =>
      simp only [dropName, CharArray.strrchr, hlen, bind, Except.bind]
      cases hf : (List.range (n + 1)).reverse.find? fun i => b.byte i == slash with
      | none =>
          have h0 := List.find?_eq_none.mp hf 0 (by simp)
          exact absurd (by simpa using h) h0
      | some rp2 =>
          refine put_rooted (k := fun b => .ok (b, rp2)) h (fun hj => ?_) fun b' hb' => .ok hb'
          split at hj <;> omega

theorem step_rooted (h : st.1.byte 0 = slash) (comp : List (BitVec 8)) :
    Rooted (step st comp) := by
  unfold step
  split
  · exact .ok h
  · split
    · exact .ok h
    · split
      · exact dropName_rooted h
      · exact addName_rooted h comp

theorem run_rooted (h : st.1.byte 0 = slash) (comps : List (List (BitVec 8))) :
    Rooted (comps.foldlM step st) := by
  induction comps generalizing st with
  | nil => exact .ok h
  | cons comp comps ih =>
      rw [List.foldlM_cons]
      have hs := step_rooted h comp
      cases hstep : step st comp with
      | error e => exact .error fun he => hs.1 (by rw [hstep, he])
      | ok st' => exact ih (hs.2 st' hstep)

theorem finish_rooted (h : st.1.byte 0 = slash) : Rooted (finish st) :=
  put_rooted h (fun hj => by split at hj <;> omega) fun _ hb => .ok hb

theorem start_rooted (cwd : Option Directory) (path : CString) (prior : Nat → BitVec 8) :
    Rooted (start cwd path ⟨pathMax, prior⟩) := by
  by_cases hstarts : ∃ dir, Starts cwd path dir
  · obtain ⟨dir, hdir⟩ := hstarts
    obtain ⟨st, hst, hstand⟩ := start_ok hdir.room prior
    rw [start_eq hdir, hst]
    exact .ok hstand.begins
  · rw [start_returns (not_exists.mp hstarts)]
    exact .error (by decide)

end RealPath

open RealPath in
theorem getRealPath_ne_null (e : PathContext) (path : Option CString)
    (realPath : Option (Nat → BitVec 8)) : getRealPath e path realPath ≠ .error .null := by
  intro hn
  cases path with
  | none => cases hn
  | some path =>
      have hr := start_rooted e.cwd path (realPath.getD e.buf)
      cases hst : start e.cwd path ⟨pathMax, realPath.getD e.buf⟩ with
      | error e' =>
          simp only [getRealPath, hst, bind, Except.bind, Except.error.injEq] at hn
          exact hr.1 (by rw [hst, hn])
      | ok st =>
          have hrun := run_rooted (hr.2 st hst) (components path)
          cases hst₁ : (components path).foldlM step st with
          | error e' =>
              simp only [getRealPath, hst, hst₁, bind, Except.bind, Except.error.injEq] at hn
              exact hrun.1 (by rw [hst₁, hn])
          | ok st₁ =>
              have hfin := finish_rooted (hrun.2 st₁ hst₁)
              cases hst₂ : finish st₁ with
              | error e' =>
                  simp only [getRealPath, hst, hst₁, hst₂, bind, Except.bind,
                    Except.error.injEq] at hn
                  exact hfin.1 (by rw [hst₂, hn])
              | ok st₂ =>
                  simp only [getRealPath, hst, hst₁, hst₂, bind, Except.bind] at hn
                  split at hn
                  · cases hn
                  · split at hn <;> cases hn

open RealPath in
/-- The call stays inside the array for every contents of it if and only if every name
fits behind the cursor and no `..` comes while the names are longer than what the
start wrote. In any case the search for the last slash does not end without one. -/
theorem staysInside_iff (cwd : Option Directory) (path : CString) :
    (StaysInside cwd path ↔ PathInside cwd path) ∧
      ∀ buf malloc realPath,
        getRealPath ⟨cwd, buf, malloc⟩ (some path) realPath ≠ .error .null :=
  ⟨⟨StaysInside.pathInside, PathInside.staysInside⟩, fun _ _ _ => getRealPath_ne_null _ _ _⟩

/-- A path of one name of 4096 bytes. -/
def longName : CString := ⟨slash :: List.replicate 4096 0x61, by decide +kernel⟩

theorem RealPath.not_staysInside {cwd : Option Directory} {buf : Nat → BitVec 8} {malloc : Bool}
    {path : CString} {realPath : Option (Nat → BitVec 8)}
    (h : (getRealPath ⟨cwd, buf, malloc⟩ (some path) realPath).map CharArray.size =
      .error .overrun) : ¬StaysInside cwd path := by
  intro hs
  rcases hs buf malloc realPath with ⟨b, hb⟩ | ⟨f, hf⟩
  · rw [hb] at h
    cases h
  · rw [hf] at h
    cases h

open RealPath in
/-- The long name is written beyond the array; for `/a/..` the search for the slash
leaves an array without a NUL. -/
theorem longName_not_inside :
    ¬StaysInside (some rootDirectory) longName ∧
      ¬StaysInside (some rootDirectory) ⟨[0x2f, 0x61, 0x2f, 0x2e, 0x2e], by decide⟩ := by
  constructor
  · have hrun : (getRealPath ⟨some rootDirectory, fun _ => 0, true⟩ (some longName)
        (some fun _ => 0)).map CharArray.size = .error .overrun := by decide +kernel
    exact not_staysInside hrun
  · have hrun : (getRealPath ⟨some rootDirectory, fun _ => 0, true⟩
        (some ⟨[0x2f, 0x61, 0x2f, 0x2e, 0x2e], by decide⟩)
        (some fun _ => 0x61)).map CharArray.size = .error .overrun := by decide +kernel
    exact not_staysInside hrun

end Rvvk
