import Rvvk.Lib.Feed
import Rvvk.Path.Lost

/-!
# When a path is resolved right

The loop takes every component right as long as no `..` comes after a name that
went beyond the end of the start, no relative name comes first in the root, and
every name fits. Where one of them goes wrong there are bytes in the array that
make the result wrong.
-/

namespace Rvvk

open Lexical

namespace RealPath

variable {limit : Nat} {prior : Nat → BitVec 8} {names : List (List (BitVec 8))} {behind : Bool}
  {st st' : State} {comp : List (BitVec 8)} {cwd : Directory} {path : CString}

/-- A relative path starts behind the slash of the root, until a `..` comes. -/
def behindRoot (cwd : Directory) (path : CString) (before : List (List (BitVec 8))) : Bool :=
  !path.absolute && cwd.names.isEmpty && before.all fun comp => comp != [dot, dot]

/-- A component among those of a path, taken right after the ones before it. -/
def TakenAfter (cwd : Directory) (path : CString) (before : List (List (BitVec 8)))
    (comp : List (BitVec 8)) : Prop :=
  Taken (render slash (startNames cwd path)).length
    (before.foldl (push dot) (startNames cwd path)) (behindRoot cwd path before) comp

structure PathTaken (cwd : Directory) (path : CString) : Prop where
  start : path.absolute = false → cwd.path.length < pathMax
  each : ∀ before comp after, path.bytes.splitOn slash = before ++ comp :: after →
    TakenAfter cwd path before comp

/-- The array while the components `before` have been passed. -/
abbrev StandingAfter (cwd : Directory) (path : CString) (prior : Nat → BitVec 8)
    (before : List (List (BitVec 8))) (st : State) : Prop :=
  Standing (render slash (startNames cwd path)).length prior
    (before.foldl (push dot) (startNames cwd path)) (behindRoot cwd path before) st

theorem absolute_iff : path.absolute = true ↔ ∃ rest, path.bytes = slash :: rest := by
  unfold CString.absolute
  cases path.bytes with
  | nil => simp
  | cons c rest => simp

theorem behindRoot_append (before : List (List (BitVec 8))) :
    behindRoot cwd path (before ++ [comp]) =
      (behindRoot cwd path before && comp != [dot, dot]) := by
  simp [behindRoot, Bool.and_assoc]

/-- The components of a path hold neither a slash nor a NUL. -/
theorem component_clean (h : comp ∈ path.bytes.splitOn slash) : slash ∉ comp ∧ 0 ∉ comp :=
  ⟨fun hm => (mem_of_mem_splitOn h slash hm).2 rfl,
    fun hm => path.nonzero (mem_of_mem_splitOn h 0 hm).1⟩

/-- The slash that an absolute path begins with adds a component that is skipped. -/
theorem foldlM_components (st : State) :
    (components path).foldlM step st = (path.bytes.splitOn slash).foldlM step st := by
  unfold components
  split
  · rename_i ha
    obtain ⟨rest, hr⟩ := absolute_iff.mp ha
    rw [hr, List.tail_cons, splitOn_cons_self]
    rfl
  · rfl

theorem takenAfter_nil {before : List (List (BitVec 8))} : TakenAfter cwd path before [] :=
  ⟨fun h => absurd h (by simp), fun h => absurd rfl h.nonempty, fun h => absurd rfl h.nonempty⟩

/-! ## The start -/

theorem start_absolute (ha : path.absolute = true) (prior : Nat → BitVec 8) :
    ∃ st, start (some cwd) path ⟨pathMax, prior⟩ = .ok st ∧
      StandingAfter cwd path prior [] st := by
  have hnames : startNames cwd path = [] := if_pos ha
  refine ⟨((CharArray.set ⟨pathMax, prior⟩ 0 slash).set 1 0, 0), ?_, ?_⟩
  · simp [start, ha, CharArray.put, pathMax, bind, Except.bind]
  · rw [StandingAfter, List.foldl_nil, hnames]
    constructor
    case size => rfl
    case limit_pos => decide
    case limit_lt => decide
    case cursor => simp [behindRoot, ha]
    case cursor_lt => simp [pathMax]
    case behind => simp [behindRoot, ha]
    case named => simp
    case text => rfl
    case root => exact fun _ => ⟨rfl, rfl⟩
    case stop => exact fun _ => rfl
    case clear =>
      intro _ i _ hi h0
      have h1 : i = 1 := Nat.le_antisymm hi h0
      subst h1
      exact slash_ne_zero.symm
    case prior =>
      intro i hi _
      have h1 : 1 < i := hi
      exact (CharArray.set_byte_ne (by omega)).trans (CharArray.set_byte_ne (by omega))

theorem start_relative (ha : path.absolute = false) (hlen : cwd.path.length < pathMax)
    (prior : Nat → BitVec 8) :
    ∃ st, start (some cwd) path ⟨pathMax, prior⟩ = .ok st ∧
      StandingAfter cwd path prior [] st := by
  have hnames : startNames cwd path = cwd.names := by simp [startNames, ha]
  have h0 : 0 ∉ cwd.path := zero_notMem_render cwd.named
  have hfit : 0 + (cwd.path ++ [0]).length ≤ pathMax := by
    rw [List.length_append, List.length_singleton]
    omega
  generalize hb : CharArray.fill ⟨pathMax, prior⟩ 0 (cwd.path ++ [0]) = b
  have hsize : b.size = pathMax := by rw [← hb]; rfl
  have htext : b.text (cwd.path ++ [0]).length = cwd.path ++ [0] := by
    have ht : b.text (0 + (cwd.path ++ [0]).length) = cwd.path ++ [0] := by
      rw [← hb]
      exact CharArray.text_fill
    rwa [Nat.zero_add] at ht
  obtain ⟨hfront, hback⟩ := CharArray.text_append htext
  have hend : b.byte cwd.path.length = 0 :=
    List.mem_singleton.mp (hback _ (Nat.le_refl _) (by simp))
  have hstrlen : b.strlen = .ok cwd.path.length := by
    refine CharArray.strlen_ok.mpr ⟨by omega, hend, fun i hi hz => h0 ?_⟩
    have hmem := CharArray.byte_mem_text (b := b) hi
    rwa [hfront, hz] at hmem
  have hpos : 0 < cwd.path.length := List.length_pos_iff.mpr (render_ne_nil cwd.names)
  refine ⟨(b, cwd.path.length), ?_, ?_⟩
  · have hget : getcwd (some cwd) ⟨pathMax, prior⟩ = .ok b := by
      rw [getcwd, if_pos (Nat.succ_le_of_lt hlen), CharArray.memcpy_ok hfit, hb]
    simp [start, ha, hget, hstrlen, bind, Except.bind]
  · rw [StandingAfter, List.foldl_nil, hnames]
    change Standing cwd.path.length _ _ _ _
    constructor
    case size => exact hsize
    case limit_pos => exact hpos
    case limit_lt => exact hlen
    case cursor =>
      by_cases hn : cwd.names = []
      · simp [behindRoot, ha, Directory.path, hn, render]
      · simp [behindRoot, ha, Directory.path, hn, render]
    case cursor_lt => exact hlen
    case behind =>
      intro hbe
      have hn : cwd.names = [] := by simpa [behindRoot, ha] using hbe
      exact ⟨hn, by simp [Directory.path, hn, render]⟩
    case named => exact cwd.named
    case text =>
      by_cases hn : cwd.names = []
      · rw [hn]
        rfl
      · rwa [Directory.path, render_of_ne_nil hn] at hfront
    case root =>
      intro hn
      rw [Directory.path, hn] at hfront hend
      exact ⟨List.head_eq_of_cons_eq hfront, hend⟩
    case stop => exact fun _ => hend
    case clear =>
      intro _ i hi hil _
      rw [show i = cwd.path.length from Nat.le_antisymm hil hi, hend]
      exact slash_ne_zero.symm
    case prior =>
      intro i hi _
      rw [← hb]
      exact CharArray.fill_byte_above (by simp; omega)

theorem start_ok (h : path.absolute = false → cwd.path.length < pathMax)
    (prior : Nat → BitVec 8) :
    ∃ st, start (some cwd) path ⟨pathMax, prior⟩ = .ok st ∧
      StandingAfter cwd path prior [] st := by
  cases ha : path.absolute with
  | true => exact start_absolute ha prior
  | false => exact start_relative ha (h ha) prior

/-! ## Paths that are taken -/

theorem StandingAfter.step {before : List (List (BitVec 8))}
    (h : StandingAfter cwd path prior before st) (hc : slash ∉ comp ∧ 0 ∉ comp)
    (ht : TakenAfter cwd path before comp) :
    ∃ st', RealPath.step st comp = .ok st' ∧
      StandingAfter cwd path prior (before ++ [comp]) st' := by
  obtain ⟨st', hs, hst⟩ := Standing.step h hc.1 hc.2 ht
  refine ⟨st', hs, ?_⟩
  rwa [StandingAfter, behindRoot_append, List.foldl_append]

theorem StandingAfter.run {before comps : List (List (BitVec 8))}
    (h : StandingAfter cwd path prior before st)
    (hc : ∀ comp ∈ comps, slash ∉ comp ∧ 0 ∉ comp)
    (ht : Feed.Along (TakenAfter cwd path) before comps) :
    ∃ st', comps.foldlM RealPath.step st = .ok st' ∧
      StandingAfter cwd path prior (before ++ comps) st' :=
  ht.foldlM_ok (fun _ _ h comp hm ht => StandingAfter.step h (hc comp hm) ht) h

abbrev resolvedNames (cwd : Directory) (path : CString) : List (List (BitVec 8)) :=
  resolve slash dot (startNames cwd path) path.bytes

theorem PathTaken.finished (h : PathTaken cwd path) (prior : Nat → BitVec 8) :
    ∃ st st₁ st₂, RealPath.start (some cwd) path ⟨pathMax, prior⟩ = .ok st ∧
      (components path).foldlM step st = .ok st₁ ∧ finish st₁ = .ok st₂ ∧
        Ended (resolvedNames cwd path) st₂ ∧
          ∀ name ∈ resolvedNames cwd path, PathName name := by
  obtain ⟨st, hst, hs⟩ := start_ok h.start prior
  obtain ⟨st₁, hrun, h₁⟩ := hs.run (fun comp hc => component_clean hc) h.each
  obtain ⟨st₂, hfin, hend⟩ := h₁.finish
  exact ⟨st, st₁, st₂, hst, (foldlM_components st).trans hrun, hfin, hend, h₁.named⟩

theorem PathTaken.result (h : PathTaken cwd path) (buf : Nat → BitVec 8)
    (realPath : Option (Nat → BitVec 8)) :
    ∃ b, getRealPath ⟨some cwd, buf, true⟩ (some path) realPath = .ok b ∧
      b.cString = .ok (normalPath cwd path) := by
  obtain ⟨st, st₁, ⟨b, rp2⟩, hst, hrun, hfin, hend, hnamed⟩ := h.finished (realPath.getD buf)
  cases realPath with
  | some prior =>
      refine ⟨b, ?_, hend.cString hnamed (hend.size ▸ hend.cursor_lt)⟩
      simp only [getRealPath, hst, hrun, hfin, bind, Except.bind]
      rfl
  | none =>
      refine ⟨{ b with size := rp2 + 1 }, ?_, hend.cString hnamed (Nat.lt_succ_self rp2)⟩
      simp only [getRealPath, hst, hrun, hfin, bind, Except.bind]
      rfl

/-! ## Resolving the result -/

/-- A normalized path has no component to go wrong, in any directory. -/
theorem pathTaken_render (hn : ∀ name ∈ names, IsName slash dot name)
    (hlen : (render slash names).length < pathMax) (hb : path.bytes = render slash names)
    (cwd : Directory) : PathTaken cwd path ∧ normalPath cwd path = path.bytes := by
  have ha : path.absolute = true := by
    refine absolute_iff.mpr ?_
    rw [hb]
    cases names with
    | nil => exact ⟨[], rfl⟩
    | cons name names => exact ⟨name ++ joined slash names, rfl⟩
  have hstart : startNames cwd path = [] := if_pos ha
  refine ⟨⟨fun hrel => absurd (ha.symm.trans hrel) (by decide), ?_⟩, ?_⟩
  · change Feed.Along (TakenAfter cwd path) [] (path.bytes.splitOn slash)
    rw [hb, splitOn_render fun name hm => (hn name hm).noSlash, Feed.along_cons]
    refine ⟨takenAfter_nil, ?_⟩
    split
    · exact Feed.along_cons.mpr ⟨takenAfter_nil, Feed.along_nil⟩
    · rename_i hne
      intro mid comp after hs
      have hcomp := hn comp (by rw [hs]; simp)
      have hmid : ([[]] ++ mid).foldl (push dot) (startNames cwd path) = mid := by
        rw [hstart]
        exact foldl_push_names (fun name hm => hn name (hs ▸ List.mem_append_left _ hm)) []
      refine ⟨fun hd => absurd hd hcomp.notDots, fun _ => ?_, fun _ => by simp [behindRoot, ha]⟩
      rw [List.nil_append, hmid]
      rw [render_of_ne_nil hne, hs, joined_append, List.length_append] at hlen
      have hjoin : 1 + comp.length ≤ (joined slash (comp :: after)).length := by
        simp [joined]
        omega
      omega
  · rw [normalPath, hstart, hb, resolve_render hn]

/-! ## Paths that are not -/

theorem StandingAfter.along_or_lost {before comps : List (List (BitVec 8))}
    (h : StandingAfter cwd path prior before st) (hp : ∀ i, prior i ≠ 0)
    (hc : ∀ comp ∈ comps, slash ∉ comp ∧ 0 ∉ comp)
    (hs : comps.foldlM RealPath.step st = .ok st') :
    Feed.Along (TakenAfter cwd path) before comps ∨ Lost st' := by
  induction comps generalizing before st with
  | nil => exact .inl Feed.along_nil
  | cons comp comps ih =>
      rw [List.foldlM_cons] at hs
      obtain ⟨st₁, hstep, hs⟩ := bind_eq_ok hs
      have hcomp := hc comp List.mem_cons_self
      have hrest : ∀ comp ∈ comps, slash ∉ comp ∧ 0 ∉ comp :=
        fun c hm => hc c (List.mem_cons_of_mem _ hm)
      rcases h.taken_or_lost hp hcomp.2 hstep with ht | hl
      · obtain ⟨st₂, hstep', hst⟩ := h.step hcomp ht
        cases hstep.symm.trans hstep'
        rcases ih hst hrest hs with ha | hl
        · exact .inl (Feed.along_cons.mpr ⟨ht, ha⟩)
        · exact .inr hl
      · exact .inr (hl.run (fun c hm => (hrest c hm).2) hs)

theorem of_getRealPath {e : PathContext} {b : CharArray}
    (h : getRealPath e (some path) (some prior) = .ok b) :
    ∃ st st₁ st₂, start e.cwd path ⟨pathMax, prior⟩ = .ok st ∧
      (components path).foldlM step st = .ok st₁ ∧ finish st₁ = .ok st₂ ∧ st₂.1 = b := by
  obtain ⟨st, hst, h⟩ := bind_eq_ok h
  obtain ⟨st₁, hrun, h⟩ := bind_eq_ok h
  obtain ⟨st₂, hfin, h⟩ := bind_eq_ok h
  cases h
  exact ⟨st, st₁, st₂, hst, hrun, hfin, rfl⟩

/-- A current directory whose path is too long is not read at all. -/
theorem start_fails (ha : path.absolute = false) (hlen : pathMax ≤ cwd.path.length)
    (b : CharArray) : start (some cwd) path b = .error (.returned .syserr) := by
  have hget : getcwd (some cwd) b = .error (.returned .syserr) := if_neg (by omega)
  simp [start, ha, hget, bind, Except.bind]

theorem pathTaken_of_result (hp : ∀ i, prior i ≠ 0) {e : PathContext} (he : e.cwd = some cwd)
    {b : CharArray} (h : getRealPath e (some path) (some prior) = .ok b)
    (hs : b.cString = .ok (normalPath cwd path)) : PathTaken cwd path := by
  obtain ⟨st, st₁, st₂, hst, hrun, hfin, rfl⟩ := of_getRealPath h
  rw [he] at hst
  have hroom : path.absolute = false → cwd.path.length < pathMax := by
    intro ha
    by_contra hlen
    rw [start_fails ha (by omega)] at hst
    cases hst
  obtain ⟨st', hst', hstand⟩ := start_ok hroom prior
  cases hst.symm.trans hst'
  rw [foldlM_components] at hrun
  have hclean : ∀ comp ∈ path.bytes.splitOn slash, slash ∉ comp ∧ 0 ∉ comp :=
    fun comp hc => component_clean hc
  refine ⟨hroom, (hstand.along_or_lost hp hclean hrun).resolve_right fun hl => ?_⟩
  have hnames : ∀ name ∈ resolvedNames cwd path, IsName slash dot name :=
    resolve_names fun name hn => by
      by_cases ha : path.absolute
      · simp [startNames, ha] at hn
      · rw [startNames, if_neg ha] at hn
        exact (cwd.named name hn).lexical
  exact hl.finish hfin hs hnames rfl

end RealPath

open RealPath in
/-- A path is resolved right if and only if the current directory fits when it is
read, every name fits, no `..` comes while the names are longer than what the start
wrote, and no relative path in the root begins with a name. -/
theorem resolvesRight_iff (cwd : Directory) (path : CString) :
    ResolvesRight cwd path ↔ PathTaken cwd path := by
  constructor
  · intro h
    have hdot : dot ≠ 0 := by decide
    obtain ⟨b, hb, hs⟩ := h.result (fun _ => dot) (some fun _ => dot)
    exact pathTaken_of_result (fun _ => hdot) rfl hb hs
  · intro h
    refine ⟨h.result, fun resolved hr cwd' => ?_⟩
    obtain ⟨-, -, st, -, -, -, hend, hnamed⟩ := h.finished fun _ => 0
    have hn := pathTaken_render (fun name hm => (hnamed name hm).lexical)
      (hend.cursor ▸ hend.cursor_lt) hr
    intro buf realPath
    rw [← (hn cwd').2]
    exact (hn cwd').1.result buf realPath

/-- The root directory. -/
def rootDirectory : Directory := ⟨[], by simp⟩

/-- Bytes of an earlier call behind the first two. -/
def staleSlash (i : Nat) : BitVec 8 := if i = 2 then slash else 0

/-- In the root, `/a/..` with a slash left behind the name comes out as `/a`, and `a`
as `//a`. -/
theorem dotsAfterName_not_right :
    ¬ResolvesRight rootDirectory ⟨[0x2f, 0x61, 0x2f, 0x2e, 0x2e], by decide⟩ ∧
      ¬ResolvesRight rootDirectory ⟨[0x61], by decide⟩ := by
  constructor
  · intro h
    obtain ⟨b, hb, hs⟩ := h.result (fun _ => 0) (some staleSlash)
    have hrun : (getRealPath ⟨some rootDirectory, fun _ => 0, true⟩
        (some ⟨[0x2f, 0x61, 0x2f, 0x2e, 0x2e], by decide⟩) (some staleSlash) >>=
          CharArray.cString) = .ok [0x2f, 0x61] := by decide +kernel
    rw [hb] at hrun
    have hne := hrun.symm.trans hs
    revert hne
    decide
  · intro h
    obtain ⟨b, hb, hs⟩ := h.result (fun _ => 0) (some fun _ => 0)
    have hrun : (getRealPath ⟨some rootDirectory, fun _ => 0, true⟩
        (some ⟨[0x61], by decide⟩) (some fun _ => 0) >>= CharArray.cString) =
          .ok [0x2f, 0x2f, 0x61] := by decide +kernel
    rw [hb] at hrun
    have hne := hrun.symm.trans hs
    revert hne
    decide

end Rvvk
