import Rvvk.Lib.Feed
import Rvvk.Bitops
import Rvvk.Memory

/-!
# The program break

`target_set_brk` and `do_brk`, and the law of the program break on Linux, over
any sequence of requests.
-/

namespace Rvvk

def targetPageAlign (addr : Word) : Word := roundUp addr 4096

theorem toNat_targetPageAlign (addr : Word) :
    (targetPageAlign addr).toNat = (addr.toNat + 4095) % 2 ^ 64 / 4096 * 4096 :=
  toNat_roundUp_page addr

/-- `target_brk` and `initial_target_brk`. -/
structure Brk where
  target : Word
  initial : Word
deriving DecidableEq

def targetSetBrk (newBrk : Word) : Brk :=
  let target := targetPageAlign newBrk
  ⟨target, target⟩

def doBrk (b : Brk) (brkVal : Word) : Brk × Word :=
  let target := if brkVal < b.initial then b.initial else brkVal
  ({ b with target := target }, target)

/-- The break after a request on Linux, which is also what the request returns:
a request below the initial break is a query. -/
def linuxBrk (initial current brkVal : Word) : Word :=
  if brkVal < initial then current else brkVal

/-- The emulator beside the value of the last granted request. -/
structure BrkRun where
  brk : Brk
  granted : Word

namespace BrkRun

def start (newBrk : Word) : BrkRun := ⟨targetSetBrk newBrk, (targetSetBrk newBrk).initial⟩

def step (s : BrkRun) (brkVal : Word) (s' : BrkRun) : Prop :=
  s' = ⟨(doBrk s.brk brkVal).1, linuxBrk s.brk.initial s.granted brkVal⟩

/-- The request returns and leaves what it would on Linux. -/
def Lawful (s : BrkRun) (brkVal : Word) : Prop :=
  (doBrk s.brk brkVal).2 = linuxBrk s.brk.initial s.granted brkVal ∧
    (doBrk s.brk brkVal).1.target = linuxBrk s.brk.initial s.granted brkVal

/-- A request below the initial break finds the break there. -/
def QueriesAtStart (s : BrkRun) (brkVal : Word) : Prop :=
  brkVal < s.brk.initial → s.brk.target = s.brk.initial

/-- As long as the break is the last granted value, a request is lawful exactly
if it does not query a break that has moved. -/
theorem lawful_iff {s : BrkRun} (h : s.brk.target = s.granted) (brkVal : Word) :
    s.Lawful brkVal ↔ s.QueriesAtStart brkVal := by
  unfold Lawful QueriesAtStart doBrk linuxBrk
  dsimp only
  by_cases hq : brkVal < s.brk.initial
  · rw [if_pos hq, if_pos hq, ← h]
    exact ⟨fun hl _ => hl.1.symm, fun hs => ⟨(hs hq).symm, (hs hq).symm⟩⟩
  · rw [if_neg hq, if_neg hq]
    exact ⟨fun _ hb => absurd hb hq, fun _ => ⟨rfl, rfl⟩⟩

/-- Over every sequence of requests: each is served as on Linux exactly when no
request below the initial break comes while the break is above it. -/
theorem brk_lawful_iff (newBrk : Word) (rs : List Word) :
    Feed.Each step Lawful (start newBrk) rs ↔ Feed.Each step QueriesAtStart (start newBrk) rs := by
  have hstep : ∀ s r s', s.brk.target = s.granted → QueriesAtStart s r → step s r s' →
      s'.brk.target = s'.granted := by
    intro s r s' h hq hs
    rw [show s' = _ from hs]
    exact ((lawful_iff h r).mpr hq).2
  exact Feed.each_iff hstep (fun _ r h => lawful_iff h r) rfl

/-- After a granted request the query `brk(0)` returns the initial break. -/
theorem query_not_lawful : ¬ Feed.Each step Lawful (start 0x12000) [0x13000, 0] := by
  intro h
  have h2 := (h.2 _ rfl).1
  exact absurd h2.1 (by decide +kernel)

end BrkRun

end Rvvk
