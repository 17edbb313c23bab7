import Rvvk.Lib.Feed
import Rvvk.Cpu.Effects

/-!
# The file of control and status registers

Histories of CSR instructions. Every number that `read_csr` and `write_csr` know
has a field of its own, so a CSR reads as its last write left it; the composite
registers agree with their parts only as long as all of them stay zero.
-/

namespace Rvvk

theorem readCsr_writeCsr {s s' : State} {k : BitVec 32} {v : Word}
    (h : writeCsr s k v = some s') (n : BitVec 32) :
    readCsr s' n = if n = k then some v else readCsr s n := by
  rcases writeCsr_cases h with h | h | h | h | h | h | h | h | h | h
  all_goals
    obtain ⟨hk, rfl⟩ := h
    by_cases hn : n = k
    · rw [if_pos hn, hn, hk]
      rfl
    · rw [if_neg hn]
      rw [hk] at hn
      simp only [readCsr, hn, if_false]

/-! ## Histories of CSR instructions -/

/-- A CSR instruction on a CSR that is implemented, and the registers it finds. -/
structure CsrAccess where
  insn : Insn
  isCsr : insn.op.isCsr = true
  known : csrKnown insn.csr = true
  gpr : Reg → Word

namespace CsrAccess

/-- The new value and the write mask that the handler hands to `rmw_csr`. -/
def operands (i : CsrAccess) : Word × Word :=
  match i.insn.op with
  | .csr newValue wrMask =>
      (newValue (i.gpr i.insn.rs1) i.insn.uimm, wrMask (i.gpr i.insn.rs1) i.insn.uimm)
  | _ => (0, 0)

/-- What `rmw_csr` writes over an old value. -/
def written (i : CsrAccess) (old : Word) : Word :=
  (old &&& ~~~i.operands.2) ||| (i.operands.1 &&& i.operands.2)

/-- The instruction runs; whatever else the guest does in between changes
registers, but no CSR. -/
def step (m : Machine) (i : CsrAccess) (m' : Machine) : Prop :=
  i.insn.run { m with env := { m.env with gpr := i.gpr } } = .ok m'

/-- A CSR instruction writes one CSR and leaves its old value in `rd`. -/
theorem step_iff {m m' : Machine} {i : CsrAccess} :
    step m i m' ↔ ∃ old s, readCsr m.env i.insn.csr = some old ∧
      writeCsr { m.env with gpr := i.gpr } i.insn.csr (i.written old) = some s ∧
      m' = { m with env := s }.setGpr i.insn.rd old := by
  have hc := i.isCsr
  unfold step written operands
  cases hop : i.insn.op with
  | csr newValue wrMask =>
      have hrun : i.insn.run { m with env := { m.env with gpr := i.gpr } } =
          (Op.csr newValue wrMask).run i.insn { m with env := { m.env with gpr := i.gpr } } := by
        rw [← hop]
        rfl
      obtain ⟨s, old, hr, he⟩ :=
        csr_known newValue wrMask i.insn { m with env := { m.env with gpr := i.gpr } } i.known
      rw [hrun, he]
      have hread := (rmwCsr_spec hr).1
      have hwrite := (rmwCsr_spec hr).2
      constructor
      · intro h
        exact ⟨old, s, hread, hwrite, (Except.ok.inj h).symm⟩
      · rintro ⟨old', s', hr', hw', rfl⟩
        have ho : old' = old := Option.some.inj (hr'.symm.trans hread)
        subst ho
        rw [Option.some.inj (hw'.symm.trans hwrite)]
  | _ =>
      rw [hop] at hc
      cases hc

theorem step_total (m : Machine) (i : CsrAccess) : ∃ m', step m i m' := by
  have hr := readCsr_isSome m.env i.insn.csr
  rw [i.known, Option.isSome_iff_exists] at hr
  obtain ⟨old, hr⟩ := hr
  have hw := writeCsr_isSome { m.env with gpr := i.gpr } i.insn.csr (i.written old)
  rw [i.known, Option.isSome_iff_exists] at hw
  obtain ⟨s, hw⟩ := hw
  exact ⟨_, step_iff.mpr ⟨old, s, hr, hw, rfl⟩⟩

/-! ## Registers of their own -/

abbrev File := BitVec 32 → Word

def update (f : File) (i : CsrAccess) : File := fun n =>
  if n = i.insn.csr then i.written (f n) else f n

def file (is : List CsrAccess) : File := is.foldl update fun _ => 0

def Shows (m : Machine) (f : File) : Prop :=
  ∀ n, csrKnown n = true → readCsr m.env n = some (f n)

theorem boot_shows (mem : Memory) : Shows (.boot mem) fun _ => 0 := by
  intro n hn
  simp only [csrKnown, List.mem_cons, List.not_mem_nil, or_false, decide_eq_true_eq] at hn
  rcases hn with rfl | rfl | rfl | rfl | rfl | rfl | rfl | rfl | rfl | rfl <;> rfl

theorem Shows.step {m m' : Machine} {f : File} {i : CsrAccess} (hf : Shows m f)
    (h : step m i m') : Shows m' (update f i) ∧ m'.gpr i.insn.rd = f i.insn.csr := by
  obtain ⟨old, s, hr, hw, rfl⟩ := step_iff.mp h
  have hold : f i.insn.csr = old := Option.some.inj ((hf _ i.known).symm.trans hr)
  refine ⟨fun n hn => ?_, by rw [Machine.gpr_setGpr_self, hold]⟩
  have hread := readCsr_writeCsr hw n
  have hkeep : readCsr { m.env with gpr := i.gpr } n = readCsr m.env n := rfl
  rw [hkeep, hf n hn] at hread
  unfold update
  refine hread.trans ?_
  by_cases he : n = i.insn.csr
  · rw [if_pos he, if_pos he, he, hold]
  · rw [if_neg he, if_neg he]

theorem Shows.run {m m' : Machine} {f : File} {is : List CsrAccess} (hf : Shows m f)
    (h : Feed.Reaches CsrAccess.step m is m') : Shows m' (is.foldl update f) := by
  induction h generalizing f with
  | nil m => exact hf
  | cons hs _ ih => exact ih (hf.step hs).1

end CsrAccess

/-! ## The composite registers -/

/-- FCSR, FRM, FFLAGS, VCSR, VXRM and VXSAT. -/
def csrComposite (n : BitVec 32) : Bool :=
  [0x001#32, 0x002, 0x003, 0x009, 0x00a, 0x00f].contains n

/-- The composite registers are made of their parts. -/
structure Coherent (s : State) : Prop where
  frm : s.frm.toNat < 2 ^ 3
  fflags : s.fflags.toNat < 2 ^ 5
  fcsr : s.fcsr = (s.frm <<< 5) ||| s.fflags
  vxrm : s.vxrm.toNat < 2 ^ 2
  vxsat : s.vxsat.toNat < 2 ^ 1
  vcsr : s.vcsr = (s.vxrm <<< 1) ||| s.vxsat

structure Cleared (s : State) : Prop where
  frm : s.frm = 0
  fflags : s.fflags = 0
  fcsr : s.fcsr = 0
  vxrm : s.vxrm = 0
  vxsat : s.vxsat = 0
  vcsr : s.vcsr = 0

theorem Cleared.coherent {s : State} (h : Cleared s) : Coherent s := by
  obtain ⟨h1, h2, h3, h4, h5, h6⟩ := h
  constructor <;> simp [h1, h2, h3, h4, h5, h6]

/-- A part that was shifted out of a zero was zero, if it has room. -/
theorem eq_zero_of_shiftLeft {v : Word} {k j : Nat} (hv : v.toNat < 2 ^ j) (hj : j + k ≤ 64)
    (h : v <<< k = 0) : v = 0 := by
  have hn := congrArg BitVec.toNat h
  have hlt : v.toNat * 2 ^ k < 2 ^ 64 := by
    refine Nat.lt_of_lt_of_le (Nat.mul_lt_mul_of_pos_right hv (Nat.two_pow_pos k)) ?_
    rw [← Nat.pow_add]
    exact Nat.pow_le_pow_right (by decide) hj
  rw [BitVec.toNat_shiftLeft, Nat.shiftLeft_eq, Nat.mod_eq_of_lt hlt] at hn
  have hz : v.toNat * 2 ^ k = 0 := hn
  exact BitVec.eq_of_toNat_eq ((Nat.mul_eq_zero.mp hz).resolve_right (Nat.ne_of_gt (Nat.two_pow_pos k)))

theorem Cleared.write {s s' : State} {n : BitVec 32} {v : Word} (hc : Cleared s)
    (h : writeCsr s n v = some s') (hv : csrComposite n = true → v = 0) : Cleared s' := by
  obtain ⟨h1, h2, h3, h4, h5, h6⟩ := hc
  rcases writeCsr_cases h with h | h | h | h | h | h | h | h | h | h
  all_goals
    obtain ⟨rfl, rfl⟩ := h
    first
      | exact ⟨h1, h2, h3, h4, h5, h6⟩
      | (rw [hv (by decide)]; constructor <;> first | rfl | assumption)

theorem Cleared.zero_of_coherent {s s' : State} {n : BitVec 32} {v : Word} (hc : Cleared s)
    (h : writeCsr s n v = some s') (hco : Coherent s') (hn : csrComposite n = true) : v = 0 := by
  have hf := hco.fcsr
  have hv := hco.vcsr
  have hfrm := hco.frm
  have hvxrm := hco.vxrm
  rcases writeCsr_cases h with h | h | h | h | h | h | h | h | h | h
  all_goals obtain ⟨rfl, rfl⟩ := h
  · simpa [hc.fcsr, hc.frm] using hf.symm
  · exact eq_zero_of_shiftLeft hfrm (k := 5) (by decide) (by simpa [hc.fcsr, hc.fflags] using hf.symm)
  · simpa [hc.frm, hc.fflags] using hf
  · cases hn
  · simpa [hc.vcsr, hc.vxrm] using hv.symm
  · exact eq_zero_of_shiftLeft hvxrm (k := 1) (by decide) (by simpa [hc.vcsr, hc.vxsat] using hv.symm)
  · simpa [hc.vxrm, hc.vxsat] using hv
  · cases hn
  · cases hn
  · cases hn

namespace CsrAccess

def KeepsCoherent (m : Machine) (i : CsrAccess) : Prop := ∀ m', step m i m' → Coherent m'.env

/-- The instruction writes zero if it names one of the six registers. -/
def WritesZero (i : CsrAccess) : Prop := csrComposite i.insn.csr = true → i.written 0 = 0

theorem Cleared.read {m : Machine} (hc : Cleared m.env) {n : BitVec 32}
    (hn : csrComposite n = true) : readCsr m.env n = some 0 := by
  simp only [csrComposite, List.contains_eq_mem, List.mem_cons, List.not_mem_nil, or_false,
    decide_eq_true_eq] at hn
  rcases hn with rfl | rfl | rfl | rfl | rfl | rfl
  · exact congrArg some hc.fflags
  · exact congrArg some hc.frm
  · exact congrArg some hc.fcsr
  · exact congrArg some hc.vxsat
  · exact congrArg some hc.vxrm
  · exact congrArg some hc.vcsr

theorem Cleared.old_eq {m : Machine} {i : CsrAccess} {old : Word} (hc : Cleared m.env)
    (hr : readCsr m.env i.insn.csr = some old) (hn : csrComposite i.insn.csr = true) : old = 0 :=
  Option.some.inj (hr.symm.trans (Cleared.read hc hn))

theorem cleared_step {m m' : Machine} {i : CsrAccess} (hc : Cleared m.env) (hz : i.WritesZero)
    (h : step m i m') : Cleared m'.env := by
  obtain ⟨old, s, hr, hw, rfl⟩ := step_iff.mp h
  have hc' : Cleared { m.env with gpr := i.gpr } := ⟨hc.1, hc.2, hc.3, hc.4, hc.5, hc.6⟩
  have hs := hc'.write hw fun hn => by rw [Cleared.old_eq hc hr hn, hz hn]
  exact ⟨hs.1, hs.2, hs.3, hs.4, hs.5, hs.6⟩

theorem keepsCoherent_iff {m : Machine} {i : CsrAccess} (hc : Cleared m.env) :
    KeepsCoherent m i ↔ i.WritesZero := by
  constructor
  · intro hk hn
    obtain ⟨m', hm⟩ := step_total m i
    obtain ⟨old, s, hr, hw, rfl⟩ := step_iff.mp hm
    have hc' : Cleared { m.env with gpr := i.gpr } := ⟨hc.1, hc.2, hc.3, hc.4, hc.5, hc.6⟩
    have hco := hk _ hm
    have hs : Coherent s := ⟨hco.1, hco.2, hco.3, hco.4, hco.5, hco.6⟩
    have hz := hc'.zero_of_coherent hw hs hn
    rwa [Cleared.old_eq hc hr hn] at hz
  · intro hz m' hm
    exact (cleared_step hc hz hm).coherent

/-- From the cleared file, over any history of CSR instructions: each implemented
number is a register of its own, which reads as its last write left it; and the
composite registers stay coherent with their parts exactly when nothing but
zeros is written to any of the six. -/
theorem histories (mem : Memory) (is : List CsrAccess) :
    (∀ m, Feed.Reaches step (.boot mem) is m →
      Shows m (file is) ∧ ∀ i m', step m i m' → m'.gpr i.insn.rd = file is i.insn.csr) ∧
    (Feed.Each step KeepsCoherent (.boot mem) is ↔ ∀ i ∈ is, i.WritesZero) := by
  constructor
  · intro m hr
    have hs := (boot_shows mem).run hr
    exact ⟨hs, fun i m' h => (hs.step h).2⟩
  · have hboot : Cleared (Machine.boot mem).env := ⟨rfl, rfl, rfl, rfl, rfl, rfl⟩
    have hstep : ∀ (m : Machine) (i : CsrAccess) (m' : Machine), Cleared m.env → i.WritesZero →
        step m i m' → Cleared m'.env := fun _ _ _ hc hz h => cleared_step hc hz h
    exact (Feed.each_iff hstep (fun _ _ hc => keepsCoherent_iff hc) hboot).trans
      (Feed.each_const step_total)

/-- `csrrwi x1, frm, 1`. -/
def setFrm : CsrAccess := ⟨⟨1, 0, 1, 0x002, 0, .doCsrrwi⟩, rfl, by decide, fun _ => 0⟩

/-- A write to FRM does not show in FCSR. -/
theorem setFrm_not_coherent :
    ¬ Feed.Each step KeepsCoherent (.boot (Memory.filled 0)) [setFrm] := by
  intro h
  obtain ⟨m', hm⟩ := step_total (.boot (Memory.filled 0)) setFrm
  have hco := h.1 m' hm
  obtain ⟨old, s, hr, hw, rfl⟩ := step_iff.mp hm
  cases hr
  cases hw
  exact absurd hco.fcsr (by decide +kernel)

end CsrAccess

end Rvvk
