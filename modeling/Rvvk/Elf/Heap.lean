import Rvvk.Elf.Image
import Rvvk.Mmap.InsnBuffer

/-!
# The program break over the heap

The loader maps the heap up to `reserve_brk` above the image, and `do_brk` hands it
out without knowing its end.
-/

namespace Rvvk

/-! ## The heap after the load -/

/-- The bytes from the initial break to the end of the heap. -/
def heapSize (h : Host) (bprm : Binprm) (info : ImageInfo) : Nat :=
  (h.hiaddr bprm - targetPageAlign info.brk + 1).toNat

/-- A file that names its addresses, or a break that is not 0: the heap is at the break. -/
def HeapPlaced (bprm : Binprm) (info : ImageInfo) : Prop :=
  bprm.ehdr.eType = etExec ∨ targetPageAlign info.brk ≠ 0

theorem place_targetPageAlign {s : Space} {brk : Word} (h : targetPageAlign brk ≠ 0) :
    s.place (targetPageAlign brk) = targetPageAlign brk := by
  unfold Space.place
  rw [if_neg h]
  refine BitVec.eq_of_toNat_eq ?_
  rw [toNat_and_hostPageMask, toNat_targetPageAlign]
  omega

/-- The heap's pages can be read and written wherever the stack is not. -/
theorem heap_mapped {h : Host} {c : Setup} {s s' : Space} {bprm : Binprm} {info : ImageInfo}
    (hl : loadElfBinary h c s bprm = .ok (s', info)) (hp : HeapPlaced bprm info) {a : Word}
    (ha : Span.Mem (targetPageAlign info.brk) (heapSize h bprm info) a)
    (hout : ¬ Span.Mem (info.stackLimit - guard) (stackLength c) a) :
    s'.mem.prot? a = some ⟨true, true⟩ := by
  obtain ⟨s₀, s₁, s₂, s₃, s₄, loadAddr, heapAddr, stackLimit, p, info₂, st⟩ :=
    loadElfBinary_stages hl
  have hinfo := st.result
  have hbrk : info.brk = info₂.brk := by rw [hinfo]
  have hlimit : info.stackLimit - guard = s₃.mmapNextStart := by
    rw [hinfo]
    show stackLimit - guard = _
    rw [(mapStack_ok st.stack).limit]
    exact BitVec.add_sub_cancel _ _
  rw [hlimit] at hout
  rw [hbrk] at ha
  obtain ⟨hne, hr⟩ := granted_eq_ok st.heap
  have hs₃ : s₃ = _ := congrArg Prod.fst hr
  have hin : Span.Mem (targetPageAlign info₂.brk)
      (pageUp (heapArgs c bprm.ehdr (h.hiaddr bprm) info₂.brk).length.toNat) a := by
    unfold heapSize at ha
    rw [hbrk] at ha
    exact ha.mono (le_pageUp _)
  have hcell : s₃.mem a = some ⟨0, .ofBits (protRead ||| protWrite)⟩ := by
    rw [hs₃]
    by_cases hx : bprm.ehdr.eType = etExec
    · have hz := zeroMapped (reserveFlags_fixed c hx) rfl rfl (reserveFlags_anonymous _) hne
      rw [hz.mem]
      exact mapPages_zero hin
    · have hf := freeMapped (reserveFlags_not_fixed c hx) hne
      refine hf.zero rfl a ?_
      have hpl := hp.resolve_left hx
      rw [hbrk] at hpl
      show Span.Mem (s₂.place (targetPageAlign info₂.brk)) _ a
      rw [place_targetPageAlign hpl]
      exact hin
  unfold Memory.prot?
  rw [stack_apply st.stack st.tables hout, hcell]
  rfl

/-! ## The segments below the break -/

/-- The size of a segment's pages at its address in memory. -/
def Phdr.pagesAt (eppnt : Phdr) (loadBias : Word) : Nat :=
  if eppnt.pFilesz = 0 ∧ eppnt.pMemsz = 0 then 0
  else pageUp (max eppnt.pFilesz.toNat eppnt.pMemsz.toNat +
    (loadBias + eppnt.pVaddr).toNat % 4096)

/-- The segment has no more file than memory, and ends a page below the end of the
address space at least. -/
def Phdr.Regular (eppnt : Phdr) (loadBias : Word) : Prop :=
  eppnt.pFilesz.toNat ≤ eppnt.pMemsz.toNat ∧
    (loadBias + eppnt.pVaddr).toNat + eppnt.pMemsz.toNat ≤ 2 ^ 64 - 4096

/-- The break that a load leaves is the end of its image. -/
theorem loadElfBinary_brk {h : Host} {c : Setup} {s s' : Space} {bprm : Binprm}
    {info : ImageInfo} (hl : loadElfBinary h c s bprm = .ok (s', info)) :
    info.brk.toNat = imageEnd info.loadBias (h.phdrs bprm) := by
  obtain ⟨s₀, s₁, s₂, s₃, s₄, loadAddr, heapAddr, stackLimit, p, info₂, st⟩ :=
    loadElfBinary_stages hl
  have hrun := loads_reached st.segments
  have hbias : info₂.loadBias = loadAddr - h.loaddr bprm := (located_reached hrun).1
  rw [st.result]
  show info₂.brk.toNat = imageEnd info₂.loadBias _
  rw [hbias]
  exact toNat_brk_reached hrun

theorem regular_below {phdr : List Phdr} {loadBias brk : Word}
    (hr : ∀ eppnt ∈ loads phdr, eppnt.Regular loadBias)
    (hb : brk.toNat = imageEnd loadBias phdr) {eppnt : Phdr} (he : eppnt ∈ loads phdr) :
    (targetElfPagestart (loadBias + eppnt.pVaddr)).toNat + eppnt.pagesAt loadBias ≤
      (targetPageAlign brk).toNat := by
  have hend : ∀ e ∈ loads phdr, (loadBias + e.pVaddr + e.pMemsz).toNat =
      (loadBias + e.pVaddr).toNat + e.pMemsz.toNat := by
    intro e hm
    have htop := (hr e hm).2
    rw [BitVec.toNat_add (loadBias + e.pVaddr), Nat.mod_eq_of_lt (by omega)]
  -- the break itself is a page below the end of the address space
  have hsmall : brk.toNat ≤ 2 ^ 64 - 4096 := by
    rw [hb]
    rcases List.mem_cons.mp (foldl_max_spec 0 ((loads phdr).map fun eppnt =>
      (loadBias + eppnt.pVaddr + eppnt.pMemsz).toNat)).1 with h0 | hmem
    · exact Nat.le_trans (Nat.le_of_eq h0) (Nat.zero_le _)
    · obtain ⟨e, hm, heq⟩ := List.mem_map.mp hmem
      unfold imageEnd
      rw [← heq, hend e hm]
      exact (hr e hm).2
  have hle : (loadBias + eppnt.pVaddr + eppnt.pMemsz).toNat ≤ imageEnd loadBias phdr :=
    le_imageEnd he
  rw [← hb, hend eppnt he] at hle
  have hsize := (hr eppnt he).1
  unfold Phdr.pagesAt pageUp
  rw [toNat_pagestart, toNat_targetPageAlign]
  split <;> omega

/-! ## One request -/

/-- `do_brk` as a machine that is fed with requests. -/
def Brk.step (b : Brk) (brkVal : Word) (b' : Brk) : Prop := b' = (doBrk b brkVal).1

/-- A request is served from the heap: what it returns lies in the heap, the addresses below
can be read and written and belong to no segment, not to the stack and not to the
instruction buffer, and a request beyond the heap is refused. -/
structure Backed (h : Host) (c : Setup) (bprm : Binprm) (s : Space) (info : ImageInfo) (b : Brk)
    (brkVal : Word) : Prop where
  ge : b.initial ≤ (doBrk b brkVal).2
  le : ((doBrk b brkVal).2 - b.initial).toNat ≤ heapSize h bprm info
  mapped : ∀ a, b.initial ≤ a → a < (doBrk b brkVal).2 → s.mem.prot? a = some ⟨true, true⟩
  noSegment : ∀ a, b.initial ≤ a → a < (doBrk b brkVal).2 → ∀ eppnt ∈ loads (h.phdrs bprm),
    ¬ Span.Mem (targetElfPagestart (info.loadBias + eppnt.pVaddr))
      (eppnt.pagesAt info.loadBias) a
  noStack : ∀ a, b.initial ≤ a → a < (doBrk b brkVal).2 →
    ¬ Span.Mem (info.stackLimit - guard) (stackLength c) a
  noBuffer : ∀ a, b.initial ≤ a → a < (doBrk b brkVal).2 →
    ¬ Span.Mem (h2g c insnBufferMapStart) insnBufferSize a
  refused : b.initial ≤ brkVal → heapSize h bprm info < (brkVal - b.initial).toNat →
    (doBrk b brkVal).2 = b.target

/-- A request above the initial break asks for no more than the heap, where neither the
stack nor the instruction buffer nor a segment that is not regular is. -/
structure WithinHeap (h : Host) (c : Setup) (bprm : Binprm) (info : ImageInfo) (b : Brk)
    (brkVal : Word) : Prop where
  size : (brkVal - b.initial).toNat ≤ heapSize h bprm info
  placed : HeapPlaced bprm info
  stack : Span.Disjoint b.initial (brkVal - b.initial).toNat (info.stackLimit - guard)
    (stackLength c)
  buffer : Span.Disjoint b.initial (brkVal - b.initial).toNat (h2g c insnBufferMapStart)
    insnBufferSize
  segments : (∀ eppnt ∈ loads (h.phdrs bprm), eppnt.Regular info.loadBias) ∨
    ∀ eppnt ∈ loads (h.phdrs bprm), Span.Disjoint b.initial (brkVal - b.initial).toNat
      (targetElfPagestart (info.loadBias + eppnt.pVaddr)) (eppnt.pagesAt info.loadBias)

def KeepsToHeap (h : Host) (c : Setup) (bprm : Binprm) (info : ImageInfo) (b : Brk)
    (brkVal : Word) : Prop :=
  b.initial < brkVal → WithinHeap h c bprm info b brkVal

theorem doBrk_of_le {b : Brk} {brkVal : Word} (h : brkVal ≤ b.initial) :
    (doBrk b brkVal).2 = b.initial := by
  unfold doBrk
  dsimp only
  split
  · rfl
  · rename_i hn
    exact BitVec.le_antisymm h (BitVec.not_lt.mp hn)

theorem doBrk_of_gt {b : Brk} {brkVal : Word} (h : b.initial < brkVal) :
    (doBrk b brkVal).2 = brkVal :=
  if_neg (BitVec.not_lt.mpr (BitVec.le_of_lt h))

/-- A request at or below the initial break returns it, and nothing is asked of the heap. -/
theorem backed_query {h : Host} {c : Setup} {s : Space} {bprm : Binprm} {info : ImageInfo}
    {b : Brk} {brkVal : Word} (hle : brkVal ≤ b.initial) : Backed h c bprm s info b brkVal := by
  have hret := doBrk_of_le hle
  have hnone : ∀ a, b.initial ≤ a → ¬ a < b.initial := fun a h1 => BitVec.not_lt.mpr h1
  refine ⟨?_, ?_, ?_, ?_, ?_, ?_, ?_⟩ <;> rw [hret]
  · exact BitVec.le_refl _
  · rw [BitVec.sub_self]
    exact Nat.zero_le _
  · exact fun a h1 h2 => absurd h2 (hnone a h1)
  · exact fun a h1 h2 => absurd h2 (hnone a h1)
  · exact fun a h1 h2 => absurd h2 (hnone a h1)
  · exact fun a h1 h2 => absurd h2 (hnone a h1)
  · intro hge hbig
    rw [BitVec.le_antisymm hle hge, BitVec.sub_self] at hbig
    exact absurd hbig (Nat.not_lt_zero _)

theorem backed_grow {h : Host} {c : Setup} {s s' : Space} {bprm : Binprm} {info : ImageInfo}
    (hl : loadElfBinary h c s bprm = .ok (s', info)) {b : Brk} {brkVal : Word}
    (hb : b.initial = targetPageAlign info.brk) (hlt : b.initial < brkVal)
    (hw : WithinHeap h c bprm info b brkVal) :
    Backed h c bprm (allocInsnBuffer h c s').1 info b brkVal := by
  have hret := doBrk_of_gt hlt
  refine ⟨?_, ?_, ?_, ?_, ?_, ?_, ?_⟩ <;> rw [hret]
  · exact BitVec.le_of_lt hlt
  · exact hw.size
  · intro a h1 h2
    have hin := Span.mem_of_between h1 h2
    unfold Memory.prot?
    rw [allocInsnBuffer_other (hw.buffer a hin)]
    refine heap_mapped hl hw.placed ?_ (hw.stack a hin)
    rw [← hb]
    exact hin.mono hw.size
  · intro a h1 h2 eppnt he hin
    rcases hw.segments with hreg | hdis
    · have hle := regular_below hreg (loadElfBinary_brk hl) he
      rw [← hb] at hle
      have h1' : b.initial.toNat ≤ a.toNat := h1
      have hini := b.initial.isLt
      rw [Span.mem_iff (by omega)] at hin
      omega
    · exact hdis eppnt he a (Span.mem_of_between h1 h2) hin
  · exact fun a h1 h2 => hw.stack a (Span.mem_of_between h1 h2)
  · exact fun a h1 h2 => hw.buffer a (Span.mem_of_between h1 h2)
  · exact fun _ hbig => absurd hw.size (Nat.not_le_of_lt hbig)

theorem backed_of_keeps {h : Host} {c : Setup} {s s' : Space} {bprm : Binprm} {info : ImageInfo}
    (hl : loadElfBinary h c s bprm = .ok (s', info)) {b : Brk} {brkVal : Word}
    (hb : b.initial = targetPageAlign info.brk) (hk : KeepsToHeap h c bprm info b brkVal) :
    Backed h c bprm (allocInsnBuffer h c s').1 info b brkVal := by
  by_cases hlt : b.initial < brkVal
  · exact backed_grow hl hb hlt (hk hlt)
  · exact backed_query (BitVec.not_lt.mp hlt)

/-! ## Every sequence of requests -/

/-- When `cpu_loop` has mapped its buffer after a load, in every sequence of requests that
keep to the heap, each is served from the heap. -/
theorem brk_backed {h : Host} {c : Setup} {s' : Space} {prog : Program} {info : ImageInfo}
    {regs : PtRegs} (hl : elfLoad h c .start prog = .ok (s', info, regs)) {rs : List Word}
    (hk : Feed.Each Brk.step (KeepsToHeap h c (prog.binprm h) info) (targetSetBrk info.brk) rs) :
    Feed.Each Brk.step (Backed h c (prog.binprm h) (allocInsnBuffer h c s').1 info)
      (targetSetBrk info.brk) rs := by
  obtain ⟨⟨s₁, bprm⟩, h₁, hl⟩ := bind_eq_ok hl
  obtain ⟨⟨s₂, info₂⟩, h₂, hl⟩ := bind_eq_ok hl
  cases hl
  have hbprm : bprm = prog.binprm h := by
    unfold prepareBinprm at h₁
    split at h₁
    · cases h₁
      rfl
    · cases h₁
  rw [hbprm] at h₂
  have hstep : ∀ b brkVal b', b.initial = targetPageAlign info.brk →
      KeepsToHeap h c (prog.binprm h) info b brkVal → Brk.step b brkVal b' →
        b'.initial = targetPageAlign info.brk := by
    intro b brkVal b' hb _ hs
    rw [show b' = _ from hs]
    exact hb
  exact hk.of_invariant hstep (fun _ _ hb hw => backed_of_keeps h₂ hb hw) rfl

/-! ## A request beyond the heap -/

theorem textAndBss_brk : ∃ s' info regs,
    elfLoad (fileHost (execFile textAndBss)) .default .start commandA = .ok (s', info, regs) ∧
    info.brk = 0x200c8 ∧ info.loadBias = 0 ∧ info.stackLimit = 0x4000001000 := by
  obtain ⟨⟨s', info, regs⟩, hl, hp⟩ := exists_of_any
    (show (elfLoad (fileHost (execFile textAndBss)) .default .start commandA).toOption.any
      (fun r => r.2.1.brk == 0x200c8 && r.2.1.loadBias == 0 && r.2.1.stackLimit == 0x4000001000) =
        true by decide +kernel)
  simp only [Bool.and_eq_true, beq_iff_eq] at hp
  exact ⟨s', info, regs, hl, hp.1.1, hp.1.2, hp.2⟩

/-- A query, and a request for the whole heap. -/
theorem whole_heap_backed : ∃ s' info regs,
    elfLoad (fileHost (execFile textAndBss)) .default .start commandA = .ok (s', info, regs) ∧
    Feed.Each Brk.step (Backed (fileHost (execFile textAndBss)) .default (execBinprm textAndBss)
      (allocInsnBuffer (fileHost (execFile textAndBss)) .default s').1 info)
      (targetSetBrk info.brk) [0, 0x20200c8] := by
  obtain ⟨s', info, regs, hl, hb, hbias, hlimit⟩ := textAndBss_brk
  refine ⟨s', info, regs, hl, brk_backed hl ?_⟩
  rw [hb]
  refine ⟨fun h0 => absurd h0 (by decide +kernel), fun b h1 => ⟨fun _ => ?_, fun _ _ => trivial⟩⟩
  rw [show b = _ from h1]
  refine ⟨?_, .inl (by decide +kernel), ?_,
    Span.disjoint_of_le (by decide +kernel) (by decide +kernel), .inl ?_⟩
  · unfold heapSize
    rw [hb]
    decide +kernel
  · rw [hlimit]
    exact Span.disjoint_of_le (by decide +kernel) (by decide +kernel)
  · rw [hbias, textAndBss_loads]
    simp only [textAndBss, List.forall_mem_cons]
    exact ⟨⟨by decide +kernel, by decide +kernel⟩, ⟨by decide +kernel, by decide +kernel⟩,
      fun _ h => absurd h List.not_mem_nil⟩

/-- The largest request is granted, far beyond the heap. -/
theorem largest_request_not_backed : ∃ s' info regs,
    elfLoad (fileHost (execFile textAndBss)) .default .start commandA = .ok (s', info, regs) ∧
    ¬ Feed.Each Brk.step (Backed (fileHost (execFile textAndBss)) .default (execBinprm textAndBss)
      (allocInsnBuffer (fileHost (execFile textAndBss)) .default s').1 info)
      (targetSetBrk info.brk) [-1] := by
  obtain ⟨s', info, regs, hl, hb, _⟩ := textAndBss_brk
  refine ⟨s', info, regs, hl, fun h => ?_⟩
  have hle := h.1.le
  unfold heapSize at hle
  rw [hb] at hle
  exact absurd hle (by decide +kernel)

end Rvvk
