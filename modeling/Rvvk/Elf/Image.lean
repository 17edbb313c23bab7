import Rvvk.Lib.Feed
import Rvvk.Elf.Process
import Rvvk.Mmap.Placement

/-!
# The loaded image

What the loader leaves in memory for a file with fixed addresses: the segments one
after the other, the heap over what it covers, and the stack. The heap begins
behind the image, but its end is computed modulo `2^64`.
-/

namespace Rvvk

/-! ## The size of the image -/

/-- A running maximum is the largest of its start and the list. -/
theorem foldl_max_spec (k : Nat) (l : List Nat) :
    l.foldl max k ∈ k :: l ∧ ∀ n ∈ k :: l, n ≤ l.foldl max k :=
  List.max?_eq_some_iff.mp List.max?_cons'

/-- The largest end of a segment, 0 for no segment. -/
def imageEnd (loadBias : Word) (phdr : List Phdr) : Nat :=
  ((loads phdr).map fun eppnt => (loadBias + eppnt.pVaddr + eppnt.pMemsz).toNat).foldl max 0

def imageTop (phdr : List Phdr) : Nat :=
  ((loads phdr).map fun eppnt => (eppnt.pVaddr + eppnt.pMemsz - 1).toNat).foldl max 0

theorem loads_cons (eppnt : Phdr) (phdr : List Phdr) :
    loads (eppnt :: phdr) = if eppnt.pType = ptLoad then eppnt :: loads phdr else loads phdr := by
  unfold loads
  rw [List.filter_cons]
  simp only [beq_iff_eq]

theorem toNat_ite_gt (x y : Word) : (if y > x then y else x).toNat = max x.toNat y.toNat := by
  split
  · rename_i h
    exact (Nat.max_eq_right (Nat.le_of_lt h)).symm
  · rename_i h
    exact (Nat.max_eq_left (Nat.le_of_not_lt h)).symm

theorem toNat_hiaddr_foldl (phdr : List Phdr) (t : Scan) :
    (phdr.foldl Scan.add t).hiaddr.toNat =
      ((loads phdr).map fun eppnt => (eppnt.pVaddr + eppnt.pMemsz - 1).toNat).foldl max
        t.hiaddr.toNat := by
  induction phdr generalizing t with
  | nil => rfl
  | cons eppnt phdr ih =>
      rw [List.foldl_cons, ih, loads_cons]
      by_cases hl : eppnt.pType = ptLoad
      · rw [if_pos hl, List.map_cons, List.foldl_cons, ← toNat_ite_gt]
        unfold Scan.add
        rw [if_pos hl]
      · rw [if_neg hl]
        unfold Scan.add
        rw [if_neg hl]
        split
        · rfl
        · split <;> rfl

theorem toNat_hiaddr (phdr : List Phdr) : (scan phdr).hiaddr.toNat = imageTop phdr :=
  toNat_hiaddr_foldl phdr _

theorem loaddr_foldl {phdr : List Phdr} (hl : loads phdr = []) (t : Scan) :
    (phdr.foldl Scan.add t).loaddr = t.loaddr := by
  induction phdr generalizing t with
  | nil => rfl
  | cons eppnt phdr ih =>
      rw [loads_cons] at hl
      split at hl
      · cases hl
      · rename_i hn
        rw [List.foldl_cons, ih hl]
        unfold Scan.add
        rw [if_neg hn]
        split
        · rfl
        · split <;> rfl

/-! ## One segment -/

/-- The parts of a segment are in memory and can be read. -/
structure InPlace (c : Setup) (eppnt : Phdr) (f : File) (m : Memory) : Prop where
  readable : (Prot.ofBits eppnt.prot).read = true
  file : ∀ i < eppnt.pFilesz.toNat, m (eppnt.pVaddr + BitVec.ofNat 64 i) =
    some ⟨f.byte (eppnt.pOffset.toNat + i), .ofBits eppnt.prot⟩
  bss : eppnt.BssFits c → ∀ i, eppnt.pFilesz.toNat ≤ i → i < eppnt.pMemsz.toNat →
    m (eppnt.pVaddr + BitVec.ofNat 64 i) = some ⟨0, .ofBits eppnt.prot⟩
  far : ¬ eppnt.BssFits c → ∃ i, eppnt.pFilesz.toNat ≤ i ∧ i < eppnt.pMemsz.toNat ∧
    2 ^ 63 ≤ (g2h c (eppnt.pVaddr + BitVec.ofNat 64 i)).toNat

theorem InPlace.congr {c : Setup} {eppnt : Phdr} {f : File} {m m' : Memory}
    (h : InPlace c eppnt f m) (hf : eppnt.Fits f) (hs : ∀ a, eppnt.Covers a → m' a = m a) :
    InPlace c eppnt f m' := by
  have hz := hf.filesz
  refine ⟨h.readable, fun i hi => ?_, fun hb i h1 h2 => ?_, h.far⟩
  · rw [hs _ (hf.covers_byte (by omega))]
    exact h.file i hi
  · rw [hs _ (hf.covers_byte h2)]
    exact h.bss hb i h1 h2

/-- One segment is mapped, as a step of a machine that is fed with program headers. -/
structure SegmentStep (h : Host) (c : Setup) (fd : BitVec 32) (loadBias : Word)
    (st : Space × ImageInfo) (eppnt : Phdr) (st' : Space × ImageInfo) : Prop where
  mapped : mapSegment h c st.1 fd eppnt (loadBias + eppnt.pVaddr) = .ok st'.1
  info : st'.2 = st.2.extend eppnt (loadBias + eppnt.pVaddr)
  readable : (Prot.ofBits eppnt.prot).read = true

theorem loadSegment_ok {h : Host} {c : Setup} {fd : BitVec 32} {loadBias : Word}
    {st st' : Space × ImageInfo} {eppnt : Phdr} (hl : eppnt.pType = ptLoad)
    (hs : loadSegment h c fd loadBias st eppnt = .ok st') :
    SegmentStep h c fd loadBias st eppnt st' := by
  unfold loadSegment at hs
  rw [if_neg (not_not_intro hl)] at hs
  obtain ⟨s, hm, hs⟩ := bind_eq_ok hs
  split at hs
  · cases hs
  · rename_i hr
    cases hs
    exact ⟨hm, rfl, Prot.ofBits_read hr⟩

theorem loadSegment_other {h : Host} {c : Setup} {fd : BitVec 32} {loadBias : Word}
    {st st' : Space × ImageInfo} {eppnt : Phdr} (hl : eppnt.pType ≠ ptLoad)
    (hs : loadSegment h c fd loadBias st eppnt = .ok st') : st' = st := by
  unfold loadSegment at hs
  rw [if_pos hl] at hs
  cases hs
  rfl

/-- The second loop over the program headers is a run over the segments to load. -/
theorem loads_reached {h : Host} {c : Setup} {fd : BitVec 32} {loadBias : Word}
    {phdr : List Phdr} {st st' : Space × ImageInfo}
    (hm : phdr.foldlM (loadSegment h c fd loadBias) st = .ok st') :
    Feed.Reaches (SegmentStep h c fd loadBias) st (loads phdr) st' := by
  induction phdr generalizing st with
  | nil =>
      cases hm
      exact .nil _
  | cons eppnt phdr ih =>
      rw [List.foldlM_cons] at hm
      obtain ⟨st₁, h₁, hm⟩ := bind_eq_ok hm
      rw [loads_cons]
      by_cases hl : eppnt.pType = ptLoad
      · rw [if_pos hl]
        exact .cons (loadSegment_ok hl h₁) (ih hm)
      · rw [if_neg hl]
        cases loadSegment_other hl h₁
        exact ih hm

theorem toNat_brk_reached {h : Host} {c : Setup} {fd : BitVec 32} {loadBias : Word}
    {segments : List Phdr} {st st' : Space × ImageInfo}
    (hr : Feed.Reaches (SegmentStep h c fd loadBias) st segments st') :
    st'.2.brk.toNat =
      (segments.map fun eppnt => (loadBias + eppnt.pVaddr + eppnt.pMemsz).toNat).foldl max
        st.2.brk.toNat := by
  induction hr with
  | nil st => rfl
  | cons hs _ ih =>
      rw [ih, List.map_cons, List.foldl_cons, ← toNat_ite_gt, hs.info]
      rfl

theorem located_reached {h : Host} {c : Setup} {fd : BitVec 32} {loadBias : Word}
    {segments : List Phdr} {st st' : Space × ImageInfo}
    (hr : Feed.Reaches (SegmentStep h c fd loadBias) st segments st') :
    st'.2.loadBias = st.2.loadBias ∧ st'.2.loadAddr = st.2.loadAddr := by
  induction hr with
  | nil st => exact ⟨rfl, rfl⟩
  | cons hs _ ih =>
      rw [ih.1, ih.2, hs.info]
      exact ⟨rfl, rfl⟩

/-! ## All segments -/

/-- No page belongs to two segments. -/
def Apart (segments : List Phdr) : Prop :=
  segments.Pairwise fun eppnt eppnt' => ∀ a, eppnt.Covers a → ¬ eppnt'.Covers a

structure SegmentsMapped (h : Host) (c : Setup) (f : File) (s : Space) (segments : List Phdr)
    (s' : Space) : Prop where
  next : s'.mmapNextStart = s.mmapNextStart
  frame : ∀ a, (∀ eppnt ∈ segments, ¬ eppnt.Covers a) → s'.mem a = s.mem a
  inPlace : ∀ eppnt ∈ segments, InPlace c eppnt f s'.mem
  bound : HostBound h c s.mem → HostBound h c s'.mem

theorem segmentsMapped {h : Host} {c : Setup} {fd : BitVec 32} {segments : List Phdr}
    {st st' : Space × ImageInfo} (hfd : fd.slt 0 = false)
    (hf : ∀ eppnt ∈ segments, eppnt.Fits (h.file fd)) (ha : Apart segments)
    (hr : Feed.Reaches (SegmentStep h c fd 0) st segments st') :
    SegmentsMapped h c (h.file fd) st.1 segments st'.1 := by
  induction hr with
  | nil st => exact ⟨rfl, fun _ _ => rfl, fun _ he => absurd he List.not_mem_nil, fun hb => hb⟩
  | @cons st st₁ st' eppnt segments hs _ ih =>
      have hfit := hf eppnt List.mem_cons_self
      have hmap := hs.mapped
      rw [show 0 + eppnt.pVaddr = eppnt.pVaddr from BitVec.zero_add _] at hmap
      have hseg := segmentMapped hfd hfit hmap
      have hrest := ih (fun e he => hf e (List.mem_cons_of_mem _ he)) (List.pairwise_cons.mp ha).2
      -- the later segments leave this one alone
      have hkeep : ∀ a, eppnt.Covers a → st'.1.mem a = st₁.1.mem a := fun a hc =>
        hrest.frame a fun e he => (List.pairwise_cons.mp ha).1 e he a hc
      refine ⟨hrest.next.trans hseg.next, fun a hn => ?_, fun e he => ?_,
        fun hb => hrest.bound (hseg.bound hb)⟩
      · rw [hrest.frame a fun e he => hn e (List.mem_cons_of_mem _ he)]
        exact hseg.frame a (hn eppnt List.mem_cons_self)
      · rcases List.mem_cons.mp he with rfl | he
        · exact InPlace.congr ⟨hs.readable, hseg.file, hseg.bss, hseg.far⟩ hfit hkeep
        · exact hrest.inPlace e he

/-! ## The heap over the image -/

/-- The first address of the heap: the end of the image in whole pages. -/
def heapStart (phdr : List Phdr) : Word := targetPageAlign (BitVec.ofNat 64 (imageEnd 0 phdr))

/-- The size of the heap's pages, which end with `reserve_brk` above the image. -/
def heapLength (phdr : List Phdr) : Nat :=
  pageUp (BitVec.ofNat 64 (imageTop phdr) + reserveBrk - heapStart phdr + 1).toNat

/-- The size of the mapping of the stack with its guard page; the sum wraps. -/
def stackLength (c : Setup) : Nat := pageUp (c.guestStackSize + guard).toNat

/-- What `create_elf_tables` leaves at an address, below the first stack of a process. -/
def stackByte? (c : Setup) (bprm : Binprm) (a : Word) : Option (BitVec 8) :=
  bprm.tableByte? (stackTop c (taskUnmappedBase + guard)) a

theorem reserveFlags_fixed (c : Setup) {ehdr : Ehdr} (he : ehdr.eType = etExec) :
    reserveFlags c ehdr &&& mapFixed ≠ 0 := by
  unfold reserveFlags fixedIfExec unlessStrict
  rw [if_pos he]
  split <;> decide

theorem reserveFlags_not_fixed (c : Setup) {ehdr : Ehdr} (he : ehdr.eType ≠ etExec) :
    reserveFlags c ehdr &&& mapFixed = 0 := by
  unfold reserveFlags fixedIfExec unlessStrict
  rw [if_neg he]
  split <;> decide

theorem reserveFlags_anonymous {c : Setup} (ehdr : Ehdr) (hs : c.strictAnsi = false) :
    reserveFlags c ehdr &&& mapAnonymous ≠ 0 := by
  unfold reserveFlags fixedIfExec unlessStrict
  rw [hs]
  by_cases he : ehdr.eType = etExec
  · rw [if_pos he]
    decide
  · rw [if_neg he]
    decide

/-- What is left in memory by a load with fixed addresses, where `m` is the memory
after the segments. -/
structure ImageLoaded (h : Host) (c : Setup) (bprm : Binprm) (s' : Space) (info : ImageInfo)
    (m : Memory) : Prop where
  nonempty : loads (h.phdrs bprm) ≠ []
  inPlace : ∀ eppnt ∈ loads (h.phdrs bprm), InPlace c eppnt (h.file bprm.execfd) m
  bound : HostBound h c m
  heapBound : ∀ a, Span.Mem (heapStart (h.phdrs bprm)) (heapLength (h.phdrs bprm)) a →
    (g2h c a).toNat < h.taskSize
  mem : ∀ a, ¬ Span.Mem taskUnmappedBase (stackLength c) a →
    s'.mem a = (if Span.Mem (heapStart (h.phdrs bprm)) (heapLength (h.phdrs bprm)) a then
      some ⟨0, .ofBits (protRead ||| protWrite)⟩ else m a).map fun cell =>
        { cell with val := (stackByte? c bprm a).getD cell.val }
  stackByte : c.guestStackSize.toNat + 4096 < 2 ^ 64 → ∀ a b, stackByte? c bprm a = some b →
    Span.Mem taskUnmappedBase (stackLength c) a
  brk : info.brk.toNat = imageEnd 0 (h.phdrs bprm)

/-- The address space as the loader finds it. -/
def Space.unmapped (calls : Nat) : Space := { Space.start with calls := calls }

section

variable {h : Host} {c : Setup} {bprm : Binprm} {s s' s₀ s₁ s₂ s₃ s₄ : Space}
  {info info' : ImageInfo} {loadAddr heapAddr stackLimit p : Word}

theorem Stages.fixed_image
    (st : Stages h c s bprm s' info' s₀ s₁ s₂ s₃ s₄ loadAddr heapAddr stackLimit p info)
    (he : bprm.ehdr.eType = etExec) :
    loadAddr - h.loaddr bprm = 0 ∧ s₁.mmapNextStart = s.mmapNextStart ∧
      (g2h c (h.loaddr bprm)).toNat % 4096 = 0 ∧
      (HostBound h c s.mem → HostBound h c s₁.mem) := by
  obtain ⟨_, hmem, hnext⟩ := loadElfPhdrs_ok st.headers
  obtain ⟨hne, hr⟩ := granted_eq_ok st.image
  have hz := zeroMapped (reserveFlags_fixed c he) rfl rfl (reserveFlags_anonymous _) hne
  have haddr : loadAddr = h.loaddr bprm := (congrArg Prod.snd hr).trans hz.addr
  have hs₁ : s₁ = _ := congrArg Prod.fst hr
  refine ⟨?_, ?_, hz.accepts.addr, fun hb => ?_⟩
  · rw [haddr]
    exact BitVec.sub_self _
  · rw [hs₁, hz.next, hnext]
  · rw [hs₁, hz.mem, hmem]
    exact hb.mapPages hz.accepts.fits _ _ _

theorem Stages.fixed_heap
    (st : Stages h c s bprm s' info' s₀ s₁ s₂ s₃ s₄ loadAddr heapAddr stackLimit p info)
    (he : bprm.ehdr.eType = etExec) (hbrk : info.brk.toNat = imageEnd 0 (h.phdrs bprm)) :
    s₃.mmapNextStart = s₂.mmapNextStart ∧
      (g2h c (heapStart (h.phdrs bprm))).toNat % 4096 = 0 ∧
      (g2h c (heapStart (h.phdrs bprm))).toNat + heapLength (h.phdrs bprm) ≤ h.taskSize ∧
      s₃.mem = s₂.mem.mapPages (heapStart (h.phdrs bprm)) (heapLength (h.phdrs bprm)) .zero
        (.ofBits (protRead ||| protWrite)) 0 := by
  obtain ⟨hne, hr⟩ := granted_eq_ok st.heap
  have hz := zeroMapped (reserveFlags_fixed c he) rfl rfl (reserveFlags_anonymous _) hne
  have hs₃ : s₃ = _ := congrArg Prod.fst hr
  have hstart : (heapArgs c bprm.ehdr (h.hiaddr bprm) info.brk).addr = heapStart (h.phdrs bprm) := by
    unfold heapStart
    rw [← hbrk, BitVec.ofNat_toNat, BitVec.setWidth_eq]
    rfl
  have htop : h.hiaddr bprm = BitVec.ofNat 64 (imageTop (h.phdrs bprm)) + reserveBrk := by
    rw [← toNat_hiaddr, BitVec.ofNat_toNat, BitVec.setWidth_eq]
  have hlen : pageUp (heapArgs c bprm.ehdr (h.hiaddr bprm) info.brk).length.toNat =
      heapLength (h.phdrs bprm) := by
    unfold heapLength
    rw [← htop, ← hstart]
    rfl
  have hmem := hz.mem
  have hfit := hz.accepts.fits
  have haddr := hz.accepts.addr
  dsimp only at hfit haddr
  rw [hstart, hlen] at hmem hfit
  rw [hstart] at haddr
  refine ⟨?_, haddr, hfit, ?_⟩
  · rw [hs₃, hz.next]
  · rw [hs₃, hmem]
    rfl

end

/-- An image without segments would begin at -1 and its heap at 0, which are not
both on a page boundary of the host. -/
theorem loads_nonempty {h : Host} {c : Setup} {bprm : Binprm}
    (himage : (g2h c (h.loaddr bprm)).toNat % 4096 = 0)
    (hheap : (g2h c (heapStart (h.phdrs bprm))).toNat % 4096 = 0) : loads (h.phdrs bprm) ≠ [] := by
  intro hnil
  have hlo : h.loaddr bprm = -1 := loaddr_foldl hnil _
  have hzero : heapStart (h.phdrs bprm) = 0 := by
    unfold heapStart imageEnd
    rw [hnil]
    rfl
  have h1 : (-1 : Word).toNat = 2 ^ 64 - 1 := rfl
  have h2 : (0 : Word).toNat = 0 := rfl
  rw [hlo, toNat_g2h] at himage
  rw [hzero, toNat_g2h] at hheap
  omega

theorem imageLoaded {h : Host} {c : Setup} {calls : Nat} {bprm : Binprm} {s' : Space}
    {info : ImageInfo} (he : bprm.ehdr.eType = etExec)
    (hf : ∀ eppnt ∈ loads (h.phdrs bprm), eppnt.Fits (h.file bprm.execfd))
    (ha : Apart (loads (h.phdrs bprm)))
    (hl : loadElfBinary h c (.unmapped calls) bprm = .ok (s', info)) :
    ∃ m, ImageLoaded h c bprm s' info m := by
  obtain ⟨s₀, s₁, s₂, s₃, s₄, loadAddr, heapAddr, stackLimit, p, info₂, st⟩ :=
    loadElfBinary_stages hl
  have hunmapped : HostBound h c (Space.unmapped calls).mem := fun a hsome => nomatch hsome
  obtain ⟨hbias, hnext₁, himage, hbound₁⟩ := st.fixed_image he
  have hfold := st.segments
  rw [hbias] at hfold
  have hrun := loads_reached hfold
  have hsegs := segmentsMapped bprm.opened hf ha hrun
  have hbrk : info₂.brk.toNat = imageEnd 0 (h.phdrs bprm) := toNat_brk_reached hrun
  obtain ⟨hnext₃, hheap, hfit, hmem₃⟩ := st.fixed_heap he hbrk
  have hnext : s₃.mmapNextStart = taskUnmappedBase :=
    hnext₃.trans (hsegs.next.trans hnext₁)
  have hlimit : stackLimit = taskUnmappedBase + guard := hnext ▸ (mapStack_ok st.stack).limit
  refine ⟨s₂.mem, loads_nonempty himage hheap, hsegs.inPlace, hsegs.bound (hbound₁ hunmapped),
    fun a hin => host_lt_of_mem hfit hin, fun a hout => ?_, fun hsize a b hb => ?_, ?_⟩
  · rw [stack_apply st.stack st.tables (by rwa [hnext]), hmem₃, hlimit]
    rfl
  · unfold stackByte? at hb
    rw [← hlimit] at hb
    have hin := tableByte_inStack hsize st.stack st.tables hb
    rwa [hnext] at hin
  · rw [st.result]
    exact hbrk

/-! ## Exact images -/

/-- A file with fixed addresses. Its segments lie in the file and do not share pages
with each other or with the stack, and neither does the heap with the stack. -/
structure Static (h : Host) (c : Setup) (bprm : Binprm) : Prop where
  exec : bprm.ehdr.eType = etExec
  fits : ∀ eppnt ∈ loads (h.phdrs bprm), eppnt.Fits (h.file bprm.execfd)
  apart : Apart (loads (h.phdrs bprm))
  stack : ∀ eppnt ∈ loads (h.phdrs bprm), ∀ a, eppnt.Covers a →
    ¬ Span.Mem taskUnmappedBase (stackLength c) a
  heap : Span.Disjoint (heapStart (h.phdrs bprm)) (heapLength (h.phdrs bprm))
    taskUnmappedBase (stackLength c)

/-- The segments are in memory as the file has them, and the break is at their end. -/
structure Exact (segments : List Phdr) (f : File) (m : Memory) (brk : Word) : Prop where
  file : ∀ eppnt ∈ segments, ∀ i < eppnt.pFilesz.toNat,
    m.byte? (eppnt.pVaddr + BitVec.ofNat 64 i) = some (f.byte (eppnt.pOffset.toNat + i))
  bss : ∀ eppnt ∈ segments, ∀ i, eppnt.pFilesz.toNat ≤ i → i < eppnt.pMemsz.toNat →
    m.byte? (eppnt.pVaddr + BitVec.ofNat 64 i) = some 0
  brkLe : ∀ eppnt ∈ segments, eppnt.pVaddr.toNat + eppnt.pMemsz.toNat ≤ brk.toNat
  brkEq : ∃ eppnt ∈ segments, brk.toNat = eppnt.pVaddr.toNat + eppnt.pMemsz.toNat

def Phdr.byte (eppnt : Phdr) (f : File) (i : Nat) : BitVec 8 :=
  if i < eppnt.pFilesz.toNat then f.byte (eppnt.pOffset.toNat + i) else 0

/-- The heap covers no byte of a segment that is not zero, but where the strings and tables
on the stack come to lie. -/
def HeapClear (h : Host) (c : Setup) (bprm : Binprm) : Prop :=
  ∀ eppnt ∈ loads (h.phdrs bprm), ∀ i < eppnt.pMemsz.toNat,
    eppnt.byte (h.file bprm.execfd) i ≠ 0 →
    stackByte? c bprm (eppnt.pVaddr + BitVec.ofNat 64 i) = none →
      ¬ Span.Mem (heapStart (h.phdrs bprm)) (heapLength (h.phdrs bprm))
        (eppnt.pVaddr + BitVec.ofNat 64 i)

/-- The strings and tables on the stack put no other byte over a segment. -/
def StackClear (h : Host) (c : Setup) (bprm : Binprm) : Prop :=
  ∀ eppnt ∈ loads (h.phdrs bprm), ∀ i < eppnt.pMemsz.toNat, ∀ b,
    stackByte? c bprm (eppnt.pVaddr + BitVec.ofNat 64 i) = some b →
      b = eppnt.byte (h.file bprm.execfd) i

theorem le_imageEnd {loadBias : Word} {phdr : List Phdr} {eppnt : Phdr} (h : eppnt ∈ loads phdr) :
    (loadBias + eppnt.pVaddr + eppnt.pMemsz).toNat ≤ imageEnd loadBias phdr :=
  (foldl_max_spec _ _).2 _ (List.mem_cons_of_mem _ (List.mem_map.mpr ⟨eppnt, h, rfl⟩))

theorem Phdr.Fits.toNat_end {eppnt : Phdr} {f : File} (h : eppnt.Fits f) :
    ((0 : Word) + eppnt.pVaddr + eppnt.pMemsz).toNat =
      eppnt.pVaddr.toNat + eppnt.pMemsz.toNat := by
  rw [show (0 : Word) + eppnt.pVaddr = eppnt.pVaddr from BitVec.zero_add _]
  exact h.toNat_ends.2

section

variable {h : Host} {c : Setup} {bprm : Binprm} {s' : Space} {info : ImageInfo} {m : Memory}

theorem ImageLoaded.brkLe (hi : ImageLoaded h c bprm s' info m)
    (hf : ∀ eppnt ∈ loads (h.phdrs bprm), eppnt.Fits (h.file bprm.execfd)) :
    ∀ eppnt ∈ loads (h.phdrs bprm), eppnt.pVaddr.toNat + eppnt.pMemsz.toNat ≤ info.brk.toNat := by
  intro eppnt he
  rw [hi.brk, ← (hf eppnt he).toNat_end]
  exact le_imageEnd he

theorem ImageLoaded.brkEq (hi : ImageLoaded h c bprm s' info m)
    (hf : ∀ eppnt ∈ loads (h.phdrs bprm), eppnt.Fits (h.file bprm.execfd)) :
    ∃ eppnt ∈ loads (h.phdrs bprm),
      info.brk.toNat = eppnt.pVaddr.toNat + eppnt.pMemsz.toNat := by
  rcases List.mem_cons.mp (foldl_max_spec 0 ((loads (h.phdrs bprm)).map fun eppnt =>
    ((0 : Word) + eppnt.pVaddr + eppnt.pMemsz).toNat)).1 with h0 | hmem
  · -- every segment ends at 0
    obtain ⟨eppnt, he⟩ := List.exists_mem_of_ne_nil _ hi.nonempty
    have hle := hi.brkLe hf eppnt he
    have hz : info.brk.toNat = 0 := hi.brk.trans h0
    exact ⟨eppnt, he, by omega⟩
  · obtain ⟨eppnt, he, heq⟩ := List.mem_map.mp hmem
    rw [(hf eppnt he).toNat_end] at heq
    exact ⟨eppnt, he, hi.brk.trans heq.symm⟩

theorem ImageLoaded.byte? (hi : ImageLoaded h c bprm s' info m) (hs : Static h c bprm)
    {eppnt : Phdr} (he : eppnt ∈ loads (h.phdrs bprm)) {i : Nat} (hlt : i < eppnt.pMemsz.toNat) :
    s'.mem.byte? (eppnt.pVaddr + BitVec.ofNat 64 i) =
      (if Span.Mem (heapStart (h.phdrs bprm)) (heapLength (h.phdrs bprm))
        (eppnt.pVaddr + BitVec.ofNat 64 i) then some 0
      else m.byte? (eppnt.pVaddr + BitVec.ofNat 64 i)).map
        ((stackByte? c bprm (eppnt.pVaddr + BitVec.ofNat 64 i)).getD ·) := by
  unfold Memory.byte?
  rw [hi.mem _ (hs.stack eppnt he _ ((hs.fits eppnt he).covers_byte hlt))]
  split
  · rfl
  · cases m (eppnt.pVaddr + BitVec.ofNat 64 i) with
    | none => rfl
    | some cell => cases hr : cell.prot.read <;> simp [hr]

theorem Exact.byte? {segments : List Phdr} {f : File} {mem : Memory} {brk : Word}
    (hx : Exact segments f mem brk) {eppnt : Phdr} (he : eppnt ∈ segments) {i : Nat}
    (hi : i < eppnt.pMemsz.toNat) :
    mem.byte? (eppnt.pVaddr + BitVec.ofNat 64 i) = some (eppnt.byte f i) := by
  unfold Phdr.byte
  by_cases hlt : i < eppnt.pFilesz.toNat
  · rw [if_pos hlt]
    exact hx.file eppnt he i hlt
  · rw [if_neg hlt]
    exact hx.bss eppnt he i (Nat.le_of_not_lt hlt) hi

theorem ImageLoaded.segmentByte (hi : ImageLoaded h c bprm s' info m) {eppnt : Phdr}
    (he : eppnt ∈ loads (h.phdrs bprm)) (hb : eppnt.BssFits c) {i : Nat}
    (hlt : i < eppnt.pMemsz.toNat) :
    m.byte? (eppnt.pVaddr + BitVec.ofNat 64 i) =
      some (eppnt.byte (h.file bprm.execfd) i) := by
  have hp := hi.inPlace eppnt he
  unfold Memory.byte? Phdr.byte
  by_cases hf : i < eppnt.pFilesz.toNat
  · rw [if_pos hf, hp.file i hf]
    exact if_pos hp.readable
  · rw [if_neg hf, hp.bss hb i (Nat.le_of_not_lt hf) hlt]
    exact if_pos hp.readable

theorem ImageLoaded.heapClear (hi : ImageLoaded h c bprm s' info m) (hs : Static h c bprm)
    (hx : Exact (loads (h.phdrs bprm)) (h.file bprm.execfd) s'.mem info.brk) :
    HeapClear h c bprm := by
  intro eppnt he i hlt hne hnone hin
  have hb := hx.byte? he hlt
  rw [hi.byte? hs he hlt, if_pos hin, hnone] at hb
  exact hne (Option.some.inj hb).symm

theorem ImageLoaded.stackClear (hi : ImageLoaded h c bprm s' info m) (hs : Static h c bprm)
    (hx : Exact (loads (h.phdrs bprm)) (h.file bprm.execfd) s'.mem info.brk) :
    StackClear h c bprm := by
  intro eppnt he i hlt b hb
  have hbyte := hx.byte? he hlt
  rw [hi.byte? hs he hlt, hb] at hbyte
  obtain ⟨_, _, heq⟩ := Option.map_eq_some_iff.mp hbyte
  exact heq

theorem ImageLoaded.bssFits (hi : ImageLoaded h c bprm s' info m) (hs : Static h c bprm)
    (hx : Exact (loads (h.phdrs bprm)) (h.file bprm.execfd) s'.mem info.brk) {eppnt : Phdr}
    (he : eppnt ∈ loads (h.phdrs bprm)) : eppnt.BssFits c := by
  by_contra hn
  obtain ⟨i, h1, h2, hfar⟩ := (hi.inPlace eppnt he).far hn
  have hts := h.taskSize_le
  have hb := hx.bss eppnt he i h1 h2
  rw [hi.byte? hs he h2] at hb
  obtain ⟨_, hb, _⟩ := Option.map_eq_some_iff.mp hb
  split at hb
  · have hlt := hi.heapBound _ ‹_›
    omega
  · obtain ⟨cell, hcell, _⟩ := Option.bind_eq_some_iff.mp hb
    have hlt := hi.bound _ (Option.isSome_of_mem hcell)
    omega

theorem ImageLoaded.exactImage (hi : ImageLoaded h c bprm s' info m) (hs : Static h c bprm)
    (hheap : HeapClear h c bprm) (hstack : StackClear h c bprm)
    (hbss : ∀ eppnt ∈ loads (h.phdrs bprm), eppnt.BssFits c) :
    Exact (loads (h.phdrs bprm)) (h.file bprm.execfd) s'.mem info.brk := by
  have hbyte : ∀ eppnt ∈ loads (h.phdrs bprm), ∀ i < eppnt.pMemsz.toNat,
      s'.mem.byte? (eppnt.pVaddr + BitVec.ofNat 64 i) =
        some (eppnt.byte (h.file bprm.execfd) i) := by
    intro eppnt he i hlt
    rw [hi.byte? hs he hlt, hi.segmentByte he (hbss eppnt he) hlt]
    cases hb : stackByte? c bprm (eppnt.pVaddr + BitVec.ofNat 64 i) with
    | some b =>
        rw [← hstack eppnt he i hlt b hb]
        split <;> rfl
    | none =>
        split
        · rename_i hin
          by_contra hne
          exact hheap eppnt he i hlt (fun h0 => hne (congrArg some h0.symm)) hb hin
        · rfl
  refine ⟨fun eppnt he i hlt => ?_, fun eppnt he i h1 h2 => ?_, hi.brkLe hs.fits,
    hi.brkEq hs.fits⟩
  · have hle := (hs.fits eppnt he).filesz
    rw [hbyte eppnt he i (by omega), Phdr.byte, if_pos hlt]
  · rw [hbyte eppnt he i h2, Phdr.byte, if_neg (Nat.not_lt_of_le h1)]

/-- Unless the size of the stack wraps, its strings and tables lie in its own mapping. -/
theorem ImageLoaded.stackClear_of_lt (hi : ImageLoaded h c bprm s' info m)
    (hs : Static h c bprm) (hsize : c.guestStackSize.toNat + 4096 < 2 ^ 64) :
    StackClear h c bprm := fun eppnt he _ hlt b hb =>
  absurd (hi.stackByte hsize _ b hb) (hs.stack eppnt he _ ((hs.fits eppnt he).covers_byte hlt))

end

/-- A file with fixed addresses that is loaded is exact in memory if and only if the heap
covers no byte of its segments that is not zero, the stack's strings and tables put no
other byte over them, and no bss passes the last host address. -/
theorem image_exact_iff {h : Host} {c : Setup} {calls : Nat} {bprm : Binprm} {s' : Space}
    {info : ImageInfo} (hs : Static h c bprm)
    (hl : loadElfBinary h c (.unmapped calls) bprm = .ok (s', info)) :
    Exact (loads (h.phdrs bprm)) (h.file bprm.execfd) s'.mem info.brk ↔
      HeapClear h c bprm ∧ StackClear h c bprm ∧
        ∀ eppnt ∈ loads (h.phdrs bprm), eppnt.BssFits c := by
  obtain ⟨m, hi⟩ := imageLoaded hs.exec hs.fits hs.apart hl
  constructor
  · intro hx
    exact ⟨hi.heapClear hs hx, hi.stackClear hs hx, fun eppnt he => hi.bssFits hs hx he⟩
  · rintro ⟨hheap, hstack, hbss⟩
    exact hi.exactImage hs hheap hstack hbss

/-- Unless the size of the stack wraps, its strings and tables put nothing over a segment. -/
theorem stackClear_of_lt {h : Host} {c : Setup} {calls : Nat} {bprm : Binprm} {s' : Space}
    {info : ImageInfo} (hs : Static h c bprm)
    (hl : loadElfBinary h c (.unmapped calls) bprm = .ok (s', info))
    (hsize : c.guestStackSize.toNat + 4096 < 2 ^ 64) : StackClear h c bprm := by
  obtain ⟨m, hi⟩ := imageLoaded hs.exec hs.fits hs.apart hl
  exact hi.stackClear_of_lt hs hsize

/-- A heap above the image that does not pass the end of the address space is clear
of the segments. -/
theorem heapClear_of_le {h : Host} {c : Setup} {bprm : Binprm}
    (hf : ∀ eppnt ∈ loads (h.phdrs bprm), eppnt.Fits (h.file bprm.execfd))
    (hs : imageEnd 0 (h.phdrs bprm) ≤ (heapStart (h.phdrs bprm)).toNat)
    (he : (heapStart (h.phdrs bprm)).toNat + heapLength (h.phdrs bprm) ≤ 2 ^ 64) :
    HeapClear h c bprm := by
  intro eppnt hm i hi _ _ hin
  have hend : eppnt.pVaddr.toNat + eppnt.pMemsz.toNat ≤ imageEnd 0 (h.phdrs bprm) := by
    rw [← (hf eppnt hm).toNat_end]
    exact le_imageEnd hm
  rw [Span.mem_iff he, (hf eppnt hm).toNat_byte hi] at hin
  omega

/-! ## A file at the end of the address space -/

/-- A file with these program headers behind its header, little-endian throughout. -/
def execFile (phdr : List Phdr) : File :=
  let bytes : List (BitVec 8) :=
    [0x7f, 0x45, 0x4c, 0x46, elfClass, elfData, 1] ++ List.replicate 9 0 ++
      LittleEndian.bytes etExec 2 ++ LittleEndian.bytes emArch 2 ++
      LittleEndian.bytes 1#32 4 ++ LittleEndian.bytes 0x10078#64 8 ++
      LittleEndian.bytes 64#64 8 ++ List.replicate 12 0 ++
      LittleEndian.bytes 64#16 2 ++ LittleEndian.bytes 56#16 2 ++
      LittleEndian.bytes (BitVec.ofNat 16 phdr.length) 2 ++ List.replicate 6 0 ++
      phdr.flatMap fun eppnt =>
        LittleEndian.bytes eppnt.pType 4 ++ LittleEndian.bytes eppnt.pFlags 4 ++
          LittleEndian.bytes eppnt.pOffset 8 ++ LittleEndian.bytes eppnt.pVaddr 8 ++
          LittleEndian.bytes eppnt.pVaddr 8 ++ LittleEndian.bytes eppnt.pFilesz 8 ++
          LittleEndian.bytes eppnt.pMemsz 8 ++ LittleEndian.bytes eppnt.pAlign 8
  ⟨bytes.length, fun i => bytes.getD i 0⟩

/-- A 64-bit Linux host that serves every call and has one file. -/
def fileHost (f : File) : Host := { Layout.host47 with file := fun _ => f }

/-- The command line `a`, in an empty environment. -/
def commandA : Program := ⟨3, rfl, ⟨[0x61], by decide⟩, [⟨[0x61], by decide⟩], []⟩

abbrev execBinprm (phdr : List Phdr) : Binprm := commandA.binprm (fileHost (execFile phdr))

/-- The first 120 bytes of the file, and zeros behind the image. -/
def textAndBss : List Phdr :=
  [⟨ptLoad, pfR ||| pfX, 0, 0x10000, 120, 120, 4096⟩, ⟨ptLoad, pfR ||| pfW, 0, 0x20000, 0, 200, 4096⟩]

/-- Two copies of the first 120 bytes, one of them 1 MiB below the end of the address space. -/
def lowAndHigh : List Phdr :=
  [⟨ptLoad, pfR, 0, 0x10000, 120, 120, 4096⟩, ⟨ptLoad, pfR, 0, 0xfffffffffff00000, 120, 120, 4096⟩]

theorem textAndBss_loads :
    loads ((fileHost (execFile textAndBss)).phdrs (execBinprm textAndBss)) = textAndBss := by
  decide +kernel

theorem lowAndHigh_loads :
    loads ((fileHost (execFile lowAndHigh)).phdrs (execBinprm lowAndHigh)) = lowAndHigh := by
  decide +kernel

theorem textAndBss_static :
    Static (fileHost (execFile textAndBss)) .default (execBinprm textAndBss) := by
  refine ⟨by decide +kernel, ?_, ?_, ?_,
    Span.disjoint_of_le (by decide +kernel) (by decide +kernel)⟩
  all_goals rw [textAndBss_loads]
  · simp only [textAndBss, List.forall_mem_cons]
    exact ⟨⟨by decide +kernel, by decide +kernel, by decide +kernel⟩,
      ⟨by decide +kernel, by decide +kernel, by decide +kernel⟩, fun _ h => absurd h List.not_mem_nil⟩
  · refine List.pairwise_pair.mpr fun a h1 h2 => ?_
    exact Span.disjoint_of_le (by decide +kernel) (by decide +kernel) a h1.2 h2.2
  · simp only [textAndBss, List.forall_mem_cons]
    exact ⟨fun a h1 => Span.disjoint_of_le (by decide +kernel) (by decide +kernel) a h1.2,
      fun a h1 => Span.disjoint_of_le (by decide +kernel) (by decide +kernel) a h1.2,
      fun _ h => absurd h List.not_mem_nil⟩

theorem textAndBss_heap :
    imageEnd 0 ((fileHost (execFile textAndBss)).phdrs (execBinprm textAndBss)) ≤
        (heapStart ((fileHost (execFile textAndBss)).phdrs (execBinprm textAndBss))).toNat ∧
      (heapStart ((fileHost (execFile textAndBss)).phdrs (execBinprm textAndBss))).toNat +
        heapLength ((fileHost (execFile textAndBss)).phdrs (execBinprm textAndBss)) ≤ 2 ^ 64 := by
  decide +kernel

theorem exists_of_any {ε α : Type} {r : Except ε α} {p : α → Bool}
    (h : r.toOption.any p = true) : ∃ a, r = .ok a ∧ p a = true := by
  cases r with
  | error e => cases h
  | ok a => exact ⟨a, rfl, h⟩

theorem textAndBss_exact : ∃ s' info,
    loadElfBinary (fileHost (execFile textAndBss)) .default (.unmapped 1)
      (execBinprm textAndBss) = .ok (s', info) ∧
    Exact textAndBss (execFile textAndBss) s'.mem info.brk := by
  obtain ⟨⟨s', info⟩, hl, _⟩ := exists_of_any
    (show (loadElfBinary (fileHost (execFile textAndBss)) .default (.unmapped 1)
      (execBinprm textAndBss)).toOption.any (fun _ => true) = true by decide +kernel)
  have hx := image_exact_iff textAndBss_static hl
  refine ⟨s', info, hl, ?_⟩
  rw [textAndBss_loads] at hx
  refine hx.mpr ⟨heapClear_of_le textAndBss_static.fits textAndBss_heap.1 textAndBss_heap.2,
    stackClear_of_lt textAndBss_static hl (by decide +kernel), ?_⟩
  simp only [textAndBss, List.forall_mem_cons]
  exact ⟨fun _ h => absurd h (by decide +kernel), fun h => absurd rfl h, fun _ h => absurd h List.not_mem_nil⟩

theorem lowAndHigh_static :
    Static (fileHost (execFile lowAndHigh)) .default (execBinprm lowAndHigh) := by
  refine ⟨by decide +kernel, ?_, ?_, ?_, fun a h1 h2 => ?_⟩
  · rw [lowAndHigh_loads]
    simp only [lowAndHigh, List.forall_mem_cons]
    exact ⟨⟨by decide +kernel, by decide +kernel, by decide +kernel⟩,
      ⟨by decide +kernel, by decide +kernel, by decide +kernel⟩, fun _ h => absurd h List.not_mem_nil⟩
  · rw [lowAndHigh_loads]
    refine List.pairwise_pair.mpr fun a h1 h2 => ?_
    exact Span.disjoint_of_le (by decide +kernel) (by decide +kernel) a h1.2 h2.2
  · rw [lowAndHigh_loads]
    simp only [lowAndHigh, List.forall_mem_cons]
    exact ⟨fun a h1 => Span.disjoint_of_le (by decide +kernel) (by decide +kernel) a h1.2,
      fun a h1 => (Span.disjoint_of_le (by decide +kernel) (by decide +kernel)).symm a h1.2,
      fun _ h => absurd h List.not_mem_nil⟩
  · -- the heap passes the end of the address space and ends below 32 MiB
    rw [Span.mem_iff (by decide +kernel)] at h2
    unfold Span.Mem at h1
    rw [show heapLength _ = 0x2000000 by decide +kernel,
      show heapStart _ = 0xfffffffffff01000 by decide +kernel, BitVec.toNat_sub] at h1
    have hs : taskUnmappedBase.toNat = 0x4000000000 := rfl
    have hl : stackLength .default = 0x801000 := by decide +kernel
    have hh : (0xfffffffffff01000 : Word).toNat = 0xfffffffffff01000 := rfl
    omega

/-- The heap of an image at the end of the address space is mapped over its first page. -/
theorem lowAndHigh_not_exact : ∃ s' info,
    Static (fileHost (execFile lowAndHigh)) .default (execBinprm lowAndHigh) ∧
    loadElfBinary (fileHost (execFile lowAndHigh)) .default (.unmapped 1)
      (execBinprm lowAndHigh) = .ok (s', info) ∧
    ¬ Exact lowAndHigh (execFile lowAndHigh) s'.mem info.brk := by
  obtain ⟨⟨s', info⟩, hl, _⟩ := exists_of_any
    (show (loadElfBinary (fileHost (execFile lowAndHigh)) .default (.unmapped 1)
      (execBinprm lowAndHigh)).toOption.any (fun _ => true) = true by decide +kernel)
  refine ⟨s', info, lowAndHigh_static, hl, fun hx => ?_⟩
  obtain ⟨m, hi⟩ := imageLoaded lowAndHigh_static.exec lowAndHigh_static.fits
    lowAndHigh_static.apart hl
  have hb := hx.file _ List.mem_cons_self 0 (by decide +kernel)
  unfold Memory.byte? at hb
  rw [hi.mem _ (by decide +kernel), if_pos (by decide +kernel)] at hb
  exact absurd hb (by decide +kernel)

end Rvvk
