import Rvvk.Elf.Copies
import Rvvk.Elf.Segments

/-!
# The stages of a load

A load that succeeds went through its stages: the headers, the reservation of the
image, the segments, the heap, the stack and the tables. Each stage says what it
has done to the memory.
-/

namespace Rvvk

def File.phdrs (f : File) (ehdr : Ehdr) : List Phdr :=
  (List.range ehdr.ePhnum.toNat).map (Phdr.parse fun i => f.byte (ehdr.ePhoff.toNat + i))

def loads (phdr : List Phdr) : List Phdr := phdr.filter fun eppnt => eppnt.pType == ptLoad

/-! ## The headers -/

theorem elfField_congr {w : Nat} {byte byte' : Nat → BitVec 8} {offset : Nat}
    (h : ∀ i < w / 8, byte (offset + i) = byte' (offset + i)) :
    elfField w byte offset = elfField w byte' offset := by
  unfold elfField
  congr 1
  exact List.map_congr_left fun i hi => h i (List.mem_range.mp hi)

theorem Phdr.parse_congr {byte byte' : Nat → BitVec 8} {k : Nat}
    (h : ∀ i < phdrSize * (k + 1), byte i = byte' i) : Phdr.parse byte k = Phdr.parse byte' k := by
  have hf : ∀ w offset, phdrSize * k + offset + w / 8 ≤ phdrSize * (k + 1) →
      elfField w byte (phdrSize * k + offset) = elfField w byte' (phdrSize * k + offset) :=
    fun w offset hle => elfField_congr fun i hi => h _ (by omega)
  unfold phdrSize at hf
  rw [Phdr.parse, Phdr.parse, Phdr.mk.injEq]
  exact ⟨hf 32 0 (by omega), hf 32 4 (by omega), hf 64 8 (by omega), hf 64 16 (by omega),
    hf 64 32 (by omega), hf 64 40 (by omega), hf 64 48 (by omega)⟩

theorem loadElfPhdrs_ok {h : Host} {s s' : Space} {ehdr : Ehdr} {fd : BitVec 32}
    {phdr : List Phdr} (hl : loadElfPhdrs h s ehdr fd = .ok (phdr, s')) :
    phdr = (h.file fd).phdrs ehdr ∧ s'.mem = s.mem ∧ s'.mmapNextStart = s.mmapNextStart := by
  unfold loadElfPhdrs at hl
  dsimp only at hl
  split at hl
  · cases hl
  split at hl
  · cases hl
  split at hl
  · cases hl
  rename_i bytes hb
  split at hl
  · cases hl
  rename_i hlen
  simp only [Host.pread] at hb
  split at hb
  · cases hb
    cases hl
    simp only [List.length_map, List.length_range, ne_eq, Decidable.not_not] at hlen
    refine ⟨?_, rfl, rfl⟩
    unfold File.phdrs
    refine List.map_congr_left fun k hk => ?_
    have hk' := List.mem_range.mp hk
    have hmul : phdrSize * (k + 1) ≤ ehdr.ePhnum.toNat * phdrSize := by
      rw [Nat.mul_comm]
      exact Nat.mul_le_mul_right _ hk'
    refine Phdr.parse_congr fun i hi => ?_
    rw [List.getD_eq_getElem?_getD, List.getElem?_map, List.getElem?_range (by omega)]
    rfl
  · cases hb

/-! ## The stages -/

abbrev Binprm.ehdr (bprm : Binprm) : Ehdr := .parse bprm.buf

abbrev Host.phdrs (h : Host) (bprm : Binprm) : List Phdr :=
  (h.file bprm.execfd).phdrs bprm.ehdr

abbrev Host.loaddr (h : Host) (bprm : Binprm) : Word := (scan (h.phdrs bprm)).loaddr

/-- `hiaddr` with the heap reserve. -/
abbrev Host.hiaddr (h : Host) (bprm : Binprm) : Word := (scan (h.phdrs bprm)).hiaddr + reserveBrk

structure Stages (h : Host) (c : Setup) (s : Space) (bprm : Binprm) (s' : Space)
    (info' : ImageInfo) (s₀ s₁ s₂ s₃ s₄ : Space) (loadAddr heapAddr stackLimit p : Word)
    (info : ImageInfo) : Prop where
  headers : loadElfPhdrs h s bprm.ehdr bprm.execfd = .ok (h.phdrs bprm, s₀)
  image : granted .syserr
    (targetMmap h c s₀ (imageArgs c bprm.ehdr (h.loaddr bprm) (h.hiaddr bprm))) =
      .ok (s₁, loadAddr)
  segments : (h.phdrs bprm).foldlM (loadSegment h c bprm.execfd (loadAddr - h.loaddr bprm))
    (s₁, (scan (h.phdrs bprm)).info.locate bprm.ehdr loadAddr (loadAddr - h.loaddr bprm)) =
      .ok (s₂, info)
  heap : granted .syserr (targetMmap h c s₂ (heapArgs c bprm.ehdr (h.hiaddr bprm) info.brk)) =
    .ok (s₃, heapAddr)
  stack : mapStack h c s₃ info.execStack = .ok (s₄, stackLimit)
  tables : makeTables h s₄ bprm (stackLimit + c.guestStackSize - 8) = .ok (s', p)
  result : info' = { info with stackLimit := stackLimit, startStack := p }

theorem loadElfBinary_stages {h : Host} {c : Setup} {s s' : Space} {bprm : Binprm}
    {info' : ImageInfo} (hl : loadElfBinary h c s bprm = .ok (s', info')) :
    ∃ s₀ s₁ s₂ s₃ s₄ loadAddr heapAddr stackLimit p info,
      Stages h c s bprm s' info' s₀ s₁ s₂ s₃ s₄ loadAddr heapAddr stackLimit p info := by
  obtain ⟨_, _, hl⟩ := bind_eq_ok hl
  obtain ⟨⟨phdr, s₀⟩, h₀, hl⟩ := bind_eq_ok hl
  obtain ⟨⟨s₁, loadAddr⟩, h₁, hl⟩ := bind_eq_ok hl
  obtain ⟨⟨s₂, info⟩, h₂, hl⟩ := bind_eq_ok hl
  obtain ⟨⟨s₃, heapAddr⟩, h₃, hl⟩ := bind_eq_ok hl
  obtain ⟨⟨s₄, stackLimit⟩, h₄, hl⟩ := bind_eq_ok hl
  obtain ⟨⟨s₅, p⟩, h₅, hl⟩ := bind_eq_ok hl
  cases hl
  obtain ⟨rfl, _, _⟩ := loadElfPhdrs_ok h₀
  exact ⟨s₀, s₁, s₂, s₃, s₄, loadAddr, heapAddr, stackLimit, p, info, h₀, h₁, h₂, h₃, h₄, h₅, rfl⟩

/-! ## The stack -/

structure FreeMapped (h : Host) (c : Setup) (s : Space) (r : MmapArgs) : Prop where
  addr : (targetMmap h c s r).2 = s.place r.addr
  length : r.length ≠ 0
  frame : ∀ a, ¬ Span.Mem (s.place r.addr) (pageUp r.length.toNat) a →
    (targetMmap h c s r).1.mem a = s.mem a
  zero : r.fd = -1 → ∀ a, Span.Mem (s.place r.addr) (pageUp r.length.toNat) a →
    (targetMmap h c s r).1.mem a = some ⟨0, .ofBits r.prot⟩

/-- A place that the allocator has found is reserved before it is mapped. -/
theorem targetMmap_reserved {h : Host} {c : Setup} {s : Space} {r : MmapArgs}
    (hfix : r.flags &&& mapFixed = 0) (hne : (targetMmap h c s r).2 ≠ failed) :
    (mmapFindVma h c s r.addr r.length).2 = s.place r.addr ∧
      Reserved h c s (s.place r.addr) r.length (mmapFindVma h c s r.addr r.length).1 := by
  rcases mmapFindVma_cases h c s r.addr r.length with ⟨hf, _⟩ | hres
  · exact absurd (congrArg Prod.snd (targetMmap_refused hfix hf)) hne
  · exact hres

theorem freeMapped {h : Host} {c : Setup} {s : Space} {r : MmapArgs}
    (hfix : r.flags &&& mapFixed = 0) (hne : (targetMmap h c s r).2 ≠ failed) :
    FreeMapped h c s r := by
  obtain ⟨ha, hres⟩ := targetMmap_reserved hfix hne
  by_cases hal : s.place r.addr = failed
  · exact absurd (congrArg Prod.snd (targetMmap_refused hfix (ha.trans hal))) hne
  · have he := targetMmap_settled hfix ha hal
    rw [he] at hne
    obtain ⟨_, haddr, _, b, hb, hm⟩ := targetMmapAt_ok hne
    rw [← he] at haddr hm
    simp only [MmapArgs.settle] at hm
    refine ⟨haddr, hres.nonzero, fun a hna => ?_, fun hfd a hin => ?_⟩
    · rw [hm, mapPages_other hna, hres.mem, mapPages_other hna]
    · rw [backing_settle hfd] at hb
      cases hb
      rw [hm]
      exact mapPages_zero hin

/-- What `mapStack` leaves. -/
structure StackMapped (c : Setup) (s s' : Space) (limit : Word) : Prop where
  limit : limit = s.mmapNextStart + guard
  frame : ∀ a, ¬ Span.Mem s.mmapNextStart (pageUp (c.guestStackSize + guard).toNat) a →
    s'.mem a = s.mem a
  guardPage : GuardPage s'.mem s.mmapNextStart

theorem stackArgs_not_fixed (c : Setup) (execStack : BitVec 32) :
    (stackArgs c execStack).flags &&& mapFixed = 0 := by
  cases hs : c.strictAnsi <;> simp only [stackArgs, unlessStrict, hs] <;> decide

theorem targetMprotect_done {h : Host} {c : Setup} {s : Space} {addr len : Word}
    {prot : BitVec 32} (hd : (targetMprotect h c s addr len prot).2 = true) :
    (targetMprotect h c s addr len prot).1.mem =
      s.mem.protectPages addr (pageUp len.toNat) (.ofBits prot) := by
  unfold targetMprotect Host.mprotect at hd ⊢
  dsimp only at hd ⊢
  split at hd
  · rename_i hok
    rw [if_pos hok, h2g_g2h]
  · cases hd

theorem mapStack_ok {h : Host} {c : Setup} {s s' : Space} {execStack : BitVec 32} {limit : Word}
    (hm : mapStack h c s execStack = .ok (s', limit)) : StackMapped c s s' limit := by
  obtain ⟨⟨s₁, addr⟩, h₁, hm⟩ := bind_eq_ok hm
  obtain ⟨hne, hr⟩ := granted_eq_ok h₁
  have hf := freeMapped (stackArgs_not_fixed c execStack) hne
  have haddr : (targetMmap h c s (stackArgs c execStack)).2 = s.mmapNextStart := hf.addr
  have hframe := hf.frame
  have hlen := hf.length
  rw [← hr] at haddr hframe
  dsimp only at haddr hframe hm
  subst haddr
  split at hm
  · rename_i hd
    cases hm
    have hp := targetMprotect_done hd
    have hguard : pageUp guard.toNat = 4096 := rfl
    rw [hguard] at hp
    refine ⟨rfl, fun a ha => ?_, fun i hi => ?_⟩
    · rw [hp]
      have hout : ¬ Span.Mem s.mmapNextStart 4096 a := by
        intro hin
        refine ha (hin.mono ?_)
        have hpos : (c.guestStackSize + guard).toNat ≠ 0 := fun h0 =>
          hlen (BitVec.eq_of_toNat_eq h0)
        unfold pageUp
        omega
      exact (if_neg hout).trans (hframe a ha)
    · rw [hp]
      rintro ⟨cell, hcell, hw⟩
      unfold Memory.protectPages at hcell
      rw [if_pos (Span.mem_offset _ hi)] at hcell
      obtain ⟨_, _, rfl⟩ := Option.map_eq_some_iff.mp hcell
      cases hw
  · cases hm

/-- Above the guard page the stack is fresh and lies in the host's range. -/
structure StackFresh (h : Host) (c : Setup) (s s' : Space) : Prop where
  fits : (g2h c s.mmapNextStart).toNat + pageUp (c.guestStackSize + guard).toNat ≤ h.taskSize
  fresh : ∀ a, 4096 ≤ (a - s.mmapNextStart).toNat →
    Span.Mem s.mmapNextStart (pageUp (c.guestStackSize + guard).toNat) a →
      s'.mem a = some ⟨0, ⟨true, true⟩⟩

theorem mapStack_fresh {h : Host} {c : Setup} {s s' : Space} {execStack : BitVec 32} {limit : Word}
    (hm : mapStack h c s execStack = .ok (s', limit)) : StackFresh h c s s' := by
  obtain ⟨⟨s₁, addr⟩, h₁, hm⟩ := bind_eq_ok hm
  obtain ⟨hne, hr⟩ := granted_eq_ok h₁
  have hf := freeMapped (stackArgs_not_fixed c execStack) hne
  have haddr : (targetMmap h c s (stackArgs c execStack)).2 = s.mmapNextStart := hf.addr
  have hzero := hf.zero rfl
  rw [← hr] at haddr hzero
  dsimp only at haddr hzero hm
  subst haddr
  split at hm
  · rename_i hd
    cases hm
    refine ⟨(targetMmap_reserved (stackArgs_not_fixed c execStack) hne).2.fits, fun a hge hin => ?_⟩
    have hout : ¬ Span.Mem s.mmapNextStart 4096 a := Nat.not_lt_of_le hge
    have hprot : Prot.ofBits (stackArgs c execStack).prot = ⟨true, true⟩ := by
      unfold stackArgs
      dsimp only
      split <;> decide
    rw [targetMprotect_done hd]
    exact (if_neg hout).trans ((hzero a hin).trans (by rw [hprot]))
  · cases hm

theorem makeTables_ok {h : Host} {s s' : Space} {bprm : Binprm} {p p' : Word}
    (hm : makeTables h s bprm p = .ok (s', p')) :
    createElfTables s.mem bprm p = .ok (s'.mem, p') := by
  unfold makeTables at hm
  dsimp only at hm
  split at hm
  · cases hm
  · split at hm
    · rename_i hc
      cases hm
      exact hc
    · cases hm

/-- `bprm->p` when `create_elf_tables` is entered. -/
def stackTop (c : Setup) (limit : Word) : Word := limit + c.guestStackSize - 8

section

variable {h : Host} {c : Setup} {s₃ s₄ s' : Space} {execStack : BitVec 32}
  {stackLimit p a : Word} {bprm : Binprm}

/-- Out of the mapping of the stack nothing changes but what `create_elf_tables` stores. -/
theorem stack_apply (hs : mapStack h c s₃ execStack = .ok (s₄, stackLimit))
    (ht : makeTables h s₄ bprm (stackTop c stackLimit) = .ok (s', p))
    (ha : ¬ Span.Mem s₃.mmapNextStart (pageUp (c.guestStackSize + guard).toNat) a) :
    s'.mem a = (s₃.mem a).map fun cell =>
      { cell with val := (bprm.tableByte? (stackTop c stackLimit) a).getD cell.val } := by
  rw [createElfTables_apply (makeTables_ok ht), (mapStack_ok hs).frame a ha]

/-- Unless its size wraps, what `create_elf_tables` stores lies in the stack. -/
theorem tableByte_inStack (hsize : c.guestStackSize.toNat + 4096 < 2 ^ 64)
    (hs : mapStack h c s₃ execStack = .ok (s₄, stackLimit))
    (ht : makeTables h s₄ bprm (stackTop c stackLimit) = .ok (s', p)) {b : BitVec 8}
    (hb : bprm.tableByte? (stackTop c stackLimit) a = some b) :
    Span.Mem s₃.mmapNextStart (pageUp (c.guestStackSize + guard).toNat) a := by
  have hst := mapStack_ok hs
  have hguard : guard.toNat = 4096 := rfl
  have htop : (stackTop c stackLimit - s₃.mmapNextStart).toNat =
      c.guestStackSize.toNat + 4088 := by
    have he : stackTop c stackLimit - s₃.mmapNextStart = c.guestStackSize + 4088#64 := by
      unfold stackTop
      rw [hst.limit]
      unfold guard
      grind
    rw [he, BitVec.toNat_add, BitVec.toNat_ofNat]
    omega
  have hlt := tableByte_below hst.guardPage (by omega) (makeTables_ok ht) hb
  have hup := le_pageUp (c.guestStackSize + guard).toNat
  rw [BitVec.toNat_add, hguard] at hup ⊢
  unfold Span.Mem
  omega

end

end Rvvk
