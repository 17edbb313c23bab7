import Rvvk.Elf.Entry

/-!
# The heap over a moved image

The reservation of the image fixes `load_bias`. The heap begins behind the segments,
which are moved by it, and its size is computed from `hiaddr`, which is not.
-/

namespace Rvvk

/-! ## The load up to the segments -/

/-- The headers and the reservation of the address space, with `load_addr`. -/
def reserveImage (h : Host) (c : Setup) (s : Space) (bprm : Binprm) :
    Except Failure (List Phdr × Space × Word) := do
  let ehdr := Ehdr.parse bprm.buf
  elfCheckEhdr ehdr
  let (phdr, s) ← loadElfPhdrs h s ehdr bprm.execfd
  let loaddr := (scan phdr).loaddr
  let hiaddr := (scan phdr).hiaddr + reserveBrk
  let (s, loadAddr) ← granted .syserr (targetMmap h c s (imageArgs c ehdr loaddr hiaddr))
  .ok (phdr, s, loadAddr)

/-- `load_elf_binary` up to the heap. -/
def mapImage (h : Host) (c : Setup) (s : Space) (bprm : Binprm) :
    Except Failure (List Phdr × Space × ImageInfo) := do
  let (phdr, s, loadAddr) ← reserveImage h c s bprm
  let loadBias := loadAddr - (scan phdr).loaddr
  let info := (scan phdr).info.locate bprm.ehdr loadAddr loadBias
  let (s, info) ← phdr.foldlM (loadSegment h c bprm.execfd loadBias) (s, info)
  .ok (phdr, s, info)

/-- The request for the heap, once the segments are mapped. -/
def heapRequest (c : Setup) (bprm : Binprm) (phdr : List Phdr) (info : ImageInfo) : MmapArgs :=
  heapArgs c bprm.ehdr ((scan phdr).hiaddr + reserveBrk) info.brk

/-- `load_elf_binary` from the heap on. -/
def finishLoad (h : Host) (c : Setup) (bprm : Binprm) (r : List Phdr × Space × ImageInfo) :
    Except Failure (Space × ImageInfo) := do
  let (phdr, s, info) := r
  let (s, _) ← granted .syserr (targetMmap h c s (heapRequest c bprm phdr info))
  let (s, stackLimit) ← mapStack h c s info.execStack
  let (s, p) ← makeTables h s bprm (stackLimit + c.guestStackSize - 8)
  .ok (s, { info with stackLimit := stackLimit, startStack := p })

theorem loadElfBinary_mapImage (h : Host) (c : Setup) (s : Space) (bprm : Binprm) :
    loadElfBinary h c s bprm = mapImage h c s bprm >>= finishLoad h c bprm := by
  simp only [loadElfBinary, mapImage, reserveImage, bind_assoc]
  rfl

/-- The reservation as the host has granted it: at `loaddr` for a file with fixed
addresses, else where `mmap_find_vma` puts it. -/
structure ImageReserved (h : Host) (c : Setup) (s : Space) (bprm : Binprm) (phdr : List Phdr)
    (loadAddr : Word) : Prop where
  phdrs : phdr = h.phdrs bprm
  place : loadAddr = if bprm.ehdr.eType = etExec then (scan phdr).loaddr
    else s.place (scan phdr).loaddr
  size : (scan phdr).hiaddr + reserveBrk - (scan phdr).loaddr + 1 ≠ 0
  aligned : (g2h c loadAddr).toNat % 4096 = 0
  fits : (g2h c loadAddr).toNat +
    pageUp ((scan phdr).hiaddr + reserveBrk - (scan phdr).loaddr + 1).toNat ≤ h.taskSize

theorem reserveImage_ok {h : Host} {c : Setup} {s s' : Space} {bprm : Binprm} {phdr : List Phdr}
    {loadAddr : Word} (hr : reserveImage h c s bprm = .ok (phdr, s', loadAddr)) :
    ImageReserved h c s bprm phdr loadAddr := by
  obtain ⟨_, _, hr⟩ := bind_eq_ok hr
  obtain ⟨⟨phdr, s₀⟩, h₀, hr⟩ := bind_eq_ok hr
  obtain ⟨⟨s₁, loadAddr⟩, h₁, hr⟩ := bind_eq_ok hr
  cases hr
  obtain ⟨hphdr, _, hnext⟩ := loadElfPhdrs_ok h₀
  obtain ⟨hne, hm⟩ := granted_eq_ok h₁
  have haddr := congrArg Prod.snd hm
  dsimp only at haddr
  by_cases he : bprm.ehdr.eType = etExec
  · have hz := zeroMapped (reserveFlags_fixed c he) rfl rfl (reserveFlags_anonymous _) hne
    rw [hz.addr] at haddr
    refine ⟨hphdr, ?_, hz.accepts.length, ?_, ?_⟩
    · rw [if_pos he]
      exact haddr
    · rw [haddr]
      exact hz.accepts.addr
    · rw [haddr]
      exact hz.accepts.fits
  · have hfree := reserveFlags_not_fixed c he
    rw [(freeMapped hfree hne).addr] at haddr
    have hplace : s₀.place (scan phdr).loaddr = s.place (scan phdr).loaddr := by
      unfold Space.place
      rw [hnext]
    refine ⟨hphdr, ?_, (freeMapped hfree hne).length, ?_, ?_⟩
    · rw [if_neg he, ← hplace]
      exact haddr
    · rw [haddr]
      exact (targetMmap_reserved hfree hne).2.aligned
    · rw [haddr]
      exact (targetMmap_reserved hfree hne).2.fits

/-! ## Well-formed images -/

/-- There is something to load, and no address of it wraps: neither where the file
would begin nor where the memory ends. -/
structure WellFormed (phdr : List Phdr) : Prop where
  nonempty : loads phdr ≠ []
  offset : ∀ eppnt ∈ loads phdr, eppnt.pOffset.toNat ≤ eppnt.pVaddr.toNat
  pos : ∀ eppnt ∈ loads phdr, 0 < eppnt.pVaddr.toNat + eppnt.pMemsz.toNat
  memory : ∀ eppnt ∈ loads phdr, eppnt.pVaddr.toNat + eppnt.pMemsz.toNat < 2 ^ 64

theorem loaddr_foldl_le (phdr : List Phdr) (t : Scan) :
    (phdr.foldl Scan.add t).loaddr.toNat ≤ t.loaddr.toNat ∧
      ∀ eppnt ∈ loads phdr, (phdr.foldl Scan.add t).loaddr.toNat ≤
        (eppnt.pVaddr - eppnt.pOffset).toNat := by
  induction phdr generalizing t with
  | nil => exact ⟨Nat.le_refl _, fun _ he => absurd he List.not_mem_nil⟩
  | cons eppnt phdr ih =>
      rw [List.foldl_cons, loads_cons]
      obtain ⟨hle, hall⟩ := ih (t.add eppnt)
      by_cases hl : eppnt.pType = ptLoad
      · have hadd : (t.add eppnt).loaddr.toNat ≤ t.loaddr.toNat ∧
            (t.add eppnt).loaddr.toNat ≤ (eppnt.pVaddr - eppnt.pOffset).toNat := by
          unfold Scan.add
          rw [if_pos hl]
          dsimp only
          split
          · rename_i hlt
            exact ⟨Nat.le_of_lt hlt, Nat.le_refl _⟩
          · rename_i hge
            exact ⟨Nat.le_refl _, Nat.le_of_not_lt hge⟩
        rw [if_pos hl]
        refine ⟨Nat.le_trans hle hadd.1, fun e he => ?_⟩
        rcases List.mem_cons.mp he with rfl | he
        · exact Nat.le_trans hle hadd.2
        · exact hall e he
      · have hadd : (t.add eppnt).loaddr = t.loaddr := by
          unfold Scan.add
          rw [if_neg hl]
          split
          · rfl
          · split <;> rfl
        rw [if_neg hl]
        rw [hadd] at hle
        exact ⟨hle, hall⟩

theorem WellFormed.loaddr_le {phdr : List Phdr} (hw : WellFormed phdr) {eppnt : Phdr}
    (he : eppnt ∈ loads phdr) : (scan phdr).loaddr.toNat ≤ eppnt.pVaddr.toNat := by
  have hle := (loaddr_foldl_le phdr ⟨-1, 0, .zero⟩).2 eppnt he
  have hoff : eppnt.pOffset ≤ eppnt.pVaddr := hw.offset eppnt he
  rw [BitVec.toNat_sub_of_le hoff] at hle
  exact Nat.le_trans hle (Nat.sub_le _ _)

theorem WellFormed.toNat_last {phdr : List Phdr} (hw : WellFormed phdr) {eppnt : Phdr}
    (he : eppnt ∈ loads phdr) :
    (eppnt.pVaddr + eppnt.pMemsz - 1).toNat + 1 = eppnt.pVaddr.toNat + eppnt.pMemsz.toNat := by
  have hp := hw.pos eppnt he
  have hm := hw.memory eppnt he
  have h1 : (1 : Word).toNat = 1 := rfl
  rw [BitVec.toNat_sub, BitVec.toNat_add, h1]
  omega

theorem WellFormed.imageTop_spec {phdr : List Phdr} (hw : WellFormed phdr) :
    (∃ eppnt ∈ loads phdr, imageTop phdr + 1 = eppnt.pVaddr.toNat + eppnt.pMemsz.toNat) ∧
      ∀ eppnt ∈ loads phdr, eppnt.pVaddr.toNat + eppnt.pMemsz.toNat ≤ imageTop phdr + 1 := by
  obtain ⟨hmem, hle⟩ := foldl_max_spec 0 ((loads phdr).map fun eppnt =>
    (eppnt.pVaddr + eppnt.pMemsz - 1).toNat)
  have hall : ∀ eppnt ∈ loads phdr,
      eppnt.pVaddr.toNat + eppnt.pMemsz.toNat ≤ imageTop phdr + 1 := by
    intro eppnt he
    have hl := hle _ (List.mem_cons_of_mem _ (List.mem_map.mpr ⟨eppnt, he, rfl⟩))
    rw [← hw.toNat_last he]
    exact Nat.succ_le_succ hl
  refine ⟨?_, hall⟩
  rcases List.mem_cons.mp hmem with h0 | hin
  · obtain ⟨eppnt, he⟩ := List.exists_mem_of_ne_nil _ hw.nonempty
    have hl := hall eppnt he
    have hp := hw.pos eppnt he
    have htop : imageTop phdr = 0 := h0
    exact ⟨eppnt, he, by omega⟩
  · obtain ⟨eppnt, he, heq⟩ := List.mem_map.mp hin
    refine ⟨eppnt, he, ?_⟩
    rw [← hw.toNat_last he, heq]
    rfl

theorem WellFormed.loaddr_le_top {phdr : List Phdr} (hw : WellFormed phdr) :
    (scan phdr).loaddr.toNat ≤ imageTop phdr + 1 := by
  obtain ⟨⟨eppnt, he, htop⟩, _⟩ := hw.imageTop_spec
  have hle := hw.loaddr_le he
  omega

/-- The end of an image that is moved down by less than where it begins. -/
theorem WellFormed.imageEnd_moved {phdr : List Phdr} (hw : WellFormed phdr) {loadBias : Word}
    {k : Nat} (hb : loadBias.toNat = (2 ^ 64 - k) % 2 ^ 64)
    (hk : ∀ eppnt ∈ loads phdr, k ≤ eppnt.pVaddr.toNat) :
    imageEnd loadBias phdr + k = imageTop phdr + 1 := by
  have hend : ∀ eppnt ∈ loads phdr, (loadBias + eppnt.pVaddr + eppnt.pMemsz).toNat + k =
      eppnt.pVaddr.toNat + eppnt.pMemsz.toNat := by
    intro eppnt he
    have hv := hk eppnt he
    have hm := hw.memory eppnt he
    rw [BitVec.toNat_add, BitVec.toNat_add, hb]
    omega
  obtain ⟨⟨top, ht, htop⟩, hall⟩ := hw.imageTop_spec
  have hle : (loadBias + top.pVaddr + top.pMemsz).toNat ≤ imageEnd loadBias phdr :=
    le_imageEnd ht
  rw [← hend top ht] at htop
  rcases List.mem_cons.mp (foldl_max_spec 0 ((loads phdr).map fun eppnt =>
    (loadBias + eppnt.pVaddr + eppnt.pMemsz).toNat)).1 with h0 | hin
  · have hz : imageEnd loadBias phdr = 0 := h0
    omega
  · obtain ⟨eppnt, he, heq⟩ := List.mem_map.mp hin
    have hie : imageEnd loadBias phdr = (loadBias + eppnt.pVaddr + eppnt.pMemsz).toNat :=
      heq.symm
    have hl := hall eppnt he
    rw [← hend eppnt he] at hl
    omega

/-! ## The request for the heap -/

/-- The heap request: from the page of the break to the page in which the moved image,
with the reserve above it, ends; and inside what was reserved. -/
structure HeapRight (c : Setup) (bprm : Binprm) (phdr : List Phdr) (info : ImageInfo) : Prop where
  start : (heapRequest c bprm phdr info).addr.toNat = pageUp info.brk.toNat
  stop : (heapRequest c bprm phdr info).addr.toNat +
      pageUp (heapRequest c bprm phdr info).length.toNat =
    pageUp ((info.loadBias + BitVec.ofNat 64 (imageTop phdr) + reserveBrk).toNat + 1)
  size : reserveBrk.toNat ≤ (heapRequest c bprm phdr info).length.toNat + 4096
  inside : ∀ a, Span.Mem (heapRequest c bprm phdr info).addr
      (heapRequest c bprm phdr info).length.toNat a →
    Span.Mem info.loadAddr (pageUp (imageArgs c bprm.ehdr (scan phdr).loaddr
      ((scan phdr).hiaddr + reserveBrk)).length.toNat) a

/-- How far the reservation moves an image down whose place is not left to the allocator. -/
def shift (ehdr : Ehdr) (phdr : List Phdr) : Nat :=
  if ehdr.eType = etExec then 0 else (scan phdr).loaddr.toNat % 4096

/-- The reserve fits above the image, and the image is not moved, or not over the end of
a page. -/
structure HeapFollows (ehdr : Ehdr) (phdr : List Phdr) : Prop where
  top : imageTop phdr + reserveBrk.toNat < 2 ^ 64
  placed : ehdr.eType = etExec ∨ (scan phdr).loaddr ≠ 0
  page : pageUp (imageTop phdr + 1 - shift ehdr phdr) = pageUp (imageTop phdr + 1)

theorem shift_le (ehdr : Ehdr) (phdr : List Phdr) :
    shift ehdr phdr ≤ (scan phdr).loaddr.toNat ∧ shift ehdr phdr < 4096 := by
  unfold shift
  split
  · exact ⟨Nat.zero_le _, by decide⟩
  · exact ⟨Nat.mod_le _ _, Nat.mod_lt _ (by decide)⟩

theorem imageTop_lt (phdr : List Phdr) : imageTop phdr < 2 ^ 64 := by
  rw [← toNat_hiaddr]
  exact (scan phdr).hiaddr.isLt

theorem heapRequest_nat (c : Setup) (bprm : Binprm) (phdr : List Phdr) (info : ImageInfo) :
    (heapRequest c bprm phdr info).addr.toNat = (info.brk.toNat + 4095) % 2 ^ 64 / 4096 * 4096 ∧
      (heapRequest c bprm phdr info).length.toNat =
        (imageTop phdr + reserveBrk.toNat + 1 + 2 ^ 64 -
          (heapRequest c bprm phdr info).addr.toNat) % 2 ^ 64 := by
  have hlt := (heapRequest c bprm phdr info).addr.isLt
  have h1 : (1 : Word).toNat = 1 := rfl
  refine ⟨toNat_targetPageAlign _, ?_⟩
  show ((scan phdr).hiaddr + reserveBrk - (heapRequest c bprm phdr info).addr + 1).toNat = _
  rw [BitVec.toNat_add, BitVec.toNat_sub, BitVec.toNat_add, toNat_hiaddr, h1]
  omega

theorem toNat_imageSize {phdr : List Phdr} (hlo : (scan phdr).loaddr.toNat ≤ imageTop phdr + 1)
    (htop : imageTop phdr + reserveBrk.toNat < 2 ^ 64)
    (hsize : (scan phdr).hiaddr + reserveBrk - (scan phdr).loaddr + 1 ≠ 0) :
    ((scan phdr).hiaddr + reserveBrk - (scan phdr).loaddr + 1).toNat =
      imageTop phdr + reserveBrk.toNat + 1 - (scan phdr).loaddr.toNat := by
  have h1 : (1 : Word).toNat = 1 := rfl
  have hR : reserveBrk.toNat = 0x2000000 := rfl
  have hhi : ((scan phdr).hiaddr + reserveBrk).toNat = imageTop phdr + reserveBrk.toNat := by
    rw [BitVec.toNat_add, toNat_hiaddr, Nat.mod_eq_of_lt htop]
  have hle : (scan phdr).loaddr ≤ (scan phdr).hiaddr + reserveBrk := by
    show (scan phdr).loaddr.toNat ≤ ((scan phdr).hiaddr + reserveBrk).toNat
    omega
  have hne := mt BitVec.eq_of_toNat_eq hsize
  have hzero : (0 : Word).toNat = 0 := rfl
  rw [BitVec.toNat_add, BitVec.toNat_sub_of_le hle, hhi, h1] at hne ⊢
  omega

/-- An image that is moved down by less than a page. -/
structure Moved (bprm : Binprm) (phdr : List Phdr) (info : ImageInfo) : Prop where
  bias : info.loadBias.toNat = (2 ^ 64 - shift bprm.ehdr phdr) % 2 ^ 64
  addr : info.loadAddr.toNat = (scan phdr).loaddr.toNat - shift bprm.ehdr phdr
  brk : info.brk.toNat + shift bprm.ehdr phdr = imageTop phdr + 1
  below : (scan phdr).loaddr.toNat ≤ imageTop phdr + 1
  size : (scan phdr).hiaddr + reserveBrk - (scan phdr).loaddr + 1 ≠ 0

theorem Moved.toNat_last {bprm : Binprm} {phdr : List Phdr} {info : ImageInfo}
    (hm : Moved bprm phdr info) :
    (info.loadBias + BitVec.ofNat 64 (imageTop phdr) + reserveBrk).toNat =
      (2 ^ 64 - shift bprm.ehdr phdr + imageTop phdr + reserveBrk.toNat) % 2 ^ 64 := by
  have hle := (shift_le bprm.ehdr phdr).2
  have ht := imageTop_lt phdr
  rw [BitVec.toNat_add, BitVec.toNat_add, BitVec.toNat_ofNat, hm.bias]
  omega

theorem Moved.heapFollows {c : Setup} {bprm : Binprm} {phdr : List Phdr} {info : ImageInfo}
    (hm : Moved bprm phdr info) (hr : HeapRight c bprm phdr info) :
    imageTop phdr + reserveBrk.toNat < 2 ^ 64 ∧
      pageUp (imageTop phdr + 1 - shift bprm.ehdr phdr) = pageUp (imageTop phdr + 1) := by
  obtain ⟨haddr, hlen⟩ := heapRequest_nat c bprm phdr info
  have hstart := hr.start
  have hstop := hr.stop
  have hbrk := hm.brk
  have hle := (shift_le bprm.ehdr phdr).2
  have ht := imageTop_lt phdr
  have hR : reserveBrk.toNat = 0x2000000 := rfl
  rw [hm.toNat_last] at hstop
  rw [hR] at hlen hstop ⊢
  unfold pageUp at hstart hstop ⊢
  omega

theorem Moved.heapRight {c : Setup} {bprm : Binprm} {phdr : List Phdr} {info : ImageInfo}
    (hm : Moved bprm phdr info) (hf : HeapFollows bprm.ehdr phdr) :
    HeapRight c bprm phdr info := by
  obtain ⟨haddr, hlen⟩ := heapRequest_nat c bprm phdr info
  have hbrk := hm.brk
  obtain ⟨hlo, hle⟩ := shift_le bprm.ehdr phdr
  have hbelow := hm.below
  have hpage := hf.page
  have htop := hf.top
  have hR : reserveBrk.toNat = 0x2000000 := rfl
  have hlast := hm.toNat_last
  rw [hR] at hlen htop hlast
  unfold pageUp at hpage
  have hstart : (heapRequest c bprm phdr info).addr.toNat = pageUp info.brk.toNat := by
    have hsmall : info.brk.toNat + 4095 < 2 ^ 64 := by omega
    rw [haddr, Nat.mod_eq_of_lt hsmall]
    rfl
  have hstop : (heapRequest c bprm phdr info).addr.toNat +
      (heapRequest c bprm phdr info).length.toNat = imageTop phdr + 0x2000000 + 1 := by
    omega
  refine ⟨hstart, ?_, ?_, fun a ha => ?_⟩
  · rw [hlast]
    unfold pageUp
    omega
  · rw [hR]
    omega
  · rw [Span.mem_iff (by omega)] at ha
    have hsize := toNat_imageSize hm.below hf.top hm.size
    have hbase : info.loadAddr ≤ a := by
      show info.loadAddr.toNat ≤ a.toNat
      rw [hm.addr]
      unfold pageUp at hstart
      omega
    have hk : shift bprm.ehdr phdr = 0 ∨
        shift bprm.ehdr phdr = (scan phdr).loaddr.toNat % 4096 := by
      unfold shift
      split
      · exact .inl rfl
      · exact .inr rfl
    show (a - info.loadAddr).toNat < pageUp ((scan phdr).hiaddr + reserveBrk -
      (scan phdr).loaddr + 1).toNat
    rw [hsize, BitVec.toNat_sub_of_le hbase, hm.addr, hR]
    unfold pageUp
    omega

/-- An image that is moved up by whole pages has no heap where it should be. -/
theorem not_heapRight_of_bias {c : Setup} {bprm : Binprm} {phdr : List Phdr} {info : ImageInfo}
    (hal : info.loadBias.toNat % 4096 = 0) (hpos : 0 < info.loadBias.toNat) :
    ¬ HeapRight c bprm phdr info := by
  intro hr
  obtain ⟨_, hlen⟩ := heapRequest_nat c bprm phdr info
  have hlt := info.loadBias.isLt
  have ht := imageTop_lt phdr
  have hstart := hr.start
  have hstop := hr.stop
  have hR : reserveBrk.toNat = 0x2000000 := rfl
  have hlast : (info.loadBias + BitVec.ofNat 64 (imageTop phdr) + reserveBrk).toNat =
      (info.loadBias.toNat + imageTop phdr + reserveBrk.toNat) % 2 ^ 64 := by
    rw [BitVec.toNat_add, BitVec.toNat_add, BitVec.toNat_ofNat]
    omega
  rw [hlast] at hstop
  rw [hR] at hlen hstop
  unfold pageUp at hstart hstop
  omega

theorem ImageReserved.moved {h : Host} {c : Setup} {s : Space} {bprm : Binprm}
    {phdr : List Phdr} {loadAddr : Word} (hr : ImageReserved h c s bprm phdr loadAddr)
    (hp : bprm.ehdr.eType = etExec ∨ (scan phdr).loaddr ≠ 0) :
    (loadAddr - (scan phdr).loaddr).toNat = (2 ^ 64 - shift bprm.ehdr phdr) % 2 ^ 64 ∧
      loadAddr.toNat = (scan phdr).loaddr.toNat - shift bprm.ehdr phdr := by
  have hle := shift_le bprm.ehdr phdr
  have haddr : loadAddr.toNat = (scan phdr).loaddr.toNat - shift bprm.ehdr phdr := by
    rw [hr.place]
    unfold shift
    by_cases he : bprm.ehdr.eType = etExec
    · rw [if_pos he, if_pos he]
      rfl
    · rw [if_neg he, if_neg he]
      unfold Space.place
      rw [if_neg (hp.resolve_left he), toNat_and_hostPageMask]
      omega
  refine ⟨?_, haddr⟩
  rw [BitVec.toNat_sub, haddr]
  omega

/-- In every load of a well-formed image that comes to the heap, the request for it is
right if and only if the reserve fits above the image and the image is not moved to
another page. -/
theorem heapRight_iff {h : Host} {c : Setup} {s s' : Space} {prog : Program} {bprm : Binprm}
    {phdr : List Phdr} {info : ImageInfo} (hb : prepareBinprm h .start prog = .ok (s, bprm))
    (hm : mapImage h c s bprm = .ok (phdr, s', info)) (hw : WellFormed phdr) :
    HeapRight c bprm phdr info ↔ HeapFollows bprm.ehdr phdr := by
  obtain ⟨⟨phdr, s₁, loadAddr⟩, h₁, hm⟩ := bind_eq_ok hm
  obtain ⟨⟨s₂, info₂⟩, h₂, hm⟩ := bind_eq_ok hm
  cases hm
  have hrun := loads_reached h₂
  have hres := reserveImage_ok h₁
  obtain ⟨hbias, haddr⟩ := located_reached hrun
  have hbrk : info.brk.toNat = imageEnd (loadAddr - (scan phdr).loaddr) phdr :=
    toNat_brk_reached hrun
  by_cases hp : bprm.ehdr.eType = etExec ∨ (scan phdr).loaddr ≠ 0
  · have hmoved : Moved bprm phdr info := by
      obtain ⟨hk, hlo⟩ := hres.moved hp
      have hle := shift_le bprm.ehdr phdr
      refine ⟨?_, ?_, ?_, hw.loaddr_le_top, hres.size⟩
      · rw [hbias]
        exact hk
      · rw [haddr]
        exact hlo
      · rw [hbrk]
        exact hw.imageEnd_moved hk fun eppnt he => Nat.le_trans hle.1 (hw.loaddr_le he)
    constructor
    · intro hr
      exact ⟨(hmoved.heapFollows hr).1, hp, (hmoved.heapFollows hr).2⟩
    · exact hmoved.heapRight
  · refine iff_of_false ?_ fun hf => hp hf.placed
    obtain ⟨he, hlo⟩ := not_or.mp hp
    have hnext : s.mmapNextStart = taskUnmappedBase := by
      rw [(prepareBinprm_ok hb).1]
      rfl
    have hval : info.loadBias = taskUnmappedBase := by
      rw [hbias]
      show loadAddr - (scan phdr).loaddr = _
      rw [hres.place, if_neg he, Decidable.not_not.mp hlo, ← hnext]
      exact BitVec.sub_zero _
    refine not_heapRight_of_bias ?_ ?_ <;> rw [hval] <;> decide

/-! ## A position-independent file -/

theorem prepareBinprm_fileHost (f : File) (prog : Program) :
    prepareBinprm (fileHost f) .start prog = .ok (.unmapped 1, prog.binprm (fileHost f)) := rfl

theorem textAndBss_heapRight : ∃ s phdr s' info,
    prepareBinprm (fileHost (execFile textAndBss)) .start commandA =
      .ok (s, execBinprm textAndBss) ∧
    mapImage (fileHost (execFile textAndBss)) .default s (execBinprm textAndBss) =
      .ok (phdr, s', info) ∧
    HeapRight .default (execBinprm textAndBss) phdr info := by
  obtain ⟨⟨phdr, s', info⟩, hm, hp⟩ := exists_of_any
    (show (mapImage (fileHost (execFile textAndBss)) .default (.unmapped 1)
      (execBinprm textAndBss)).toOption.any (fun r => r.1 == textAndBss) = true by
        decide +kernel)
  have hphdr : phdr = textAndBss := eq_of_beq hp
  subst hphdr
  have hw : WellFormed textAndBss := ⟨by decide, by decide, by decide, by decide⟩
  have hi := heapRight_iff (prepareBinprm_fileHost _ commandA) hm hw
  refine ⟨_, _, s', info, prepareBinprm_fileHost _ commandA, hm, hi.mpr ?_⟩
  exact ⟨by decide +kernel, .inl (by decide +kernel), by decide +kernel⟩

/-- The same file with `e_type` for a position-independent one. -/
def dynFile (phdr : List Phdr) : File :=
  { execFile phdr with byte := fun i => if i = 16 then 3 else (execFile phdr).byte i }

/-- A position-independent file: the first 120 bytes, and zeros behind the image. -/
def movedText : List Phdr :=
  [⟨ptLoad, pfR ||| pfX, 0, 0, 120, 120, 4096⟩, ⟨ptLoad, pfR ||| pfW, 0, 0x1000, 0, 200, 4096⟩]

/-- The heap of a file that the allocator has placed ends below where it begins. -/
theorem movedText_not_heapRight : ∃ s phdr s' info,
    prepareBinprm (fileHost (dynFile movedText)) .start commandA =
      .ok (s, commandA.binprm (fileHost (dynFile movedText))) ∧
    mapImage (fileHost (dynFile movedText)) .default s
      (commandA.binprm (fileHost (dynFile movedText))) = .ok (phdr, s', info) ∧
    WellFormed phdr ∧
    ¬ HeapRight .default (commandA.binprm (fileHost (dynFile movedText))) phdr info := by
  obtain ⟨⟨phdr, s', info⟩, hm, hp⟩ := exists_of_any
    (show (mapImage (fileHost (dynFile movedText)) .default (.unmapped 1)
      (commandA.binprm (fileHost (dynFile movedText)))).toOption.any
        (fun r => r.1 == movedText && r.2.2.loadBias == taskUnmappedBase) = true by
          decide +kernel)
  simp only [Bool.and_eq_true, beq_iff_eq] at hp
  obtain ⟨rfl, hbias⟩ := hp
  have hw : WellFormed movedText := ⟨by decide, by decide, by decide, by decide⟩
  refine ⟨_, _, s', info, prepareBinprm_fileHost _ commandA, hm, hw, ?_⟩
  refine not_heapRight_of_bias ?_ ?_ <;> rw [hbias] <;> decide

end Rvvk
