import Rvvk.Elf.Tables
import Rvvk.Mmap.Brk

/-!
# Loading a program

`elf_load`, `load_elf_binary` and `zero_bss`. The space the loader works on is
passed along; what it has already mapped when it fails is of no use, since the
emulator exits.
-/

namespace Rvvk

/-- `struct image_info`, the fields that are assigned. -/
structure ImageInfo where
  loadBias : Word
  loadAddr : Word
  startCode : Word
  endCode : Word
  startData : Word
  endData : Word
  brk : Word
  reserveBrk : Word
  startStack : Word
  stackLimit : Word
  entry : Word
  codeOffset : Word
  dataOffset : Word
  elfFlags : BitVec 32
  alignment : Word
  execStack : BitVec 32
  nsegs : BitVec 16
deriving DecidableEq, Repr

/-- The record `main` clears. -/
def ImageInfo.zero : ImageInfo := ⟨0, 0, 0, 0, 0, 0, 0, 0, 0, 0, 0, 0, 0, 0, 0, 0, 0⟩

/-- A mapping, unless it has failed. -/
def granted (e : Failure) (r : Space × Word) : Except Failure (Space × Word) :=
  if r.2 = failed then .error e else .ok r

/-- A store of the loader through a host pointer. -/
def Space.write (s : Space) (m : Except Fault Memory) : Except Failure Space :=
  match m with
  | .ok mem => .ok { s with mem := mem }
  | .error f => .error (.signal f)

/-! ## The size of the image -/

structure Scan where
  loaddr : Word
  hiaddr : Word
  info : ImageInfo

/-- What the first loop over the program headers does. -/
def Scan.add (t : Scan) (eppnt : Phdr) : Scan :=
  if eppnt.pType = ptLoad then
    let lo := eppnt.pVaddr - eppnt.pOffset
    let hi := eppnt.pVaddr + eppnt.pMemsz - 1
    { loaddr := if lo < t.loaddr then lo else t.loaddr
      hiaddr := if hi > t.hiaddr then hi else t.hiaddr
      info := { t.info with
        nsegs := t.info.nsegs + 1
        alignment := t.info.alignment ||| eppnt.pAlign } }
  else if eppnt.pType = ptInterp then t
  else if eppnt.pType = ptGnuStack then
    { t with info := { t.info with execStack := eppnt.pFlags &&& pfX } }
  else t

def scan (phdr : List Phdr) : Scan :=
  phdr.foldl Scan.add ⟨-1, 0, .zero⟩

/-- 32 MiB. -/
def reserveBrk : Word := 0x2000000

/-- `MAP_FIXED` for a file that names its addresses. -/
def fixedIfExec (ehdr : Ehdr) : BitVec 32 := if ehdr.eType = etExec then mapFixed else 0

/-- The flags of the mappings whose size comes from the whole image. -/
def reserveFlags (c : Setup) (ehdr : Ehdr) : BitVec 32 :=
  unlessStrict c (mapNoreserve ||| mapAnonymous) ||| mapPrivate ||| fixedIfExec ehdr

/-- The reservation of the address space for the image and its heap. -/
def imageArgs (c : Setup) (ehdr : Ehdr) (loaddr hiaddr : Word) : MmapArgs where
  addr := loaddr
  length := hiaddr - loaddr + 1
  prot := protNone
  flags := reserveFlags c ehdr
  fd := -1
  offset := 0

def ImageInfo.locate (info : ImageInfo) (ehdr : Ehdr) (loadAddr loadBias : Word) : ImageInfo :=
  { info with
    reserveBrk := Rvvk.reserveBrk
    loadBias := loadBias
    codeOffset := loadBias
    dataOffset := loadBias
    loadAddr := loadAddr
    entry := ehdr.eEntry + loadBias
    startCode := -1
    endCode := 0
    startData := -1
    endData := 0
    brk := 0
    elfFlags := ehdr.eFlags }

/-! ## Segments -/

def Phdr.prot (eppnt : Phdr) : BitVec 32 :=
  (if eppnt.pFlags &&& pfR ≠ 0 then protRead else 0) |||
    (if eppnt.pFlags &&& pfW ≠ 0 then protWrite else 0) |||
    (if eppnt.pFlags &&& pfX ≠ 0 then protExec ||| protRead else 0)

/-- The pages that `zero_bss` maps, as host addresses. -/
def mapBss (h : Host) (c : Setup) (s : Space) (hostStartAligned hostEnd : Word)
    (prot : BitVec 32) : Except Failure Space :=
  if hostStartAligned < hostEnd then
    Prod.fst <$> granted .syserr (hostMmap h c s
      { addr := hostStartAligned
        length := hostEnd - hostStartAligned
        prot := prot
        flags := unlessStrict c mapAnonymous ||| mapFixed ||| mapPrivate
        fd := -1
        offset := 0 })
  else .ok s

def zeroBss (h : Host) (c : Setup) (s : Space) (elfBss elfBrk : Word) (prot : BitVec 32) :
    Except Failure Space := do
  let elfBrk := targetPageAlign elfBrk
  let hostStart := g2h c elfBss
  let hostEnd := g2h c elfBrk
  let hostStartAligned := hostPageAlign hostStart
  let s ← mapBss h c s hostStartAligned hostEnd prot
  if hostStart < hostStartAligned then
    s.write (s.mem.storeBytes (h2g c hostStart)
      (List.replicate (hostStartAligned - hostStart).toNat 0))
  else .ok s

def fileArgs (eppnt : Phdr) (vaddr : Word) (fd : BitVec 32) : MmapArgs where
  addr := targetElfPagestart vaddr
  length := targetElfPagelength (eppnt.pFilesz + targetElfPageoffset vaddr)
  prot := eppnt.prot
  flags := mapPrivate ||| mapFixed
  fd := fd
  offset := eppnt.pOffset - targetElfPageoffset vaddr

def emptyArgs (c : Setup) (eppnt : Phdr) (vaddr : Word) : MmapArgs where
  addr := targetElfPagestart vaddr
  length := targetElfPagelength (eppnt.pMemsz + targetElfPageoffset vaddr)
  prot := eppnt.prot
  flags := unlessStrict c mapAnonymous ||| mapPrivate ||| mapFixed
  fd := -1
  offset := 0

def mapSegment (h : Host) (c : Setup) (s : Space) (fd : BitVec 32) (eppnt : Phdr) (vaddr : Word) :
    Except Failure Space :=
  if eppnt.pFilesz ≠ 0 then do
    let s ← Prod.fst <$> granted .syserr (targetMmap h c s (fileArgs eppnt vaddr fd))
    if eppnt.pFilesz < eppnt.pMemsz then
      zeroBss h c s (vaddr + eppnt.pFilesz) (vaddr + eppnt.pMemsz) eppnt.prot
    else .ok s
  else if eppnt.pMemsz ≠ 0 then
    Prod.fst <$> granted .syserr (targetMmap h c s (emptyArgs c eppnt vaddr))
  else .ok s

def ImageInfo.extend (info : ImageInfo) (eppnt : Phdr) (vaddr : Word) : ImageInfo :=
  let vaddrEf := vaddr + eppnt.pFilesz
  let vaddrEm := vaddr + eppnt.pMemsz
  let exec := eppnt.prot &&& protExec ≠ 0
  { info with
    startCode := if exec ∧ vaddr < info.startCode then vaddr else info.startCode
    endCode := if exec ∧ vaddrEf > info.endCode then vaddrEf else info.endCode
    startData := if vaddr < info.startData then vaddr else info.startData
    endData := if vaddrEf > info.endData then vaddrEf else info.endData
    brk := if vaddrEm > info.brk then vaddrEm else info.brk }

/-- What the second loop over the program headers does. -/
def loadSegment (h : Host) (c : Setup) (fd : BitVec 32) (loadBias : Word)
    (st : Space × ImageInfo) (eppnt : Phdr) : Except Failure (Space × ImageInfo) := do
  if eppnt.pType ≠ ptLoad then .ok st
  else
    let vaddr := loadBias + eppnt.pVaddr
    let s ← mapSegment h c st.1 fd eppnt vaddr
    if eppnt.prot &&& protRead = 0 then
      .error (.errinfo "Load a unreadable segment, not supported.")
    else .ok (s, st.2.extend eppnt vaddr)

/-! ## Heap and stack -/

def heapArgs (c : Setup) (ehdr : Ehdr) (hiaddr brk : Word) : MmapArgs :=
  let brkAligned := targetPageAlign brk
  { addr := brkAligned
    length := hiaddr - brkAligned + 1
    prot := protRead ||| protWrite
    flags := reserveFlags c ehdr
    fd := -1
    offset := 0 }

/-- `TARGET_PAGE_SIZE`. -/
def guard : Word := 4096

def stackArgs (c : Setup) (execStack : BitVec 32) : MmapArgs where
  addr := 0
  length := c.guestStackSize + guard
  prot := protRead ||| protWrite ||| (if execStack ≠ 0 then protExec else 0)
  flags := unlessStrict c mapAnonymous ||| mapPrivate
  fd := -1
  offset := 0

/-- The stack with its guard page; what comes back is `stack_limit`, above the guard. -/
def mapStack (h : Host) (c : Setup) (s : Space) (execStack : BitVec 32) :
    Except Failure (Space × Word) := do
  let (s, stackLimit) ← granted (.errinfo "Cannot allocate stack space of process.")
    (targetMmap h c s (stackArgs c execStack))
  let (s, done) := targetMprotect h c s stackLimit guard protNone
  if done then .ok (s, stackLimit + guard) else .error .syserr

/-- `create_elf_tables` with the allocation of its array. -/
def makeTables (h : Host) (s : Space) (bprm : Binprm) (p : Word) :
    Except Failure (Space × Word) :=
  let (s, ptrs) := h.malloc s
  if ptrs = false then .error .syserr
  else
    match createElfTables s.mem bprm p with
    | .ok (mem, p) => .ok ({ s with mem := mem }, p)
    | .error f => .error (.signal f)

/-! ## The whole -/

def loadElfBinary (h : Host) (c : Setup) (s : Space) (bprm : Binprm) :
    Except Failure (Space × ImageInfo) := do
  let ehdr := Ehdr.parse bprm.buf
  elfCheckEhdr ehdr
  let (phdr, s) ← loadElfPhdrs h s ehdr bprm.execfd
  let loaddr := (scan phdr).loaddr
  let hiaddr := (scan phdr).hiaddr + reserveBrk
  let (s, loadAddr) ← granted .syserr (targetMmap h c s (imageArgs c ehdr loaddr hiaddr))
  let loadBias := loadAddr - loaddr
  let info := (scan phdr).info.locate ehdr loadAddr loadBias
  let (s, info) ← phdr.foldlM (loadSegment h c bprm.execfd loadBias) (s, info)
  let (s, _) ← granted .syserr (targetMmap h c s (heapArgs c ehdr hiaddr info.brk))
  let (s, stackLimit) ← mapStack h c s info.execStack
  let (s, p) ← makeTables h s bprm (stackLimit + c.guestStackSize - 8)
  .ok (s, { info with stackLimit := stackLimit, startStack := p })

def binprmBufSize : Nat := 256

/-- `struct target_pt_regs`, the fields `init_thread` sets. -/
structure PtRegs where
  sepc : Word
  sp : Word
deriving DecidableEq, Repr

/-- The descriptor and the strings that `main` passes to `elf_load`. -/
structure Program where
  fd : BitVec 32
  opened : fd.slt 0 = false
  filename : CString
  argv : List CString
  envp : List CString

/-- What `prepare_binprm` reads, beside what `elf_load` passes on. -/
def Program.binprm (h : Host) (prog : Program) : Binprm where
  buf := fun i => if i < min binprmBufSize (h.file prog.fd).size then (h.file prog.fd).byte i else 0
  execfd := prog.fd
  opened := prog.opened
  filename := prog.filename
  argv := prog.argv
  envp := prog.envp

def prepareBinprm (h : Host) (s : Space) (prog : Program) : Except Failure (Space × Binprm) :=
  if h.grants s.calls then .ok ({ s with calls := s.calls + 1 }, prog.binprm h)
  else .error .syserr

def elfLoad (h : Host) (c : Setup) (s : Space) (prog : Program) :
    Except Failure (Space × ImageInfo × PtRegs) := do
  let (s, bprm) ← prepareBinprm h s prog
  let (s, info) ← loadElfBinary h c s bprm
  .ok (s, info, ⟨info.entry, info.startStack⟩)

end Rvvk
