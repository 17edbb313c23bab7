import Rvvk.Mmap.Host

/-!
# ELF files

The file header and the program headers as the loader reads and checks them, for
a 64-bit little-endian target. Header fields that nothing reads are left out.
-/

namespace Rvvk

/-- How a function of the loader fails: with a message in `errinfo_t`, with the
text of the host's error number, or not at all because a host signal ends the
emulator. -/
inductive Failure
  | errinfo (info : String)
  | syserr
  | signal (f : Fault)
deriving DecidableEq, Repr

/-- A little-endian field of `w` bits. -/
def elfField (w : Nat) (byte : Nat → BitVec 8) (offset : Nat) : BitVec w :=
  LittleEndian.value w ((List.range (w / 8)).map fun i => byte (offset + i))

/-! ## The file header -/

/-- `Elf64_Ehdr`. -/
structure Ehdr where
  eIdent : Nat → BitVec 8
  eType : BitVec 16
  eMachine : BitVec 16
  eVersion : BitVec 32
  eEntry : Word
  ePhoff : Word
  eFlags : BitVec 32
  eEhsize : BitVec 16
  ePhentsize : BitVec 16
  ePhnum : BitVec 16

/-- `sizeof (elf_ehdr_t)`. -/
def ehdrSize : Nat := 64

/-- `sizeof (elf_phdr_t)`. -/
def phdrSize : Nat := 56

def Ehdr.parse (byte : Nat → BitVec 8) : Ehdr where
  eIdent := byte
  eType := elfField 16 byte 16
  eMachine := elfField 16 byte 18
  eVersion := elfField 32 byte 20
  eEntry := elfField 64 byte 24
  ePhoff := elfField 64 byte 32
  eFlags := elfField 32 byte 48
  eEhsize := elfField 16 byte 52
  ePhentsize := elfField 16 byte 54
  ePhnum := elfField 16 byte 56

def etExec : BitVec 16 := 2

def etDyn : BitVec 16 := 3

/-- `EM_ARCH`, which is `EM_RISCV`. -/
def emArch : BitVec 16 := 243

def evCurrent : Nat := 1

/-- `ELFCLASS64`. -/
def elfClass : BitVec 8 := 2

/-- `ELFDATA2LSB`. -/
def elfData : BitVec 8 := 1

def elfCheckEhdrIdent (ehdr : Ehdr) : Bool :=
  ehdr.eIdent 0 == 0x7f && ehdr.eIdent 1 == 0x45 && ehdr.eIdent 2 == 0x4c &&
    ehdr.eIdent 3 == 0x46 && ehdr.eIdent 4 == elfClass && ehdr.eIdent 5 == elfData &&
    (ehdr.eIdent 6).toNat == evCurrent

def elfCheckEhdr1 (ehdr : Ehdr) : Bool :=
  (ehdr.eType == etExec || ehdr.eType == etDyn) && ehdr.eMachine == emArch &&
    ehdr.eVersion.toNat == evCurrent && ehdr.eEhsize.toNat == ehdrSize &&
    ehdr.ePhentsize.toNat == phdrSize

def elfCheckEhdr (ehdr : Ehdr) : Except Failure Unit :=
  if !elfCheckEhdrIdent ehdr then .error (.errinfo "Failed to check E_IDENT of EHDR.")
  else if !elfCheckEhdr1 ehdr then
    .error (.errinfo "Failed to check the portions of EHDR outside of E_IDENT.")
  else .ok ()

/-! ## Program headers -/

/-- `Elf64_Phdr`. -/
structure Phdr where
  pType : BitVec 32
  pFlags : BitVec 32
  pOffset : Word
  pVaddr : Word
  pFilesz : Word
  pMemsz : Word
  pAlign : Word
deriving DecidableEq, Repr

/-- Entry `k` of a table. -/
def Phdr.parse (byte : Nat → BitVec 8) (k : Nat) : Phdr where
  pType := elfField 32 byte (phdrSize * k)
  pFlags := elfField 32 byte (phdrSize * k + 4)
  pOffset := elfField 64 byte (phdrSize * k + 8)
  pVaddr := elfField 64 byte (phdrSize * k + 16)
  pFilesz := elfField 64 byte (phdrSize * k + 32)
  pMemsz := elfField 64 byte (phdrSize * k + 40)
  pAlign := elfField 64 byte (phdrSize * k + 48)

def ptLoad : BitVec 32 := 1

def ptInterp : BitVec 32 := 3

def ptGnuStack : BitVec 32 := 0x6474e551

def pfX : BitVec 32 := 1

def pfW : BitVec 32 := 2

def pfR : BitVec 32 := 4

def targetElfMinAlign : Nat := 4096

def Host.malloc (h : Host) (s : Space) : Space × Bool :=
  ({ s with calls := s.calls + 1 }, h.grants s.calls)

/-- What arrives of `count` bytes. A negative offset is an error. -/
def Host.pread (h : Host) (s : Space) (fd : BitVec 32) (count : Nat) (offset : Word) :
    Space × Option (List (BitVec 8)) :=
  let f := h.file fd
  ({ s with calls := s.calls + 1 },
    if h.grants s.calls ∧ offset.slt 0 = false then
      some ((List.range (min count (f.size - offset.toNat))).map fun i =>
        f.byte (offset.toNat + i))
    else none)

def loadElfPhdrs (h : Host) (s : Space) (ehdr : Ehdr) (fd : BitVec 32) :
    Except Failure (List Phdr × Space) :=
  let size := ehdr.ePhnum.toNat * phdrSize
  if size = 0 ∨ size > 65536 ∨ size > targetElfMinAlign then
    .error (.errinfo "Inappropriate total size of file program headers.")
  else
    let (s, phdr) := h.malloc s
    if phdr = false then .error (.errinfo "Can't allocate extra memory.")
    else
      let (s, bytes) := h.pread s fd size ehdr.ePhoff
      match bytes with
      | none => .error (.errinfo "Incompleted read of file program header.")
      | some bytes =>
          if bytes.length ≠ size then
            .error (.errinfo "Incompleted read of file program header.")
          else .ok ((List.range ehdr.ePhnum.toNat).map (Phdr.parse fun i => bytes.getD i 0), s)

/-! ## Pages of segments -/

def targetElfPagestart (v : Word) : Word := v &&& -4096

def targetElfPageoffset (v : Word) : Word := v &&& 4095

def targetElfPagelength (v : Word) : Word := roundUp v 4096

end Rvvk
