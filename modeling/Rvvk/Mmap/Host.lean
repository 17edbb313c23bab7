import Rvvk.Lib.Span
import Rvvk.Bitops
import Rvvk.Memory

/-!
# Mappings of the host

`host_mmap` and the two host calls under the loader and the guest's `mmap`. The
memory is indexed by guest addresses, so a mapping at a host address shows at
the guest addresses that `g2h` sends there.
-/

namespace Rvvk

/-- A file as `read` and `mmap` show it. -/
structure File where
  size : Nat
  byte : Nat → BitVec 8

/-- The host the emulator runs on. -/
structure Host where
  /-- End of the addresses a process can map. -/
  taskSize : Nat
  /-- User space is the lower half of the address space at most. -/
  taskSize_le : taskSize ≤ 2 ^ 63
  /-- Whether the host serves its `n`-th call; a well-formed call can fail for want of memory
  or for `/dev/zero`. -/
  grants : Nat → Bool
  /-- Whether a descriptor is open, and for a mapping with this protection and these flags. -/
  opened : BitVec 32 → BitVec 32 → BitVec 32 → Bool
  file : BitVec 32 → File

/-- What the build and the command line fix. -/
structure Setup where
  /-- `__STRICT_ANSI__`. -/
  strictAnsi : Bool
  guestBase : Word
  guestStackSize : Word

/-- The build of the Makefile (`-std=c99`) without options on the command line. -/
def Setup.default : Setup := ⟨true, 0x400000000000, 8 * 0x100000⟩

def g2h (c : Setup) (x : Word) : Word := x + c.guestBase

def h2g (c : Setup) (x : Word) : Word := x - c.guestBase

/-- The guest's part of the address space and the allocator's state. -/
structure Space where
  mem : Memory
  /-- `mmap_next_start`. -/
  mmapNextStart : Word
  /-- Calls made to the host so far. -/
  calls : Nat

/-- The arguments of `mmap`. -/
structure MmapArgs where
  addr : Word
  length : Word
  prot : BitVec 32
  flags : BitVec 32
  fd : BitVec 32
  offset : Word
deriving DecidableEq

/-! ## Constants of `sys/mman.h` -/

def protNone : BitVec 32 := 0

def protRead : BitVec 32 := 1

def protWrite : BitVec 32 := 2

def protExec : BitVec 32 := 4

def mapPrivate : BitVec 32 := 0x02

def mapFixed : BitVec 32 := 0x10

def mapAnonymous : BitVec 32 := 0x20

def mapNoreserve : BitVec 32 := 0x4000

/-- `MAP_FAILED`, and the value by which the functions of the emulator report failure. -/
def failed : Word := -1

/-- On x86-64 a page that can be written can be read as well. -/
def Prot.ofBits (prot : BitVec 32) : Prot :=
  ⟨prot &&& (protRead ||| protWrite) != 0, prot &&& protWrite != 0⟩

theorem Prot.ofBits_read {prot : BitVec 32} (h : prot &&& protRead ≠ 0) :
    (ofBits prot).read = true := by
  refine bne_iff_ne.mpr fun h0 => h ?_
  rw [BitVec.and_or_distrib_left] at h0
  exact (BitVec.or_eq_zero_iff.mp h0).1

/-! ## Pages -/

def pageUp (n : Nat) : Nat := (n + 4095) / 4096 * 4096

inductive Backing
  | zero
  | file (f : File)

/-- The last page of a file is filled up with zeros; pages beyond it cannot be accessed. -/
def Backing.cell? (b : Backing) (prot : Prot) (offset : Nat) : Option Cell :=
  match b with
  | .zero => some ⟨0, prot⟩
  | .file f =>
      if offset < f.size then some ⟨f.byte offset, prot⟩
      else if offset < pageUp f.size then some ⟨0, prot⟩
      else none

namespace Memory

/-- A mapping replaces the pages it covers. -/
def mapPages (m : Memory) (base : Word) (len : Nat) (b : Backing) (prot : Prot) (offset : Nat) :
    Memory := fun a =>
  if Span.Mem base len a then b.cell? prot (offset + (a - base).toNat) else m a

def protectPages (m : Memory) (base : Word) (len : Nat) (prot : Prot) : Memory := fun a =>
  if Span.Mem base len a then (m a).map fun c => { c with prot := prot } else m a

end Memory

/-- What the host checks of a `MAP_FIXED` request. -/
structure Host.Accepts (h : Host) (r : MmapArgs) : Prop where
  addr : r.addr.toNat % 4096 = 0
  length : r.length ≠ 0
  fits : r.addr.toNat + pageUp r.length.toNat ≤ h.taskSize
  offset : r.offset.toNat % 4096 = 0

instance (h : Host) (r : MmapArgs) : Decidable (h.Accepts r) :=
  decidable_of_iff
    (r.addr.toNat % 4096 = 0 ∧ r.length ≠ 0 ∧
      r.addr.toNat + pageUp r.length.toNat ≤ h.taskSize ∧ r.offset.toNat % 4096 = 0)
    ⟨fun ⟨h1, h2, h3, h4⟩ => ⟨h1, h2, h3, h4⟩, fun ⟨h1, h2, h3, h4⟩ => ⟨h1, h2, h3, h4⟩⟩

/-- The host's `mmap`. Every caller passes `MAP_FIXED`: the pages are the ones asked for. -/
def Host.mmap (h : Host) (c : Setup) (s : Space) (r : MmapArgs) (b : Backing) : Space × Word :=
  if h.Accepts r ∧ h.grants s.calls then
    ({ s with
        mem := s.mem.mapPages (h2g c r.addr) (pageUp r.length.toNat) b (.ofBits r.prot)
          r.offset.toNat
        calls := s.calls + 1 }, r.addr)
  else ({ s with calls := s.calls + 1 }, failed)

/-- What the descriptor stands for: a strict build opens `/dev/zero` for a negative one. -/
def Host.backing? (h : Host) (c : Setup) (r : MmapArgs) : Option Backing :=
  if r.flags &&& mapAnonymous != 0 then some .zero
  else if r.fd.slt 0 then (if c.strictAnsi then some .zero else none)
  else if h.opened r.fd r.prot r.flags then some (.file (h.file r.fd))
  else none

def hostMmap (h : Host) (c : Setup) (s : Space) (r : MmapArgs) : Space × Word :=
  match h.backing? c r with
  | none => ({ s with calls := s.calls + 1 }, failed)
  | some b => h.mmap c s r b

/-- The host's `mprotect`, which wants every page mapped. -/
def Host.mprotect (h : Host) (c : Setup) (s : Space) (addr len : Word) (prot : BitVec 32) :
    Space × Bool :=
  let base := h2g c addr
  let pages := pageUp len.toNat / 4096
  if addr.toNat % 4096 = 0 ∧ addr.toNat + pageUp len.toNat ≤ h.taskSize ∧
      (List.range pages).all (fun i => (s.mem (base + BitVec.ofNat 64 (4096 * i))).isSome) ∧
      h.grants s.calls then
    ({ s with
        mem := s.mem.protectPages base (pageUp len.toNat) (.ofBits prot)
        calls := s.calls + 1 }, true)
  else ({ s with calls := s.calls + 1 }, false)

/-! ## What a mapping call does -/

theorem failed_not_aligned : failed.toNat % 4096 ≠ 0 := by decide

theorem backing_file {h : Host} {c : Setup} {r : MmapArgs} (hf : r.flags &&& mapAnonymous = 0)
    (hfd : r.fd.slt 0 = false) :
    h.backing? c r =
      if h.opened r.fd r.prot r.flags then some (.file (h.file r.fd)) else none := by
  unfold Host.backing?
  rw [if_neg (by simp [hf]), if_neg (by rw [hfd]; decide)]

/-- The pages of a file are the only thing that a descriptor stands for. -/
theorem eq_file_of_backing {h : Host} {c : Setup} {r : MmapArgs} {b : Backing}
    (hf : r.flags &&& mapAnonymous = 0) (hfd : r.fd.slt 0 = false)
    (hb : h.backing? c r = some b) : b = .file (h.file r.fd) := by
  rw [backing_file hf hfd] at hb
  split at hb
  · exact (Option.some.inj hb).symm
  · cases hb

theorem pageUp_mod (n : Nat) : pageUp n % 4096 = 0 :=
  Nat.mul_mod_left _ _

theorem le_pageUp (n : Nat) : n ≤ pageUp n := by
  unfold pageUp
  omega

@[simp] theorem h2g_g2h (c : Setup) (x : Word) : h2g c (g2h c x) = x :=
  BitVec.add_sub_cancel x c.guestBase

@[simp] theorem g2h_h2g (c : Setup) (x : Word) : g2h c (h2g c x) = x :=
  BitVec.sub_add_cancel x c.guestBase

@[simp] theorem hostMmap_mmapNextStart (h : Host) (c : Setup) (s : Space) (r : MmapArgs) :
    (hostMmap h c s r).1.mmapNextStart = s.mmapNextStart := by
  unfold hostMmap Host.mmap
  split
  · rfl
  · split <;> rfl

@[simp] theorem hostMmap_calls (h : Host) (c : Setup) (s : Space) (r : MmapArgs) :
    (hostMmap h c s r).1.calls = s.calls + 1 := by
  unfold hostMmap Host.mmap
  split
  · rfl
  · split <;> rfl

/-- The host serves the request as its call number `calls`. -/
def Host.Grants (h : Host) (c : Setup) (calls : Nat) (r : MmapArgs) : Prop :=
  h.Accepts r ∧ h.grants calls = true ∧ (h.backing? c r).isSome = true

instance (h : Host) (c : Setup) (calls : Nat) (r : MmapArgs) : Decidable (h.Grants c calls r) :=
  inferInstanceAs (Decidable (_ ∧ _ ∧ _))

theorem Host.Grants.addr_ne {h : Host} {c : Setup} {n : Nat} {r : MmapArgs}
    (hg : h.Grants c n r) : r.addr ≠ failed := by
  intro he
  have ha := hg.1.addr
  rw [he] at ha
  exact failed_not_aligned ha

theorem hostMmap_refused {h : Host} {c : Setup} {s : Space} {r : MmapArgs}
    (hg : ¬ h.Grants c s.calls r) :
    (hostMmap h c s r).2 = failed ∧ (hostMmap h c s r).1.mem = s.mem := by
  unfold hostMmap Host.mmap
  split
  · exact ⟨rfl, rfl⟩
  · rename_i b hb
    rw [if_neg (fun hacc => hg ⟨hacc.1, hacc.2, by rw [hb]; rfl⟩)]
    exact ⟨rfl, rfl⟩

theorem hostMmap_granted {h : Host} {c : Setup} {s : Space} {r : MmapArgs}
    (hg : h.Grants c s.calls r) :
    (hostMmap h c s r).2 = r.addr ∧ ∃ b, h.backing? c r = some b ∧
      (hostMmap h c s r).1.mem =
        s.mem.mapPages (h2g c r.addr) (pageUp r.length.toNat) b (.ofBits r.prot)
          r.offset.toNat := by
  obtain ⟨b, hb⟩ := Option.isSome_iff_exists.mp hg.2.2
  unfold hostMmap Host.mmap
  rw [hb]
  dsimp only
  rw [if_pos ⟨hg.1, hg.2.1⟩]
  exact ⟨rfl, b, rfl, rfl⟩

/-- A mapping that succeeds is where it was asked for and shows what its descriptor stands for. -/
theorem hostMmap_ok {h : Host} {c : Setup} {s : Space} {r : MmapArgs}
    (hne : (hostMmap h c s r).2 ≠ failed) :
    h.Accepts r ∧ (hostMmap h c s r).2 = r.addr ∧
      ∃ b, h.backing? c r = some b ∧ (hostMmap h c s r).1.mem =
        s.mem.mapPages (h2g c r.addr) (pageUp r.length.toNat) b (.ofBits r.prot)
          r.offset.toNat := by
  by_cases hg : h.Grants c s.calls r
  · exact ⟨hg.1, hostMmap_granted hg⟩
  · exact absurd (hostMmap_refused hg).1 hne

end Rvvk
