import Rvvk.Mmap.Target

/-!
# The instruction buffer

`cpu_loop` maps the buffer of the translated instructions at a fixed host address before
the guest runs. Like all of the host's address space the buffer has guest addresses.
-/

namespace Rvvk

def insnBufferMapStart : Word := 0x500000000000

def insnBufferSize : Nat := 2 ^ 30

/-- The request of `alloc_insn_buffer`. -/
def insnBufferArgs (c : Setup) : MmapArgs where
  addr := insnBufferMapStart
  length := BitVec.ofNat 64 insnBufferSize
  prot := protRead ||| protWrite
  flags := unlessStrict c mapAnonymous ||| mapFixed ||| mapPrivate
  fd := -1
  offset := 0

def allocInsnBuffer (h : Host) (c : Setup) (s : Space) : Space × Bool :=
  let (s, insnBufferPtr) := hostMmap h c s (insnBufferArgs c)
  (s, insnBufferPtr != failed)

variable {h : Host} {c : Setup} {s : Space}

theorem allocInsnBuffer_next (h : Host) (c : Setup) (s : Space) :
    (allocInsnBuffer h c s).1.mmapNextStart = s.mmapNextStart :=
  hostMmap_mmapNextStart h c s (insnBufferArgs c)

theorem insnBufferArgs_pages (c : Setup) :
    pageUp (insnBufferArgs c).length.toNat = insnBufferSize := by
  show pageUp (BitVec.ofNat 64 insnBufferSize).toNat = insnBufferSize
  decide

theorem allocInsnBuffer_other {a : Word}
    (ha : ¬ Span.Mem (h2g c insnBufferMapStart) insnBufferSize a) :
    (allocInsnBuffer h c s).1.mem a = s.mem a := by
  show (hostMmap h c s (insnBufferArgs c)).1.mem a = s.mem a
  by_cases hg : h.Grants c s.calls (insnBufferArgs c)
  · obtain ⟨_, b, _, hm⟩ := hostMmap_granted hg
    rw [hm, insnBufferArgs_pages]
    exact if_neg ha
  · rw [(hostMmap_refused hg).2]

end Rvvk
