import Rvvk.Mmap.Host

/-!
# Mappings of the guest

`mmap_find_vma`, `target_mmap`, `target_mprotect` and `target_memory_copy`. The
error number that `get_syserr` records is the host's and is left out.
-/

namespace Rvvk

/-- `TASK_UNMAPPED_BASE` of a 64-bit target on a 64-bit host. -/
def taskUnmappedBase : Word := 0x4000000000

def hostPageMask : Word := -4096

def hostPageAlign (x : Word) : Word := roundUp x 4096

namespace Space

/-- No guest page is mapped before the loader runs. -/
def start : Space := ⟨fun _ => none, taskUnmappedBase, 0⟩

end Space

def unlessStrict (c : Setup) (flags : BitVec 32) : BitVec 32 :=
  if c.strictAnsi then 0 else flags

/-- Where `mmap_find_vma` puts a request with a hint. -/
def Space.place (s : Space) (hint : Word) : Word :=
  if hint = 0 then s.mmapNextStart else hint &&& hostPageMask

/-- The reservation `mmap_find_vma` makes. -/
def reservation (c : Setup) (addr length : Word) : MmapArgs where
  addr := g2h c addr
  length := hostPageAlign length
  prot := protNone
  flags := unlessStrict c (mapNoreserve ||| mapAnonymous) ||| mapPrivate ||| mapFixed
  fd := -1
  offset := 0

def mmapFindVma (h : Host) (c : Setup) (s : Space) (addr length : Word) : Space × Word :=
  let addr := s.place addr
  let (s, p) := hostMmap h c s (reservation c addr length)
  if p = failed then (s, failed)
  else if h2g c p = s.mmapNextStart ∧ taskUnmappedBase ≤ addr then
    ({ s with mmapNextStart := s.mmapNextStart + hostPageAlign length }, addr)
  else (s, addr)

/-- The mapping itself, at a place that is settled. -/
def targetMmapAt (h : Host) (c : Setup) (s : Space) (r : MmapArgs) : Space × Word :=
  let (s, p) := hostMmap h c s { r with addr := g2h c r.addr }
  if p = failed then (s, failed) else (s, r.addr)

def targetMmap (h : Host) (c : Setup) (s : Space) (r : MmapArgs) : Space × Word :=
  if r.flags &&& mapFixed = 0 then
    let (s, addr) := mmapFindVma h c s r.addr r.length
    if addr = failed then (s, failed)
    else
      targetMmapAt h c s
        { r with addr := addr, flags := r.flags ||| unlessStrict c mapAnonymous ||| mapFixed }
  else targetMmapAt h c s r

def targetMprotect (h : Host) (c : Setup) (s : Space) (addr len : Word) (prot : BitVec 32) :
    Space × Bool :=
  h.mprotect c s (g2h c addr) len prot

/-- `memcpy` returns its destination, so only a host signal can stop a copy. -/
def targetMemoryCopy (m : Memory) (addr : Word) (src : List (BitVec 8)) : Except Fault Memory :=
  m.storeBytes addr src

/-! ## Page arithmetic of requests -/

theorem toNat_and_hostPageMask (x : Word) :
    (x &&& hostPageMask).toNat = x.toNat / 4096 * 4096 :=
  toNat_roundDown_page x

theorem toNat_hostPageAlign (x : Word) :
    (hostPageAlign x).toNat = (x.toNat + 4095) % 2 ^ 64 / 4096 * 4096 :=
  toNat_roundUp_page x

/-- Rounding a length up in a word is rounding it up, unless that is `2^64`. -/
theorem pageUp_hostPageAlign {x : Word} (h : hostPageAlign x ≠ 0) :
    pageUp (hostPageAlign x).toNat = pageUp x.toNat ∧
      (hostPageAlign x).toNat = pageUp x.toNat := by
  have hlt := x.isLt
  have hr := toNat_hostPageAlign x
  have hne : (hostPageAlign x).toNat ≠ 0 := fun he => h (BitVec.eq_of_toNat_eq he)
  unfold pageUp
  omega

/-! ## What the calls do -/

theorem targetMmap_fixed {h : Host} {c : Setup} {r : MmapArgs} (hf : r.flags &&& mapFixed ≠ 0)
    (s : Space) : targetMmap h c s r = targetMmapAt h c s r :=
  if_neg hf

@[simp] theorem targetMmapAt_mmapNextStart (h : Host) (c : Setup) (s : Space) (r : MmapArgs) :
    (targetMmapAt h c s r).1.mmapNextStart = s.mmapNextStart := by
  unfold targetMmapAt
  dsimp only
  split <;> exact hostMmap_mmapNextStart h c s _

theorem targetMmapAt_refused {h : Host} {c : Setup} {s : Space} {r : MmapArgs}
    (hg : ¬ h.Grants c s.calls { r with addr := g2h c r.addr }) :
    (targetMmapAt h c s r).2 = failed ∧ (targetMmapAt h c s r).1.mem = s.mem := by
  obtain ⟨hfail, hmem⟩ := hostMmap_refused hg
  unfold targetMmapAt
  dsimp only
  rw [if_pos hfail]
  exact ⟨rfl, hmem⟩

theorem targetMmapAt_granted {h : Host} {c : Setup} {s : Space} {r : MmapArgs}
    (hg : h.Grants c s.calls { r with addr := g2h c r.addr }) :
    (targetMmapAt h c s r).2 = r.addr ∧ ∃ b, h.backing? c r = some b ∧
      (targetMmapAt h c s r).1.mem =
        s.mem.mapPages r.addr (pageUp r.length.toNat) b (.ofBits r.prot) r.offset.toNat := by
  obtain ⟨hr, b, hb, hm⟩ := hostMmap_granted hg
  have hp : (hostMmap h c s { r with addr := g2h c r.addr }).2 ≠ failed := by
    rw [hr]
    exact hg.addr_ne
  rw [h2g_g2h] at hm
  unfold targetMmapAt
  dsimp only
  rw [if_neg hp]
  exact ⟨rfl, b, hb, hm⟩

theorem targetMmapAt_ok {h : Host} {c : Setup} {s : Space} {r : MmapArgs}
    (hne : (targetMmapAt h c s r).2 ≠ failed) :
    h.Accepts { r with addr := g2h c r.addr } ∧ (targetMmapAt h c s r).2 = r.addr ∧
      (targetMmapAt h c s r).1.mmapNextStart = s.mmapNextStart ∧
      ∃ b, h.backing? c r = some b ∧ (targetMmapAt h c s r).1.mem =
        s.mem.mapPages r.addr (pageUp r.length.toNat) b (.ofBits r.prot) r.offset.toNat := by
  by_cases hg : h.Grants c s.calls { r with addr := g2h c r.addr }
  · obtain ⟨haddr, hback⟩ := targetMmapAt_granted hg
    exact ⟨hg.1, haddr, targetMmapAt_mmapNextStart h c s r, hback⟩
  · exact absurd (targetMmapAt_refused hg).1 hne

/-- A reservation that succeeds fits the host and moves the allocator on if it
is where the allocator stands. -/
structure Reserved (h : Host) (c : Setup) (s : Space) (addr length : Word) (s' : Space) :
    Prop where
  nonzero : length ≠ 0
  aligned : (g2h c addr).toNat % 4096 = 0
  fits : (g2h c addr).toNat + pageUp length.toNat ≤ h.taskSize
  size : (hostPageAlign length).toNat = pageUp length.toNat
  next : s'.mmapNextStart =
    if addr = s.mmapNextStart ∧ taskUnmappedBase ≤ addr then s.mmapNextStart + hostPageAlign length
    else s.mmapNextStart
  mem : s'.mem =
    s.mem.mapPages addr (pageUp length.toNat) .zero (.ofBits protNone) 0

theorem backing_zero {h : Host} {c : Setup} {r : MmapArgs} (hfd : r.fd = -1)
    (hf : c.strictAnsi = false → r.flags &&& mapAnonymous ≠ 0) :
    h.backing? c r = some .zero := by
  unfold Host.backing?
  split
  · rfl
  · rename_i hanon
    have hslt : r.fd.slt 0 = true := by
      rw [hfd]
      rfl
    rw [if_pos hslt]
    cases hs : c.strictAnsi with
    | true => rfl
    | false => exact absurd (hf hs) (by simpa using hanon)

theorem backing_reservation {h : Host} {c : Setup} (addr length : Word) :
    h.backing? c (reservation c addr length) = some .zero := by
  refine backing_zero rfl fun hs => ?_
  simp only [reservation, unlessStrict, hs]
  decide

theorem mmapFindVma_refused {h : Host} {c : Setup} {s : Space} {addr length : Word}
    (hg : ¬ h.Grants c s.calls (reservation c (s.place addr) length)) :
    (mmapFindVma h c s addr length).2 = failed ∧
      (mmapFindVma h c s addr length).1.mmapNextStart = s.mmapNextStart ∧
      (mmapFindVma h c s addr length).1.mem = s.mem := by
  have hnext := hostMmap_mmapNextStart h c s (reservation c (s.place addr) length)
  obtain ⟨hfail, hmem⟩ := hostMmap_refused hg
  unfold mmapFindVma
  dsimp only
  rw [if_pos hfail]
  exact ⟨rfl, hnext, hmem⟩

theorem mmapFindVma_granted {h : Host} {c : Setup} {s : Space} {addr length : Word}
    (hg : h.Grants c s.calls (reservation c (s.place addr) length)) :
    (mmapFindVma h c s addr length).2 = s.place addr ∧
      Reserved h c s (s.place addr) length (mmapFindVma h c s addr length).1 := by
  have hnext := hostMmap_mmapNextStart h c s (reservation c (s.place addr) length)
  obtain ⟨hr, b, hb, hm⟩ := hostMmap_granted hg
  have hlen : hostPageAlign length ≠ 0 := hg.1.length
  have hup := pageUp_hostPageAlign hlen
  have hplace : h2g c (reservation c (s.place addr) length).addr = s.place addr := h2g_g2h c _
  have hl0 : length ≠ 0 := by
    intro he
    subst he
    exact hlen (by decide)
  have hfits : (g2h c (s.place addr)).toNat + pageUp (hostPageAlign length).toNat ≤ h.taskSize :=
    hg.1.fits
  have hp : (hostMmap h c s (reservation c (s.place addr) length)).2 ≠ failed := by
    rw [hr]
    exact hg.addr_ne
  rw [backing_reservation] at hb
  cases hb
  rw [hplace] at hm
  have hsize : (reservation c (s.place addr) length).length = hostPageAlign length := rfl
  rw [hsize, hup.1] at hm
  rw [hup.1] at hfits
  unfold mmapFindVma
  dsimp only
  rw [if_neg hp, hr, hplace, hnext]
  by_cases hmove : s.place addr = s.mmapNextStart ∧ taskUnmappedBase ≤ s.place addr
  · rw [if_pos hmove]
    exact ⟨rfl, hl0, hg.1.addr, hfits, hup.2, (if_pos hmove).symm, hm⟩
  · rw [if_neg hmove]
    exact ⟨rfl, hl0, hg.1.addr, hfits, hup.2, (if_neg hmove).symm ▸ hnext, hm⟩

theorem mmapFindVma_cases (h : Host) (c : Setup) (s : Space) (addr length : Word) :
    ((mmapFindVma h c s addr length).2 = failed ∧
      (mmapFindVma h c s addr length).1.mmapNextStart = s.mmapNextStart ∧
      (mmapFindVma h c s addr length).1.mem = s.mem) ∨
    ((mmapFindVma h c s addr length).2 = s.place addr ∧
      Reserved h c s (s.place addr) length (mmapFindVma h c s addr length).1) := by
  by_cases hg : h.Grants c s.calls (reservation c (s.place addr) length)
  · exact .inr (mmapFindVma_granted hg)
  · exact .inl (mmapFindVma_refused hg)

@[simp] theorem mmapFindVma_calls (h : Host) (c : Setup) (s : Space) (addr length : Word) :
    (mmapFindVma h c s addr length).1.calls = s.calls + 1 := by
  unfold mmapFindVma
  dsimp only
  split
  · exact hostMmap_calls h c s _
  · split <;> exact hostMmap_calls h c s _

/-! ## Requests without `MAP_FIXED` -/

/-- What `target_mmap` asks of the host for a request whose place is settled. -/
def MmapArgs.onHost (c : Setup) (r : MmapArgs) : MmapArgs := { r with addr := g2h c r.addr }

/-- A request without `MAP_FIXED`, once its place is settled. -/
def MmapArgs.settle (c : Setup) (r : MmapArgs) (place : Word) : MmapArgs :=
  { r with addr := place, flags := r.flags ||| unlessStrict c mapAnonymous ||| mapFixed }

theorem targetMmap_refused {h : Host} {c : Setup} {s : Space} {r : MmapArgs}
    (hf : r.flags &&& mapFixed = 0)
    (hfail : (mmapFindVma h c s r.addr r.length).2 = failed) :
    targetMmap h c s r = ((mmapFindVma h c s r.addr r.length).1, failed) := by
  unfold targetMmap
  rw [if_pos hf]
  dsimp only
  rw [if_pos hfail]

theorem targetMmap_settled {h : Host} {c : Setup} {s : Space} {r : MmapArgs} {place : Word}
    (hf : r.flags &&& mapFixed = 0)
    (hplace : (mmapFindVma h c s r.addr r.length).2 = place) (hp : place ≠ failed) :
    targetMmap h c s r =
      targetMmapAt h c (mmapFindVma h c s r.addr r.length).1 (r.settle c place) := by
  unfold targetMmap
  rw [if_pos hf]
  dsimp only
  rw [hplace, if_neg hp]
  rfl

/-- A request without a descriptor shows zeros in either build, once its place is settled. -/
theorem backing_settle {h : Host} {c : Setup} {r : MmapArgs} {place : Word} (hfd : r.fd = -1) :
    h.backing? c (r.settle c place) = some .zero := by
  refine backing_zero hfd fun hs h0 => ?_
  have hbit := congrArg (BitVec.getLsbD · 5) h0
  simp [MmapArgs.settle, unlessStrict, hs, mapAnonymous, mapFixed] at hbit

/-! ## The allocator's pointer -/

/-- `mmap_next_start` has moved up from `TASK_UNMAPPED_BASE` by whole pages, together
with the host address behind it. -/
structure Space.Anchored (c : Setup) (s : Space) : Prop where
  aligned : s.mmapNextStart.toNat % 4096 = 0
  base : taskUnmappedBase.toNat ≤ s.mmapNextStart.toNat
  host : (g2h c s.mmapNextStart).toNat + taskUnmappedBase.toNat =
    s.mmapNextStart.toNat + (g2h c taskUnmappedBase).toNat

theorem Space.start_anchored (c : Setup) : Space.start.Anchored c :=
  ⟨by decide, Nat.le_refl _, Nat.add_comm _ _⟩

theorem Space.Anchored.congr {c : Setup} {s s' : Space} (ha : s.Anchored c)
    (h : s'.mmapNextStart = s.mmapNextStart) : s'.Anchored c :=
  ⟨h ▸ ha.aligned, h ▸ ha.base, h ▸ ha.host⟩

/-- A range that the host accepts at the pointer does not wrap, in the guest or in the host. -/
theorem next_advance {h : Host} {c : Setup} {x n : Word} {len : Nat}
    (hhost : (g2h c x).toNat + taskUnmappedBase.toNat =
      x.toNat + (g2h c taskUnmappedBase).toNat)
    (hn : n.toNat = len) (hfit : (g2h c x).toNat + len ≤ h.taskSize) :
    (x + n).toNat = x.toNat + len ∧ (g2h c (x + n)).toNat = (g2h c x).toNat + len := by
  have htask := h.taskSize_le
  have hval : taskUnmappedBase.toNat = 0x4000000000 := rfl
  have hcomm : g2h c (x + n) = g2h c x + n := by
    unfold g2h
    rw [BitVec.add_assoc, BitVec.add_comm n, ← BitVec.add_assoc]
  constructor
  · rw [BitVec.toNat_add, hn, Nat.mod_eq_of_lt (by omega)]
  · rw [hcomm, BitVec.toNat_add, hn, Nat.mod_eq_of_lt (by omega)]

theorem mmapFindVma_anchored {h : Host} {c : Setup} {s : Space} (ha : s.Anchored c)
    (addr length : Word) : (mmapFindVma h c s addr length).1.Anchored c := by
  rcases mmapFindVma_cases h c s addr length with ⟨_, hnext, _⟩ | ⟨_, hres⟩
  · exact ha.congr hnext
  · have hnext := hres.next
    split at hnext
    · rename_i hmove
      have hfits := hres.fits
      rw [hmove.1] at hfits
      obtain ⟨hguest, hhost⟩ := next_advance ha.host hres.size hfits
      have hal := ha.aligned
      have hbase := ha.base
      have hh := ha.host
      have hpage := pageUp_mod length.toNat
      refine ⟨?_, ?_, ?_⟩
      · rw [hnext, hguest]
        omega
      · rw [hnext, hguest]
        omega
      · rw [hnext, hguest, hhost]
        omega
    · exact ha.congr hnext

theorem targetMmap_anchored {h : Host} {c : Setup} {s : Space} (ha : s.Anchored c)
    (r : MmapArgs) : (targetMmap h c s r).1.Anchored c := by
  by_cases hf : r.flags &&& mapFixed = 0
  · have hv := mmapFindVma_anchored (h := h) ha r.addr r.length
    by_cases hp : (mmapFindVma h c s r.addr r.length).2 = failed
    · rwa [targetMmap_refused hf hp]
    · rw [targetMmap_settled hf rfl hp]
      exact hv.congr (targetMmapAt_mmapNextStart h c _ _)
  · rw [targetMmap_fixed hf]
    exact ha.congr (targetMmapAt_mmapNextStart h c s r)

end Rvvk
