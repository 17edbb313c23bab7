import Rvvk.Elf.Load

/-!
# Mapping a segment

`zero_bss` and the mappings of one segment: the file's bytes and the zeros behind
them are in place, and the pages of the segment are all that changes. Addresses
are compared as naturals; the last page of the address space ends at `2^64`.
-/

namespace Rvvk

/-! ## Calls that may fail -/

theorem granted_eq_ok {e : Failure} {r r' : Space × Word} (h : granted e r = .ok r') :
    r.2 ≠ failed ∧ r' = r := by
  unfold granted at h
  split at h
  · cases h
  · cases h
    exact ⟨‹_›, rfl⟩

theorem Space.write_eq_ok {s s' : Space} {m : Except Fault Memory} (h : s.write m = .ok s') :
    ∃ mem, m = .ok mem ∧ s' = { s with mem := mem } := by
  unfold write at h
  split at h
  · cases h
    exact ⟨_, rfl, rfl⟩
  · cases h

structure ZeroMapped (h : Host) (c : Setup) (s : Space) (r : MmapArgs) : Prop where
  accepts : h.Accepts { r with addr := g2h c r.addr }
  addr : (targetMmap h c s r).2 = r.addr
  next : (targetMmap h c s r).1.mmapNextStart = s.mmapNextStart
  mem : (targetMmap h c s r).1.mem =
    s.mem.mapPages r.addr (pageUp r.length.toNat) .zero (.ofBits r.prot) 0

theorem zeroMapped {h : Host} {c : Setup} {s : Space} {r : MmapArgs}
    (hfix : r.flags &&& mapFixed ≠ 0) (hfd : r.fd = -1) (hoff : r.offset = 0)
    (hanon : c.strictAnsi = false → r.flags &&& mapAnonymous ≠ 0)
    (hne : (targetMmap h c s r).2 ≠ failed) : ZeroMapped h c s r := by
  have he : targetMmap h c s r = targetMmapAt h c s r := targetMmap_fixed hfix s
  rw [he] at hne
  obtain ⟨hacc, haddr, hnext, b, hb, hm⟩ := targetMmapAt_ok hne
  rw [backing_zero hfd hanon] at hb
  cases hb
  rw [hoff] at hm
  rw [← he] at haddr hnext hm
  exact ⟨hacc, haddr, hnext, hm⟩

/-! ## Host addresses -/

theorem toNat_g2h (c : Setup) (a : Word) :
    (g2h c a).toNat = (a.toNat + c.guestBase.toNat) % 2 ^ 64 :=
  BitVec.toNat_add a c.guestBase

def HostBound (h : Host) (c : Setup) (m : Memory) : Prop :=
  ∀ a, (m a).isSome = true → (g2h c a).toNat < h.taskSize

theorem HostBound.samePages {h : Host} {c : Setup} {m m' : Memory} (hb : HostBound h c m)
    (hp : m.SamePages m') : HostBound h c m' := by
  intro a ha
  have hs := congrArg Option.isSome (hp a)
  unfold Memory.prot? at hs
  rw [Option.isSome_map, Option.isSome_map] at hs
  exact hb a (hs.symm.trans ha)

theorem host_lt_of_mem {h : Host} {c : Setup} {base a : Word} {len : Nat}
    (hfits : (g2h c base).toNat + len ≤ h.taskSize) (hm : Span.Mem base len a) :
    (g2h c a).toNat < h.taskSize := by
  have hts := h.taskSize_le
  have hoff : Span.Mem (g2h c base) len (g2h c a) := (Span.mem_add_right base a _ len).mpr hm
  rw [Span.mem_iff (by omega)] at hoff
  omega

theorem HostBound.mapPages {h : Host} {c : Setup} {m : Memory} (hb : HostBound h c m)
    {base : Word} {len : Nat} (hfits : (g2h c base).toNat + len ≤ h.taskSize) (b : Backing)
    (prot : Prot) (offset : Nat) : HostBound h c (m.mapPages base len b prot offset) := by
  intro a ha
  unfold Memory.mapPages at ha
  split at ha
  · exact host_lt_of_mem hfits ‹_›
  · exact hb a ha

/-! ## Zeros behind the file -/

/-- The pages from the end of the file part to the end of the bss do not reach past
the last host address. -/
def BssFits (c : Setup) (elfBss elfBrk : Word) : Prop :=
  (hostPageAlign (g2h c elfBss)).toNat + (pageUp elfBrk.toNat - pageUp elfBss.toNat) < 2 ^ 64

instance (c : Setup) (elfBss elfBrk : Word) : Decidable (BssFits c elfBss elfBrk) :=
  inferInstanceAs (Decidable ((hostPageAlign (g2h c elfBss)).toNat +
    (pageUp elfBrk.toNat - pageUp elfBss.toNat) < 2 ^ 64))

/-- The host addresses `zero_bss` computes. -/
structure BssArith (c : Setup) (elfBss elfBrk : Word) : Prop where
  start : (hostPageAlign (g2h c elfBss)).toNat = pageUp (g2h c elfBss).toNat
  gap : (hostPageAlign (g2h c elfBss)).toNat - (g2h c elfBss).toNat =
    pageUp elfBss.toNat - elfBss.toNat
  fits : BssFits c elfBss elfBrk → (g2h c (targetPageAlign elfBrk)).toNat =
    (hostPageAlign (g2h c elfBss)).toNat + (pageUp elfBrk.toNat - pageUp elfBss.toNat)
  wraps : ¬ BssFits c elfBss elfBrk →
    (g2h c (targetPageAlign elfBrk)).toNat < (hostPageAlign (g2h c elfBss)).toNat
  base : (h2g c (hostPageAlign (g2h c elfBss))).toNat = pageUp elfBss.toNat % 2 ^ 64

theorem bssArith {c : Setup} {elfBss elfBrk : Word} (hal : c.guestBase.toNat % 4096 = 0)
    (hhost : (g2h c elfBss).toNat ≤ 2 ^ 63) (hpos : 0 < elfBss.toNat)
    (hlt : elfBss.toNat < elfBrk.toNat) : BssArith c elfBss elfBrk := by
  -- everything is a number of pages
  obtain ⟨g, hg⟩ : ∃ g, c.guestBase.toNat = 4096 * g := ⟨c.guestBase.toNat / 4096, by omega⟩
  have hgb := c.guestBase.isLt
  have hbrk := elfBrk.isLt
  have hx : (g2h c elfBss).toNat = (elfBss.toNat + 4096 * g) % 2 ^ 64 := hg ▸ toNat_g2h c elfBss
  have hs : (hostPageAlign (g2h c elfBss)).toNat = pageUp (g2h c elfBss).toNat := by
    rw [toNat_hostPageAlign, Nat.mod_eq_of_lt (by omega)]
    rfl
  have hstart : pageUp (g2h c elfBss).toNat = (pageUp elfBss.toNat + 4096 * g) % 2 ^ 64 := by
    unfold pageUp
    omega
  have hend : (g2h c (targetPageAlign elfBrk)).toNat =
      (pageUp elfBrk.toNat + 4096 * g) % 2 ^ 64 := by
    rw [toNat_g2h, hg, toNat_targetPageAlign]
    unfold pageUp
    omega
  have hle : pageUp elfBss.toNat ≤ pageUp elfBrk.toNat := by
    unfold pageUp
    omega
  have hlt' : pageUp elfBrk.toNat - pageUp elfBss.toNat < 2 ^ 64 := by
    unfold pageUp
    omega
  refine ⟨hs, ?_, fun hf => ?_, fun hf => ?_, ?_⟩
  · rw [hs]
    unfold pageUp
    omega
  · unfold BssFits at hf
    omega
  · unfold BssFits at hf
    omega
  · unfold h2g
    rw [BitVec.toNat_sub, hs, hg]
    omega

theorem pageUp_of_dvd {n : Nat} (h : n % 4096 = 0) : pageUp n = n := by
  unfold pageUp
  omega

theorem pageUp_mono {m n : Nat} (h : m ≤ n) : pageUp m ≤ pageUp n := by
  unfold pageUp
  omega

theorem mapPages_zero {m : Memory} {base : Word} {len : Nat} {prot : Prot} {a : Word}
    (h : Span.Mem base len a) : m.mapPages base len .zero prot 0 a = some ⟨0, prot⟩ :=
  if_pos h

theorem mapPages_other {m : Memory} {base : Word} {len : Nat} {b : Backing} {prot : Prot}
    {offset : Nat} {a : Word} (h : ¬ Span.Mem base len a) :
    m.mapPages base len b prot offset a = m a :=
  if_neg h

structure BssMapped (h : Host) (c : Setup) (s : Space) (elfBss elfBrk : Word) (prot : BitVec 32)
    (s' : Space) : Prop where
  next : s'.mmapNextStart = s.mmapNextStart
  frame : ∀ a, ¬ (pageUp elfBss.toNat ≤ a.toNat ∧ a.toNat < pageUp elfBrk.toNat) →
    s'.mem a = s.mem a
  tail : BssFits c elfBss elfBrk → ∀ a, pageUp elfBss.toNat ≤ a.toNat →
    a.toNat < pageUp elfBrk.toNat → s'.mem a = some ⟨0, .ofBits prot⟩
  bound : HostBound h c s.mem → HostBound h c s'.mem

theorem BssArith.length {c : Setup} {elfBss elfBrk : Word} (har : BssArith c elfBss elfBrk)
    (hlt : hostPageAlign (g2h c elfBss) < g2h c (targetPageAlign elfBrk)) :
    BssFits c elfBss elfBrk ∧ pageUp elfBss.toNat < pageUp elfBrk.toNat ∧
      pageUp (g2h c (targetPageAlign elfBrk) - hostPageAlign (g2h c elfBss)).toNat =
        pageUp elfBrk.toNat - pageUp elfBss.toNat := by
  have hn : (hostPageAlign (g2h c elfBss)).toNat < (g2h c (targetPageAlign elfBrk)).toNat := hlt
  have hfits : BssFits c elfBss elfBrk := by
    by_contra hf
    have hw := har.wraps hf
    omega
  have hend := har.fits hfits
  have h1 := pageUp_mod elfBrk.toNat
  have h2 := pageUp_mod elfBss.toNat
  rw [BitVec.toNat_sub_of_le (BitVec.le_of_lt hlt), hend, Nat.add_sub_cancel_left]
  exact ⟨hfits, by omega, pageUp_of_dvd (by omega)⟩

theorem BssArith.mem_iff {c : Setup} {elfBss elfBrk : Word} (har : BssArith c elfBss elfBrk)
    (hlt : pageUp elfBss.toNat < pageUp elfBrk.toNat) (a : Word) :
    Span.Mem (h2g c (hostPageAlign (g2h c elfBss)))
      (pageUp elfBrk.toNat - pageUp elfBss.toNat) a ↔
        pageUp elfBss.toNat ≤ a.toNat ∧ a.toNat < pageUp elfBrk.toNat := by
  have hbrk := elfBrk.isLt
  have htop : pageUp elfBrk.toNat ≤ 2 ^ 64 := by
    unfold pageUp
    omega
  have hbase : (h2g c (hostPageAlign (g2h c elfBss))).toNat = pageUp elfBss.toNat := by
    rw [har.base]
    exact Nat.mod_eq_of_lt (by omega)
  rw [Span.mem_iff (by rw [hbase]; omega), hbase]
  omega

theorem bssMapped {h : Host} {c : Setup} {s s' : Space} {elfBss elfBrk : Word} {prot : BitVec 32}
    (har : BssArith c elfBss elfBrk)
    (hz : mapBss h c s (hostPageAlign (g2h c elfBss)) (g2h c (targetPageAlign elfBrk)) prot =
      .ok s') : BssMapped h c s elfBss elfBrk prot s' := by
  unfold mapBss at hz
  split at hz
  · rename_i hlt
    obtain ⟨_, hpos, hlen⟩ := har.length hlt
    have hspan := har.mem_iff hpos
    obtain ⟨r, hr, rfl⟩ := map_eq_ok hz
    obtain ⟨hne, rfl⟩ := granted_eq_ok hr
    obtain ⟨hacc, _, b, hb, hm⟩ := hostMmap_ok hne
    have hanon : c.strictAnsi = false →
        (unlessStrict c mapAnonymous ||| mapFixed ||| mapPrivate) &&& mapAnonymous ≠ 0 := by
      intro hs
      simp only [unlessStrict, hs]
      decide
    rw [backing_zero rfl hanon] at hb
    cases hb
    have hfit := hacc.fits
    dsimp only at hm hfit
    rw [hlen] at hm hfit
    refine ⟨hostMmap_mmapNextStart h c s _, fun a ha => ?_, fun _ a h1 h2 => ?_, fun hb => ?_⟩
    · rw [hm, mapPages_other (by rwa [hspan])]
    · rw [hm]
      exact mapPages_zero ((hspan a).mpr ⟨h1, h2⟩)
    · rw [hm]
      exact hb.mapPages (by rw [g2h_h2g]; exact hfit) _ _ _
  · rename_i hlt
    have hn : ¬ (hostPageAlign (g2h c elfBss)).toNat < (g2h c (targetPageAlign elfBrk)).toNat := hlt
    cases hz
    refine ⟨rfl, fun _ _ => rfl, fun hf a h1 h2 => ?_, fun hb => hb⟩
    have hend := har.fits hf
    omega

/-- What a `memset` to zero below the end of the address space leaves. -/
structure Zeroed (m : Memory) (base : Word) (n : Nat) (m' : Memory) : Prop where
  frame : ∀ a, ¬ (base.toNat ≤ a.toNat ∧ a.toNat < base.toNat + n) → m' a = m a
  zero : ∀ a, base.toNat ≤ a.toNat → a.toNat < base.toNat + n →
    ∃ cell, m a = some cell ∧ m' a = some { cell with val := 0 }
  pages : m.SamePages m'

theorem zeroed_of_storeBytes {m m' : Memory} {base : Word} {n : Nat}
    (hn : base.toNat + n ≤ 2 ^ 64) (hs : m.storeBytes base (List.replicate n 0) = .ok m') :
    Zeroed m base n m' := by
  have hlen : (List.replicate n (0 : BitVec 8)).length = n := List.length_replicate
  have happ := Memory.storeBytes_apply hs (by omega)
  have hall := Memory.storeBytes_eq_ok.mp ⟨m', hs⟩
  have hspan : ∀ a : Word, (a - base).toNat < n ↔
      base.toNat ≤ a.toNat ∧ a.toNat < base.toNat + n := fun a => Span.mem_iff hn
  refine ⟨fun a ha => ?_, fun a h1 h2 => ?_, Memory.storeBytes_samePages hs⟩
  · have hoff : n ≤ (a - base).toNat := Nat.le_of_not_lt fun hlt => ha ((hspan a).mp hlt)
    rw [happ, List.getElem?_eq_none (by omega)]
    cases m a <;> rfl
  · have hoff : (a - base).toNat < n := (hspan a).mpr ⟨h1, h2⟩
    obtain ⟨cell, hcell, _⟩ := hall (a - base).toNat (by omega)
    rw [BitVec.ofNat_toNat, BitVec.setWidth_eq, BitVec.add_comm, BitVec.sub_add_cancel] at hcell
    refine ⟨cell, hcell, ?_⟩
    rw [happ, hcell, List.getElem?_replicate, if_pos hoff]
    rfl

/-- What `zero_bss` leaves. -/
structure ZeroedBss (h : Host) (c : Setup) (s : Space) (elfBss elfBrk : Word) (prot : BitVec 32)
    (s' : Space) : Prop where
  next : s'.mmapNextStart = s.mmapNextStart
  frame : ∀ a, ¬ (elfBss.toNat ≤ a.toNat ∧ a.toNat < pageUp elfBrk.toNat) → s'.mem a = s.mem a
  head : ∀ a, elfBss.toNat ≤ a.toNat → a.toNat < pageUp elfBss.toNat →
    ∃ cell, s.mem a = some cell ∧ s'.mem a = some { cell with val := 0 }
  tail : BssFits c elfBss elfBrk → ∀ a, pageUp elfBss.toNat ≤ a.toNat →
    a.toNat < pageUp elfBrk.toNat → s'.mem a = some ⟨0, .ofBits prot⟩
  bound : HostBound h c s.mem → HostBound h c s'.mem

theorem zeroBss_ok {h : Host} {c : Setup} {s s' : Space} {elfBss elfBrk : Word}
    {prot : BitVec 32} (har : BssArith c elfBss elfBrk) (hlt : elfBss.toNat < elfBrk.toNat)
    (hz : zeroBss h c s elfBss elfBrk prot = .ok s') : ZeroedBss h c s elfBss elfBrk prot s' := by
  obtain ⟨s₁, h₁, hz⟩ := bind_eq_ok hz
  have hm := bssMapped har h₁
  have hle := pageUp_mono (Nat.le_of_lt hlt)
  have hup := le_pageUp elfBss.toNat
  have htop : pageUp elfBss.toNat ≤ 2 ^ 64 := by
    have hbss := elfBss.isLt
    unfold pageUp
    omega
  split at hz
  · rename_i hmem
    obtain ⟨mem, hst, rfl⟩ := Space.write_eq_ok hz
    rw [h2g_g2h, BitVec.toNat_sub_of_le (BitVec.le_of_lt hmem), har.gap] at hst
    -- the last page of the file part, from the end of the file part on
    have hzero := zeroed_of_storeBytes (by omega) hst
    have hend : elfBss.toNat + (pageUp elfBss.toNat - elfBss.toNat) = pageUp elfBss.toNat := by
      omega
    have hframe := hzero.frame
    have hhead := hzero.zero
    rw [hend] at hframe hhead
    refine ⟨hm.next, fun a ha => ?_, fun a h1 h2 => ?_, fun hf a h1 h2 => ?_, fun hb => ?_⟩
    · rw [← hm.frame a (by omega)]
      exact hframe a (by omega)
    · rw [← hm.frame a (by omega)]
      exact hhead a h1 h2
    · rw [← hm.tail hf a h1 h2]
      exact hframe a (by omega)
    · exact (hm.bound hb).samePages hzero.pages
  · rename_i hmem
    have hn : ¬ (g2h c elfBss).toNat < (hostPageAlign (g2h c elfBss)).toNat := hmem
    have hgap := har.gap
    cases hz
    refine ⟨hm.next, fun a ha => hm.frame a (by omega), fun a h1 h2 => ?_, hm.tail, hm.bound⟩
    omega

/-! ## The pages of a segment -/

/-- The segment lies in the file and in the address space, file part first. -/
structure Phdr.Fits (eppnt : Phdr) (f : File) : Prop where
  file : eppnt.pOffset.toNat + eppnt.pFilesz.toNat ≤ f.size
  filesz : eppnt.pFilesz.toNat ≤ eppnt.pMemsz.toNat
  memory : eppnt.pVaddr.toNat + eppnt.pMemsz.toNat < 2 ^ 64

def Phdr.Covers (eppnt : Phdr) (a : Word) : Prop :=
  eppnt.pMemsz ≠ 0 ∧ Span.Mem (targetElfPagestart eppnt.pVaddr)
    (pageUp (eppnt.pMemsz.toNat + eppnt.pVaddr.toNat % 4096)) a

theorem toNat_pagestart (v : Word) : (targetElfPagestart v).toNat = v.toNat / 4096 * 4096 :=
  toNat_roundDown_page v

theorem toNat_pageoffset (v : Word) : (targetElfPageoffset v).toNat = v.toNat % 4096 :=
  toNat_and_page v

theorem mem_pages_iff {v : Word} {n : Nat} (h : v.toNat + n < 2 ^ 64) (a : Word) :
    Span.Mem (targetElfPagestart v) (pageUp (n + v.toNat % 4096)) a ↔
      v.toNat / 4096 * 4096 ≤ a.toNat ∧ a.toNat < pageUp (v.toNat + n) := by
  have hend : v.toNat / 4096 * 4096 + pageUp (n + v.toNat % 4096) = pageUp (v.toNat + n) := by
    unfold pageUp
    omega
  have htop : pageUp (v.toNat + n) ≤ 2 ^ 64 := by
    unfold pageUp
    omega
  have hs := toNat_pagestart v
  rw [Span.mem_iff (by omega), hs, hend]

theorem Phdr.Fits.covers_iff {eppnt : Phdr} {f : File} (h : eppnt.Fits f) (a : Word) :
    eppnt.Covers a ↔ eppnt.pMemsz ≠ 0 ∧ eppnt.pVaddr.toNat / 4096 * 4096 ≤ a.toNat ∧
      a.toNat < pageUp (eppnt.pVaddr.toNat + eppnt.pMemsz.toNat) := by
  unfold Covers
  rw [mem_pages_iff h.memory]

theorem toNat_add_ofNat {v : Word} {i : Nat} (h : v.toNat + i < 2 ^ 64) :
    (v + BitVec.ofNat 64 i).toNat = v.toNat + i := by
  rw [BitVec.toNat_add, BitVec.toNat_ofNat]
  omega

theorem Phdr.Fits.toNat_byte {eppnt : Phdr} {f : File} (h : eppnt.Fits f) {i : Nat}
    (hi : i < eppnt.pMemsz.toNat) :
    (eppnt.pVaddr + BitVec.ofNat 64 i).toNat = eppnt.pVaddr.toNat + i := by
  have hm := h.memory
  exact toNat_add_ofNat (by omega)

theorem Phdr.Fits.covers_byte {eppnt : Phdr} {f : File} (h : eppnt.Fits f) {i : Nat}
    (hi : i < eppnt.pMemsz.toNat) : eppnt.Covers (eppnt.pVaddr + BitVec.ofNat 64 i) := by
  have hup := le_pageUp (eppnt.pVaddr.toNat + eppnt.pMemsz.toNat)
  rw [h.covers_iff, h.toNat_byte hi]
  refine ⟨fun h0 => ?_, by omega, by omega⟩
  rw [h0] at hi
  exact absurd hi (Nat.not_lt_zero i)

theorem Phdr.Fits.toNat_ends {eppnt : Phdr} {f : File} (h : eppnt.Fits f) :
    (eppnt.pVaddr + eppnt.pFilesz).toNat = eppnt.pVaddr.toNat + eppnt.pFilesz.toNat ∧
      (eppnt.pVaddr + eppnt.pMemsz).toNat = eppnt.pVaddr.toNat + eppnt.pMemsz.toNat := by
  have hm := h.memory
  have hz := h.filesz
  rw [BitVec.toNat_add, BitVec.toNat_add]
  omega

/-! ## The file part -/

/-- The file part of a segment, mapped in whole pages. -/
structure FileMapped (h : Host) (c : Setup) (s : Space) (eppnt : Phdr) (f : File) (s' : Space) :
    Prop where
  next : s'.mmapNextStart = s.mmapNextStart
  aligned : c.guestBase.toNat % 4096 = 0
  host : (g2h c (eppnt.pVaddr + eppnt.pFilesz)).toNat ≤ 2 ^ 63
  frame : ∀ a, ¬ (eppnt.pVaddr.toNat / 4096 * 4096 ≤ a.toNat ∧
    a.toNat < pageUp (eppnt.pVaddr.toNat + eppnt.pFilesz.toNat)) → s'.mem a = s.mem a
  bytes : ∀ i < eppnt.pFilesz.toNat, s'.mem (eppnt.pVaddr + BitVec.ofNat 64 i) =
    some ⟨f.byte (eppnt.pOffset.toNat + i), .ofBits eppnt.prot⟩
  prot : ∀ a, eppnt.pVaddr.toNat / 4096 * 4096 ≤ a.toNat →
    a.toNat < pageUp (eppnt.pVaddr.toNat + eppnt.pFilesz.toNat) →
    ∀ cell, s'.mem a = some cell → cell.prot = .ofBits eppnt.prot
  bound : HostBound h c s.mem → HostBound h c s'.mem

theorem Backing.cell?_prot {b : Backing} {prot : Prot} {offset : Nat} {cell : Cell}
    (h : b.cell? prot offset = some cell) : cell.prot = prot := by
  unfold cell? at h
  split at h
  · cases h
    rfl
  · split at h
    · cases h
      rfl
    · split at h
      · cases h
        rfl
      · cases h

/-- The numbers behind the file part of a segment that the host accepts. -/
structure FileArith (h : Host) (c : Setup) (eppnt : Phdr) : Prop where
  aligned : c.guestBase.toNat % 4096 = 0
  length : pageUp (targetElfPagelength (eppnt.pFilesz + targetElfPageoffset eppnt.pVaddr)).toNat =
    pageUp (eppnt.pFilesz.toNat + eppnt.pVaddr.toNat % 4096)
  fits : (g2h c (targetElfPagestart eppnt.pVaddr)).toNat +
    pageUp (eppnt.pFilesz.toNat + eppnt.pVaddr.toNat % 4096) ≤ h.taskSize
  offset : (eppnt.pOffset - targetElfPageoffset eppnt.pVaddr).toNat =
    eppnt.pOffset.toNat - eppnt.pVaddr.toNat % 4096
  offsetLe : eppnt.pVaddr.toNat % 4096 ≤ eppnt.pOffset.toNat

theorem fileArith {h : Host} {c : Setup} {eppnt : Phdr} {fd : BitVec 32} {f : File}
    (hf : eppnt.Fits f) (hacc : h.Accepts { fileArgs eppnt eppnt.pVaddr fd with
      addr := g2h c (fileArgs eppnt eppnt.pVaddr fd).addr }) : FileArith h c eppnt := by
  have hV := hf.memory
  have hF := hf.filesz
  have hO := eppnt.pOffset.isLt
  have hps := toNat_pagestart eppnt.pVaddr
  have hpo := toNat_pageoffset eppnt.pVaddr
  have haddr : (g2h c (targetElfPagestart eppnt.pVaddr)).toNat % 4096 = 0 := hacc.addr
  have hoff : (eppnt.pOffset - targetElfPageoffset eppnt.pVaddr).toNat % 4096 = 0 := hacc.offset
  have hsum : (eppnt.pFilesz + targetElfPageoffset eppnt.pVaddr).toNat =
      eppnt.pFilesz.toNat + eppnt.pVaddr.toNat % 4096 := by
    rw [BitVec.toNat_add, hpo]
    omega
  have hlen : pageUp (targetElfPagelength
      (eppnt.pFilesz + targetElfPageoffset eppnt.pVaddr)).toNat =
        pageUp (eppnt.pFilesz.toNat + eppnt.pVaddr.toNat % 4096) := by
    rw [← hsum]
    exact (pageUp_hostPageAlign hacc.length).1
  refine ⟨?_, hlen, hlen ▸ hacc.fits, ?_, ?_⟩
  · rw [toNat_g2h, hps] at haddr
    omega
  · rw [BitVec.toNat_sub, hpo] at hoff ⊢
    omega
  · rw [BitVec.toNat_sub, hpo] at hoff
    omega

/-- A byte of the file part, in the pages of the file. -/
theorem mapPages_file {m : Memory} {eppnt : Phdr} {f : File} {prot : Prot} (hf : eppnt.Fits f)
    (ho : eppnt.pVaddr.toNat % 4096 ≤ eppnt.pOffset.toNat) {i : Nat} (hi : i < eppnt.pFilesz.toNat) :
    m.mapPages (targetElfPagestart eppnt.pVaddr)
      (pageUp (eppnt.pFilesz.toNat + eppnt.pVaddr.toNat % 4096)) (.file f) prot
      (eppnt.pOffset.toNat - eppnt.pVaddr.toNat % 4096) (eppnt.pVaddr + BitVec.ofNat 64 i) =
        some ⟨f.byte (eppnt.pOffset.toNat + i), prot⟩ := by
  have hV := hf.memory
  have hF := hf.filesz
  have hO := hf.file
  have hb := hf.toNat_byte (i := i) (by omega)
  have hps := toNat_pagestart eppnt.pVaddr
  have hup := le_pageUp (eppnt.pVaddr.toNat + eppnt.pFilesz.toNat)
  have hle : targetElfPagestart eppnt.pVaddr ≤ eppnt.pVaddr + BitVec.ofNat 64 i := by
    show (targetElfPagestart eppnt.pVaddr).toNat ≤ _
    omega
  unfold Memory.mapPages
  rw [if_pos ((mem_pages_iff (by omega) _).mpr (by omega)), BitVec.toNat_sub_of_le hle, hb, hps]
  have hidx : eppnt.pOffset.toNat - eppnt.pVaddr.toNat % 4096 +
      (eppnt.pVaddr.toNat + i - eppnt.pVaddr.toNat / 4096 * 4096) = eppnt.pOffset.toNat + i := by
    omega
  rw [hidx]
  exact if_pos (by omega)

theorem fileMapped {h : Host} {c : Setup} {s : Space} {eppnt : Phdr} {fd : BitVec 32}
    (hfd : fd.slt 0 = false) (hf : eppnt.Fits (h.file fd))
    (hne : (targetMmap h c s (fileArgs eppnt eppnt.pVaddr fd)).2 ≠ failed) :
    FileMapped h c s eppnt (h.file fd)
      (targetMmap h c s (fileArgs eppnt eppnt.pVaddr fd)).1 := by
  have hfix : (fileArgs eppnt eppnt.pVaddr fd).flags &&& mapFixed ≠ 0 := by
    show (mapPrivate ||| mapFixed) &&& mapFixed ≠ 0
    decide
  rw [targetMmap_fixed hfix] at hne ⊢
  obtain ⟨hacc, _, hnext, b, hb, hm⟩ := targetMmapAt_ok hne
  have hanon : (fileArgs eppnt eppnt.pVaddr fd).flags &&& mapAnonymous = 0 := by
    show (mapPrivate ||| mapFixed) &&& mapAnonymous = 0
    decide
  have hfile := eq_file_of_backing hanon hfd hb
  subst hfile
  have har := fileArith hf hacc
  have hV := hf.memory
  have hF := hf.filesz
  have hmem : (targetMmapAt h c s (fileArgs eppnt eppnt.pVaddr fd)).1.mem =
      s.mem.mapPages (targetElfPagestart eppnt.pVaddr)
        (pageUp (eppnt.pFilesz.toNat + eppnt.pVaddr.toNat % 4096)) (.file (h.file fd))
        (.ofBits eppnt.prot) (eppnt.pOffset.toNat - eppnt.pVaddr.toNat % 4096) := by
    rw [hm, ← har.length, ← har.offset]
    rfl
  have hspan := mem_pages_iff (v := eppnt.pVaddr) (n := eppnt.pFilesz.toNat) (by omega)
  refine ⟨hnext, har.aligned, ?_, fun a ha => ?_, fun i hi => ?_, fun a h1 h2 cell hc => ?_,
    fun hb => ?_⟩
  · have hfits := har.fits
    have hts := h.taskSize_le
    have hle := le_pageUp (eppnt.pFilesz.toNat + eppnt.pVaddr.toNat % 4096)
    rw [toNat_g2h, toNat_pagestart] at hfits
    rw [toNat_g2h, hf.toNat_ends.1]
    omega
  · rw [hmem, mapPages_other (by rwa [hspan])]
  · rw [hmem]
    exact mapPages_file hf har.offsetLe hi
  · rw [hmem] at hc
    unfold Memory.mapPages at hc
    rw [if_pos ((hspan a).mpr ⟨h1, h2⟩)] at hc
    exact Backing.cell?_prot hc
  · rw [hmem]
    exact hb.mapPages har.fits _ _ _

/-! ## A whole segment -/

/-- The bss of the segment does not pass the last host address. -/
def Phdr.BssFits (eppnt : Phdr) (c : Setup) : Prop :=
  eppnt.pFilesz ≠ 0 → eppnt.pFilesz < eppnt.pMemsz →
    Rvvk.BssFits c (eppnt.pVaddr + eppnt.pFilesz) (eppnt.pVaddr + eppnt.pMemsz)

structure SegmentMapped (h : Host) (c : Setup) (s : Space) (eppnt : Phdr) (f : File) (s' : Space) :
    Prop where
  next : s'.mmapNextStart = s.mmapNextStart
  frame : ∀ a, ¬ eppnt.Covers a → s'.mem a = s.mem a
  file : ∀ i < eppnt.pFilesz.toNat, s'.mem (eppnt.pVaddr + BitVec.ofNat 64 i) =
    some ⟨f.byte (eppnt.pOffset.toNat + i), .ofBits eppnt.prot⟩
  bss : eppnt.BssFits c → ∀ i, eppnt.pFilesz.toNat ≤ i → i < eppnt.pMemsz.toNat →
    s'.mem (eppnt.pVaddr + BitVec.ofNat 64 i) = some ⟨0, .ofBits eppnt.prot⟩
  far : ¬ eppnt.BssFits c → ∃ i, eppnt.pFilesz.toNat ≤ i ∧ i < eppnt.pMemsz.toNat ∧
    2 ^ 63 ≤ (g2h c (eppnt.pVaddr + BitVec.ofNat 64 i)).toNat
  bound : HostBound h c s.mem → HostBound h c s'.mem

/-- A bss that passes the last host address has a byte in the upper half. -/
theorem far_byte {c : Setup} {eppnt : Phdr} {f : File} (hf : eppnt.Fits f)
    (hal : c.guestBase.toNat % 4096 = 0)
    (hhost : (g2h c (eppnt.pVaddr + eppnt.pFilesz)).toNat ≤ 2 ^ 63)
    (hn : ¬ Rvvk.BssFits c (eppnt.pVaddr + eppnt.pFilesz) (eppnt.pVaddr + eppnt.pMemsz)) :
    ∃ i, eppnt.pFilesz.toNat ≤ i ∧ i < eppnt.pMemsz.toNat ∧
      2 ^ 63 ≤ (g2h c (eppnt.pVaddr + BitVec.ofNat 64 i)).toNat := by
  obtain ⟨hef, hem⟩ := hf.toNat_ends
  have hm := hf.memory
  have hz := hf.filesz
  have hx : (hostPageAlign (g2h c (eppnt.pVaddr + eppnt.pFilesz))).toNat =
      pageUp (g2h c (eppnt.pVaddr + eppnt.pFilesz)).toNat := by
    rw [toNat_hostPageAlign, Nat.mod_eq_of_lt (by omega)]
    rfl
  have hg := toNat_g2h c (eppnt.pVaddr + eppnt.pFilesz)
  unfold Rvvk.BssFits at hn
  rw [hx, hef, hem] at hn
  rw [hef] at hg
  unfold pageUp at hn
  -- so many bytes behind the file part the host address is `2^63`
  refine ⟨eppnt.pFilesz.toNat + (2 ^ 63 - (g2h c (eppnt.pVaddr + eppnt.pFilesz)).toNat), by omega,
    by omega, ?_⟩
  rw [toNat_g2h, hf.toNat_byte (by omega)]
  omega

theorem emptyArgs_fixed (c : Setup) (eppnt : Phdr) (vaddr : Word) :
    (emptyArgs c eppnt vaddr).flags &&& mapFixed ≠ 0 := by
  cases hs : c.strictAnsi <;> simp only [emptyArgs, unlessStrict, hs] <;> decide

theorem emptyArgs_anonymous {c : Setup} {eppnt : Phdr} (vaddr : Word)
    (hs : c.strictAnsi = false) : (emptyArgs c eppnt vaddr).flags &&& mapAnonymous ≠ 0 := by
  simp only [emptyArgs, unlessStrict, hs]
  decide

theorem Phdr.Fits.not_covers {eppnt : Phdr} {f : File} (h : eppnt.Fits f) {a : Word}
    (hm : 0 < eppnt.pMemsz.toNat) (ha : ¬ eppnt.Covers a) :
    ¬ (eppnt.pVaddr.toNat / 4096 * 4096 ≤ a.toNat ∧
      a.toNat < pageUp (eppnt.pVaddr.toNat + eppnt.pMemsz.toNat)) := by
  intro hin
  refine ha ((h.covers_iff a).mpr ⟨fun h0 => ?_, hin⟩)
  rw [h0] at hm
  exact absurd hm (Nat.lt_irrefl 0)

theorem FileMapped.segment {h : Host} {c : Setup} {s s' : Space} {eppnt : Phdr} {f : File}
    (hm : FileMapped h c s eppnt f s') (hf : eppnt.Fits f) (hpos : 0 < eppnt.pFilesz.toNat)
    (hn : ¬ eppnt.pFilesz < eppnt.pMemsz) : SegmentMapped h c s eppnt f s' := by
  have hF := hf.filesz
  have hle : ¬ eppnt.pFilesz.toNat < eppnt.pMemsz.toNat := hn
  have hmono := pageUp_mono (Nat.add_le_add_left hF eppnt.pVaddr.toNat)
  refine ⟨hm.next, fun a ha => ?_, hm.bytes, fun _ i h1 h2 => by omega,
    fun hb => absurd (fun _ hl => absurd hl hn) hb, hm.bound⟩
  have hno := hf.not_covers (by omega) ha
  exact hm.frame a (by omega)

theorem FileMapped.segment_bss {h : Host} {c : Setup} {s s₁ s' : Space} {eppnt : Phdr} {f : File}
    (hm : FileMapped h c s eppnt f s₁) (hf : eppnt.Fits f) (hpos : eppnt.pFilesz ≠ 0)
    (hlt : eppnt.pFilesz < eppnt.pMemsz)
    (hz : ZeroedBss h c s₁ (eppnt.pVaddr + eppnt.pFilesz) (eppnt.pVaddr + eppnt.pMemsz)
      eppnt.prot s') : SegmentMapped h c s eppnt f s' := by
  have hV := hf.memory
  have hn : eppnt.pFilesz.toNat < eppnt.pMemsz.toNat := hlt
  have hmono := pageUp_mono (Nat.add_le_add_left hf.filesz eppnt.pVaddr.toNat)
  have hup := le_pageUp (eppnt.pVaddr.toNat + eppnt.pMemsz.toNat)
  obtain ⟨hef, hem⟩ := hf.toNat_ends
  have hframe := hz.frame
  have hhead := hz.head
  have htail := hz.tail
  rw [hef, hem] at hframe htail
  rw [hef] at hhead
  refine ⟨hz.next.trans hm.next, fun a ha => ?_, fun i hi => ?_, fun hb i h1 h2 => ?_,
    fun hb => ?_, fun hb => hz.bound (hm.bound hb)⟩
  · have hno := hf.not_covers (by omega) ha
    rw [hframe a (by omega), hm.frame a (by omega)]
  · have hb := hf.toNat_byte (i := i) (by omega)
    rw [hframe _ (by omega), hm.bytes i hi]
  · have hb' := hf.toNat_byte h2
    by_cases hin : eppnt.pVaddr.toNat + i < pageUp (eppnt.pVaddr.toNat + eppnt.pFilesz.toNat)
    · -- the rest of the file part's last page
      obtain ⟨cell, hc, hc'⟩ := hhead (eppnt.pVaddr + BitVec.ofNat 64 i) (by omega) (by omega)
      rw [hc', ← hm.prot _ (by omega) (by omega) cell hc]
    · exact htail (hb hpos hlt) _ (by omega) (by omega)
  · exact far_byte hf hm.aligned hm.host fun hfit => hb fun _ _ => hfit

theorem emptyMapped {h : Host} {c : Setup} {s : Space} {eppnt : Phdr} {f : File}
    (hf : eppnt.Fits f) (hzero : eppnt.pFilesz = 0) (hpos : eppnt.pMemsz ≠ 0)
    (hne : (targetMmap h c s (emptyArgs c eppnt eppnt.pVaddr)).2 ≠ failed) :
    SegmentMapped h c s eppnt f (targetMmap h c s (emptyArgs c eppnt eppnt.pVaddr)).1 := by
  have hV := hf.memory
  have hF : eppnt.pFilesz.toNat = 0 := by rw [hzero]; rfl
  have hz := zeroMapped (emptyArgs_fixed c eppnt _) rfl rfl (emptyArgs_anonymous _) hne
  have hsum : (eppnt.pMemsz + targetElfPageoffset eppnt.pVaddr).toNat =
      eppnt.pMemsz.toNat + eppnt.pVaddr.toNat % 4096 := by
    rw [BitVec.toNat_add, toNat_pageoffset]
    omega
  have hlen : pageUp (emptyArgs c eppnt eppnt.pVaddr).length.toNat =
      pageUp (eppnt.pMemsz.toNat + eppnt.pVaddr.toNat % 4096) := by
    rw [← hsum]
    exact (pageUp_hostPageAlign hz.accepts.length).1
  have hmem := hz.mem
  have hfit := hz.accepts.fits
  dsimp only at hfit
  rw [hlen] at hmem hfit
  refine ⟨hz.next, fun a ha => ?_, fun i hi => by omega, fun _ i h1 h2 => ?_,
    fun hb => absurd (fun h0 => absurd hzero h0) hb, fun hb => ?_⟩
  · rw [hmem]
    exact mapPages_other fun hin => ha ⟨hpos, hin⟩
  · rw [hmem]
    exact mapPages_zero (hf.covers_byte h2).2
  · rw [hmem]
    exact hb.mapPages hfit _ _ _

theorem segmentMapped {h : Host} {c : Setup} {s s' : Space} {eppnt : Phdr} {fd : BitVec 32}
    (hfd : fd.slt 0 = false) (hf : eppnt.Fits (h.file fd))
    (hm : mapSegment h c s fd eppnt eppnt.pVaddr = .ok s') :
    SegmentMapped h c s eppnt (h.file fd) s' := by
  unfold mapSegment at hm
  split at hm
  · rename_i hpos
    have hFpos : 0 < eppnt.pFilesz.toNat :=
      Nat.pos_of_ne_zero fun h0 => hpos (BitVec.eq_of_toNat_eq h0)
    obtain ⟨s₁, h₁, hm⟩ := bind_eq_ok hm
    obtain ⟨r, hr, rfl⟩ := map_eq_ok h₁
    obtain ⟨hne, rfl⟩ := granted_eq_ok hr
    have hfile := fileMapped hfd hf hne
    split at hm
    · rename_i hlt
      obtain ⟨hef, hem⟩ := hf.toNat_ends
      have hn : eppnt.pFilesz.toNat < eppnt.pMemsz.toNat := hlt
      have hends : (eppnt.pVaddr + eppnt.pFilesz).toNat < (eppnt.pVaddr + eppnt.pMemsz).toNat := by
        omega
      have har := bssArith hfile.aligned hfile.host (by omega) hends
      exact hfile.segment_bss hf hpos hlt (zeroBss_ok har hends hm)
    · rename_i hn
      cases hm
      exact hfile.segment hf hFpos hn
  · rename_i hpos
    have hzero : eppnt.pFilesz = 0 := Decidable.not_not.mp hpos
    split at hm
    · rename_i hM
      obtain ⟨r, hr, rfl⟩ := map_eq_ok hm
      obtain ⟨hne, rfl⟩ := granted_eq_ok hr
      exact emptyMapped hf hzero hM hne
    · rename_i hM
      have hF : eppnt.pFilesz.toNat = 0 := by rw [hzero]; rfl
      have hM0 : eppnt.pMemsz.toNat = 0 := by rw [Decidable.not_not.mp hM]; rfl
      cases hm
      exact ⟨rfl, fun _ _ => rfl, fun i hi => by omega, fun _ i h1 h2 => by omega,
        fun hb => absurd (fun h0 => absurd hzero h0) hb, fun hb => hb⟩

end Rvvk
