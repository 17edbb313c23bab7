import Rvvk.Mmap.Target
import Rvvk.Elf.File

/-!
# The initial stack

`create_elf_tables` copies the strings of the environment and of the command line
to the top of the stack, from the last to the first, and puts the table of their
addresses below.
-/

namespace Rvvk

/-- A C string, without its terminator. -/
structure CString where
  bytes : List (BitVec 8)
  nonzero : 0 ∉ bytes

/-- The bytes that `strlen (s) + 1` counts. -/
def CString.terminated (s : CString) : List (BitVec 8) := s.bytes ++ [0]

/-- The string is shorter than `INT_MAX`, as all strings that `execve` passes on are. -/
def CString.ShortForInt (s : CString) : Prop := s.terminated.length < 2 ^ 31

/-- The `int` that holds the length of a short string is widened to the length. -/
theorem CString.ShortForInt.widened {s : CString} (h : s.ShortForInt) :
    (BitVec.ofNat 32 s.terminated.length).signExtend 64 = BitVec.ofNat 64 s.terminated.length := by
  have hmsb : (BitVec.ofNat 32 s.terminated.length).msb = false := by
    rw [BitVec.msb_eq_false_iff_two_mul_lt, BitVec.toNat_ofNat]
    unfold ShortForInt at h
    omega
  refine BitVec.eq_of_toNat_eq ?_
  rw [BitVec.signExtend_eq_setWidth_of_msb_false hmsb, BitVec.toNat_setWidth, BitVec.toNat_ofNat,
    BitVec.toNat_ofNat]
  unfold ShortForInt at h
  omega

/-- `struct linux_binprm`, without the stack pointer it passes on. -/
structure Binprm where
  /-- The first `BINPRM_BUF_SIZE` bytes of the file, filled up with zeros. -/
  buf : Nat → BitVec 8
  execfd : BitVec 32
  opened : execfd.slt 0 = false
  filename : CString
  argv : List CString
  envp : List CString

namespace Binprm

def argc (bprm : Binprm) : Nat := bprm.argv.length

end Binprm

/-- Where `create_elf_tables` stands. -/
structure Tables where
  mem : Memory
  top : Word
  ptrs : List Word

namespace Tables

/-- Copy a string below `top` and note its address. In the source `n` is an `int`, which holds
the length of every string that `ShortForInt` allows. -/
def push (t : Tables) (str : CString) : Except Fault Tables := do
  let n := str.terminated.length
  let top := t.top - BitVec.ofNat 64 n
  let mem ← targetMemoryCopy t.mem top str.terminated
  .ok ⟨mem, top, t.ptrs ++ [top]⟩

def note (t : Tables) (value : Word) : Tables := { t with ptrs := t.ptrs ++ [value] }

/-- Copy an entry of `ptrs` below `top`. -/
def put (t : Memory × Word) (value : Word) : Except Fault (Memory × Word) := do
  let top := t.2 - 8
  let mem ← targetMemoryCopy t.1 top (LittleEndian.bytes value 8)
  .ok (mem, top)

end Tables

/-- Memory and stack pointer after `create_elf_tables`, once `ptrs` is allocated. -/
def createElfTables (mem : Memory) (bprm : Binprm) (p : Word) : Except Fault (Memory × Word) := do
  let t : Tables := ⟨mem, p, [0]⟩
  let t ← bprm.envp.reverse.foldlM Tables.push t
  let t ← bprm.argv.tail.reverse.foldlM Tables.push (t.note 0)
  let t ← t.push bprm.filename
  let t := t.note (BitVec.ofNat 64 bprm.argc)
  -- the empty auxiliary vector
  let top := roundDown t.top 8 - 8 - 16
  t.ptrs.foldlM Tables.put (t.mem, top)

/-! ## What the stores keep -/

def GuardPage (m : Memory) (start : Word) : Prop :=
  ∀ i < 4096, ¬ m.Writable (start + BitVec.ofNat 64 i)

/-- A stack that grows down from `bound` above a guard page, after some stores. -/
structure Grown (start : Word) (bound : Nat) (m m' : Memory) (top : Word) : Prop where
  above : ∀ a, bound ≤ (a - start).toNat → m' a = m a
  pages : m.SamePages m'
  pos : 1 ≤ (top - start).toNat
  le : (top - start).toNat ≤ bound

theorem GuardPage.congr {m m' : Memory} {start : Word} (h : GuardPage m start)
    (hp : m.SamePages m') : GuardPage m' start := by
  intro i hi
  rw [hp.writable]
  exact h i hi

/-- A store that ends at `top` stops above the guard page. -/
theorem length_le_of_guard {m m' : Memory} {start top : Word} {bs : List (BitVec 8)}
    (hg : GuardPage m start) (hb : 1 ≤ bs.length) (ht : 1 ≤ (top - start).toNat)
    (h : m.storeBytes (top - BitVec.ofNat 64 bs.length) bs = .ok m') :
    4096 + bs.length ≤ (top - start).toNat := by
  have hall := Memory.storeBytes_eq_ok.mp ⟨m', h⟩
  by_contra hlt
  -- otherwise the store covers byte `j` of the guard page
  obtain ⟨j, hj, hjo, hjn⟩ : ∃ j < 4096, j < (top - start).toNat ∧
      (top - start).toNat - j ≤ bs.length := by
    by_cases ho : (top - start).toNat ≤ 4096
    · exact ⟨(top - start).toNat - 1, by omega, by omega, by omega⟩
    · exact ⟨4095, by omega, by omega, by omega⟩
  have hi : bs.length - ((top - start).toNat - j) < bs.length := by omega
  have haddr : top - BitVec.ofNat 64 bs.length +
      BitVec.ofNat 64 (bs.length - ((top - start).toNat - j)) = start + BitVec.ofNat 64 j := by
    have hn : bs.length = bs.length - ((top - start).toNat - j) + ((top - start).toNat - j) := by
      omega
    have ho : BitVec.ofNat 64 ((top - start).toNat - j) + BitVec.ofNat 64 j = top - start := by
      rw [← BitVec.ofNat_add, Nat.sub_add_cancel (Nat.le_of_lt hjo), BitVec.ofNat_toNat,
        BitVec.setWidth_eq]
    have hsum : BitVec.ofNat 64 bs.length =
        BitVec.ofNat 64 (bs.length - ((top - start).toNat - j)) +
          BitVec.ofNat 64 ((top - start).toNat - j) := by
      rw [← BitVec.ofNat_add, ← hn]
    grind
  have hw := hall _ hi
  rw [haddr] at hw
  exact hg j hj hw

theorem Grown.store {start top : Word} {bound : Nat} {m m₁ m₂ : Memory}
    (hg : GuardPage m start) (h : Grown start bound m m₁ top) {bs : List (BitVec 8)}
    (hb : 1 ≤ bs.length)
    (hs : m₁.storeBytes (top - BitVec.ofNat 64 bs.length) bs = .ok m₂) :
    Grown start bound m m₂ (top - BitVec.ofNat 64 bs.length) ∧
      4096 ≤ (top - BitVec.ofNat 64 bs.length - start).toNat := by
  have hn := length_le_of_guard (hg.congr h.pages) hb h.pos hs
  have hlt := (top - start).isLt
  have hsub : (top - BitVec.ofNat 64 bs.length - start).toNat =
      (top - start).toNat - bs.length := by
    have he : top - BitVec.ofNat 64 bs.length - start = top - start - BitVec.ofNat 64 bs.length := by
      grind
    rw [he, BitVec.toNat_sub, BitVec.toNat_ofNat]
    omega
  have hle := h.le
  refine ⟨⟨fun a ha => ?_, h.pages.trans (Memory.storeBytes_samePages hs), ?_, ?_⟩, ?_⟩
  · have hoff : (a - (top - BitVec.ofNat 64 bs.length)).toNat =
        (a - start).toNat - (top - start).toNat + bs.length := by
      have he : a - (top - BitVec.ofNat 64 bs.length) =
          (a - start) - (top - start) + BitVec.ofNat 64 bs.length := by
        grind
      have hlta := (a - start).isLt
      rw [he, BitVec.toNat_add, BitVec.toNat_sub, BitVec.toNat_ofNat]
      omega
    rw [Memory.storeBytes_apply hs (by omega), List.getElem?_eq_none (by omega), h.above a ha]
    cases m a <;> rfl
  · omega
  · omega
  · omega

namespace Tables

theorem push_grown {start : Word} {bound : Nat} {m : Memory} (hg : GuardPage m start)
    {t t' : Tables} {str : CString} (h : Grown start bound m t.mem t.top)
    (hp : t.push str = .ok t') :
    Grown start bound m t'.mem t'.top ∧ 4096 ≤ (t'.top - start).toNat := by
  obtain ⟨mem, hs, hp⟩ := bind_eq_ok hp
  cases hp
  exact h.store hg (by simp [CString.terminated]) hs

theorem foldlM_push_grown {start : Word} {bound : Nat} {m : Memory} (hg : GuardPage m start)
    {strs : List CString} {t t' : Tables} (h : Grown start bound m t.mem t.top)
    (hp : strs.foldlM push t = .ok t') : Grown start bound m t'.mem t'.top := by
  induction strs generalizing t with
  | nil =>
      cases hp
      exact h
  | cons str strs ih =>
      rw [List.foldlM_cons] at hp
      obtain ⟨t₁, h₁, hp⟩ := bind_eq_ok hp
      exact ih (push_grown hg h h₁).1 hp

theorem foldlM_put_grown {start : Word} {bound : Nat} {m : Memory} (hg : GuardPage m start)
    {ptrs : List Word} {t t' : Memory × Word} (h : Grown start bound m t.1 t.2)
    (hp : ptrs.foldlM put t = .ok t') : Grown start bound m t'.1 t'.2 := by
  induction ptrs generalizing t with
  | nil =>
      cases hp
      exact h
  | cons value ptrs ih =>
      rw [List.foldlM_cons] at hp
      obtain ⟨t₁, h₁, hp⟩ := bind_eq_ok hp
      obtain ⟨mem, hs, h₁⟩ := bind_eq_ok h₁
      cases h₁
      have hlen : (LittleEndian.bytes value 8).length = 8 := LittleEndian.length_bytes value 8
      have hs' : t.1.storeBytes (t.2 - BitVec.ofNat 64 (LittleEndian.bytes value 8).length)
          (LittleEndian.bytes value 8) = .ok mem := by
        rw [hlen]
        exact hs
      have hst := h.store hg (by omega) hs'
      rw [hlen] at hst
      exact ih hst.1 hp

end Tables

/-- `create_elf_tables` writes nothing at or above the first top of the stack, and
keeps the map of pages. -/
theorem createElfTables_grown {m m' : Memory} {start p p' : Word} {bprm : Binprm}
    (hg : GuardPage m start) (hpos : 1 ≤ (p - start).toNat)
    (h : createElfTables m bprm p = .ok (m', p')) :
    Grown start (p - start).toNat m m' p' := by
  have h0 : Grown start (p - start).toNat m m p :=
    ⟨fun _ _ => rfl, Memory.SamePages.refl m, hpos, Nat.le_refl _⟩
  obtain ⟨t₁, h₁, h⟩ := bind_eq_ok h
  obtain ⟨t₂, h₂, h⟩ := bind_eq_ok h
  obtain ⟨t₃, h₃, h⟩ := bind_eq_ok h
  have hg₁ := Tables.foldlM_push_grown hg (t := ⟨m, p, [0]⟩) h0 h₁
  have hg₂ := Tables.foldlM_push_grown hg (t := t₁.note 0) hg₁ h₂
  obtain ⟨hg₃, hge⟩ := Tables.push_grown hg hg₂ h₃
  -- rounding and the gap for the auxiliary vector take at most 31 bytes
  have hround := toNat_roundDown_word t₃.top
  have hoff : (roundDown t₃.top 8 - 8 - 16 - start).toNat =
      (t₃.top - start).toNat - t₃.top.toNat % 8 - 24 := by
    have hlt := t₃.top.isLt
    have hlts := start.isLt
    have h8 : (8 : BitVec 64).toNat = 8 := rfl
    have h16 : (16 : BitVec 64).toNat = 16 := rfl
    simp only [BitVec.toNat_sub, hround, h8, h16] at hge ⊢
    omega
  have hle := hg₃.le
  refine Tables.foldlM_put_grown hg (t := (t₃.mem, roundDown t₃.top 8 - 8 - 16))
    ⟨hg₃.above, hg₃.pages, ?_, ?_⟩ h
  · rw [hoff]
    omega
  · rw [hoff]
    omega

end Rvvk
