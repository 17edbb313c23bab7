import Mathlib.Data.Nat.Find
import Rvvk.Elf.Image
import Rvvk.Exec.Syscall

/-!
# Reading the program

`readn`, the `pread` of a strict build, and the headers that the loader reads with them.
A `read` of the host may be interrupted, may fail, and may get fewer bytes than it is
asked for.
-/

namespace Rvvk

def eintr : Errno := 4

def eagain : Errno := 11

def File.bytes (f : File) (offset count : Nat) : List (BitVec 8) :=
  (List.range (min count (f.size - offset))).map fun i => f.byte (offset + i)

/-- The open file of the program, and what the host makes of each `read`: an error, or
so many bytes at most. -/
structure Reader where
  file : File
  /-- `lseek` works. -/
  seekable : Bool
  answer : Nat → Except Errno Nat

/-- Where a descriptor stands, and the reads made so far. -/
structure Reader.At where
  pos : Nat
  reads : Nat
deriving DecidableEq

namespace Reader

def read (r : Reader) (d : At) (count : Nat) : At × Except Errno (List (BitVec 8)) :=
  match r.answer d.reads with
  | .error e => (⟨d.pos, d.reads + 1⟩, .error e)
  | .ok n =>
      let bytes := r.file.bytes d.pos (min n count)
      (⟨d.pos + bytes.length, d.reads + 1⟩, .ok bytes)

/-- `fuel` bounds the reads. -/
def readn (r : Reader) (count : Nat) : Nat → At → Option (At × Except Errno (List (BitVec 8)))
  | 0, _ => none
  | fuel + 1, d =>
      match r.read d count with
      | (d, .error e) => if e = eintr ∨ e = eagain then readn r count fuel d else some (d, .error e)
      | (d, .ok bytes) => some (d, .ok bytes)

def lseek (r : Reader) (d : At) (offset : Word) : Option At :=
  if r.seekable ∧ offset.slt 0 = false then some { d with pos := offset.toNat } else none

/-- `pread` of the strict build; -1 is `none`. -/
def preadStrict (r : Reader) (fuel : Nat) (d : At) (count : Nat) (offset : Word) :
    Option (At × Option (List (BitVec 8))) :=
  match r.lseek d offset with
  | none => some (d, none)
  | some d =>
      match r.readn count fuel d with
      | none => none
      | some (d, bytes) =>
          match r.lseek d 0 with
          | none => some (d, none)
          | some d => some (d, bytes.toOption)

/-- `pread` of the host, which is not tried again. -/
def preadHost (r : Reader) (d : At) (count : Nat) (offset : Word) :
    At × Option (List (BitVec 8)) :=
  match r.lseek d offset with
  | none => (d, none)
  | some d' =>
      let (d', bytes) := r.read d' count
      (⟨d.pos, d'.reads⟩, bytes.toOption)

def pread (r : Reader) (strictAnsi : Bool) (fuel : Nat) (d : At) (count : Nat) (offset : Word) :
    Option (At × Option (List (BitVec 8))) :=
  if strictAnsi then r.preadStrict fuel d count offset else some (r.preadHost d count offset)

/-- `load_elf_phdrs`; `malloc` finds memory or not. -/
def loadElfPhdrs (r : Reader) (strictAnsi malloc : Bool) (fuel : Nat) (d : At) (ehdr : Ehdr) :
    Option (Except Failure (List Phdr)) :=
  let size := ehdr.ePhnum.toNat * phdrSize
  if size = 0 ∨ size > 65536 ∨ size > targetElfMinAlign then
    some (.error (.errinfo "Inappropriate total size of file program headers."))
  else if malloc = false then some (.error (.errinfo "Can't allocate extra memory."))
  else
    match r.pread strictAnsi fuel d size ehdr.ePhoff with
    | none => none
    | some (_, none) => some (.error (.errinfo "Incompleted read of file program header."))
    | some (_, some bytes) =>
        if bytes.length ≠ size then
          some (.error (.errinfo "Incompleted read of file program header."))
        else
          some (.ok ((List.range ehdr.ePhnum.toNat).map (Phdr.parse fun i => bytes.getD i 0)))

/-- The headers that the loader goes by: `prepare_binprm`, `elf_check_ehdr` and
`load_elf_phdrs`. -/
def headers (r : Reader) (strictAnsi malloc : Bool) (fuel : Nat) :
    Option (Except Failure (Ehdr × List Phdr)) :=
  match r.readn binprmBufSize fuel ⟨0, 0⟩ with
  | none => none
  | some (_, .error _) => some (.error .syserr)
  | some (d, .ok bytes) =>
      let ehdr := Ehdr.parse fun i => bytes.getD i 0
      match elfCheckEhdr ehdr with
      | .error e => some (.error e)
      | .ok () =>
          (r.loadElfPhdrs strictAnsi malloc fuel d ehdr).map (·.map fun phdr => (ehdr, phdr))

/-! ## Reads that are tried again -/

/-- `readn` tries again. -/
def Interrupted (r : Reader) (n : Nat) : Prop :=
  r.answer n = .error eintr ∨ r.answer n = .error eagain

variable {r : Reader} {strictAnsi malloc : Bool} {count fuel : Nat} {d d' : At}
  {res : Except Errno (List (BitVec 8))} {bytes : List (BitVec 8)} {offset : Word}

theorem readn_interrupted (hi : r.Interrupted d.reads) :
    r.readn count (fuel + 1) d = r.readn count fuel ⟨d.pos, d.reads + 1⟩ := by
  rcases hi with h | h
  · simp only [readn, read, h, true_or, if_true]
  · simp only [readn, read, h, or_true, if_true]

theorem readn_decided (hi : ¬ r.Interrupted d.reads) :
    r.readn count (fuel + 1) d = some (r.read d count) := by
  cases ha : r.answer d.reads with
  | ok n => simp only [readn, read, ha]
  | error e =>
      have he : ¬ (e = eintr ∨ e = eagain) := by
        rintro (rfl | rfl)
        · exact hi (.inl ha)
        · exact hi (.inr ha)
      simp only [readn, read, ha, if_neg he]

/-- `readn` returns exactly what the first read returns that is not interrupted. -/
theorem readn_eq_some : (∃ fuel, r.readn count fuel d = some (d', res)) ↔
    ∃ k, (∀ j < k, r.Interrupted (d.reads + j)) ∧ ¬ r.Interrupted (d.reads + k) ∧
      r.read ⟨d.pos, d.reads + k⟩ count = (d', res) := by
  constructor
  · rintro ⟨fuel, h⟩
    induction fuel generalizing d with
    | zero => cases h
    | succ fuel ih =>
        by_cases hi : r.Interrupted d.reads
        · rw [readn_interrupted hi] at h
          obtain ⟨k, hk, hn, hr⟩ := ih h
          have hadd (j : Nat) : d.reads + (j + 1) = d.reads + 1 + j := by omega
          refine ⟨k + 1, fun j hj => ?_, hadd k ▸ hn, hadd k ▸ hr⟩
          cases j with
          | zero => exact hi
          | succ j => exact hadd j ▸ hk j (by omega)
        · rw [readn_decided hi] at h
          exact ⟨0, fun _ h => (Nat.not_lt_zero _ h).elim, hi, Option.some.inj h⟩
  · rintro ⟨k, hk, hn, hr⟩
    refine ⟨k + 1, ?_⟩
    induction k generalizing d with
    | zero => rw [readn_decided hn, ← hr, Nat.add_zero]
    | succ k ih =>
        have hadd (j : Nat) : d.reads + (j + 1) = d.reads + 1 + j := by omega
        rw [readn_interrupted (hk 0 (by omega))]
        exact ih (d := ⟨d.pos, d.reads + 1⟩) (fun j hj => hadd j ▸ hk (j + 1) (by omega))
          (hadd k ▸ hn) (hadd k ▸ hr)

/-! ## What arrives -/

theorem length_bytes (f : File) (offset count : Nat) :
    (f.bytes offset count).length = min count (f.size - offset) := by
  unfold File.bytes
  rw [List.length_map, List.length_range]

theorem getD_bytes (f : File) {offset count i : Nat} (hi : i < (f.bytes offset count).length) :
    (f.bytes offset count).getD i 0 = f.byte (offset + i) := by
  rw [length_bytes] at hi
  unfold File.bytes
  rw [List.getD_eq_getElem?_getD, List.getElem?_map, List.getElem?_range hi]
  rfl

theorem read_ok (h : r.read d count = (d', .ok bytes)) :
    ∃ n, bytes = r.file.bytes d.pos (min n count) := by
  unfold read at h
  split at h
  · cases h
  · rename_i n _
    cases h
    exact ⟨n, rfl⟩

theorem readn_ok (h : r.readn count fuel d = some (d', .ok bytes)) :
    ∃ n, bytes = r.file.bytes d.pos (min n count) := by
  obtain ⟨k, _, _, hr⟩ := readn_eq_some.mp ⟨fuel, h⟩
  exact read_ok (d := ⟨d.pos, d.reads + k⟩) hr

theorem lseek_eq_some (h : r.lseek d offset = some d') : d' = { d with pos := offset.toNat } := by
  unfold lseek at h
  split at h
  · exact (Option.some.inj h).symm
  · cases h

/-- Both builds get bytes from the offset on, as many as asked for at most. -/
theorem pread_ok (h : r.pread strictAnsi fuel d count offset = some (d', some bytes)) :
    ∃ n, bytes = r.file.bytes offset.toNat (min n count) := by
  unfold pread at h
  split at h
  · unfold preadStrict at h
    split at h
    · cases h
    · rename_i d₁ hd
      obtain rfl := lseek_eq_some hd
      split at h
      · cases h
      · rename_i d₂ res hn
        split at h
        · cases h
        · cases res with
          | error e => cases h
          | ok bs =>
              cases h
              exact readn_ok hn
  · unfold preadHost at h
    split at h
    · cases h
    · rename_i d₁ hd
      obtain rfl := lseek_eq_some hd
      cases hr : r.read { d with pos := offset.toNat } count with
      | mk d₂ res =>
          rw [hr] at h
          cases res with
          | error e => cases h
          | ok bs =>
              cases h
              exact read_ok hr

theorem loadElfPhdrs_ok {ehdr : Ehdr} {phdr : List Phdr}
    (h : r.loadElfPhdrs strictAnsi malloc fuel d ehdr = some (.ok phdr)) :
    ehdr.ePhnum ≠ 0 ∧ phdr = r.file.phdrs ehdr := by
  unfold loadElfPhdrs at h
  dsimp only at h
  split at h
  · cases h
  rename_i hsize
  split at h
  · cases h
  split at h
  · cases h
  · cases h
  rename_i hb
  split at h
  · cases h
  rename_i hlen
  cases h
  obtain ⟨n, rfl⟩ := pread_ok hb
  refine ⟨fun h0 => hsize (.inl (by rw [h0]; rfl)), List.map_congr_left fun k hk => ?_⟩
  have hk' := List.mem_range.mp hk
  have hmul : phdrSize * (k + 1) ≤ ehdr.ePhnum.toNat * phdrSize := by
    rw [Nat.mul_comm]
    exact Nat.mul_le_mul_right _ hk'
  exact Phdr.parse_congr fun i hi => getD_bytes r.file (by omega)

/-! ## The file header -/

theorem parse_congr {byte byte' : Nat → BitVec 8} (h : ∀ i < 58, byte i = byte' i) :
    Ehdr.parse byte = { Ehdr.parse byte' with eIdent := byte } := by
  have hf : ∀ w offset, offset + w / 8 ≤ 58 → elfField w byte offset = elfField w byte' offset :=
    fun w offset hle => elfField_congr fun i hi => h _ (by omega)
  unfold Ehdr.parse
  rw [Ehdr.mk.injEq]
  exact ⟨rfl, hf 16 16 (by omega), hf 16 18 (by omega), hf 32 20 (by omega), hf 64 24 (by omega),
    hf 64 32 (by omega), hf 32 48 (by omega), hf 16 52 (by omega), hf 16 54 (by omega),
    hf 16 56 (by omega)⟩

theorem extract_ePhnum (byte : Nat → BitVec 8) :
    (Ehdr.parse byte).ePhnum.extractLsb' 8 8 = byte 57 := by
  have hv : some ((LittleEndian.value 16 [byte 56, byte 57]).extractLsb' (8 * 1) 8) =
      [byte 56, byte 57][1]? := LittleEndian.extractLsb'_value (by decide) (Nat.lt_succ_self 1)
  exact Option.some.inj hv

theorem elfCheckEhdr_congr {ehdr ehdr' : Ehdr} (h : ∀ i < 7, ehdr.eIdent i = ehdr'.eIdent i)
    (he : ehdr = { ehdr' with eIdent := ehdr.eIdent }) :
    elfCheckEhdr ehdr = elfCheckEhdr ehdr' := by
  have hident : elfCheckEhdrIdent ehdr = elfCheckEhdrIdent ehdr' := by
    unfold elfCheckEhdrIdent
    rw [h 0 (by decide), h 1 (by decide), h 2 (by decide), h 3 (by decide), h 4 (by decide),
      h 5 (by decide), h 6 (by decide)]
  have hrest : elfCheckEhdr1 ehdr = elfCheckEhdr1 ehdr' := by
    rw [he]
    rfl
  unfold elfCheckEhdr
  rw [hident, hrest]

theorem ePhnum_eq_zero {byte : Nat → BitVec 8} (h56 : byte 56 = 0) (h57 : byte 57 = 0) :
    (Ehdr.parse byte).ePhnum = 0 := by
  show LittleEndian.value 16 [byte 56, byte 57] = 0
  rw [h56, h57]
  rfl

/-- A header that has arrived with a number of program headers is the one of the file:
with fewer than 57 bytes that number is zero, and byte 57 is zero in the file. -/
theorem header_exact {f : File} {n : Nat} {byte : Nat → BitVec 8}
    (hbyte : ∀ i, byte i = if i < min binprmBufSize f.size then f.byte i else 0)
    (hnum : (Ehdr.parse byte).ePhnum.toNat < 256)
    (hne : (Ehdr.parse fun i => (f.bytes 0 (min n binprmBufSize)).getD i 0).ePhnum ≠ 0) {i : Nat}
    (hi : i < 58) : (f.bytes 0 (min n binprmBufSize)).getD i 0 = byte i := by
  have hlen := length_bytes f 0 (min n binprmBufSize)
  generalize hbs : f.bytes 0 (min n binprmBufSize) = bs at *
  have hout {i : Nat} (hle : bs.length ≤ i) : bs.getD i 0 = 0 := by
    rw [List.getD_eq_getElem?_getD, List.getElem?_eq_none hle]
    rfl
  rcases Nat.lt_or_ge i bs.length with hlt | hge
  · have hin : i < min binprmBufSize f.size := by omega
    rw [hbyte, if_pos hin, ← hbs, getD_bytes f (hbs ▸ hlt), Nat.zero_add]
  · rcases Nat.lt_or_ge i 57 with hlt | hge'
    · exact (hne (ePhnum_eq_zero (hout (by omega)) (hout (by omega)))).elim
    · obtain rfl : i = 57 := by omega
      rw [hout hge, ← extract_ePhnum byte]
      refine BitVec.eq_of_toNat_eq ?_
      rw [BitVec.extractLsb'_toNat, Nat.shiftRight_eq_div_pow, Nat.div_eq_of_lt hnum]
      rfl

/-! ## The headers -/

theorem exists_readn (hi : ∀ k, ∃ j, k ≤ j ∧ ¬ r.Interrupted j) (count : Nat) (d : At) :
    ∃ fuel x, r.readn count fuel d = some x := by
  classical
  have hex : ∃ k, ¬ r.Interrupted (d.reads + k) := by
    obtain ⟨j, hj, hn⟩ := hi d.reads
    exact ⟨j - d.reads, by rwa [Nat.add_sub_cancel' hj]⟩
  obtain ⟨fuel, h⟩ := readn_eq_some.mpr ⟨Nat.find hex,
    fun j hj => not_not.mp (Nat.find_min hex hj), Nat.find_spec hex, rfl⟩
  exact ⟨fuel, _, h⟩

theorem readn_mono {x : At × Except Errno (List (BitVec 8))} (h : r.readn count fuel d = some x)
    (m : Nat) : r.readn count (fuel + m) d = some x := by
  induction fuel generalizing d with
  | zero => cases h
  | succ fuel ih =>
      rw [Nat.succ_add]
      by_cases hi : r.Interrupted d.reads
      · rw [readn_interrupted hi] at h ⊢
        exact ih h
      · rw [readn_decided hi] at h ⊢
        exact h

theorem exists_loadElfPhdrs (strictAnsi malloc : Bool)
    (hi : ∀ k, ∃ j, k ≤ j ∧ ¬ r.Interrupted j) (d : At) (ehdr : Ehdr) :
    ∃ fuel, ∀ m, (r.loadElfPhdrs strictAnsi malloc (fuel + m) d ehdr).isSome = true := by
  obtain ⟨fuel, x, h⟩ := exists_readn hi (ehdr.ePhnum.toNat * phdrSize)
    { d with pos := ehdr.ePhoff.toNat }
  refine ⟨fuel, fun m => ?_⟩
  have hread := readn_mono h m
  have hpread : (r.pread strictAnsi (fuel + m) d (ehdr.ePhnum.toNat * phdrSize)
      ehdr.ePhoff).isSome = true := by
    unfold pread preadStrict
    split
    · split
      · rfl
      · rename_i hd
        obtain rfl := lseek_eq_some hd
        rw [hread]
        dsimp only
        split <;> rfl
    · rfl
  unfold loadElfPhdrs
  dsimp only
  split
  · rfl
  split
  · rfl
  obtain ⟨⟨d', bytes⟩, hb⟩ := Option.isSome_iff_exists.mp hpread
  rw [hb]
  cases bytes with
  | none => rfl
  | some bytes =>
      dsimp only
      split <;> rfl

/-- If the host does not interrupt for ever, the headers are read or refused. -/
theorem exists_headers (hi : ∀ k, ∃ j, k ≤ j ∧ ¬ r.Interrupted j) :
    ∃ fuel, (r.headers strictAnsi malloc fuel).isSome = true := by
  obtain ⟨fuel, ⟨d, res⟩, h⟩ := exists_readn hi binprmBufSize ⟨0, 0⟩
  cases res with
  | error e =>
      refine ⟨fuel, ?_⟩
      unfold headers
      rw [h]
      rfl
  | ok bytes =>
      obtain ⟨fuel', h'⟩ := exists_loadElfPhdrs strictAnsi malloc hi d
        (.parse fun i => bytes.getD i 0)
      refine ⟨fuel' + fuel, ?_⟩
      unfold headers
      rw [Nat.add_comm, readn_mono h, Nat.add_comm]
      dsimp only
      split
      · rfl
      · rw [Option.isSome_map]
        exact h' fuel

/-- Whatever becomes of the reads, the loader goes by the headers of the file: a read that is
interrupted is tried again in the end, and one that fails or is short leads to an error.
The file has fewer than 256 program headers; with more it is refused if it is read
whole. -/
theorem headers_exact (h : Host) (prog : Program) (hf : r.file = h.file prog.fd)
    (hi : ∀ k, ∃ j, k ≤ j ∧ ¬ r.Interrupted j)
    (hnum : (prog.binprm h).ehdr.ePhnum.toNat < 256) :
    (∃ fuel, (r.headers strictAnsi malloc fuel).isSome = true) ∧
      ∀ fuel ehdr phdr, r.headers strictAnsi malloc fuel = some (.ok (ehdr, phdr)) →
        elfCheckEhdr (prog.binprm h).ehdr = .ok () ∧
          ehdr = { (prog.binprm h).ehdr with eIdent := ehdr.eIdent } ∧
          phdr = h.phdrs (prog.binprm h) := by
  refine ⟨exists_headers hi, fun fuel ehdr phdr hr => ?_⟩
  unfold headers at hr
  split at hr
  · cases hr
  · cases hr
  rename_i d bytes hread
  dsimp only at hr
  split at hr
  · cases hr
  rename_i hcheck
  obtain ⟨n, rfl⟩ := readn_ok hread
  obtain ⟨res, htable, hres⟩ := Option.map_eq_some_iff.mp hr
  obtain ⟨phdr', rfl, hpair⟩ := map_eq_ok hres
  obtain ⟨rfl, rfl⟩ := Prod.mk.inj hpair
  obtain ⟨hne, rfl⟩ := loadElfPhdrs_ok htable
  have hbyte : ∀ i, (prog.binprm h).buf i =
      if i < min binprmBufSize r.file.size then r.file.byte i else 0 := by
    rw [hf]
    exact fun _ => rfl
  have hexact : ∀ i < 58, (r.file.bytes 0 (min n binprmBufSize)).getD i 0 =
      (prog.binprm h).buf i := fun _ hi => header_exact hbyte hnum hne hi
  have he := parse_congr hexact
  refine ⟨(elfCheckEhdr_congr (fun i hi => hexact i (by omega)) he).symm.trans hcheck, he, ?_⟩
  rw [he, hf]
  rfl

end Reader

/-- The first read is interrupted, and the next one gets the file header only. -/
def shortReader : Reader :=
  ⟨execFile textAndBss, true, fun n =>
    if n = 0 then .error eintr else if n = 1 then .ok 64 else .ok 4096⟩

theorem shortReader_headers :
    (∃ fuel, (shortReader.headers true true fuel).isSome = true) ∧
      ∀ fuel ehdr phdr, shortReader.headers true true fuel = some (.ok (ehdr, phdr)) →
        elfCheckEhdr (execBinprm textAndBss).ehdr = .ok () ∧
          ehdr = { (execBinprm textAndBss).ehdr with eIdent := ehdr.eIdent } ∧
          phdr = (fileHost (execFile textAndBss)).phdrs (execBinprm textAndBss) := by
  have hdecided (k : Nat) : ¬ shortReader.Interrupted (k + 1) := by
    have hok : ∃ n, shortReader.answer (k + 1) = .ok n := by
      show ∃ n, (if k + 1 = 0 then Except.error eintr else
        if k + 1 = 1 then Except.ok 64 else Except.ok 4096) = Except.ok n
      rw [if_neg (Nat.succ_ne_zero k)]
      split
      · exact ⟨_, rfl⟩
      · exact ⟨_, rfl⟩
    obtain ⟨n, hn⟩ := hok
    rintro (h | h)
    · cases hn.symm.trans h
    · cases hn.symm.trans h
  exact Reader.headers_exact _ commandA rfl (fun k => ⟨k + 1, Nat.le_succ k, hdecided k⟩)
    (by decide +kernel)

example : ((shortReader.headers true true 3).map fun x => x.toOption.map fun y => y.2) =
    some (some textAndBss) := by decide +kernel

end Rvvk
