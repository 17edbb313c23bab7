import Rvvk.Lib.LittleEndian
import Rvvk.Lib.Span

/-!
# Guest memory

The emulator reaches guest memory through `g2h`, the addition of `guest_base`
modulo `2^64`. The addition is a bijection on addresses, so the memory is
indexed by guest addresses. A cell carries the host protection of its page: a
host access that the protection forbids, or that meets no page, raises
SIGSEGV.
-/

namespace Rvvk

/-- `target_ulong`, `target_uintptr` of a 64-bit target. -/
abbrev Word := BitVec 64

/-- What ends the emulator in the middle of its work. -/
inductive Fault
  | sigsegv
  | sigfpe
  | sigabrt
  /-- The guest has overwritten what the emulator goes by: anything may follow. -/
  | wild
deriving DecidableEq, Repr

structure Prot where
  read : Bool
  write : Bool
deriving DecidableEq, Repr

structure Cell where
  val : BitVec 8
  prot : Prot
deriving DecidableEq, Repr

abbrev Memory := Word → Option Cell

namespace Memory

def byte? (m : Memory) (a : Word) : Option (BitVec 8) :=
  (m a).bind fun c => if c.prot.read then some c.val else none

def prot? (m : Memory) (a : Word) : Option Prot :=
  (m a).map Cell.prot

def readByte (m : Memory) (a : Word) : Except Fault (BitVec 8) :=
  match m.byte? a with
  | some b => .ok b
  | none => .error .sigsegv

def writeByte (m : Memory) (a : Word) (b : BitVec 8) : Except Fault Memory :=
  match m a with
  | some c =>
      if c.prot.write then .ok fun x => if x = a then some { c with val := b } else m x
      else .error .sigsegv
  | none => .error .sigsegv

def loadBytes (m : Memory) (a : Word) : Nat → Except Fault (List (BitVec 8))
  | 0 => .ok []
  | n + 1 => do
      let b ← m.readByte a
      let bs ← loadBytes m (a + 1) n
      .ok (b :: bs)

def storeBytes (m : Memory) (a : Word) : List (BitVec 8) → Except Fault Memory
  | [] => .ok m
  | b :: bs => do
      let m ← m.writeByte a b
      storeBytes m (a + 1) bs

end Memory

def cpuLdud (m : Memory) (addr offset : Word) : Except Fault (BitVec 64) :=
  (LittleEndian.value 64) <$> m.loadBytes (addr + offset) 8

def cpuLduw (m : Memory) (addr offset : Word) : Except Fault (BitVec 32) :=
  (LittleEndian.value 32) <$> m.loadBytes (addr + offset) 4

def cpuLduh (m : Memory) (addr offset : Word) : Except Fault (BitVec 16) :=
  (LittleEndian.value 16) <$> m.loadBytes (addr + offset) 2

def cpuLdub (m : Memory) (addr offset : Word) : Except Fault (BitVec 8) :=
  (LittleEndian.value 8) <$> m.loadBytes (addr + offset) 1

def cpuStud (m : Memory) (addr offset : Word) (value : BitVec 64) : Except Fault Memory :=
  m.storeBytes (addr + offset) (LittleEndian.bytes value 8)

def cpuStuw (m : Memory) (addr offset : Word) (value : BitVec 32) : Except Fault Memory :=
  m.storeBytes (addr + offset) (LittleEndian.bytes value 4)

def cpuStuh (m : Memory) (addr offset : Word) (value : BitVec 16) : Except Fault Memory :=
  m.storeBytes (addr + offset) (LittleEndian.bytes value 2)

def cpuStub (m : Memory) (addr offset : Word) (value : BitVec 8) : Except Fault Memory :=
  m.storeBytes (addr + offset) (LittleEndian.bytes value 1)

/-! ## Computations that may fail -/

theorem bind_eq_ok {ε α β : Type} {x : Except ε α} {f : α → Except ε β} {b : β}
    (h : (x >>= f) = .ok b) : ∃ a, x = .ok a ∧ f a = .ok b := by
  cases x with
  | error e => cases h
  | ok a => exact ⟨a, rfl, h⟩

theorem map_eq_ok {ε α β : Type} {x : Except ε α} {f : α → β} {b : β}
    (h : x.map f = .ok b) : ∃ a, x = .ok a ∧ f a = b := by
  cases x with
  | error e => cases h
  | ok a => exact ⟨a, rfl, Except.ok.inj h⟩

theorem bind_eq_error {ε α β : Type} {x : Except ε α} {f : α → Except ε β} {e : ε}
    (h : (x >>= f) = .error e) : x = .error e ∨ ∃ a, x = .ok a ∧ f a = .error e := by
  cases x with
  | error _ => exact .inl (congrArg Except.error (Except.error.inj h))
  | ok a => exact .inr ⟨a, rfl, h⟩

theorem map_eq_error {ε α β : Type} {x : Except ε α} {f : α → β} {e : ε}
    (h : x.map f = .error e) : x = .error e := by
  cases x with
  | error _ => exact congrArg Except.error (Except.error.inj h)
  | ok a => cases h

namespace Memory

/-! ## Loads -/

theorem readByte_eq_ok {m : Memory} {a : Word} {b : BitVec 8} :
    m.readByte a = .ok b ↔ m.byte? a = some b := by
  unfold readByte
  cases m.byte? a <;> simp

theorem add_one_add_ofNat (a : Word) (i : Nat) :
    a + 1 + BitVec.ofNat 64 i = a + BitVec.ofNat 64 (i + 1) := by
  rw [BitVec.ofNat_add, BitVec.add_assoc, BitVec.add_comm 1 (BitVec.ofNat 64 i)]
  rfl

theorem loadBytes_cons_eq_ok {m : Memory} {a : Word} {n : Nat} {b : BitVec 8}
    {bs : List (BitVec 8)} :
    m.loadBytes a (n + 1) = .ok (b :: bs) ↔
      m.byte? a = some b ∧ m.loadBytes (a + 1) n = .ok bs := by
  rw [← readByte_eq_ok]
  constructor
  · intro h
    obtain ⟨b', hb, h⟩ := bind_eq_ok h
    obtain ⟨bs', hbs, h⟩ := bind_eq_ok h
    cases h
    exact ⟨hb, hbs⟩
  · rintro ⟨hb, hbs⟩
    simp only [loadBytes, hb, hbs, bind, Except.bind]

theorem loadBytes_eq_ok {m : Memory} {a : Word} {n : Nat} {bs : List (BitVec 8)} :
    m.loadBytes a n = .ok bs ↔
      bs.length = n ∧ ∀ i < n, m.byte? (a + BitVec.ofNat 64 i) = bs[i]? := by
  induction n generalizing a bs with
  | zero =>
      constructor
      · intro h
        cases h
        exact ⟨rfl, fun i hi => absurd hi (Nat.not_lt_zero i)⟩
      · rintro ⟨hl, _⟩
        rw [List.length_eq_zero_iff.mp hl]
        rfl
  | succ n ih =>
      cases bs with
      | nil =>
          refine iff_of_false (fun h => ?_) (fun h => absurd h.1 (Nat.zero_ne_add_one n))
          obtain ⟨b, _, h⟩ := bind_eq_ok h
          obtain ⟨bs, _, h⟩ := bind_eq_ok h
          cases h
      | cons b bs =>
          rw [loadBytes_cons_eq_ok, ih, List.length_cons, Nat.add_right_cancel_iff]
          constructor
          · rintro ⟨hb, hl, hall⟩
            refine ⟨hl, fun i hi => ?_⟩
            cases i with
            | zero => simpa using hb
            | succ i =>
                rw [← add_one_add_ofNat, List.getElem?_cons_succ]
                exact hall i (by omega)
          · rintro ⟨hl, hall⟩
            refine ⟨by simpa using hall 0 (by omega), hl, fun i hi => ?_⟩
            rw [add_one_add_ofNat]
            simpa using hall (i + 1) (by omega)

/-- A word is loaded exactly when its bytes are there to be read. -/
theorem value_loadBytes_eq_ok {m : Memory} {a : Word} {n : Nat} {v : BitVec (8 * n)} :
    LittleEndian.value (8 * n) <$> m.loadBytes a n = .ok v ↔
      ∀ i < n, m.byte? (a + BitVec.ofNat 64 i) = some (v.extractLsb' (8 * i) 8) := by
  constructor
  · intro h i hi
    cases hl : m.loadBytes a n with
    | error e =>
        rw [hl] at h
        cases h
    | ok bs =>
        rw [hl] at h
        obtain ⟨hlen, hbs⟩ := loadBytes_eq_ok.mp hl
        rw [hbs i hi, ← Except.ok.inj h, LittleEndian.extractLsb'_value (by omega) (by omega)]
  · intro h
    have hl : m.loadBytes a n = .ok (LittleEndian.bytes v n) := by
      refine loadBytes_eq_ok.mpr ⟨LittleEndian.length_bytes v n, fun i hi => ?_⟩
      rw [h i hi, LittleEndian.getElem?_bytes v hi]
    rw [hl]
    exact congrArg Except.ok (LittleEndian.value_bytes v n (Nat.le_refl _))

theorem cpuLduw_eq_ok {m : Memory} {a : Word} {v : BitVec 32} :
    cpuLduw m a 0 = .ok v ↔
      ∀ i < 4, m.byte? (a + BitVec.ofNat 64 i) = some (v.extractLsb' (8 * i) 8) := by
  have ha : a + 0 = a := BitVec.add_zero a
  unfold cpuLduw
  rw [ha]
  exact value_loadBytes_eq_ok (n := 4)

theorem cpuLduh_eq_ok {m : Memory} {a : Word} {v : BitVec 16} :
    cpuLduh m a 0 = .ok v ↔
      ∀ i < 2, m.byte? (a + BitVec.ofNat 64 i) = some (v.extractLsb' (8 * i) 8) := by
  have ha : a + 0 = a := BitVec.add_zero a
  unfold cpuLduh
  rw [ha]
  exact value_loadBytes_eq_ok (n := 2)

theorem exists_cpuLduw {m : Memory} {a : Word} :
    (∃ v, cpuLduw m a 0 = .ok v) ↔ ∀ i < 4, (m.byte? (a + BitVec.ofNat 64 i)).isSome = true := by
  constructor
  · rintro ⟨v, h⟩ i hi
    rw [cpuLduw_eq_ok.mp h i hi]
    rfl
  · intro h
    have hload : m.loadBytes (a + 0) 4 =
        .ok ((List.range 4).map fun i => (m.byte? (a + BitVec.ofNat 64 i)).getD 0) := by
      refine loadBytes_eq_ok.mpr ⟨by simp, fun i hi => ?_⟩
      obtain ⟨b, hb⟩ := Option.isSome_iff_exists.mp (h i hi)
      simp [hi, hb]
    unfold cpuLduw
    rw [hload]
    exact ⟨_, rfl⟩

/-! ## Stores keep the map of pages -/

/-- Same pages with the same protections, whatever they hold. -/
def SamePages (m m' : Memory) : Prop := ∀ a, m'.prot? a = m.prot? a

theorem SamePages.refl (m : Memory) : SamePages m m := fun _ => rfl

theorem SamePages.trans {m₁ m₂ m₃ : Memory} (h₁ : SamePages m₁ m₂) (h₂ : SamePages m₂ m₃) :
    SamePages m₁ m₃ := fun a => (h₂ a).trans (h₁ a)

theorem writeByte_spec {m m' : Memory} {a : Word} {b : BitVec 8} (h : m.writeByte a b = .ok m') :
    ∃ c, m a = some c ∧ c.prot.write = true ∧
      m' = fun x => if x = a then some { c with val := b } else m x := by
  unfold writeByte at h
  split at h
  · rename_i c hc
    split at h
    · rename_i hw
      cases h
      exact ⟨c, hc, hw, rfl⟩
    · cases h
  · cases h

theorem writeByte_samePages {m m' : Memory} {a : Word} {b : BitVec 8}
    (h : m.writeByte a b = .ok m') : SamePages m m' := by
  obtain ⟨c, hc, _, rfl⟩ := writeByte_spec h
  intro x
  by_cases hx : x = a
  · subst hx
    simp [prot?, hc]
  · simp [prot?, hx]

theorem storeBytes_samePages {m m' : Memory} {a : Word} {bs : List (BitVec 8)}
    (h : m.storeBytes a bs = .ok m') : SamePages m m' := by
  induction bs generalizing m a with
  | nil =>
      cases h
      exact SamePages.refl _
  | cons b bs ih =>
      simp only [storeBytes, bind, Except.bind] at h
      cases hw : m.writeByte a b with
      | error e => simp [hw] at h
      | ok m₁ =>
          simp only [hw] at h
          exact (writeByte_samePages hw).trans (ih h)

theorem SamePages.isSome_byte? {m m' : Memory} (h : SamePages m m') (a : Word) :
    (m'.byte? a).isSome = (m.byte? a).isSome := by
  have ha := h a
  simp only [prot?, byte?] at ha ⊢
  cases hm : m a with
  | none =>
      cases hm' : m' a with
      | none => rfl
      | some c' => simp [hm, hm'] at ha
  | some c =>
      cases hm' : m' a with
      | none => simp [hm, hm'] at ha
      | some c' =>
          simp only [hm, hm', Option.map_some, Option.some.injEq] at ha
          simp only [Option.bind_some, ha]
          cases c.prot.read <;> rfl

def filled (b : BitVec 8) : Memory := fun _ => some ⟨b, true, true⟩

theorem cpuLduw_filled (b : BitVec 8) (a : Word) :
    cpuLduw (filled b) a 0 = .ok (LittleEndian.value 32 [b, b, b, b]) := by
  refine cpuLduw_eq_ok.mpr fun i hi => ?_
  rw [LittleEndian.extractLsb'_value (by omega) (by simpa using hi)]
  have hb : [b, b, b, b][i]? = some b := by
    match i, hi with
    | 0, _ | 1, _ | 2, _ | 3, _ => rfl
  rw [hb]
  rfl

/-- Writable memory that holds the words from address 0 on, and zero elsewhere. -/
def ofWords (ws : List (BitVec 32)) : Memory := fun a =>
  some ⟨(ws.getD (a.toNat / 4) 0).extractLsb' (8 * (a.toNat % 4)) 8, true, true⟩

/-! ## What a store leaves -/

def Writable (m : Memory) (a : Word) : Prop := ∃ c, m a = some c ∧ c.prot.write = true

theorem writeByte_apply {m m' : Memory} {a : Word} {b : BitVec 8} (h : m.writeByte a b = .ok m')
    (x : Word) : m' x = (m x).map fun c => if x = a then { c with val := b } else c := by
  obtain ⟨c, hc, _, rfl⟩ := writeByte_spec h
  dsimp only
  by_cases hx : x = a
  · subst hx
    simp [hc]
  · simp [hx]

theorem writeByte_eq_ok {m : Memory} {a : Word} {b : BitVec 8} (h : m.Writable a) :
    ∃ m', m.writeByte a b = .ok m' := by
  obtain ⟨c, hc, hw⟩ := h
  simp only [writeByte, hc, hw, if_true]
  exact ⟨_, rfl⟩

theorem SamePages.writable {m m' : Memory} (h : SamePages m m') {a : Word} :
    m'.Writable a ↔ m.Writable a := by
  have ha := h a
  unfold Writable
  simp only [prot?] at ha
  cases hm : m a <;> cases hm' : m' a <;> simp_all

theorem toNat_sub_succ {a x : Word} (h : x ≠ a) : (x - a).toNat = (x - (a + 1)).toNat + 1 := by
  have hne : (x - a).toNat ≠ 0 := by
    intro he
    have h0 : x - a = 0 := BitVec.eq_of_toNat_eq he
    exact h (by grind)
  have hs : x - (a + 1) = x - a - 1#64 := by grind
  have h1 : 1#64 ≤ x - a := Nat.pos_of_ne_zero hne
  rw [hs, BitVec.toNat_sub_of_le h1]
  exact (Nat.succ_pred_eq_of_ne_zero hne).symm

theorem storeBytes_apply {m m' : Memory} {a : Word} {bs : List (BitVec 8)}
    (h : m.storeBytes a bs = .ok m') (hl : bs.length ≤ 2 ^ 64) (x : Word) :
    m' x = (m x).map fun c => { c with val := (bs[(x - a).toNat]?).getD c.val } := by
  induction bs generalizing m a with
  | nil =>
      cases h
      simp
  | cons b bs ih =>
      simp only [storeBytes, bind, Except.bind] at h
      cases hw : m.writeByte a b with
      | error e => simp [hw] at h
      | ok m₁ =>
          simp only [hw] at h
          rw [ih h (by simp at hl; omega), writeByte_apply hw x, Option.map_map]
          congr 1
          funext c
          by_cases hx : x = a
          · subst hx
            have hoff : x - (x + 1) = -1#64 := by grind
            have hnone : bs[(-1#64).toNat]? = none := by
              rw [List.getElem?_eq_none_iff]
              exact Nat.le_of_lt_succ hl
            simp only [Function.comp_apply, if_true, hoff, hnone, BitVec.sub_self]
            rfl
          · simp [hx, toNat_sub_succ hx]

/-- A store succeeds exactly when every byte of it can be written. -/
theorem storeBytes_eq_ok {m : Memory} {a : Word} {bs : List (BitVec 8)} :
    (∃ m', m.storeBytes a bs = .ok m') ↔
      ∀ i < bs.length, m.Writable (a + BitVec.ofNat 64 i) := by
  induction bs generalizing m a with
  | nil => exact ⟨fun _ i hi => absurd hi (Nat.not_lt_zero i), fun _ => ⟨m, rfl⟩⟩
  | cons b bs ih =>
      simp only [storeBytes, bind, Except.bind]
      constructor
      · rintro ⟨m', h⟩ i hi
        cases hw : m.writeByte a b with
        | error e => simp [hw] at h
        | ok m₁ =>
            simp only [hw] at h
            cases i with
            | zero =>
                obtain ⟨c, hc, hcw, _⟩ := writeByte_spec hw
                exact ⟨c, by simpa using hc, hcw⟩
            | succ i =>
                rw [← add_one_add_ofNat, ← (writeByte_samePages hw).writable]
                exact ih.mp ⟨m', h⟩ i (by simpa using hi)
      · intro hall
        obtain ⟨m₁, hw⟩ := writeByte_eq_ok (b := b) (by simpa using hall 0 (by simp))
        simp only [hw]
        refine ih.mpr fun i hi => ?_
        rw [add_one_add_ofNat, (writeByte_samePages hw).writable]
        exact hall (i + 1) (by simpa using hi)

/-! ## Faults -/

theorem readByte_error {m : Memory} {a : Word} {e : Fault} (h : m.readByte a = .error e) :
    e = .sigsegv := by
  unfold readByte at h
  split at h
  · cases h
  · cases h
    rfl

theorem loadBytes_error {m : Memory} {a : Word} {n : Nat} {e : Fault}
    (h : m.loadBytes a n = .error e) : e = .sigsegv := by
  induction n generalizing a with
  | zero => cases h
  | succ n ih =>
      simp only [loadBytes, bind, Except.bind] at h
      cases hb : m.readByte a with
      | error e' =>
          simp only [hb] at h
          cases h
          exact readByte_error hb
      | ok b =>
          simp only [hb] at h
          cases hr : m.loadBytes (a + 1) n with
          | error e' =>
              simp only [hr] at h
              cases h
              exact ih hr
          | ok bs => simp only [hr, reduceCtorEq] at h

theorem writeByte_error {m : Memory} {a : Word} {b : BitVec 8} {e : Fault}
    (h : m.writeByte a b = .error e) : e = .sigsegv := by
  unfold writeByte at h
  split at h
  · split at h
    · cases h
    · cases h
      rfl
  · cases h
    rfl

theorem storeBytes_error {m : Memory} {a : Word} {bs : List (BitVec 8)} {e : Fault}
    (h : m.storeBytes a bs = .error e) : e = .sigsegv := by
  induction bs generalizing m a with
  | nil => cases h
  | cons b bs ih =>
      simp only [storeBytes, bind, Except.bind] at h
      cases hw : m.writeByte a b with
      | error e' =>
          simp only [hw] at h
          cases h
          exact writeByte_error hw
      | ok m₁ =>
          simp only [hw] at h
          exact ih h

theorem value_loadBytes_error {w n : Nat} {m : Memory} {a : Word} {e : Fault}
    (h : LittleEndian.value w <$> m.loadBytes a n = .error e) : e = .sigsegv := by
  cases hl : m.loadBytes a n with
  | error e' =>
      rw [hl] at h
      cases h
      exact loadBytes_error hl
  | ok bs =>
      rw [hl] at h
      cases h

end Memory

end Rvvk
