import Rvvk.Translate.Code

/-!
# The bytes translation reads

`decode` reads four bytes at the address of every instruction, before it knows the
length. Two of them belong to a compressed instruction, and the other two to the
next one, unless the block ends there.
-/

namespace Rvvk

/-- The opcode at `pc`, read from the bytes of its instruction and no others. -/
def ownOpcode (mem : Memory) (pc : Word) : Except Fault (BitVec 32) := do
  let low ← cpuLduh mem pc 0
  if insnLen (low.setWidth 32) = 2 then .ok (low.setWidth 32) else cpuLduw mem pc 0

/-- The straight line from `pc` is mapped up to the last instruction of a block of at
most `room` instructions, which is `opcode` at `last`. -/
inductive MappedLine (mem : Memory) : Nat → Word → Word → BitVec 32 → Prop
  | transfer {room : Nat} {pc : Word} {opcode : BitVec 32} :
      ownOpcode mem pc = .ok opcode → (insnAt pc opcode).op.transfers = true →
      MappedLine mem (room + 1) pc pc opcode
  | full {pc : Word} {opcode : BitVec 32} :
      ownOpcode mem pc = .ok opcode → (insnAt pc opcode).op.transfers = false →
      MappedLine mem 1 pc pc opcode
  | next {room : Nat} {pc last : Word} {opcode opcode' : BitVec 32} :
      ownOpcode mem pc = .ok opcode → (insnAt pc opcode).op.transfers = false →
      MappedLine mem (room + 1) (pc + insnLen opcode) last opcode' →
      MappedLine mem (room + 2) pc last opcode'

/-- A window of four bytes at the instruction is mapped. -/
def WindowMapped (mem : Memory) (pc : Word) (opcode : BitVec 32) : Prop :=
  insnLen opcode = 4 ∨
    ((mem.byte? (pc + 2)).isSome = true ∧ (mem.byte? (pc + 3)).isSome = true)

instance (mem : Memory) (pc : Word) (opcode : BitVec 32) :
    Decidable (WindowMapped mem pc opcode) :=
  inferInstanceAs (Decidable (_ ∨ _))

/-! ## One instruction -/

theorem forall_lt_two {p : Nat → Prop} : (∀ i < 2, p i) ↔ p 0 ∧ p 1 := by
  constructor
  · intro h
    exact ⟨h 0 (by omega), h 1 (by omega)⟩
  · rintro ⟨h0, h1⟩ i hi
    match i, hi with
    | 0, _ => exact h0
    | 1, _ => exact h1

theorem forall_lt_four {p : Nat → Prop} : (∀ i < 4, p i) ↔ (∀ i < 2, p i) ∧ p 2 ∧ p 3 := by
  constructor
  · intro h
    exact ⟨fun i hi => h i (by omega), h 2 (by omega), h 3 (by omega)⟩
  · rintro ⟨h, h2, h3⟩ i hi
    match i, hi with
    | 0, _ => exact h 0 (by omega)
    | 1, _ => exact h 1 (by omega)
    | 2, _ => exact h2
    | 3, _ => exact h3

theorem ownOpcode_mapped {mem : Memory} {pc : Word} {opcode : BitVec 32}
    (h : ownOpcode mem pc = .ok opcode) :
    ∀ i < 2, (mem.byte? (pc + BitVec.ofNat 64 i)).isSome = true := by
  intro i hi
  obtain ⟨low, hlow, _⟩ := bind_eq_ok h
  rw [Memory.cpuLduh_eq_ok.mp hlow i hi]
  rfl

theorem ownOpcode_sameOpcode {mem : Memory} {pc : Word} {opcode word : BitVec 32}
    (h : ownOpcode mem pc = .ok opcode) (hw : cpuLduw mem pc 0 = .ok word) :
    SameOpcode opcode word := by
  obtain ⟨low, hlow, h⟩ := bind_eq_ok h
  split at h
  · rename_i hlen
    cases h
    refine sameOpcode_of_bytes fun i hi => ?_
    have hi : i < 2 := by
      rw [hlen] at hi
      exact hi
    have hb := Memory.cpuLduh_eq_ok.mp hlow i hi
    rw [Memory.cpuLduw_eq_ok.mp hw i (by omega)] at hb
    rw [Option.some.inj hb]
    apply BitVec.eq_of_getLsbD_eq
    intro j hj
    have hlt : 8 * i + j < 32 := by omega
    simp [hj, hlt]
  · rw [h] at hw
    cases hw
    exact ⟨rfl, fun _ _ => rfl⟩

/-- When the read of `decode` goes through. -/
theorem cpuLduw_iff_window {mem : Memory} {pc : Word} {opcode : BitVec 32}
    (h : ownOpcode mem pc = .ok opcode) :
    (∃ word, cpuLduw mem pc 0 = .ok word) ↔ WindowMapped mem pc opcode := by
  constructor
  · intro hw
    have hall := Memory.exists_cpuLduw.mp hw
    exact .inr (forall_lt_four.mp hall).2
  · rintro (hlen | hwin)
    · obtain ⟨low, _, h⟩ := bind_eq_ok h
      split at h
      · rename_i h2
        cases h
        rw [h2] at hlen
        cases hlen
      · exact ⟨opcode, h⟩
    · exact Memory.exists_cpuLduw.mpr (forall_lt_four.mpr ⟨ownOpcode_mapped h, hwin⟩)

theorem WindowMapped.of_next {mem : Memory} {pc : Word} {opcode opcode' : BitVec 32}
    (h : ownOpcode mem (pc + insnLen opcode) = .ok opcode') : WindowMapped mem pc opcode := by
  rcases insnLen_eq opcode with ⟨hl, _⟩ | ⟨hl, _⟩
  · exact .inl hl
  · have hm := forall_lt_two.mp (ownOpcode_mapped h)
    rw [hl, BitVec.add_assoc, BitVec.add_assoc] at hm
    exact .inr hm

theorem MappedLine.first {mem : Memory} {room : Nat} {pc last : Word} {opcode : BitVec 32}
    (h : MappedLine mem room pc last opcode) : ∃ first, ownOpcode mem pc = .ok first := by
  cases h with
  | transfer ho | full ho | next ho => exact ⟨_, ho⟩

/-! ## A block -/

/-- On a mapped line all reads of `decode` but the last one go through. -/
theorem decode_line {mem : Memory} {room : Nat} {pc last : Word} {opcode : BitVec 32}
    (h : MappedLine mem room pc last opcode) {ctx : Ctx} (hx : ctx.exit = false)
    (hp : ctx.pc = pc) :
    (∃ r, decode mem room ctx = .ok r) ↔ WindowMapped mem last opcode := by
  induction h generalizing ctx with
  | @transfer room pc opcode ho ht =>
      subst hp
      rw [← cpuLduw_iff_window ho, decode_succ mem room hx]
      constructor
      · rintro ⟨r, hr⟩
        obtain ⟨word, hw, _⟩ := bind_eq_ok hr
        exact ⟨word, hw⟩
      · rintro ⟨word, hw⟩
        rw [hw]
        simp only [bind, Except.bind, (ownOpcode_sameOpcode ho hw).insnAt, ht, if_true]
        exact ⟨_, rfl⟩
  | @full pc opcode ho ht =>
      subst hp
      rw [← cpuLduw_iff_window ho, decode_succ mem 0 hx]
      constructor
      · rintro ⟨r, hr⟩
        obtain ⟨word, hw, _⟩ := bind_eq_ok hr
        exact ⟨word, hw⟩
      · rintro ⟨word, hw⟩
        rw [hw]
        simp only [bind, Except.bind, if_true]
        split <;> exact ⟨_, rfl⟩
  | @next room pc last opcode opcode' ho ht hl ih =>
      subst hp
      obtain ⟨first, hf⟩ := hl.first
      obtain ⟨word, hw⟩ := (cpuLduw_iff_window ho).mpr (.of_next hf)
      have hs := ownOpcode_sameOpcode ho hw
      have hn : (ctx.next word).pc = ctx.pc + insnLen opcode := by rw [← hs.1]; rfl
      rw [← ih (Ctx.next_exit hx) hn, decode_succ mem (room + 1) hx, hw]
      simp only [bind, Except.bind, hs.insnAt, ht, Bool.false_eq_true, if_false,
        Nat.add_one_ne_zero]
      constructor
      · rintro ⟨r, hr⟩
        obtain ⟨r', hr', _⟩ := map_eq_ok hr
        exact ⟨r', hr'⟩
      · rintro ⟨r, hr⟩
        rw [hr]
        exact ⟨_, rfl⟩

theorem translate_iff_decode {mem : Memory} {pc : Word} :
    (∃ t, translate mem pc = .ok t) ↔ ∃ r, decode mem transMax (.start pc) = .ok r := by
  constructor
  · rintro ⟨t, ht⟩
    obtain ⟨ctx, hd, _⟩ := translate_eq_ok.mp ht
    exact ⟨_, hd⟩
  · rintro ⟨⟨ctx, insns⟩, hd⟩
    exact ⟨⟨insns, ctx.pcNext0, ctx.pcNext1⟩, translate_eq_ok.mpr ⟨ctx, hd, rfl, rfl⟩⟩

/-- A block whose instructions are mapped can be translated if and only if its last
instruction is a long one or the two bytes behind it are mapped too. -/
theorem translate_reads_iff {mem : Memory} {pc last : Word} {opcode : BitVec 32}
    (h : MappedLine mem transMax pc last opcode) :
    (∃ t, translate mem pc = .ok t) ↔ WindowMapped mem last opcode :=
  translate_iff_decode.trans (decode_line h rfl rfl)

/-- A page that ends with a `nop` of four bytes and a `c.j` of two. -/
def jumpAtPageEnd : Memory := fun a =>
  if 0x10000 ≤ a ∧ a < 0x11000 then
    some ⟨if a = 0x10ffa then 0x13 else if a = 0x10ffe then 0x01 else if a = 0x10fff then 0xa0
      else 0, true, false⟩
  else none

theorem jumpAtPageEnd_line : MappedLine jumpAtPageEnd transMax 0x10ffa 0x10ffe 0xa001 :=
  @MappedLine.next _ _ _ _ 0x13 _ (by decide) (by decide) (.transfer (by decide) (by decide))

theorem translate_jumpAtPageEnd :
    (∃ t, translate jumpAtPageEnd 0x10ffa = .ok t) ↔ WindowMapped jumpAtPageEnd 0x10ffe 0xa001 :=
  translate_reads_iff jumpAtPageEnd_line

theorem translate_reads_past_page :
    MappedLine jumpAtPageEnd transMax 0x10ffa 0x10ffe 0xa001 ∧
      translate jumpAtPageEnd 0x10ffa = .error .sigsegv :=
  ⟨jumpAtPageEnd_line, by decide +kernel⟩

end Rvvk
