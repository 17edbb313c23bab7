import Rvvk.Lib.Feed
import Rvvk.Cpu.Atomics

/-!
# Load-reserved and store-conditional

Sequences of instructions beside the reservation that the A extension keeps. The
emulator keeps none: a load-reserved is a load, and a store-conditional stores
and reports success whether or not anything is reserved.
-/

namespace Rvvk

/-- A reserved word: its number of bytes and its address. -/
structure Reservation where
  size : Nat
  addr : Word

namespace Insn

def reserves (insn : Insn) (m : Machine) : Option Reservation :=
  match insn.op with
  | .lrW => some ⟨4, m.gpr insn.rs1⟩
  | .lrD => some ⟨8, m.gpr insn.rs1⟩
  | _ => none

def wants (insn : Insn) (m : Machine) : Option Reservation :=
  match insn.op with
  | .scW => some ⟨4, m.gpr insn.rs1⟩
  | .scD => some ⟨8, m.gpr insn.rs1⟩
  | _ => none

end Insn

/-- The machine and the reservation of the A extension beside it. -/
structure Hart where
  m : Machine
  reserved : Option Reservation

namespace Hart

/-- A load-reserved sets the reservation, any store-conditional ends it. -/
def reservedAfter (h : Hart) (insn : Insn) : Option Reservation :=
  if (insn.wants h.m).isSome then none else (insn.reserves h.m).or h.reserved

def step (h : Hart) (insn : Insn) (h' : Hart) : Prop :=
  insn.run h.m = .ok h'.m ∧ h'.reserved = h.reservedAfter insn

/-- Without a reservation of its word a store-conditional changes no memory and
leaves a non-zero value. -/
def Respects (h : Hart) (insn : Insn) : Prop :=
  ∀ r, insn.wants h.m = some r → h.reserved ≠ some r →
    ∀ m', insn.run h.m = .ok m' → m'.mem = h.m.mem ∧ m'.gpr insn.rd ≠ 0

def CanStore (m : Machine) (r : Reservation) : Prop :=
  ∀ i < r.size, m.mem.Writable (r.addr + BitVec.ofNat 64 i)

def Reserved (h : Hart) (insn : Insn) : Prop :=
  ∀ r, insn.wants h.m = some r → CanStore h.m r → h.reserved = some r

/-! ## One store-conditional -/

theorem scW_run {insn : Insn} {m : Machine} (hop : insn.op = .scW) :
    insn.run m = (m.mem.storeBytes (m.gpr insn.rs1)
      (LittleEndian.bytes (low32 (m.gpr insn.rs2)) 4)).map fun mem =>
        (m.setMem mem).setGpr insn.rd 0 := by
  have ha : m.gpr insn.rs1 + 0 = m.gpr insn.rs1 := BitVec.add_zero _
  have hrun : insn.run m = Op.scW.run insn m := by
    rw [← hop]
    rfl
  rw [hrun]
  simp only [Op.run, cpuStuw, ha]
  cases m.mem.storeBytes (m.gpr insn.rs1) (LittleEndian.bytes (low32 (m.gpr insn.rs2)) 4) <;> rfl

theorem scD_run {insn : Insn} {m : Machine} (hop : insn.op = .scD) :
    insn.run m = (m.mem.storeBytes (m.gpr insn.rs1)
      (LittleEndian.bytes (m.gpr insn.rs2) 8)).map fun mem =>
        (m.setMem mem).setGpr insn.rd 0 := by
  have ha : m.gpr insn.rs1 + 0 = m.gpr insn.rs1 := BitVec.add_zero _
  have hrun : insn.run m = Op.scD.run insn m := by
    rw [← hop]
    rfl
  rw [hrun]
  simp only [Op.run, cpuStud, ha]
  cases m.mem.storeBytes (m.gpr insn.rs1) (LittleEndian.bytes (m.gpr insn.rs2) 8) <;> rfl

/-- What a store-conditional does, whatever is reserved: it stores and leaves 0,
or the host raises SIGSEGV. -/
def AlwaysStores (m : Machine) (insn : Insn) : Prop :=
  (insn.op = .scW → CanStore m ⟨4, m.gpr insn.rs1⟩ →
    ∃ m', insn.run m = .ok m' ∧
      Swapped (n := 4) insn m m' 0 (low32 (m.gpr insn.rs2))) ∧
  (insn.op = .scD → CanStore m ⟨8, m.gpr insn.rs1⟩ →
    ∃ m', insn.run m = .ok m' ∧ Swapped (n := 8) insn m m' 0 (m.gpr insn.rs2)) ∧
  ∀ r, insn.wants m = some r → ¬ CanStore m r → insn.run m = .error .sigsegv

/-- A load-reserved does what a load with offset 0 does. -/
def JustLoads (m : Machine) (insn : Insn) : Prop :=
  (insn.op = .lrW → insn.run m = { insn with imm := 0, handler := .doLw }.run m) ∧
  (insn.op = .lrD → insn.run m = { insn with imm := 0, handler := .doLd }.run m)

theorem just_loads (m : Machine) (insn : Insn) : JustLoads m insn := by
  have hrun {op : Op} (hop : insn.op = op) : insn.run m = op.run insn m := by
    rw [← hop]
    rfl
  exact ⟨fun hop => (hrun hop).trans rfl, fun hop => (hrun hop).trans rfl⟩

section

variable {n : Nat} {insn : Insn} {m : Machine} {new : BitVec (8 * n)}

theorem stores_of_canStore (hn : n ≤ 2 ^ 64)
    (hrun : insn.run m = (m.mem.storeBytes (m.gpr insn.rs1) (LittleEndian.bytes new n)).map
      fun mem => (m.setMem mem).setGpr insn.rd 0)
    (hc : CanStore m ⟨n, m.gpr insn.rs1⟩) :
    ∃ m', insn.run m = .ok m' ∧ Swapped insn m m' 0 new := by
  have hw : ∀ i < (LittleEndian.bytes new n).length,
      m.mem.Writable (m.gpr insn.rs1 + BitVec.ofNat 64 i) := by
    intro i hi
    rw [LittleEndian.length_bytes] at hi
    exact hc i hi
  obtain ⟨mem, hs⟩ := Memory.storeBytes_eq_ok.mpr hw
  rw [hrun, hs]
  exact ⟨_, rfl, swapped_of_replaces (Memory.storeBytes_replaces hn hs)⟩

theorem faults_of_not_canStore
    (hrun : insn.run m = (m.mem.storeBytes (m.gpr insn.rs1) (LittleEndian.bytes new n)).map
      fun mem => (m.setMem mem).setGpr insn.rd 0)
    (hc : ¬ CanStore m ⟨n, m.gpr insn.rs1⟩) : insn.run m = .error .sigsegv := by
  rw [hrun]
  cases hs : m.mem.storeBytes (m.gpr insn.rs1) (LittleEndian.bytes new n) with
  | error e =>
      rw [Memory.storeBytes_error hs]
      rfl
  | ok mem =>
      have hw := Memory.storeBytes_eq_ok.mp ⟨mem, hs⟩
      rw [LittleEndian.length_bytes] at hw
      exact absurd hw hc

end

theorem wants_cases {insn : Insn} {m : Machine} {r : Reservation} (h : insn.wants m = some r) :
    insn.op = .scW ∧ r = ⟨4, m.gpr insn.rs1⟩ ∨ insn.op = .scD ∧ r = ⟨8, m.gpr insn.rs1⟩ := by
  unfold Insn.wants at h
  split at h
  · rename_i hop
    exact .inl ⟨hop, (Option.some.inj h).symm⟩
  · rename_i hop
    exact .inr ⟨hop, (Option.some.inj h).symm⟩
  · cases h

theorem always_stores (m : Machine) (insn : Insn) : AlwaysStores m insn := by
  refine ⟨fun hop hc => ?_, fun hop hc => ?_, fun r hr hc => ?_⟩
  · exact stores_of_canStore (n := 4) (by decide) (scW_run hop) hc
  · exact stores_of_canStore (n := 8) (by decide) (scD_run hop) hc
  · rcases wants_cases hr with ⟨hop, rfl⟩ | ⟨hop, rfl⟩
    · exact faults_of_not_canStore (n := 4) (scW_run hop) hc
    · exact faults_of_not_canStore (n := 8) (scD_run hop) hc

theorem zero_of_canStore {insn : Insn} {m : Machine} {r : Reservation}
    (hr : insn.wants m = some r) (hc : CanStore m r) :
    ∃ m', insn.run m = .ok m' ∧ m'.gpr insn.rd = 0 := by
  obtain ⟨hw, hd, _⟩ := always_stores m insn
  rcases wants_cases hr with ⟨hop, rfl⟩ | ⟨hop, rfl⟩
  · obtain ⟨m', hm, hs⟩ := hw hop hc
    exact ⟨m', hm, hs.rd⟩
  · obtain ⟨m', hm, hs⟩ := hd hop hc
    exact ⟨m', hm, hs.rd⟩

theorem respects_iff (h : Hart) (insn : Insn) : Respects h insn ↔ Reserved h insn := by
  constructor
  · intro hre r hr hc
    by_cases hres : h.reserved = some r
    · exact hres
    · obtain ⟨m', hm, hz⟩ := zero_of_canStore hr hc
      exact absurd hz (hre r hr hres m' hm).2
  · intro hre r hr hres m' hm
    by_cases hc : CanStore h.m r
    · exact absurd (hre r hr hc) hres
    · rw [(always_stores h.m insn).2.2 r hr hc] at hm
      cases hm

/-! ## Sequences of instructions -/

/-- In every state a load-reserved is a load, and a store-conditional stores its value and
leaves 0 if its bytes can be written, whatever was reserved; so a sequence of instructions
respects reservations exactly when each store-conditional that can store finds its word
reserved. -/
theorem sequences :
    (∀ m insn, JustLoads m insn ∧ AlwaysStores m insn) ∧
    ∀ h is, Feed.Each step Respects h is ↔ Feed.Each step Reserved h is :=
  ⟨fun m insn => ⟨just_loads m insn, always_stores m insn⟩, fun _ _ => Feed.each_congr respects_iff⟩

/-- `sc.w x1, x3, (x2)`, with nothing reserved, stores and leaves 0. -/
theorem sc_without_lr :
    ¬ Feed.Each step Respects ⟨.boot (Memory.filled 0), none⟩ [⟨2, 3, 1, 0, 0, .doScW⟩] := by
  intro h
  have hc : CanStore (.boot (Memory.filled 0)) ⟨4, 0⟩ := fun _ _ => ⟨⟨0, true, true⟩, rfl, rfl⟩
  have hr := (respects_iff _ _).mp h.1 ⟨4, 0⟩ rfl hc
  cases hr

end Hart

end Rvvk
