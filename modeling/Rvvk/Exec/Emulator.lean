import Rvvk.Exec.Record
import Rvvk.Exec.Vm
import Rvvk.Mmap.InsnBuffer

/-!
# The emulator in its own memory

`cpu_exec` with the instruction arrays where they are: `translate` stores each record in
the instruction buffer, and `block_exec` calls what it finds there. The buffer has guest
addresses like everything else, so a guest can read its records and overwrite them.
-/

namespace Rvvk

/-- The guest address of `b->insn[i]`. -/
def Block.slot (c : Setup) (b : Block) (i : Nat) : Word :=
  h2g c b.insn + BitVec.ofNat 64 (insnSize * i)

/-- The handler stores over its own record and then writes a register that is named there.
Whether it sees the old name or the new one is up to the compiler. -/
def Insn.clobbers (insn : Insn) (m : Machine) (slot : Word) : Bool :=
  match insn.op, insn.target? m with
  | .store _, _ => false
  | _, some (base, n) => Span.Mem slot insnSize base ∨ Span.Mem base n slot
  | _, none => false

namespace Binary

variable (x : Binary) (c : Setup)

/-- The loop of `decode`. What a `trans_*` function does not write stays in the slot. -/
def decode : Nat → Ctx → Word → Memory → Except Fault (Ctx × List Insn × Memory)
  | 0, ctx, _, mem => .ok (ctx, [], mem)
  | room + 1, ctx, slot, mem => do
      let opcode ← cpuLduw mem ctx.pc 0
      let len := insnLen opcode
      let prior ← loadOperands mem slot
      let (ctx, insn) := decodeInsn ctx prior opcode
      let mem ← mem.storeBytes slot (x.record insn)
      if ctx.exit then .ok (ctx, [insn], mem)
      else if room = 0 then .ok ({ ctx with link := true, pcNext0 := ctx.pc + len }, [insn], mem)
      else do
        let (ctx, insns, mem) ←
          decode room { ctx with pc := ctx.pc + len } (slot + BitVec.ofNat 64 insnSize) mem
        .ok (ctx, insn :: insns, mem)

def translate (mem : Memory) (slot pc : Word) : Except Fault (Translation × Memory) := do
  let (ctx, insns, mem) ← x.decode transMax (.start pc) slot mem
  .ok ({ insns := insns, next0 := ctx.pcNext0, next1 := ctx.pcNext1 }, mem)

/-- The block for a pc, translated now if there is none. -/
def lookup (cache : Cache) (mem : Memory) (pc : Word) : Except Fault (Cache × Ptr × Memory) :=
  match cache.findBlock pc with
  | some b => .ok (cache, b, mem)
  | none => do
      let (cache, b) := cache.newBlock pc
      let (t, mem) ← x.translate mem (h2g c cache.insnBufferPtr) pc
      .ok (cache.fill b t, b, mem)

/-- One turn of the loop of `cpu_exec`, up to the call of `block_exec`. -/
def enter (prev : Option Ptr) (m : Machine) (cache : Cache) : Except Fault Vm :=
  if m.exception = .none then do
    let (cache, b, mem) ← x.lookup c cache m.mem m.pc
    .ok ⟨m.setMem mem, Vm.patchPrev cache prev b, .body b 0⟩
  else .ok ⟨m, cache, .returned⟩

/-- One handler call, or one turn of the loop around it. Of the arrays in the table only
their lengths are used, which are the counts of the blocks. -/
def step (s : Vm) : Except Fault Vm :=
  match s.ctl with
  | .returned => .ok s
  | .start => x.enter c none s.m s.cache
  | .body p i =>
      match s.cache.heap[p]? with
      | none => .error .sigsegv
      | some b =>
          if i < b.insns.length then do
            let insn ← x.loadInsn s.m.mem (b.slot c i)
            if insn.clobbers s.m (b.slot c i) then .error .wild
            else do
              let m ← insn.exec s.m
              .ok { s with m := m, ctl := .body p (i + 1) }
          else
            match Vm.jmpNext b s.m.pc with
            | some next => .ok { s with ctl := .body next 0 }
            | none => x.enter c (some p) s.m s.cache

def run : Nat → Vm → Except Fault Vm := Run.run (x.step c)

/-- The record that the next step calls the handler of. -/
def insn? (s : Vm) : Option Insn :=
  match s.ctl with
  | .body p i =>
      (s.cache.heap[p]?).bind fun b =>
        if i < b.insns.length then (x.loadInsn s.m.mem (b.slot c i)).toOption else none
  | _ => none

/-- The records that the first `n` steps call the handlers of. -/
def log : Nat → Vm → List Insn := Run.log (x.step c) fun s => (x.insn? c s).toList

end Binary

/-- The guest address is one of the instruction buffer. -/
def InBuffer (c : Setup) (a : Word) : Prop := Span.Mem (h2g c insnBufferMapStart) insnBufferSize a

instance (c : Setup) (a : Word) : Decidable (InBuffer c a) :=
  inferInstanceAs (Decidable (Span.Mem _ _ _))

/-- The guest address is one of the emulator's own memory, which the memory of the guest
does not show: what a guest finds and does there is not followed. -/
def Binary.Own (x : Binary) (c : Setup) (a : Word) : Prop := x.own (g2h c a) = true

/-- The buffer as `alloc_insn_buffer` leaves it. -/
def FreshBuffer (c : Setup) (mem : Memory) : Prop :=
  ∀ a, InBuffer c a → mem a = some ⟨0, true, true⟩

/-- A machine with a fresh buffer. -/
def Machine.buffered (c : Setup) (m : Machine) : Machine :=
  m.setMem (m.mem.mapPages (h2g c insnBufferMapStart) insnBufferSize .zero ⟨true, true⟩ 0)

theorem buffered_fresh (c : Setup) (m : Machine) : FreshBuffer c (m.buffered c).mem :=
  fun _ ha => if_pos ha

theorem buffered_other {c : Setup} {m : Machine} {a : Word} (ha : ¬ InBuffer c a) :
    (m.buffered c).mem a = m.mem a := if_neg ha

theorem allocInsnBuffer_fresh {h : Host} {c : Setup} {s : Space}
    (hd : (allocInsnBuffer h c s).2 = true) : FreshBuffer c (allocInsnBuffer h c s).1.mem := by
  have hne : (hostMmap h c s (insnBufferArgs c)).2 ≠ failed := bne_iff_ne.mp hd
  have hfd : (insnBufferArgs c).fd.slt 0 = true := by
    show (-1 : BitVec 32).slt 0 = true
    decide
  intro a ha
  show (hostMmap h c s (insnBufferArgs c)).1.mem a = _
  obtain ⟨_, _, b, hb, hm⟩ := hostMmap_ok hne
  have hzero : b = .zero := by
    unfold Host.backing? at hb
    rw [hfd, if_pos rfl] at hb
    split at hb
    · exact (Option.some.inj hb).symm
    · split at hb
      · exact (Option.some.inj hb).symm
      · cases hb
  have hprot : Prot.ofBits (insnBufferArgs c).prot = ⟨true, true⟩ := by
    show Prot.ofBits (protRead ||| protWrite) = _
    decide
  rw [hm, insnBufferArgs_pages, hzero, hprot]
  exact if_pos ha

/-! ## Runs -/

/-- The states of the emulator. `cpu_exec` is first called with an empty table and a fresh
buffer and takes steps. When it has returned it may be called again, with any machine that
`init` allows and that has the buffer and the emulator's own memory as they were. -/
inductive Binary.Reach (x : Binary) (c : Setup) (init : Machine → Prop)
    (good : Vm → Vm → Prop) : Vm → Prop
  | start (m : Machine) (hm : init m) (hb : FreshBuffer c m.mem) : Reach x c init good (.start m)
  | step {s s' : Vm} (h : Reach x c init good s) (hs : x.step c s = .ok s') (hg : good s s') :
      Reach x c init good s'
  | call {s : Vm} (h : Reach x c init good s) (hs : s.ctl = .returned) (m : Machine)
      (hm : init m) (hb : ∀ a, InBuffer c a ∨ x.Own c a → m.mem a = s.m.mem a)
      (hg : good s ⟨m, s.cache, .start⟩) : Reach x c init good ⟨m, s.cache, .start⟩

namespace Binary.Reach

variable {x : Binary} {c : Setup} {init : Machine → Prop} {good good' : Vm → Vm → Prop} {s s' : Vm}

theorem mono (hg : ∀ s s', good s s' → good' s s') (h : x.Reach c init good s) :
    x.Reach c init good' s := by
  induction h with
  | start m hm hb => exact .start m hm hb
  | step _ hs hk ih => exact ih.step hs (hg _ _ hk)
  | call _ hc m hm hb hk ih => exact ih.call hc m hm hb (hg _ _ hk)

theorem run {n : Nat} (h : x.Reach c init good s) (hg : Run.Along (x.step c) good n s)
    (hr : x.run c n s = .ok s') : x.Reach c init good s' := by
  induction n generalizing s with
  | zero =>
      cases hr
      exact h
  | succ n ih =>
      obtain ⟨t, ht, hr⟩ := Run.run_succ_eq_ok.mp hr
      exact ih (h.step ht (hg t ht).1) (hg t ht).2 hr

end Binary.Reach

end Rvvk
