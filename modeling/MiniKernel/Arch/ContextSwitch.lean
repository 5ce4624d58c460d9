import MiniKernel.Arch.Cpu

/-!
# `switch_context`

Source: kernel/arch/x86_64/context_switch.asm; the first frame of a thread is the one
`sched_spawn_prio_with_context` writes (kernel/sched/thread.c).

A thread that has called `switch_context` is eight words on its stack: the callee-saved
registers, the flags and the return address.
-/
namespace MiniKernel.Arch
open Lib.Stack

def calleeSaved : List Reg := [.rbp, .rbx, .r12, .r13, .r14, .r15]

/-- `switch_context(old_rsp, new_rsp)`. -/
def switchContext : List Instr :=
  [.pushfq, .push .rbp, .push .rbx, .push .r12, .push .r13, .push .r14, .push .r15,
    .storeRsp .rdi, .loadRsp .rsi,
    .pop .r15, .pop .r14, .pop .r13, .pop .r12, .pop .rbx, .pop .rbp, .popfq, .ret]

/-- A thread inside `switch_context`: what it goes on with when it is switched in again. -/
structure Suspended where
  callee : Reg → Word
  rflags : Flags
  rip : Word
  rsp : Word

namespace Suspended

/-- The frame, lowest word first. -/
def words (s : Suspended) : List Word :=
  calleeSaved.reverse.map s.callee ++ [s.rflags.word, s.rip]

def bottom (s : Suspended) : Word := s.rsp - 64

/-- The call returns: the caller-saved registers are whatever they are. -/
def resume (s : Suspended) (c : Cpu) : Cpu :=
  { c with
    reg := fun r => if r ∈ calleeSaved then s.callee r else c.reg r
    rflags := s.rflags
    rip := s.rip
    rsp := s.rsp }

/-- A thread that has not run yet starts at its entry with the whole stack. -/
def fresh (entry top : Word) : Suspended where
  callee := fun _ => 0
  rflags := .load 0x202
  rip := entry
  rsp := top

end Suspended

/-- The caller as it stands when the call of `switch_context` has pushed `back`. -/
def Cpu.suspended (c : Cpu) (back : Word) : Suspended :=
  { callee := c.reg, rflags := c.rflags, rip := back, rsp := c.rsp }

/-- The stores of `sched_spawn_prio_with_context`, from the top of the stack down. -/
def firstFrame (entry : Word) : List Word := [entry, 0x202, 0, 0, 0, 0, 0, 0]

/-! ## The two halves -/

variable {m : Machine} {s : Suspended}

/-- What the call and the pushes store, in their order. -/
def Suspended.pushed (s : Suspended) : List Word :=
  s.rip :: s.rflags.word :: calleeSaved.map s.callee

theorem Suspended.reverse_pushed (s : Suspended) : s.pushed.reverse = s.words := rfl

theorem Suspended.reverse_firstFrame (entry top : Word) :
    (firstFrame entry).reverse = (Suspended.fresh entry top).words := rfl

def suspend (target back : Word) : List Instr :=
  .call target back :: .pushfq :: calleeSaved.map .push

def resumeCode : List Instr := calleeSaved.reverse.map .pop ++ [.popfq, .ret]

theorem switchContext_halves (target back : Word) :
    .call target back :: switchContext =
      suspend target back ++ [.storeRsp .rdi, .loadRsp .rsi] ++ resumeCode := rfl

theorem execAll_suspend (m : Machine) (target back : Word) :
    execAll m (suspend target back) =
      let m' := m.setStack (pushAll (m.cpu.suspended back).pushed m.stack)
      { m' with cpu := { m'.cpu with rip := target } } := by
  rw [suspend, execAll_cons, execAll_cons, execAll_push]
  rfl

/-- Whatever the frame was written by, the second half takes it up. -/
theorem execAll_resume (m : Machine) (s : Suspended) (below : m.cpu.rsp = s.bottom)
    (fits : m.cpu.rsp.toNat + 64 < 2 ^ 64)
    (stored : loadAll m.mem m.cpu.rsp.toNat 8 = s.words) :
    execAll m resumeCode = { m with cpu := s.resume m.cpu } := by
  obtain ⟨callee, others⟩ :
      loadAll m.mem m.cpu.rsp.toNat 6 = calleeSaved.reverse.map s.callee ∧
        loadAll m.mem (m.cpu.rsp.toNat + 48) 2 = [s.rflags.word, s.rip] := by
    refine List.append_inj ?_ (loadAll_length ..)
    rw [← loadAll_add m.mem m.cpu.rsp.toNat 6 2]
    exact stored
  have flags : load m.mem (m.cpu.rsp + 48).toNat = s.rflags.word := by
    rw [show (m.cpu.rsp + 48).toNat = m.cpu.rsp.toNat + 48 by bv_omega]
    exact (List.cons.inj others).1
  have rip : load m.mem (m.cpu.rsp + 48 + 8).toNat = s.rip := by
    rw [show (m.cpu.rsp + 48 + 8).toNat = m.cpu.rsp.toNat + 48 + 8 by bv_omega]
    exact (List.cons.inj (List.cons.inj others).2).1
  have regs : (fun r => if r ∈ calleeSaved.reverse then s.callee r else m.cpu.reg r) =
      (s.resume m.cpu).reg := by
    funext r
    exact if_congr List.mem_reverse rfl rfl
  have top : m.cpu.rsp + 48 + 8 + 8 = s.rsp := by
    rw [below, Suspended.bottom]
    bv_omega
  have popped := execAll_pop (m := m) calleeSaved.reverse s.callee
    (by change _ + 48 < _; omega) callee
  rw [resumeCode, execAll_append, popped, regs]
  change ({ m with cpu := { s.resume m.cpu with
    rflags := .load (load m.mem (m.cpu.rsp + 48).toNat)
    rip := load m.mem (m.cpu.rsp + 48 + 8).toNat
    rsp := m.cpu.rsp + 48 + 8 + 8 } } : Machine) = _
  rw [flags, rip, top, Flags.load_word]
  rfl

theorem Suspended.resume_moved (s : Suspended) (c : Cpu) (rip rsp : Word) :
    s.resume { c with rip := rip, rsp := rsp } = s.resume c := rfl

/-- The memory the first half leaves: the caller's frame, and its address in the old
field. -/
def switchMemory (c : Cpu) (oldRsp back : Word) (mem : Lib.Buffer) : Lib.Buffer :=
  store (pushAll (c.suspended back).pushed ⟨mem, c.rsp⟩).mem oldRsp.toNat (c.suspended back).bottom

/-- The call takes up the frame that the new field names. -/
theorem execAll_switch (m : Machine) (s : Suspended) (target back oldRsp newRsp : Word)
    (rdi : m.cpu.reg .rdi = oldRsp) (rsi : m.cpu.reg .rsi = newRsp)
    (found : load (switchMemory m.cpu oldRsp back m.mem) newRsp.toNat = s.bottom)
    (fits : s.bottom.toNat + 64 < 2 ^ 64)
    (stored : loadAll (switchMemory m.cpu oldRsp back m.mem) s.bottom.toNat 8 = s.words) :
    execAll m (.call target back :: switchContext) = { m with
      mem := switchMemory m.cpu oldRsp back m.mem
      cpu := s.resume m.cpu } := by
  have sp : (pushAll (m.cpu.suspended back).pushed m.stack).sp = (m.cpu.suspended back).bottom :=
    pushAll_sp_eq ..
  rw [switchContext_halves, execAll_append, execAll_append, execAll_suspend]
  let mem := store (pushAll (m.cpu.suspended back).pushed m.stack).mem (m.cpu.reg .rdi).toNat
    (pushAll (m.cpu.suspended back).pushed m.stack).sp
  have same : mem = switchMemory m.cpu oldRsp back m.mem := by
    change store _ _ (pushAll (m.cpu.suspended back).pushed m.stack).sp = _
    rw [sp, rdi]
    rfl
  let m' : Machine := { m with
    mem := mem
    cpu := { m.cpu with rip := target, rsp := load mem (m.cpu.reg .rsi).toNat } }
  have below : m'.cpu.rsp = s.bottom := by
    change load mem _ = _
    rw [same, rsi, found]
  have taken := execAll_resume m' s below (by rw [below]; exact fits) (by
    rw [below]
    change loadAll mem _ _ = _
    rw [same, stored])
  have moved : s.resume m'.cpu = s.resume m.cpu := s.resume_moved m.cpu _ _
  rw [moved] at taken
  change execAll m' resumeCode = _
  rw [taken, ← same]

end MiniKernel.Arch
