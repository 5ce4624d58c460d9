import MiniKernel.Arch.Cpu

/-!
# Interrupt delivery and the stubs

Source: kernel/arch/x86_64/{isr.asm,irq_stubs.asm,usermode.asm},
kernel/include/kernel/idt.h (`registers_t`).

The processor puts five or six words on the stack, the stub the rest of a
`registers_t`, and calls the C handler with its address. Nothing below the stack pointer
of interrupted kernel code survives.
-/
namespace MiniKernel.Arch
open Lib.Stack

/-- The vectors `idt_init` installs a stub for. -/
inductive Vector where
  | isr (n : Fin 32)
  | irq (n : Fin 2)
  | syscall
  deriving DecidableEq, Repr

def Vector.number : Vector → Word
  | .isr n => BitVec.ofNat 64 n
  | .irq n => BitVec.ofNat 64 (32 + n)
  | .syscall => 128

/-- The vectors of the macro `ISR_ERR`: the processor pushes an error code itself. -/
def Vector.pushesErrorCode : Vector → Bool
  | .isr n => n.val ∈ [8, 10, 11, 12, 13, 14, 17]
  | _ => false

/-- Addresses the linker chose: `switch_context`, the stubs, the three C handlers, and in
each common stub the instruction after the call. -/
structure Image where
  switchContext : Word
  stub : Vector → Word
  isrHandler : Word
  irqHandler : Word
  syscallHandler : Word
  isrBack : Word
  irqBack : Word
  syscallBack : Word

namespace Image

def handler (image : Image) : Vector → Word
  | .isr _ => image.isrHandler
  | .irq _ => image.irqHandler
  | .syscall => image.syscallHandler

def back (image : Image) : Vector → Word
  | .isr _ => image.isrBack
  | .irq _ => image.irqBack
  | .syscall => image.syscallBack

end Image

/-- `registers_t` from its last field up to `rax`, as the stubs push them. -/
def generalRegs : List Reg :=
  [.rax, .rbx, .rcx, .rdx, .rsi, .rdi, .rbp, .r8, .r9, .r10, .r11, .r12, .r13, .r14, .r15]

/-- `isr%1`, `irq%1` and `isr128` up to the common stub. -/
def entryCode (v : Vector) : List Instr :=
  if v.pushesErrorCode then [.pushImm v.number] else [.pushImm 0, .pushImm v.number]

def commonStub (image : Image) (v : Vector) : List Instr :=
  generalRegs.map .push ++ [.movRsp .rdi, .call (image.handler v) (image.back v)]

/-- From the instruction after the call on. -/
def commonReturn : List Instr :=
  [.pop .r15, .pop .r14, .pop .r13, .pop .r12, .pop .r11, .pop .r10, .pop .r9, .pop .r8,
    .pop .rbp, .pop .rdi, .pop .rsi, .pop .rdx, .pop .rcx, .pop .rbx, .pop .rax,
    .addRsp 16, .iretq]

/-- The stack an interrupt is taken on, aligned as the processor does it. -/
def interruptStack (c : Cpu) (rsp0 : Word) : Word :=
  (if c.User then rsp0 else c.rsp) &&& ~~~15

/-- The processor takes an interrupt. -/
def deliver (image : Image) (v : Vector) (error : Word) (m : Machine) : Machine :=
  let c := m.cpu
  let frame := [c.ss.setWidth 64, c.rsp, c.rflags.word, c.cs.setWidth 64, c.rip]
  let s := pushAll (if v.pushesErrorCode then frame ++ [error] else frame)
    ⟨m.mem, interruptStack c m.rsp0⟩
  { m with
    mem := s.mem
    cpu := { c with
      rsp := s.sp
      rip := image.stub v
      rflags := c.rflags.gated
      cs := 8
      ss := if c.User then 0 else c.ss } }

/-- An interrupt up to the first instruction of its C handler. -/
def trap (image : Image) (v : Vector) (error : Word) (m : Machine) : Machine :=
  execAll (deliver image v error m) (entryCode v ++ commonStub image v)

/-- The return of the C handler: the stub goes on where the call pushed. -/
def handlerReturn (image : Image) (m : Machine) : Machine :=
  let m := exec m .ret
  if m.cpu.rip ∈ [image.isrBack, image.irqBack, image.syscallBack] then execAll m commonReturn else m

/-- The selectors with their requested privilege level 3. -/
def userCodeSel : Word := 0x1B
def userDataSel : Word := 0x23

/-- `enter_usermode(entry, stack, arg0, arg1)` after its loads of the data selectors. -/
def enterUsermode : List Instr :=
  [.pushImm userDataSel, .push .rsi, .pushImm 0x202, .pushImm userCodeSel, .push .rdi,
    .movReg .rdi .rdx, .movReg .rsi .rcx, .iretq]

/-! ## The frame of an interrupt -/

/-- Interrupted code, with the frame the stub has built for it: `frame` is the address of
the `registers_t`. -/
structure Interrupted where
  cpu : Cpu
  vector : Vector
  error : Word
  frame : Word

namespace Interrupted

/-- The fields of the `registers_t` in memory order. -/
def registers (i : Interrupted) : List Word :=
  generalRegs.reverse.map i.cpu.reg ++
    [i.vector.number, i.error, i.cpu.rip, i.cpu.cs.setWidth 64, i.cpu.rflags.word, i.cpu.rsp,
      i.cpu.ss.setWidth 64]

/-- The frame with the return address of the call below it. -/
def words (image : Image) (i : Interrupted) : List Word := image.back i.vector :: i.registers

def bottom (i : Interrupted) : Word := i.frame - 8

/-- The handler is about to run its first instruction. -/
def entered (image : Image) (i : Interrupted) : Cpu where
  reg := Function.update i.cpu.reg .rdi i.frame
  rsp := i.bottom
  rip := image.handler i.vector
  rflags := i.cpu.rflags.gated
  cs := 8
  ss := if i.cpu.User then 0 else i.cpu.ss

/-- `regs->rax = v`. -/
def setRax (i : Interrupted) (v : Word) : Interrupted :=
  { i with cpu := { i.cpu with reg := Function.update i.cpu.reg .rax v } }

end Interrupted

/-- The offset of the field `rax` of `registers_t`. -/
def raxOffset : Nat := 14 * 8

/-- What an interrupt makes of the code it interrupts. -/
def Cpu.interrupted (c : Cpu) (rsp0 : Word) (v : Vector) (error : Word) : Interrupted where
  cpu := c
  vector := v
  error := if v.pushesErrorCode then error else 0
  frame := interruptStack c rsp0 - 176

variable {m : Machine} {i : Interrupted} {image : Image} {v : Vector}

/-- What the processor and the entry store, in their order. -/
def Interrupted.head (i : Interrupted) : List Word :=
  [i.cpu.ss.setWidth 64, i.cpu.rsp, i.cpu.rflags.word, i.cpu.cs.setWidth 64, i.cpu.rip, i.error,
    i.vector.number]

def Interrupted.pushed (image : Image) (i : Interrupted) : List Word :=
  i.head ++ generalRegs.map i.cpu.reg ++ [image.back i.vector]

theorem Interrupted.reverse_pushed (image : Image) (i : Interrupted) :
    (i.pushed image).reverse = i.words image := rfl

theorem Interrupted.set_words (image : Image) (i : Interrupted) (v : Word) :
    (i.words image).set 15 v = (i.setRax v).words image := rfl

/-- In the stub, with the registers still those of the interrupted code. -/
def Interrupted.inStub (image : Image) (i : Interrupted) (m : Machine) (s : State) : Machine :=
  { m with
    mem := s.mem
    cpu := { i.entered image with reg := i.cpu.reg, rsp := s.sp, rip := image.stub i.vector } }

/-- With or without an error code from the processor, seven words precede the registers. -/
theorem execAll_entryCode (image : Image) (v : Vector) (error : Word) (m : Machine) :
    execAll (deliver image v error m) (entryCode v) =
      let i := m.cpu.interrupted m.rsp0 v error
      i.inStub image m (pushAll i.head ⟨m.mem, interruptStack m.cpu m.rsp0⟩) := by
  unfold entryCode deliver Cpu.interrupted
  cases v.pushesErrorCode with
  | true => rfl
  | false => rfl

theorem Interrupted.inStub_push (image : Image) (i : Interrupted) (m : Machine) (s : State) :
    execAll (i.inStub image m s) (generalRegs.map .push) =
      i.inStub image m (pushAll (generalRegs.map i.cpu.reg) s) := by
  rw [execAll_push]
  rfl

theorem Interrupted.inStub_call (image : Image) (i : Interrupted) (m : Machine) (s : State)
    (frame : s.sp = i.frame) :
    execAll (i.inStub image m s) [.movRsp .rdi, .call (image.handler i.vector) (image.back i.vector)] =
      { m with mem := (push (image.back i.vector) s).mem, cpu := i.entered image } := by
  change ({ m with
    mem := (push (image.back i.vector) s).mem
    cpu := { i.entered image with
      reg := Function.update i.cpu.reg .rdi s.sp
      rsp := s.sp - 8 } } : Machine) = _
  rw [frame]
  rfl

theorem trap_eq (image : Image) (v : Vector) (error : Word) (m : Machine) :
    trap image v error m =
      let i := m.cpu.interrupted m.rsp0 v error
      { m with
        mem := (pushAll (i.pushed image) ⟨m.mem, interruptStack m.cpu m.rsp0⟩).mem
        cpu := i.entered image } := by
  have frame : (pushAll ((m.cpu.interrupted m.rsp0 v error).head ++
      generalRegs.map (m.cpu.interrupted m.rsp0 v error).cpu.reg)
      ⟨m.mem, interruptStack m.cpu m.rsp0⟩).sp = (m.cpu.interrupted m.rsp0 v error).frame := pushAll_sp_eq ..
  rw [pushAll_append] at frame
  rw [trap, execAll_append, execAll_entryCode, commonStub, execAll_append]
  dsimp only
  rw [Interrupted.inStub_push, Interrupted.pushed, pushAll_append, pushAll_append]
  exact Interrupted.inStub_call image (m.cpu.interrupted m.rsp0 v error) m _ frame

theorem setWidth_back (sel : BitVec 16) : (sel.setWidth 64).setWidth 16 = sel := by
  rw [BitVec.setWidth_setWidth_of_le sel (by decide), BitVec.setWidth_eq]

theorem Image.back_mem (image : Image) (v : Vector) :
    image.back v ∈ [image.isrBack, image.irqBack, image.syscallBack] := by
  cases v with
  | isr n => exact List.mem_cons_self
  | irq n => exact List.mem_cons_of_mem _ List.mem_cons_self
  | syscall => exact List.mem_cons_of_mem _ (List.mem_cons_of_mem _ List.mem_cons_self)

theorem generalRegs_all (r : Reg) : r ∈ generalRegs.reverse := by cases r <;> decide

/-- The pops and the `iretq` take up a `registers_t`. -/
theorem execAll_commonReturn (m : Machine) (i : Interrupted)
    (fits : m.cpu.rsp.toNat + 176 < 2 ^ 64)
    (stored : loadAll m.mem m.cpu.rsp.toNat 22 = i.registers) :
    execAll m commonReturn = { m with cpu := i.cpu } := by
  obtain ⟨general, others⟩ :
      loadAll m.mem m.cpu.rsp.toNat 15 = generalRegs.reverse.map i.cpu.reg ∧
        loadAll m.mem (m.cpu.rsp.toNat + 120) 7 =
          [i.vector.number, i.error, i.cpu.rip, i.cpu.cs.setWidth 64, i.cpu.rflags.word,
            i.cpu.rsp, i.cpu.ss.setWidth 64] := by
    refine List.append_inj ?_ (loadAll_length ..)
    rw [← loadAll_add m.mem m.cpu.rsp.toNat 15 7]
    exact stored
  have words : loadAll m.mem (m.cpu.rsp + 120 + 16).toNat 5 =
      [i.cpu.rip, i.cpu.cs.setWidth 64, i.cpu.rflags.word, i.cpu.rsp, i.cpu.ss.setWidth 64] := by
    rw [show (m.cpu.rsp + 120 + 16).toNat = m.cpu.rsp.toNat + 120 + 8 + 8 by bv_omega]
    rw [loadAll_succ, loadAll_succ] at others
    exact (List.cons.inj (List.cons.inj others).2).2
  have regs : (fun r => if r ∈ generalRegs.reverse then i.cpu.reg r else m.cpu.reg r) =
      i.cpu.reg := by
    funext r
    exact if_pos (generalRegs_all r)
  have popped := execAll_pop (m := m) generalRegs.reverse i.cpu.reg
    (by change _ + 120 < _; omega) general
  have code : commonReturn = generalRegs.reverse.map .pop ++ [.addRsp 16, .iretq] := rfl
  have high : (m.cpu.rsp + 120 + 16).toNat + 40 < 2 ^ 64 := by bv_omega
  have last := iretq_eq (m := { m with
    cpu := { m.cpu with reg := i.cpu.reg, rsp := m.cpu.rsp + 120 + 16 } }) high words
  rw [setWidth_back, setWidth_back, Flags.load_word] at last
  rw [code, execAll_append, popped, regs]
  exact last

/-- Whatever the frame holds by now, the return of the handler takes it up. -/
theorem handlerReturn_eq (m : Machine) (i : Interrupted) (fits : m.cpu.rsp.toNat + 184 < 2 ^ 64)
    (stored : loadAll m.mem m.cpu.rsp.toNat 23 = i.words image) :
    handlerReturn image m = { m with cpu := i.cpu } := by
  obtain ⟨back, frame⟩ := List.cons.inj (loadAll_succ m.mem m.cpu.rsp.toNat 22 ▸ stored)
  have up : (m.cpu.rsp + 8).toNat = m.cpu.rsp.toNat + 8 := by bv_omega
  have returned : exec m .ret = { m with
      cpu := { m.cpu with rip := image.back i.vector, rsp := m.cpu.rsp + 8 } } := by
    rw [← back]
    rfl
  rw [handlerReturn, returned]
  dsimp only
  rw [if_pos (image.back_mem i.vector), execAll_commonReturn _ i (by dsimp only; omega)
    (by dsimp only; rw [up]; exact frame)]

/-! ## Entering a program -/

/-- The frame of `enter_usermode`, in the order it is pushed. -/
def userFrame (entry stack : Word) : List Word :=
  [userDataSel, stack, 0x202, userCodeSel, entry]

/-- A program starts in ring 3 with its two arguments, and with interrupts enabled. -/
def userEntry (c : Cpu) : Cpu where
  reg := Function.update (Function.update c.reg .rdi (c.reg .rdx)) .rsi (c.reg .rcx)
  rsp := c.reg .rsi
  rip := c.reg .rdi
  rflags := .load 0x202
  cs := userCodeSel.setWidth 16
  ss := userDataSel.setWidth 16

theorem execAll_enterUsermode (m : Machine) (room : Room m.stack 5) :
    execAll m enterUsermode = { m with
      mem := (pushAll (userFrame (m.cpu.reg .rdi) (m.cpu.reg .rsi)) m.stack).mem
      cpu := userEntry m.cpu } := by
  let s := pushAll (userFrame (m.cpu.reg .rdi) (m.cpu.reg .rsi)) m.stack
  have stored : loadAll s.mem s.sp.toNat 5 =
      [m.cpu.reg .rdi, userCodeSel, 0x202, m.cpu.reg .rsi, userDataSel] := loadAll_pushAll _ room
  have below : s.sp.toNat + 40 = m.stack.sp.toNat := pushAll_sp _ room
  have high : s.sp.toNat + 40 < 2 ^ 64 := by
    rw [below]
    exact m.stack.sp.isLt
  exact iretq_eq (m := { m with
    mem := s.mem
    cpu := { m.cpu with
      reg := (userEntry m.cpu).reg
      rsp := s.sp } }) high stored

end MiniKernel.Arch
