import MiniKernel.Lib.Stack

/-!
# The processor under the assembly

Source: kernel/arch/x86_64/{context_switch.asm,isr.asm,irq_stubs.asm,usermode.asm}.

The registers and flags the assembly saves, the two selectors that interrupts and
`iretq` exchange, and the instructions the stubs are made of. Memory is the kernel's own
mapping, which every address space shares; ds, es, fs and gs are left out, since long
mode ignores them, and so is RF, since no debug register is ever loaded.
-/
namespace MiniKernel.Arch
open Lib (Buffer)
open Lib.Stack (Word push pop pushAll popAll popAll_eq loadAll loadAll_succ)

inductive Reg where
  | rax | rbx | rcx | rdx | rsi | rdi | rbp
  | r8 | r9 | r10 | r11 | r12 | r13 | r14 | r15
  deriving DecidableEq, Repr

/-- CF, PF, AF, ZF, SF, TF, IF, DF, OF, IOPL, NT, AC and ID. -/
def flagsMask : Word := 0x247FD5

/-- A value RFLAGS can have: bit 1 is always set, the reserved bits never. -/
structure Flags where
  word : Word
  fixed : word &&& flagsMask ||| 2 = word
  deriving DecidableEq

theorem and_or_again {w : Nat} (v m t : BitVec w) : (v &&& m ||| t) &&& m ||| t = v &&& m ||| t := by
  ext i
  simp only [BitVec.getElem_or, BitVec.getElem_and]
  cases v[i] <;> cases m[i] <;> cases t[i] <;> rfl

/-- What `popfq` and `iretq` make of a word in ring 0. -/
def Flags.load (v : Word) : Flags := ⟨v &&& flagsMask ||| 2, and_or_again v flagsMask 2⟩

theorem Flags.load_word (f : Flags) : Flags.load f.word = f := by
  obtain ⟨word, fixed⟩ := f
  simp only [Flags.load, fixed]

/-- IF. -/
def Flags.interrupts (f : Flags) : Bool := f.word.getLsbD 9

/-- An interrupt gate clears TF, IF and NT. -/
def Flags.gated (f : Flags) : Flags := .load (f.word &&& ~~~0x4300)

structure Cpu where
  reg : Reg → Word
  rsp : Word
  rip : Word
  rflags : Flags
  cs : BitVec 16
  ss : BitVec 16

/-- The privilege level is the low bits of CS. -/
def Cpu.User (c : Cpu) : Prop := c.cs &&& 3 = 3

instance (c : Cpu) : Decidable c.User := inferInstanceAs (Decidable (_ = _))

/-- The processor with memory and the `rsp0` of the loaded TSS. -/
structure Machine where
  cpu : Cpu
  mem : Buffer
  rsp0 : Word

def Machine.stack (m : Machine) : Lib.Stack.State := ⟨m.mem, m.cpu.rsp⟩

def Machine.setStack (m : Machine) (s : Lib.Stack.State) : Machine :=
  { m with mem := s.mem, cpu := { m.cpu with rsp := s.sp } }

def Machine.setReg (m : Machine) (r : Reg) (v : Word) : Machine :=
  { m with cpu := { m.cpu with reg := Function.update m.cpu.reg r v } }

inductive Instr where
  | push (r : Reg)
  | pushImm (v : Word)
  | pushfq
  | pop (r : Reg)
  | popfq
  | movReg (dst src : Reg)
  /-- `mov dst, rsp`. -/
  | movRsp (dst : Reg)
  /-- `mov [base], rsp`. -/
  | storeRsp (base : Reg)
  /-- `mov rsp, [base]`. -/
  | loadRsp (base : Reg)
  | addRsp (n : Word)
  /-- `back` is the address of the instruction after the call. -/
  | call (target back : Word)
  | ret
  | iretq
  deriving DecidableEq, Repr

def iretq (m : Machine) : Machine :=
  let (rip, s) := pop m.stack
  let (cs, s) := pop s
  let (rflags, s) := pop s
  let (rsp, s) := pop s
  let (ss, _) := pop s
  { m with
    cpu := { m.cpu with
      rip := rip
      cs := cs.setWidth 16
      rflags := .load rflags
      rsp := rsp
      ss := ss.setWidth 16 } }

def exec (m : Machine) : Instr → Machine
  | .push r => m.setStack (push (m.cpu.reg r) m.stack)
  | .pushImm v => m.setStack (push v m.stack)
  | .pushfq => m.setStack (push m.cpu.rflags.word m.stack)
  | .pop r =>
    let (v, s) := pop m.stack
    (m.setStack s).setReg r v
  | .popfq =>
    let (v, s) := pop m.stack
    let m := m.setStack s
    { m with cpu := { m.cpu with rflags := .load v } }
  | .movReg dst src => m.setReg dst (m.cpu.reg src)
  | .movRsp dst => m.setReg dst m.cpu.rsp
  | .storeRsp base => { m with mem := Lib.Stack.store m.mem (m.cpu.reg base).toNat m.cpu.rsp }
  | .loadRsp base =>
    { m with cpu := { m.cpu with rsp := Lib.Stack.load m.mem (m.cpu.reg base).toNat } }
  | .addRsp n => { m with cpu := { m.cpu with rsp := m.cpu.rsp + n } }
  | .call target back =>
    let m := m.setStack (push back m.stack)
    { m with cpu := { m.cpu with rip := target } }
  | .ret =>
    let (v, s) := pop m.stack
    let m := m.setStack s
    { m with cpu := { m.cpu with rip := v } }
  | .iretq => iretq m

def execAll (m : Machine) (code : List Instr) : Machine := code.foldl exec m

/-! ## Runs of pushes and pops -/

variable {m : Machine} {f : Reg → Word} {rs : List Reg}

theorem execAll_append (m : Machine) (code rest : List Instr) :
    execAll m (code ++ rest) = execAll (execAll m code) rest := List.foldl_append ..

theorem execAll_cons (m : Machine) (i : Instr) (rest : List Instr) :
    execAll m (i :: rest) = execAll (exec m i) rest := rfl

theorem execAll_push (m : Machine) (rs : List Reg) :
    execAll m (rs.map .push) = m.setStack (pushAll (rs.map m.cpu.reg) m.stack) := by
  induction rs generalizing m with
  | nil => rfl
  | cons r rs ih =>
    rw [List.map_cons, execAll_cons, ih]
    rfl

/-- Pops take up the words that stand there. -/
theorem execAll_pop (rs : List Reg) (f : Reg → Word) (fits : m.cpu.rsp.toNat + 8 * rs.length < 2 ^ 64)
    (stored : loadAll m.mem m.cpu.rsp.toNat rs.length = rs.map f) :
    execAll m (rs.map .pop) = { m with
      cpu := { m.cpu with
        reg := fun r => if r ∈ rs then f r else m.cpu.reg r
        rsp := m.cpu.rsp + BitVec.ofNat 64 (8 * rs.length) } } := by
  induction rs generalizing m with
  | nil =>
    have still : m.cpu.rsp + BitVec.ofNat 64 (8 * 0) = m.cpu.rsp := BitVec.add_zero _
    rw [List.length_nil, still]
    rfl
  | cons r rs ih =>
    rw [List.length_cons] at fits stored
    rw [loadAll_succ, List.map_cons] at stored
    obtain ⟨value, stored⟩ := List.cons.inj stored
    have next : (m.cpu.rsp + 8).toNat = m.cpu.rsp.toNat + 8 := by bv_omega
    have up : m.cpu.rsp + 8 + BitVec.ofNat 64 (8 * rs.length) =
        m.cpu.rsp + BitVec.ofNat 64 (8 * (r :: rs).length) := by
      rw [BitVec.add_assoc, List.length_cons, Nat.mul_succ, BitVec.ofNat_add,
        BitVec.add_comm (BitVec.ofNat 64 (8 * rs.length))]
      rfl
    have popped : exec m (.pop r) = { m with
        cpu := { m.cpu with reg := Function.update m.cpu.reg r (f r), rsp := m.cpu.rsp + 8 } } := by
      rw [← value]
      rfl
    rw [List.map_cons, execAll_cons, popped, ih (by change (m.cpu.rsp + 8).toNat + _ < _; omega)
      (by rw [next]; exact stored)]
    have regs : (fun q => if q ∈ rs then f q else Function.update m.cpu.reg r (f r) q) =
        fun q => if q ∈ r :: rs then f q else m.cpu.reg q := by
      funext q
      by_cases later : q ∈ rs
      · rw [if_pos later, if_pos (List.mem_cons_of_mem r later)]
      · rw [if_neg later]
        by_cases same : q = r
        · rw [same, Function.update_self, if_pos List.mem_cons_self]
        · rw [Function.update_of_ne same, if_neg (List.not_mem_cons_of_ne_of_not_mem same later)]
    dsimp only
    rw [regs, up]

/-- `iretq` takes up five words. -/
theorem iretq_eq {rip cs rflags rsp ss : Word} (fits : m.cpu.rsp.toNat + 40 < 2 ^ 64)
    (stored : loadAll m.mem m.cpu.rsp.toNat 5 = [rip, cs, rflags, rsp, ss]) :
    iretq m = { m with
      cpu := { m.cpu with
        rip := rip
        cs := cs.setWidth 16
        rflags := .load rflags
        rsp := rsp
        ss := ss.setWidth 16 } } := by
  have popped := popAll_eq (s := m.stack) (n := 5) fits
  have words : loadAll m.stack.mem m.stack.sp.toNat 5 = [rip, cs, rflags, rsp, ss] := stored
  rw [words] at popped
  simp only [popAll, pop, Prod.mk.injEq, List.cons.injEq] at popped
  obtain ⟨⟨rip, cs, rflags, rsp, ss, -⟩, -⟩ := popped
  unfold iretq
  dsimp only [pop]
  rw [rip, cs, rflags, rsp, ss]

end MiniKernel.Arch
