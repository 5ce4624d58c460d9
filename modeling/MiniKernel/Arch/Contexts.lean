import MiniKernel.Arch.ContextSwitch
import MiniKernel.Arch.Interrupts
import MiniKernel.Sched.Thread
import Mathlib.Order.CompletePartialOrder

/-!
# Threads on one processor

Source: kernel/sched/thread.c (`activate`, the calls of `switch_context`, the first frame
of a new thread, `grow_thread_table`), kernel/arch/x86_64/*.asm.

`State` is what the processor has: registers, memory, the TSS and the addresses of the
`rsp` fields. `Threads` says what the assembly is for: a thread that is interrupted or
switched out leaves a context behind, and takes it up again later. `Allowed` is what the
compiled C code and the hardware guarantee between two of these steps.
-/
namespace MiniKernel.Arch
open Lib (Buffer)
open Lib.Stack
open Sched (threadStackSize)

/-- What the assembly reads of the thread table: `current_thread`, `&threads[i].rsp` and
`threads[i].stack_low + THREAD_STACK_SIZE`. -/
structure Table where
  current : Nat
  slot : Nat → Word
  top : Nat → Word

inductive Event where
  /-- Code of the running thread, in ring 0 or ring 3. -/
  | work (cpu : Cpu) (mem : Buffer)
  | trap (v : Vector) (error : Word)
  /-- `regs->rax = v`. -/
  | result (regs v : Word)
  /-- The C handler returns to its stub. -/
  | handled
  | enterUsermode
  /-- `sched_yield` and `sched_sleep` switch to another thread; `back` is the address after
  their call. -/
  | switch (next : Nat) (back : Word)
  /-- `sched_exit_status` does, with the address of its local variable. -/
  | leave (next : Nat) (discard back : Word)
  | spawn (tid : Nat) (stackLow entry : Word)
  /-- `reap_zombie`, on a thread that was killed while it waited. -/
  | reap (tid : Nat)
  /-- `grow_thread_table` has copied the table. -/
  | grow (slot : Nat → Word) (mem : Buffer)

/-! ## What the processor does -/

structure State where
  machine : Machine
  table : Table

/-- `activate(next)`, then `switch_context(old_rsp, &threads[next].rsp)`. -/
def State.switchTo (image : Image) (s : State) (oldRsp : Word) (next : Nat) (back : Word) : State :=
  let m := { s.machine with rsp0 := s.table.top next }
  let m := (m.setReg .rdi oldRsp).setReg .rsi (s.table.slot next)
  { machine := execAll m (.call image.switchContext back :: switchContext)
    table := { s.table with current := next } }

/-- The stores of `sched_spawn_prio_with_context`. -/
def State.spawn (s : State) (tid : Nat) (stackLow entry : Word) : State :=
  let top := stackLow + threadStackSize
  let first := pushAll (firstFrame entry) ⟨s.machine.mem, top⟩
  { machine := { s.machine with mem := store first.mem (s.table.slot tid).toNat first.sp }
    table := { s.table with top := Function.update s.table.top tid top } }

def State.step (image : Image) (s : State) : Event → State
  | .work cpu mem => { s with machine := { s.machine with cpu := cpu, mem := mem } }
  | .trap v error => { s with machine := trap image v error s.machine }
  | .result regs v =>
    { s with
      machine := { s.machine with mem := store s.machine.mem (regs.toNat + raxOffset) v } }
  | .handled => { s with machine := handlerReturn image s.machine }
  | .enterUsermode => { s with machine := execAll s.machine enterUsermode }
  | .switch next back => s.switchTo image (s.table.slot s.table.current) next back
  | .leave next discard back => s.switchTo image discard next back
  | .spawn tid stackLow entry => s.spawn tid stackLow entry
  | .reap tid =>
    { s with
      machine := { s.machine with mem := store s.machine.mem (s.table.slot tid).toNat 0 } }
  | .grow slot mem =>
    { machine := { s.machine with mem := mem }, table := { s.table with slot := slot } }

/-! ## What it is for -/

/-- What a thread leaves behind on its kernel stack. -/
inductive Context where
  | call (s : Suspended)
  | trap (i : Interrupted)

namespace Context

def words (image : Image) : Context → List Word
  | call s => s.words
  | trap i => i.words image

def size : Context → Nat
  | call _ => 8
  | trap _ => 23

def bottom : Context → Word
  | call s => s.bottom
  | trap i => i.bottom

/-- The stack pointer the thread goes on with. -/
def rsp : Context → Word
  | call s => s.rsp
  | trap i => i.cpu.rsp

/-- Interrupted in ring 3. -/
def User : Context → Prop
  | call _ => False
  | trap i => i.cpu.User

/-- The byte is one of the context's words. -/
def Covers (c : Context) (b : Nat) : Prop :=
  c.bottom.toNat ≤ b ∧ b < c.bottom.toNat + 8 * c.size

end Context

/-- The contexts of each live thread, the last one first. -/
abbrev Saved := Nat → Option (List Context)

/-- `stack` is the bytes of each kernel stack. -/
structure Threads where
  cpu : Cpu
  table : Table
  saved : Saved
  stack : Nat → Set Nat

namespace Threads

variable (a : Threads)

def own : Option (List Context) := a.saved a.table.current

def rsp0 : Word := a.table.top a.table.current

def put (tid : Nat) (cs : Option (List Context)) : Threads :=
  { a with saved := Function.update a.saved tid cs }

/-- The thread is switched in. -/
def resume (tid : Nat) : Threads :=
  match a.saved tid with
  | some (.call s :: rest) =>
    { a.put tid (some rest) with
      cpu := s.resume a.cpu
      table := { a.table with current := tid } }
  | _ => a

/-- The arguments of `switch_context`. -/
def passing (oldRsp newRsp : Word) : Threads :=
  { a with
    cpu := { a.cpu with
      reg := Function.update (Function.update a.cpu.reg .rdi oldRsp) .rsi newRsp } }

/-- The running thread leaves its contexts and, if it is to go on, one more. -/
def switchTo (oldRsp : Word) (next : Nat) (left : Cpu → Option (List Context)) : Threads :=
  let a := a.passing oldRsp (a.table.slot next)
  (a.put a.table.current (left a.cpu)).resume next

def step (image : Image) : Event → Threads
  | .work cpu _ => { a with cpu := cpu }
  | .trap v error =>
    let i := a.cpu.interrupted a.rsp0 v error
    { a.put a.table.current (a.own.map (.trap i :: ·)) with cpu := i.entered image }
  | .result _ v =>
    match a.own with
    | some (.trap i :: rest) => a.put a.table.current (some (.trap (i.setRax v) :: rest))
    | _ => a
  | .handled =>
    match a.own with
    | some (.trap i :: rest) => { a.put a.table.current (some rest) with cpu := i.cpu }
    | _ => a
  | .enterUsermode => { a with cpu := userEntry a.cpu }
  | .switch next back =>
    a.switchTo (a.table.slot a.table.current) next fun c =>
      a.own.map (.call (c.suspended back) :: ·)
  | .leave next discard _ => a.switchTo discard next fun _ => none
  | .spawn tid stackLow entry =>
    let top := stackLow + threadStackSize
    { a.put tid (some [.call (.fresh entry top)]) with
      table := { a.table with top := Function.update a.table.top tid top }
      stack := Function.update a.stack tid (Set.Ico stackLow.toNat (stackLow.toNat + 8192)) }
  | .reap tid => a.put tid none
  | .grow slot _ => { a with table := { a.table with slot := slot } }

end Threads

/-! ## What the code in between guarantees -/

namespace Saved

variable (saved : Saved)

def Live (tid : Nat) : Prop := saved tid ≠ none

/-- A byte of a context some thread will take up again. -/
def Held (b : Nat) : Prop := ∃ tid cs c, saved tid = some cs ∧ c ∈ cs ∧ c.Covers b

end Saved

/-- A byte of a `rsp` field. -/
def InSlot (slot : Nat → Word) (tid b : Nat) : Prop :=
  (slot tid).toNat ≤ b ∧ b < (slot tid).toNat + 8

/-- The `rsp` fields of live threads are eight bytes each, outside all stacks. -/
structure Placed (saved : Saved) (stack : Nat → Set Nat) (slot : Nat → Word) : Prop where
  apart : ∀ t u, saved.Live t → saved.Live u → t ≠ u → ∀ b, InSlot slot t b → ¬ InSlot slot u b
  outside : ∀ t u, saved.Live t → saved.Live u → ∀ b, InSlot slot t b → b ∉ stack u

/-- One of the `n` words below `sp`. -/
def Below (sp : Word) (n b : Nat) : Prop := sp.toNat ≤ b + 8 * n ∧ b < sp.toNat

/-- The stack pointer is below all contexts. -/
def Under (sp : Word) (cs : List Context) : Prop := ∀ c ∈ cs, sp.toNat ≤ c.bottom.toNat

namespace Threads

variable (a : Threads)

/-- There are `n` words of the running thread's stack below `sp`. -/
def HasRoom (sp : Word) (n : Nat) : Prop :=
  8 * n ≤ sp.toNat ∧ ∀ b, Below sp n b → b ∈ a.stack a.table.current

/-- Code of ring 3 cannot change its level, its IF or its stack segment; code of ring 0
stays in ring 0 and keeps its stack below the frames of the code it interrupts. -/
def Stays (cpu : Cpu) : Prop :=
  if a.cpu.User then
    cpu.cs = a.cpu.cs ∧ cpu.ss = a.cpu.ss ∧ cpu.rflags.interrupts = a.cpu.rflags.interrupts
  else ¬ cpu.User ∧ ∀ cs ∈ a.own, Under cpu.rsp cs

/-- `mem` is the memory before the event. -/
def Allowed (mem : Buffer) : Event → Prop
  | .work cpu mem' =>
    a.Stays cpu ∧ (∀ b, a.saved.Held b → mem' b = mem b) ∧
      ∀ t, a.saved.Live t → t ≠ a.table.current → ∀ b, InSlot a.table.slot t b → mem' b = mem b
  | .trap _ _ => a.HasRoom (interruptStack a.cpu a.rsp0) 23
  | .result regs _ =>
    ¬ a.cpu.User ∧
      ∃ i rest, a.own = some (.trap i :: rest) ∧ i.vector = .syscall ∧ regs = i.frame
  | .handled => ∃ i rest, a.own = some (.trap i :: rest) ∧ a.cpu.rsp = i.bottom
  | .enterUsermode => ¬ a.cpu.User ∧ a.own = some [] ∧ a.HasRoom a.cpu.rsp 5
  | .switch next _ =>
    ¬ a.cpu.User ∧ next ≠ a.table.current ∧ a.saved.Live next ∧ a.HasRoom a.cpu.rsp 8
  | .leave next discard _ =>
    ¬ a.cpu.User ∧ next ≠ a.table.current ∧ a.saved.Live next ∧ a.HasRoom a.cpu.rsp 8 ∧
      ∀ b, discard.toNat ≤ b → b < discard.toNat + 8 → b ∈ a.stack a.table.current
  | .spawn tid stackLow _ =>
    let stack := Set.Ico stackLow.toNat (stackLow.toNat + 8192)
    stackLow.toNat + 8192 < 2 ^ 64 ∧ ¬ a.saved.Live tid ∧
      (∀ t, a.saved.Live t → Disjoint (a.stack t) stack ∧
        ∀ b, InSlot a.table.slot t b → b ∉ stack ∧ ¬ InSlot a.table.slot tid b) ∧
      ∀ b, InSlot a.table.slot tid b → b ∉ stack ∧ ∀ t, a.saved.Live t → b ∉ a.stack t
  | .reap tid => tid ≠ a.table.current ∧ a.saved.Live tid
  | .grow slot mem' =>
    Placed a.saved a.stack slot ∧ (∀ b, a.saved.Held b → mem' b = mem b) ∧
      ∀ t, a.saved.Live t → load mem' (slot t).toNat = load mem (a.table.slot t).toNat

end Threads

/-! ## The relation between the two -/

variable (image : Image) (saved : Saved)

def Stored (mem : Buffer) : Prop :=
  ∀ tid cs c, saved tid = some cs → c ∈ cs → loadAll mem c.bottom.toNat c.size = c.words image

/-- The `rsp` field of the thread names its last context. -/
def ParkedAt (slot : Nat → Word) (mem : Buffer) (tid : Nat) : Prop :=
  ∀ c rest, saved tid = some (c :: rest) → load mem (slot tid).toNat = c.bottom

/-- The processor carries out what the threads do: their contexts are in memory, and each
thread that waits is found through its `rsp` field. -/
structure Represents (a : Threads) (s : State) : Prop where
  cpu : s.machine.cpu = a.cpu
  table : s.table = a.table
  rsp0 : s.machine.rsp0 = a.rsp0
  stored : Stored image a.saved s.machine.mem
  parked : ∀ tid, tid ≠ a.table.current → ParkedAt a.saved a.table.slot s.machine.mem tid

end MiniKernel.Arch
