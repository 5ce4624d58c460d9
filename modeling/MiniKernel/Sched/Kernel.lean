import MiniKernel.Lib.Machine
import MiniKernel.Sched.Spawn

/-!
# The scheduler as a machine

Source: kernel/sched/thread.c, kernel/arch/x86_64/{switch.asm,irq_stubs.asm,
isr.asm,idt.c}, kernel/include/kernel/io.h (`irq_save`, `irq_restore`).

One CPU runs the thread `current_thread`; every other thread stands somewhere
on its own kernel stack. `place` says where a thread is, or will go on once it
is switched in, and `savedIf` is the interrupt flag it will go on with: the
flags that `irq_save` kept for a thread switched out by `sched_sleep` or by a
direct `sched_yield`, and the set flag in the interrupt frame of a thread the
timer switched out.

Sections under `irq_save` are single steps. `sched_spawn_prio_with_context` is
not under `irq_save`, so a spawn takes several steps and other threads may run
between them whenever interrupts are enabled.
-/
namespace MiniKernel.Sched
open Memory.Paging (Word)

/-- How far a spawn has come. -/
inductive SpawnPhase where
  | scan (i : Nat)
  | grow (previous newCapacity : Nat)
  | stack (slot : Nat)
  | publish (slot : Nat) (stack : GuardedStack)
  | fill (slot : Nat) (stack : GuardedStack)
  deriving DecidableEq, Repr

inductive Place where
  /-- Outside the scheduler: a user program, a system call, kernel code. -/
  | code
  /-- The halt loop of `sched_sleep`, with the flags its `irq_save` returned. -/
  | idle (flags : Bool)
  /-- The halt loop at the end of `sched_exit_status`. -/
  | halt
  /-- Left for good through the `switch_context` of `sched_exit_status`. -/
  | gone
  | spawning (req : SpawnRequest) (phase : SpawnPhase)
  deriving DecidableEq, Repr

structure Kernel where
  table : ThreadTable
  kernelSpace : Word
  interrupts : Bool
  place : Nat → Place
  savedIf : Nat → Bool

/-- What can happen next. `pid` is the pid of the process record that
`process_mark_exited` finds for the dying thread. -/
inductive Event where
  | timer
  | keyboard (channel : Word)
  /-- Code outside the scheduler changes the flag: the interrupt gates clear it
  on entry, `iretq` sets it again, callers use `irq_save` and `irq_restore`. -/
  | setIf (on : Bool)
  | yield
  | sleep (channel : Word)
  | wakeup (channel : Word)
  | exit (pid : Option Word)
  | kill (tid : Nat) (pid : Option Word)
  | reap (tid : Nat)
  | spawn (req : SpawnRequest)
  | spawnStep (block : Option (Nat → Thread)) (stack : Option GuardedStack)
  /-- The loop of `sched_sleep` looks at its own state again. -/
  | idleCheck

namespace Kernel

/-- `current_thread`. -/
def cur (k : Kernel) : Nat := k.table.currentThread

def stateOf (k : Kernel) (i : Nat) : ThreadState := (k.table.threads i).state

def moveTo (k : Kernel) (p : Place) : Kernel := { k with place := Function.update k.place k.cur p }

end Kernel

/-- `sched_yield`; `resumeIf` is the flag the thread will go on with when it is
switched in again. -/
def schedYield (resumeIf : Bool) (k : Kernel) : Kernel :=
  let next := findNextRunnable k.table k.cur
  if next = k.cur then k
  else
    { k with
      table := dispatchFresh (setState k.table k.cur .ready) next
      savedIf := Function.update k.savedIf k.cur resumeIf
      interrupts := k.savedIf next }

/-- `--threads[current_thread].ticks_remaining`. -/
def countTick (k : Kernel) : Kernel :=
  let t := k.table.threads k.cur
  { k with
    table := updThread k.table k.cur { t with ticksRemaining := t.ticksRemaining - 1 } }

/-- `sched_tick`, called from the timer interrupt: `iretq` sets the flag of the
interrupted code again. -/
def schedTick (k : Kernel) : Kernel :=
  if ((countTick k).table.threads k.cur).ticksRemaining > 0 then countTick k
  else schedYield true (countTick k)

/-- `sched_sleep` up to its `switch_context` or into its halt loop, which it
enters after `sti`. -/
def schedSleep (channel : Word) (k : Kernel) : Kernel :=
  let flags := k.interrupts
  let table := updThread k.table k.cur
    { k.table.threads k.cur with waitChannel := channel, state := .blocked }
  let next := findNextRunnable table k.cur
  if next = k.cur then
    { k.moveTo (.idle flags) with table := table, interrupts := true }
  else
    { k with
      table := dispatchFresh table next
      savedIf := Function.update k.savedIf k.cur flags
      interrupts := k.savedIf next }

/-- The end of `sched_sleep`'s halt loop. -/
def leaveIdle (flags : Bool) (k : Kernel) : Kernel :=
  { k.moveTo .code with table := setState k.table k.cur .running, interrupts := flags }

/-- The table `sched_exit_status` has built when it looks for another thread. -/
def exitTable (pid : Option Word) (k : Kernel) : ThreadTable :=
  schedWakeup (markExited (setState k.table k.cur .zombie) pid) (tidChannel k.cur)

/-- `sched_exit_status`: with nobody to switch to, `irq_restore(flags)` and the
final loop. -/
def schedExitStatus (pid : Option Word) (k : Kernel) : Kernel :=
  let table := exitTable pid k
  let next := findNextRunnable table k.cur
  if next = k.cur then { k.moveTo .halt with table := table }
  else
    { k.moveTo .gone with
      table := dispatch table next
      interrupts := k.savedIf next }

/-- `sched_kill`; the wakeup of `process_mark_exited` follows outside its
critical section. -/
def schedKill (tid : Nat) (pid : Option Word) (k : Kernel) : Kernel :=
  if k.table.threadCapacity ≤ tid then k
  else if tid = k.cur then schedExitStatus pid k
  else if k.stateOf tid = .unused ∨ k.stateOf tid = .zombie then k
  else
    { k with
      table := updThread k.table tid
        { k.table.threads tid with state := .zombie, waitChannel := 0 } }

/-- One step of a spawn of the current thread. -/
def spawnStep (req : SpawnRequest) (block : Option (Nat → Thread)) (stack : Option GuardedStack)
    (k : Kernel) : SpawnPhase → Kernel
  | .scan i =>
    if i < k.table.threadCapacity then
      if k.stateOf i = .unused then k.moveTo (.spawning req (.stack i))
      else k.moveTo (.spawning req (.scan (i + 1)))
    else
      k.moveTo
        (.spawning req (.grow k.table.threadCapacity (grownCapacity k.table.threadCapacity)))
  | .grow previous newCapacity =>
    match block with
    | none => k.moveTo .code
    | some b =>
      { k.moveTo (.spawning req (.stack previous)) with table := installTable b newCapacity k.table }
  | .stack slot =>
    match stack with
    | none => k.moveTo .code
    | some st => k.moveTo (.spawning req (.publish slot st))
  | .publish slot st =>
    { k with
      table := publishThread req st slot k.table
      place := Function.update (Function.update k.place slot .code) k.cur
        (.spawning req (.fill slot st))
      savedIf := Function.update k.savedIf slot true }
  | .fill slot st =>
    { k.moveTo .code with table := fillThread req st k.kernelSpace slot k.table }

/-- The calls of code that is not itself inside the scheduler. -/
def call (k : Kernel) (result : Kernel) : Option Kernel :=
  if k.place k.cur = .code then some result else none

/-- Interrupts are delivered while the flag is set. -/
def interrupt (k : Kernel) (result : Kernel) : Option Kernel :=
  if k.interrupts then some result else none

def step (k : Kernel) : Event → Option Kernel
  | .timer => interrupt k (schedTick k)
  | .keyboard channel => interrupt k { k with table := schedWakeup k.table channel }
  | .setIf on => call k { k with interrupts := on }
  | .yield => call k (schedYield k.interrupts k)
  | .sleep channel => call k (schedSleep channel k)
  | .wakeup channel => call k { k with table := schedWakeup k.table channel }
  | .exit pid => call k (schedExitStatus pid k)
  | .kill tid pid => call k (schedKill tid pid k)
  | .reap tid => call k { k with table := reapZombie k.table tid }
  | .spawn req => call k (k.moveTo (.spawning req (.scan 0)))
  | .spawnStep block stack =>
    match k.place k.cur with
    | .spawning req phase => some (spawnStep req block stack k phase)
    | _ => none
  | .idleCheck =>
    match k.place k.cur with
    | .idle flags => if k.stateOf k.cur = .blocked then none else some (leaveIdle flags k)
    | _ => none

/-- The state `sched_init` leaves: one thread, running the boot code with
interrupts off. -/
def boot (block : Nat → Thread) (stack : GuardedStack) (kernelSpace : Word) : Kernel :=
  let empty : ThreadTable :=
    { threads := block, threadCapacity := 0, currentThread := 0, rsp0 := 0, cr3 := kernelSpace }
  let table := installTable block (grownCapacity 0) empty
  let first : Thread :=
    { table.threads 0 with
      state := .running
      addressSpace := kernelSpace
      stackLow := stack.stackLow
      guardPage := stack.guardPage
      fds := initialFds
      uid := 0 }
  { table := activate (updThread table 0 first) 0
    kernelSpace := kernelSpace
    interrupts := false
    place := fun _ => .code
    savedIf := fun _ => true }

/-- A state some run from `sched_init` ends in. -/
def Reachable (k : Kernel) : Prop :=
  ∃ block stack kernelSpace es, Lib.Machine.run step (boot block stack kernelSpace) es = some k

/-! ## What each step can do -/

theorem call_eq_some {k result t : Kernel} :
    call k result = some t ↔ k.place k.cur = .code ∧ result = t := by
  unfold call
  split
  · next h => simp [h]
  · next h => simp [h]

theorem interrupt_eq_some {k result t : Kernel} :
    interrupt k result = some t ↔ k.interrupts = true ∧ result = t := by
  unfold interrupt
  split
  · next h => simp [h]
  · next h => simp [h]

theorem spawnStep_eq_some {k t : Kernel} {block : Option (Nat → Thread)}
    {stack : Option GuardedStack} :
    step k (.spawnStep block stack) = some t ↔
      ∃ req phase, k.place k.cur = .spawning req phase ∧ spawnStep req block stack k phase = t := by
  simp only [step]
  split
  · next req phase place => simp [place]
  · next other =>
    constructor
    · intro h
      cases h
    · intro ⟨req, phase, place, _⟩
      exact absurd place (other req phase)

theorem idleCheck_eq_some {k t : Kernel} :
    step k .idleCheck = some t ↔
      ∃ flags, k.place k.cur = .idle flags ∧ k.stateOf k.cur ≠ .blocked ∧
        leaveIdle flags k = t := by
  simp only [step]
  split
  · next flags place =>
    split
    · next blocked => simp [blocked]
    · next woken => simp [place, woken]
  · next other =>
    constructor
    · intro h
      cases h
    · intro ⟨flags, place, _⟩
      exact absurd place (other flags)

/-- `sched_yield` returns at once, or hands the CPU to a runnable thread. -/
theorem schedYield_cases (resumeIf : Bool) (k : Kernel) (valid : k.cur < k.table.threadCapacity) :
    (findNextRunnable k.table k.cur = k.cur ∧ schedYield resumeIf k = k) ∨
    ∃ next < k.table.threadCapacity, next ≠ k.cur ∧ Runnable (k.table.threads next) ∧
      schedYield resumeIf k =
        { k with
          table := dispatchFresh (setState k.table k.cur .ready) next
          savedIf := Function.update k.savedIf k.cur resumeIf
          interrupts := k.savedIf next } := by
  have spec := findNextRunnable_spec k.table k.cur valid
  unfold schedYield
  by_cases stay : findNextRunnable k.table k.cur = k.cur
  · exact Or.inl ⟨stay, if_pos stay⟩
  · exact Or.inr ⟨_, spec.1, stay, spec.2 stay, if_neg stay⟩

/-- `sched_sleep` idles, or hands the CPU to a runnable thread. -/
theorem schedSleep_cases (channel : Word) (k : Kernel)
    (valid : k.cur < k.table.threadCapacity) :
    let table := updThread k.table k.cur
      { k.table.threads k.cur with waitChannel := channel, state := .blocked }
    schedSleep channel k =
        { k.moveTo (.idle k.interrupts) with table := table, interrupts := true } ∨
    ∃ next < k.table.threadCapacity, next ≠ k.cur ∧ Runnable (k.table.threads next) ∧
      schedSleep channel k =
        { k with
          table := dispatchFresh table next
          savedIf := Function.update k.savedIf k.cur k.interrupts
          interrupts := k.savedIf next } := by
  intro table
  have spec := findNextRunnable_spec table k.cur valid
  by_cases stay : findNextRunnable table k.cur = k.cur
  · exact Or.inl (if_pos stay)
  · have found := spec.2 stay
    rw [updThread_other _ _ _ _ stay] at found
    exact Or.inr ⟨_, spec.1, stay, found, if_neg stay⟩

@[simp] theorem exitTable_capacity (pid : Option Word) (k : Kernel) :
    (exitTable pid k).threadCapacity = k.table.threadCapacity := by
  simp [exitTable, setState]

@[simp] theorem exitTable_current (pid : Option Word) (k : Kernel) :
    (exitTable pid k).currentThread = k.cur := by
  simp [exitTable, setState, Kernel.cur]

/-- `sched_exit_status` ends in its halt loop, or hands the CPU to a thread
that is runnable once the dying thread has woken its waiters. -/
theorem schedExitStatus_cases (pid : Option Word) (k : Kernel)
    (valid : k.cur < k.table.threadCapacity) :
    (findNextRunnable (exitTable pid k) k.cur = k.cur ∧
      schedExitStatus pid k = { k.moveTo .halt with table := exitTable pid k }) ∨
    ∃ next < k.table.threadCapacity, next ≠ k.cur ∧
      Runnable ((exitTable pid k).threads next) ∧
      schedExitStatus pid k =
        { k.moveTo .gone with
          table := dispatch (exitTable pid k) next
          interrupts := k.savedIf next } := by
  have hcap := exitTable_capacity pid k
  have spec := findNextRunnable_spec (exitTable pid k) k.cur (by rw [hcap]; exact valid)
  by_cases stay : findNextRunnable (exitTable pid k) k.cur = k.cur
  · exact Or.inl ⟨stay, if_pos stay⟩
  · exact Or.inr ⟨_, by rw [← hcap]; exact spec.1, stay, spec.2 stay, if_neg stay⟩

/-- `sched_tick` counts, and yields when the quantum is used up. -/
theorem schedTick_cases (k : Kernel) :
    (((countTick k).table.threads k.cur).ticksRemaining > 0 ∧ schedTick k = countTick k) ∨
    (¬ ((countTick k).table.threads k.cur).ticksRemaining > 0 ∧
      schedTick k = schedYield true (countTick k)) := by
  unfold schedTick
  split
  · next left => exact Or.inl ⟨left, rfl⟩
  · next used => exact Or.inr ⟨used, rfl⟩

theorem countTick_state (k : Kernel) (i : Nat) : (countTick k).stateOf i = k.stateOf i := by
  change ((updThread k.table k.cur _).threads i).state = _
  cases Decidable.em (i = k.cur) with
  | inl same => rw [same, updThread_same]; rfl
  | inr other => rw [updThread_other _ _ _ _ other]; rfl

theorem exitTable_state (pid : Option Word) (k : Kernel) (i : Nat) (other : i ≠ k.cur) :
    ((exitTable pid k).threads i).state = k.stateOf i ∨
      (k.stateOf i = .blocked ∧ ((exitTable pid k).threads i).state = .ready) := by
  have marked := markExited_state (setState k.table k.cur .zombie) pid i
  have woken := schedWakeup_state (markExited (setState k.table k.cur .zombie) pid)
    (tidChannel k.cur) i
  rw [setState_state, if_neg other] at marked
  rcases woken with same | ⟨was, now⟩
  · rw [exitTable, same]
    exact marked
  · rcases marked with same | ⟨_, ready⟩
    · rw [same] at was
      exact Or.inr ⟨was, now⟩
    · rw [ready] at was
      cases was

theorem exitTable_self (pid : Option Word) (k : Kernel) :
    ((exitTable pid k).threads k.cur).state = .zombie := by
  have marked := markExited_state (setState k.table k.cur .zombie) pid k.cur
  have woken := schedWakeup_state (markExited (setState k.table k.cur .zombie) pid)
    (tidChannel k.cur) k.cur
  rw [setState_state, if_pos rfl] at marked
  rcases marked with same | ⟨was, _⟩
  · rcases woken with still | ⟨was, _⟩
    · exact still.trans same
    · rw [same] at was
      cases was
  · cases was

end MiniKernel.Sched
