import MiniKernel.Ipc.Pipe
import MiniKernel.Proc.Table
import MiniKernel.Sched.Kernel

/-!
# Processes, descriptors and pipes as a machine

Source: kernel/core/process.c, kernel/core/fd.c, kernel/core/pipe.c,
kernel/core/syscall.c (SYS_READ, SYS_WRITE, SYS_OPEN, SYS_CLOSE, SYS_KILL,
SYS_PIPE, SYS_SPAWN, SYS_SPAWN_REDIRECT, SYS_WAIT, SYS_EXIT), kernel/sched/thread.c.

A system call runs with the interrupt flag cleared by its gate, and the calls
the kernel shell makes with interrupts on keep them off with `irq_save`, so
everything between two sleeps of a call is one step. A call that sleeps leaves
its loop in `activity`, and takes the next turn when its thread runs again.
Address spaces, console, files and the memory behind the user's pointers are
left out, as they change nothing of this.

`history` is for proofs only: no operation reads it.
-/
namespace MiniKernel.Proc
open Memory.Paging (Word)
open Sched
open Ipc

instance : NeZero threadMaxFds := ⟨by decide⟩

/-- The loop a thread is in. -/
inductive Activity where
  | none
  | reading (idx : Int) (len : Nat)
  | writing (idx : Int) (src : List UInt8)
  | waiting (pid : Int)
  deriving DecidableEq, Repr

/-- Whom a slot was given to: the thread of a process, with the number of the
process among all processes and its pid, or a kernel thread, of pid 0. -/
structure Occupant where
  process : Option Nat
  pid : Int
  deriving DecidableEq, Repr

def kernelThread : Occupant := ⟨none, 0⟩

inductive Happening where
  | spawned (pid : Int) (parent : Int)
  | ended (pid : Int) (status : BitVec 32)
  /-- `process_wait` returned: 0 with the status, or -1. -/
  | waited (pid : Int) (caller : Int) (answer : Option (BitVec 32))
  deriving DecidableEq, Repr

structure History where
  occupant : Nat → Occupant
  /-- How many pids `reserve_process` has handed out. -/
  pids : Nat
  /-- The number of the process that a record was last reserved for. -/
  serial : Fin processMax → Nat
  /-- The latest first. -/
  log : List Happening

structure System where
  kernel : Kernel
  pipes : Pipes
  /-- The address of `pipes`. -/
  pipesAddress : Word
  table : ProcessTable
  activity : Nat → Activity
  history : History

/-- What the allocators and the file system answer to a spawn. -/
structure SpawnAnswers where
  loaded : Bool
  request : SpawnRequest
  block : Option (Nat → Thread)
  stack : Option GuardedStack

inductive SysEvent where
  | timer
  | keyboard (channel : Word)
  | setIf (on : Bool)
  | yield
  /-- Any other `sched_sleep` or `sched_wakeup`. -/
  | sleep (channel : Word)
  | wakeup (channel : Word)
  | idleCheck
  /-- A kernel thread, by a `sched_spawn` that is not interrupted. -/
  | spawnThread (req : SpawnRequest) (block : Option (Nat → Thread)) (stack : Option GuardedStack)
  | spawn (answers : SpawnAnswers)
  | spawnRedirect (answers : SpawnAnswers) (stdinFd stdoutFd : Int)
  /-- `elf_process_trampoline` has its address space. -/
  | started
  | exit (status : BitVec 32)
  | kill (pid : Int) (sig : BitVec 32)
  | wait (pid : Int)
  | pipe
  | openFile (kind : FdKind) (handle : Int)
  | close (fd : Int)
  | read (fd : Int) (len : Nat)
  | write (fd : Int) (src : List UInt8)
  /-- The next turn of a loop after its sleep. -/
  | resume

/-! ## Descriptors -/

def setFd (s : ThreadTable) (tid : Nat) (i : Fin threadMaxFds) (slot : FdSlot) : ThreadTable :=
  updThread s tid
    { s.threads tid with fds := Function.update (s.threads tid).fds i slot }

/-- `fd < 0 || fd >= THREAD_MAX_FDS`. -/
def fdIndex (fd : Int) : Option (Fin threadMaxFds) :=
  if h : 0 ≤ fd ∧ fd < threadMaxFds then some ⟨fd.toNat, by omega⟩ else none

/-- `sched_fd_open`; descriptors 0 and 1 are not handed out. -/
def schedFdOpen (kind : FdKind) (handle : Int) (s : ThreadTable) :
    Option (Fin threadMaxFds) × ThreadTable :=
  match (List.finRange threadMaxFds).find? fun i =>
      2 ≤ i.val ∧ ((s.threads s.currentThread).fds i).kind = .unused with
  | some i => (some i, setFd s s.currentThread i { kind := kind, handle := handle, cursor := 0 })
  | none => (none, s)

/-- `sched_fd_close`. -/
def schedFdClose (i : Fin threadMaxFds) (s : ThreadTable) : ThreadTable :=
  setFd s s.currentThread i resetFdSlot

/-- `sched_fd_get`: the number of a descriptor in use. -/
def schedFdGet (s : ThreadTable) (fd : Int) : Option (Fin threadMaxFds) :=
  (fdIndex fd).filter fun i => ((s.threads s.currentThread).fds i).kind ≠ .unused

/-- `sched_fd_set`. -/
def schedFdSet (tid : Nat) (i : Fin threadMaxFds) (kind : FdKind) (handle : Int)
    (s : ThreadTable) : ThreadTable :=
  if tid < s.threadCapacity then setFd s tid i { kind := kind, handle := handle, cursor := 0 }
  else s

/-! ## Parts of the steps -/

/-- `(const void *)(unsigned long long)pid`. -/
def pidChannel (pid : Int) : Word := BitVec.ofInt 64 pid

/-- `sizeof(pipe_t)`. -/
def pipeBytes : Int := 1048

namespace System

def threads (s : System) : ThreadTable := s.kernel.table

def cur (s : System) : Nat := s.kernel.cur

def withThreads (s : System) (t : ThreadTable) : System :=
  { s with kernel := { s.kernel with table := t } }

def doing (s : System) (a : Activity) : System :=
  { s with activity := Function.update s.activity s.cur a }

def wake (s : System) (channel : Word) : System := s.withThreads (schedWakeup s.threads channel)

/-- The process of the running thread. -/
def caller (s : System) : Int := (s.history.occupant s.cur).pid

def note (s : System) (h : Happening) : System :=
  { s with history := { s.history with log := h :: s.history.log } }

/-- `&pipes[idx]`. -/
def pipeChannel (s : System) (idx : Int) : Word :=
  s.pipesAddress + BitVec.ofInt 64 (pipeBytes * idx)

end System

/-- `sched_sleep`, inside the loop `a`. -/
def sleepIn (a : Activity) (channel : Word) (s : System) : System :=
  { s.doing a with kernel := schedSleep channel s.kernel }

/-- `release_slot`. -/
def releaseSlot (slot : FdSlot) (s : System) : System :=
  let closed := match slot.kind with
    | .pipeRead => pipeCloseReader s.pipes slot.handle
    | .pipeWrite => pipeCloseWriter s.pipes slot.handle
    | _ => (none, s.pipes)
  let released := { s with pipes := closed.2 }
  match closed.1 with
  | some i => released.wake (released.pipeChannel i.val)
  | none => released

/-- `fd_cleanup_thread`. -/
def fdCleanupThread (tid : Nat) (s : System) : System :=
  (List.finRange threadMaxFds).foldl
    (fun s i => releaseSlot ((s.threads.threads tid).fds i) s) s

/-- `sched_reap_thread`. -/
def schedReapThread (tid : Nat) (s : System) : System :=
  if Reapable s.threads tid then
    let s := fdCleanupThread tid s
    s.withThreads (reapZombie s.threads tid)
  else s

/-- `sched_spawn_prio_with_context` with interrupts off. -/
def startThread (req : SpawnRequest) (block : Option (Nat → Thread))
    (stack : Option GuardedStack) (owner : Occupant) (s : System) : Option Nat × System :=
  let spawned := schedSpawnPrioWithContext req block stack s.kernel.kernelSpace s.threads
  let s := s.withThreads spawned.2
  match spawned.1 with
  | none => (none, s)
  | some slot =>
    (some slot,
      { s with
        kernel :=
          { s.kernel with
            place := Function.update s.kernel.place slot .code
            savedIf := Function.update s.kernel.savedIf slot true }
        activity := Function.update s.activity slot .none
        history :=
          { s.history with occupant := Function.update s.history.occupant slot owner } })

/-- The history when `table` is what `reserve_process` left. -/
def History.reserve (h : History) (before table : ProcessTable) : History :=
  { h with
    pids := h.pids + 1
    serial := fun i =>
      if (before.processes i).state = .unused ∧ (table.processes i).state ≠ .unused then h.pids
      else h.serial i }

/-- `spawn_elf_request` and its callers up to `process_spawn_from_file`. -/
def spawnElfRequest (a : SpawnAnswers) (s : System) : Option Int × System :=
  if a.loaded = false then (none, s)
  else
    match reserveProcess s.table s.cur with
    | none => (none, s)
    | some (pid, table) =>
      let owner := ⟨some s.history.pids, pid⟩
      let s := { s with table := table, history := s.history.reserve s.table table }
      match startThread a.request a.block a.stack owner s with
      | (none, s) => (none, { s with table := releaseProcess s.table pid })
      | (some tid, s) =>
        (some pid, { s with table := setProcessTid s.table pid tid }.note (.spawned pid s.caller))

/-- One of the two redirections of `process_spawn_from_file_redirect`. -/
def redirect (kind : FdKind) (addEnd : Pipes → Int → Int × Pipes) (fd : Int) (tid : Nat)
    (target : Fin threadMaxFds) (s : System) : System :=
  match schedFdGet s.threads fd with
  | some i =>
    let src := (s.threads.threads s.cur).fds i
    if src.kind = kind then
      { s with pipes := (addEnd s.pipes src.handle).2 }.withThreads
        (schedFdSet tid target kind src.handle s.threads)
    else s
  | none => s

/-- `process_spawn_from_file_redirect`. -/
def spawnFromFileRedirect (a : SpawnAnswers) (stdinFd stdoutFd : Int) (s : System) : System :=
  match spawnElfRequest a s with
  | (none, s) => s
  | (some pid, s) =>
    match (findProcess s.table pid).bind fun i => (s.table.processes i).tid with
    | none => s
    | some tid =>
      let s := if stdinFd ≥ 0 then redirect .pipeRead pipeAddReader stdinFd tid 0 s else s
      if stdoutFd ≥ 0 then redirect .pipeWrite pipeAddWriter stdoutFd tid 1 s else s

/-- `process_mark_exited`. -/
def markProcessExited (tid : Nat) (status : BitVec 32) (s : System) : System :=
  let marked := { s with table := processMarkExited s.table tid status }
  match exitingPid s.table tid with
  | some pid => (marked.note (.ended pid status)).wake (pidChannel pid)
  | none => marked

/-- `sched_exit_status`. -/
def exitStatus (status : BitVec 32) (s : System) : System :=
  let pid := exitingPid s.table s.cur
  let s' := { s with
    kernel := schedExitStatus (pid.map pidChannel) s.kernel
    table := processMarkExited s.table s.cur status }
  match pid with
  | some pid => s'.note (.ended pid status)
  | none => s'

/-- `SIGNAL_EXIT_STATUS`. -/
def signalExitStatus (sig : BitVec 32) : BitVec 32 := -128 - sig

/-- `process_kill`: the lookup, then `sched_kill`. -/
def processKill (pid : Int) (sig : BitVec 32) (s : System) : System :=
  match processGetTid s.table pid with
  | none => s
  | some tid =>
    if s.threads.threadCapacity ≤ tid then s
    else if tid = s.cur then exitStatus (signalExitStatus sig) s
    else if (s.threads.threads tid).state = .unused ∨ (s.threads.threads tid).state = .zombie then s
    else
      markProcessExited tid (signalExitStatus sig)
        (s.withThreads (updThread s.threads tid
          { s.threads.threads tid with state := .zombie, waitChannel := 0 }))

/-- A turn of the loop of `process_wait`. -/
def processWait (pid : Int) (s : System) : System :=
  match findProcess s.table pid with
  | none => (s.doing .none).note (.waited pid s.caller none)
  | some i =>
    let process := s.table.processes i
    if process.parentPid ≠ currentPid s.table s.cur then
      (s.doing .none).note (.waited pid s.caller none)
    else if process.state = .exited then
      let reaped := match process.tid with
        | some tid => schedReapThread tid s
        | none => s
      ({ reaped with table := releaseProcess reaped.table pid }.doing .none).note
        (.waited pid s.caller (some process.exitStatus))
    else sleepIn (.waiting pid) (pidChannel pid) s

/-- SYS_PIPE, once the user's pointer has passed `user_range_ok`. -/
def sysPipe (s : System) : System :=
  let (idx, pipes) := pipeCreate s.pipes
  if idx < 0 then s
  else
    let (readFd, threads) := schedFdOpen .pipeRead idx s.threads
    let (writeFd, threads) := schedFdOpen .pipeWrite idx threads
    let opened := { s with pipes := pipes }.withThreads threads
    match readFd, writeFd with
    | some _, some _ => opened
    | readFd, writeFd =>
      let threads := readFd.elim threads fun i => schedFdClose i threads
      let threads := writeFd.elim threads fun i => schedFdClose i threads
      let closed := opened.withThreads threads
      releaseSlot ⟨.pipeWrite, idx, 0⟩ (releaseSlot ⟨.pipeRead, idx, 0⟩ closed)

/-- `fd_close`. -/
def fdClose (fd : Int) (s : System) : System :=
  match schedFdGet s.threads fd with
  | some i =>
    let released := releaseSlot ((s.threads.threads s.cur).fds i) s
    released.withThreads (schedFdClose i released.threads)
  | none => s

/-- What a turn of `pipe_read` or `pipe_write` on pipe `idx` means for the
thread, which is in the loop `a`. -/
def takeTurn (a : Activity) (idx : Int) (turn : Turn × Pipes) (s : System) : System :=
  match turn.1 with
  | .answer _ => s.doing .none
  | .moved _ => ({ s with pipes := turn.2 }.doing .none).wake (s.pipeChannel idx)
  | .sleep => sleepIn a (s.pipeChannel idx) s

def readTurn (idx : Int) (len : Nat) (s : System) : System :=
  takeTurn (.reading idx len) idx (pipeRead s.pipes idx len) s

def writeTurn (idx : Int) (src : List UInt8) (s : System) : System :=
  takeTurn (.writing idx src) idx (pipeWrite s.pipes idx src) s

/-- `fd_read` and `fd_write`, as far as they concern pipes of the given end. -/
def onPipe (kind : FdKind) (turn : Int → System → System) (fd : Int) (s : System) : System :=
  match schedFdGet s.threads fd with
  | some i =>
    let slot := (s.threads.threads s.cur).fds i
    if slot.kind = kind then turn slot.handle s else s
  | none => s

/-! ## The machine -/

namespace System

/-- The calls of code that is in no loop. -/
def call (s : System) (result : System) : Option System :=
  if s.kernel.place s.cur = .code ∧ s.activity s.cur = .none then some result else none

/-- A step of the scheduler's machine. -/
def scheduled (s : System) (e : Event) : Option System :=
  (Sched.step s.kernel e).map fun k => { s with kernel := k }

def step (s : System) : SysEvent → Option System
  | .timer => s.scheduled .timer
  | .keyboard channel => s.scheduled (.keyboard channel)
  | .setIf on => s.scheduled (.setIf on)
  | .idleCheck => s.scheduled .idleCheck
  | .yield => s.call { s with kernel := schedYield s.kernel.interrupts s.kernel }
  | .sleep channel => s.call { s with kernel := schedSleep channel s.kernel }
  | .wakeup channel => s.call (s.wake channel)
  | .spawnThread req block stack => s.call (startThread req block stack kernelThread s).2
  | .spawn answers => s.call (spawnElfRequest answers s).2
  | .spawnRedirect answers stdinFd stdoutFd =>
    s.call (spawnFromFileRedirect answers stdinFd stdoutFd s)
  | .started => s.call { s with table := processStarted s.table s.cur }
  | .exit status => s.call (exitStatus status s)
  | .kill pid sig => s.call (processKill pid sig s)
  | .wait pid => s.call (processWait pid s)
  | .pipe => s.call (sysPipe s)
  | .openFile kind handle =>
    if kind = .pipeRead ∨ kind = .pipeWrite then none
    else s.call (s.withThreads (schedFdOpen kind handle s.threads).2)
  | .close fd => s.call (fdClose fd s)
  | .read fd len => s.call (onPipe .pipeRead (fun idx => readTurn idx len) fd s)
  | .write fd src => s.call (onPipe .pipeWrite (fun idx => writeTurn idx src) fd s)
  | .resume =>
    if s.kernel.place s.cur = .code then
      match s.activity s.cur with
      | .none => none
      | .reading idx len => some (readTurn idx len s)
      | .writing idx src => some (writeTurn idx src s)
      | .waiting pid => some (processWait pid s)
    else none

/-- The state after `sched_init`: the boot thread, no process and no pipe. -/
def boot (block : Nat → Thread) (stack : GuardedStack) (kernelSpace pipesAddress : Word) :
    System where
  kernel := Sched.boot block stack kernelSpace
  pipes := fun _ =>
    { inUse := false, buf := fun _ => 0, readPos := 0, writePos := 0, count := 0, readers := 0,
      writers := 0 }
  pipesAddress := pipesAddress
  table := { processes := fun _ => { unusedProcess with tid := some 0 }, nextPid := 1 }
  activity := fun _ => .none
  history :=
    { occupant := fun _ => kernelThread
      pids := 0
      serial := fun _ => 0
      log := [] }

end System

end MiniKernel.Proc
