import MiniKernel.Sched.Sleepers

/-!
# Keys and the threads that wait for them

Source: kernel/drivers/keyboard/keyboard.c:18-64 (`kbd_getchar`,
`keyboard_irq_handler`), kernel/lib/ring_buffer.c, kernel/sched/thread.c
(`sched_sleep`, `sched_wakeup`). `kbd_getchar` runs with the caller's interrupt
flag. Each access of `ring_buffer_pop` to `head` and `tail` is a step; the
handler runs through, as its gate clears the flag.
-/
namespace MiniKernel.Drivers.Keyboard
open Memory.Paging (Word)
open Sched
open Proc (fallAsleep)
open Lib.Machine (run Meets)

def kbdBufferSize : Nat := 256

instance : NeZero kbdBufferSize := ⟨by decide⟩

/-- `kbd_buffer` with its storage; indices count modulo the capacity. -/
structure RingBuffer where
  storage : Fin kbdBufferSize → UInt8
  head : Fin kbdBufferSize
  tail : Fin kbdBufferSize

/-- `ring_buffer_push`; a full buffer drops the value. -/
def ringBufferPush (rb : RingBuffer) (value : UInt8) : RingBuffer :=
  if rb.head + 1 = rb.tail then rb
  else { rb with storage := Function.update rb.storage rb.head value, head := rb.head + 1 }

/-- Where a thread is in `kbd_getchar`. -/
inductive GetcharPhase where
  | none
  /-- Before `ring_buffer_pop`. -/
  | popping
  /-- The test has read this `tail`. -/
  | comparing (tail : Fin kbdBufferSize)
  /-- The test has found a value. -/
  | found
  /-- The value has been read. -/
  | taken (c : UInt8)
  /-- The increment has read this `tail`. -/
  | advancing (c : UInt8) (tail : Fin kbdBufferSize)
  /-- `ring_buffer_pop` has answered 0. -/
  | empty
  | asleep
  deriving DecidableEq, Repr

structure Console where
  kernel : Kernel
  kbdBuffer : RingBuffer
  /-- `&kbd_wait_channel`. -/
  kbdWaitChannel : Word
  phase : Nat → GetcharPhase
  /-- What the thread's last `kbd_getchar` returned. -/
  returned : Nat → Option UInt8

inductive KeyEvent where
  | other (e : Event)
  /-- `keyboard_irq_handler`, for a key that stands for these characters. -/
  | key (seq : List UInt8)
  | getchar
  /-- The next access of the running thread's `kbd_getchar`. -/
  | access
  | sleep
  /-- `sched_sleep` returns. -/
  | wake

/-- What happens to a thread wherever it is. -/
def Forced : Event → Prop
  | .timer => True
  | .idleCheck => True
  | _ => False

instance : DecidablePred Forced := fun e => by
  unfold Forced
  split <;> infer_instance

namespace Console

def cur (w : Console) : Nat := w.kernel.cur

def moveTo (w : Console) (p : GetcharPhase) : Console :=
  { w with phase := Function.update w.phase w.cur p }

/-- The kernel has made a step; slots beyond the table hold nobody. -/
def stepped (w : Console) (k : Kernel) : Console :=
  { w with
    kernel := k
    phase := fun i => if i < w.kernel.table.threadCapacity then w.phase i else .none }

/-- The thread in the slot is gone, or new. -/
def vacate (w : Console) (slot : Nat) : Console :=
  { w with phase := Function.update w.phase slot .none }

/-- What the step `e` to the kernel `k` means for the threads in `kbd_getchar`. -/
def after (w : Console) (e : Event) (k : Kernel) : Console :=
  match e with
  | .kill tid _ => (w.stepped k).vacate tid
  | .spawnStep _ _ =>
    match w.kernel.place w.cur with
    | .spawning _ (.publish slot _) => (w.stepped k).vacate slot
    | _ => w.stepped k
  | _ => w.stepped k

/-- The accesses of `ring_buffer_pop`, in order. -/
def access (w : Console) : GetcharPhase → Option Console
  | .popping => some (w.moveTo (.comparing w.kbdBuffer.tail))
  | .comparing tail => some (w.moveTo (if tail = w.kbdBuffer.head then .empty else .found))
  | .found => some (w.moveTo (.taken (w.kbdBuffer.storage w.kbdBuffer.tail)))
  | .taken c => some (w.moveTo (.advancing c w.kbdBuffer.tail))
  | .advancing c tail =>
    some { w.moveTo .none with
      kbdBuffer := { w.kbdBuffer with tail := tail + 1 }
      returned := Function.update w.returned w.cur (some c) }
  | _ => none

def step (w : Console) : KeyEvent → Option Console
  | .other (.keyboard _) => none
  | .other e =>
    if w.phase w.cur = .none ∨ Forced e then (Sched.step w.kernel e).map (w.after e) else none
  | .key seq =>
    if w.kernel.interrupts then
      some { w with
        kbdBuffer := seq.foldl ringBufferPush w.kbdBuffer
        kernel := { w.kernel with table := schedWakeup w.kernel.table w.kbdWaitChannel } }
    else none
  | .getchar =>
    if w.phase w.cur = .none ∧ w.kernel.place w.cur = .code then some (w.moveTo .popping)
    else none
  | .access => w.access (w.phase w.cur)
  | .sleep =>
    if w.phase w.cur = .empty ∧ w.kernel.place w.cur = .code then
      some { w.moveTo .asleep with kernel := schedSleep w.kbdWaitChannel w.kernel }
    else none
  | .wake =>
    if w.phase w.cur = .asleep ∧ w.kernel.place w.cur = .code then some (w.moveTo .popping)
    else none

def boot (block : Nat → Thread) (stack : GuardedStack) (kernelSpace kbdWaitChannel : Word)
    (storage : Fin kbdBufferSize → UInt8) : Console where
  kernel := Sched.boot block stack kernelSpace
  kbdBuffer := { storage := storage, head := 0, tail := 0 }
  kbdWaitChannel := kbdWaitChannel
  phase := fun _ => .none
  returned := fun _ => Option.none

end Console

/-- On the way to the value: not outside, and not about to sleep. -/
def WillTake (p : GetcharPhase) : Prop := p ≠ .none ∧ p ≠ .empty

instance (p : GetcharPhase) : Decidable (WillTake p) := inferInstanceAs (Decidable (_ ∧ _))

/-- Whoever is asleep in `kbd_getchar` while there is a value has somebody awake
in it who will take the value. -/
def Attended (w : Console) : Prop :=
  ∀ i < w.kernel.table.threadCapacity, w.phase i = .asleep → w.kernel.stateOf i = .blocked →
    w.kbdBuffer.tail ≠ w.kbdBuffer.head →
    ∃ j < w.kernel.table.threadCapacity, WillTake (w.phase j) ∧
      Runnable (w.kernel.table.threads j)

/-- No key arrives between the test of a `kbd_getchar` and its sleep, the test
answers 0 for an empty buffer only, and no `pop` brings an emptied buffer back. -/
def NoneMissed (w : Console) : KeyEvent → Prop
  | .key seq => seq ≠ [] → ∀ i < w.kernel.table.threadCapacity, w.phase i ≠ .empty
  | .access =>
    match w.phase w.cur with
    | .comparing tail => tail = w.kbdBuffer.head → w.kbdBuffer.tail = w.kbdBuffer.head
    | .advancing _ tail => w.kbdBuffer.tail = w.kbdBuffer.head → tail + 1 = w.kbdBuffer.head
    | _ => True
  | _ => True

instance (w : Console) (e : KeyEvent) : Decidable (NoneMissed w e) := by
  unfold NoneMissed
  split
  · infer_instance
  · split <;> infer_instance
  · infer_instance

/-! ## What every step keeps -/

/-- Nobody sleeps, or is about to, while there is a value. -/
structure Attentive (w : Console) : Prop where
  wf : WellFormed w.kernel
  empty : ∀ i < w.kernel.table.threadCapacity, w.phase i = .empty →
    w.kbdBuffer.tail = w.kbdBuffer.head
  asleep : ∀ i < w.kernel.table.threadCapacity, w.phase i = .asleep →
    w.kernel.stateOf i = .blocked → w.kbdBuffer.tail = w.kbdBuffer.head ∧
      (w.kernel.table.threads i).waitChannel = w.kbdWaitChannel

variable {w v : Console} {k : Kernel} {e : Event}

theorem Attentive.attended (att : Attentive w) : Attended w :=
  fun i hi phase blocked value => absurd (att.asleep i hi phase blocked).1 value

/-- Neither about to sleep nor asleep. -/
def Busy (p : GetcharPhase) : Prop := p ≠ .empty ∧ p ≠ .asleep

/-- Threads that leave the loop, or have yet to test. -/
theorem Attentive.rephase (att : Attentive w) (i : Nat) (p : GetcharPhase) (busy : Busy p) :
    Attentive { w with phase := Function.update w.phase i p } := by
  refine ⟨att.wf, fun j hj phase => ?_, fun j hj phase => ?_⟩
  · simp only [Function.update_apply] at phase
    split at phase
    · exact absurd phase busy.1
    · exact att.empty j hj phase
  · simp only [Function.update_apply] at phase
    split at phase
    · exact absurd phase busy.2
    · exact att.asleep j hj phase

theorem Attentive.stepped (att : Attentive w) (h : Sched.step w.kernel e = some k)
    (idle : w.phase w.cur = .none ∨ Forced e) : Attentive (w.stepped k) := by
  have old (i : Nat) (p : GetcharPhase) (hp : p ≠ .none) (phase : (w.stepped k).phase i = p) :
      i < w.kernel.table.threadCapacity ∧ w.phase i = p := by
    change (if i < w.kernel.table.threadCapacity then w.phase i else .none) = p at phase
    split at phase
    · next inTable => exact ⟨inTable, phase⟩
    · exact absurd phase.symm hp
  refine ⟨step_wellFormed att.wf h, fun i _ phase => ?_, fun i hi phase blocked => ?_⟩
  · obtain ⟨inTable, was⟩ := old i .empty nofun phase
    exact att.empty i inTable was
  · obtain ⟨inTable, was⟩ := old i .asleep nofun phase
    rcases step_blocked att.wf h hi blocked with ⟨channel, rfl, self⟩ | ⟨_, slept, channel⟩
    · -- the thread that goes to sleep here is not in `kbd_getchar`
      have none := idle.resolve_right id
      rw [self] at was
      change w.phase w.cur = _ at was
      rw [none] at was
      cases was
    · obtain ⟨noValue, same⟩ := att.asleep i inTable was slept
      exact ⟨noValue, channel.trans same⟩

theorem Attentive.after (att : Attentive w) (h : Sched.step w.kernel e = some k)
    (idle : w.phase w.cur = .none ∨ Forced e) : Attentive (w.after e k) := by
  have att' := att.stepped h idle
  cases e with
  | kill tid pid => exact att'.rephase tid .none ⟨nofun, nofun⟩
  | spawnStep block stack =>
    simp only [Console.after]
    split
    · next slot _ _ => exact att'.rephase slot .none ⟨nofun, nofun⟩
    · exact att'
  | _ => exact att'

/-- The handler wakes all who sleep, so only who is about to sleep can miss the key. -/
theorem Attentive.key (att : Attentive w) (seq : List UInt8)
    (nobody : seq ≠ [] → ∀ i < w.kernel.table.threadCapacity, w.phase i ≠ .empty) :
    Attentive { w with
      kbdBuffer := seq.foldl ringBufferPush w.kbdBuffer
      kernel := { w.kernel with table := schedWakeup w.kernel.table w.kbdWaitChannel } } := by
  refine ⟨att.wf.wakeup _, fun i hi phase => ?_, fun i hi phase blocked => ?_⟩
  · cases seq with
    | nil => exact att.empty i hi phase
    | cons c seq => exact absurd phase (nobody nofun i hi)
  · have moved := Proc.wakeup_reschedules w.kernel w.kbdWaitChannel
    obtain ⟨was, channel⟩ := moved.blocked blocked
    have onKbd := channel.trans (att.asleep i hi phase was).2
    exact absurd onKbd (Proc.schedWakeup_wakes _ _ i hi blocked)

theorem Attentive.sleep (att : Attentive w) (about : w.phase w.cur = .empty)
    (inCode : w.kernel.place w.cur = .code) :
    Attentive { w.moveTo .asleep with kernel := schedSleep w.kbdWaitChannel w.kernel } := by
  have moved := Proc.sleep_reschedules att.wf w.kbdWaitChannel inCode
  have noValue := att.empty w.cur att.wf.current about
  have inTable (i : Nat) (hi : i < (schedSleep w.kbdWaitChannel w.kernel).table.threadCapacity) :
      i < w.kernel.table.threadCapacity := moved.capacity ▸ hi
  refine ⟨att.wf.schedSleep _, fun i hi phase => noValue, fun i hi phase blocked => ?_⟩
  obtain ⟨was, channel⟩ := moved.blocked blocked
  refine ⟨noValue, channel.trans ?_⟩
  simp only [Console.moveTo, Function.update_apply] at phase
  split at phase
  · next self =>
    rw [self, fallAsleep]
    exact congrArg Thread.waitChannel (updThread_same ..)
  · next elsewhere =>
    have kept : (fallAsleep w.kbdWaitChannel w.kernel).table.threads i =
        w.kernel.table.threads i := updThread_other _ _ _ _ elsewhere
    rw [Kernel.stateOf, kept] at was
    rw [kept]
    exact (att.asleep i (inTable i hi) phase was).2

/-- The test has answered 0 for an empty buffer. -/
theorem Attentive.tested (att : Attentive w) (noValue : w.kbdBuffer.tail = w.kbdBuffer.head) :
    Attentive (w.moveTo .empty) := by
  refine ⟨att.wf, fun _ _ _ => noValue, fun i hi phase => ?_⟩
  simp only [Console.moveTo, Function.update_apply] at phase
  split at phase
  · cases phase
  · exact att.asleep i hi phase

theorem Attentive.access (att : Attentive w) (ok : NoneMissed w .access)
    (h : w.access (w.phase w.cur) = some v) : Attentive v := by
  simp only [NoneMissed] at ok
  cases place : w.phase w.cur with
  | popping =>
    rw [place] at h
    obtain rfl := Option.some.inj h
    exact att.rephase w.cur _ ⟨nofun, nofun⟩
  | comparing tail =>
    rw [place] at h
    simp only [place] at ok
    obtain rfl := Option.some.inj h
    split
    · next same => exact att.tested (ok same)
    · exact att.rephase w.cur _ ⟨nofun, nofun⟩
  | found =>
    rw [place] at h
    obtain rfl := Option.some.inj h
    exact att.rephase w.cur _ ⟨nofun, nofun⟩
  | taken c =>
    rw [place] at h
    obtain rfl := Option.some.inj h
    exact att.rephase w.cur _ ⟨nofun, nofun⟩
  | advancing c tail =>
    rw [place] at h
    simp only [place] at ok
    obtain rfl := Option.some.inj h
    have left := att.rephase w.cur .none ⟨nofun, nofun⟩
    refine ⟨att.wf, fun i hi phase => ?_, fun i hi phase blocked => ?_⟩
    · exact ok (left.empty i hi phase)
    · obtain ⟨noValue, channel⟩ := left.asleep i hi phase blocked
      exact ⟨ok noValue, channel⟩
  | none | empty | asleep =>
    rw [place] at h
    cases h

/-- Every step that misses nothing keeps the invariant. -/
theorem console_step (w : Console) (e : KeyEvent) (v : Console) (att : Attentive w)
    (ok : NoneMissed w e) (h : w.step e = some v) : Attentive v := by
  cases e with
  | other e =>
    have lift (h : (if w.phase w.cur = .none ∨ Forced e then
        (Sched.step w.kernel e).map (w.after e) else none) = some v) : Attentive v := by
      split at h
      · next idle =>
        obtain ⟨k, stepped, rfl⟩ := Option.map_eq_some_iff.mp h
        exact att.after stepped idle
      · cases h
    cases e with
    | keyboard channel => cases h
    | _ => exact lift h
  | key seq =>
    simp only [Console.step] at h
    split at h
    · cases h
      exact att.key seq ok
    · cases h
  | getchar =>
    simp only [Console.step] at h
    split at h
    · cases h
      exact att.rephase w.cur _ ⟨nofun, nofun⟩
    · cases h
  | access => exact att.access ok h
  | sleep =>
    simp only [Console.step] at h
    split at h
    · next about =>
      cases h
      exact att.sleep about.1 about.2
    · cases h
  | wake =>
    simp only [Console.step] at h
    split at h
    · cases h
      exact att.rephase w.cur _ ⟨nofun, nofun⟩
    · cases h

/-- In every run whose steps miss nothing, no thread sleeps for a key that is
in the buffer. -/
theorem keys_attended (block : Nat → Thread) (stack : GuardedStack)
    (kernelSpace kbdWaitChannel : Word) (storage : Fin kbdBufferSize → UInt8)
    (es : List KeyEvent) (w : Console)
    (ok : Meets Console.step NoneMissed (.boot block stack kernelSpace kbdWaitChannel storage) es)
    (ran : run Console.step (.boot block stack kernelSpace kbdWaitChannel storage) es = some w) :
    Attended w := by
  have start : Attentive (.boot block stack kernelSpace kbdWaitChannel storage) := by
    refine ⟨boot_wellFormed block stack kernelSpace, fun i _ phase => ?_, fun i _ phase => ?_⟩
    · cases phase
    · cases phase
  exact (Lib.Machine.run_invariant console_step start ok ran).attended

def firstConsole : Console := .boot (blockOfUid 0) someStack 0x1000 0x9000 (fun _ => 0)

/-- The shell asks for a key and finds the buffer empty. -/
def asksInVain : List KeyEvent := [.other (.setIf true), .getchar, .access, .access]

/-- The key comes while the shell sleeps. -/
def keyWakes : List KeyEvent := asksInVain ++ [.sleep, .key [0x61], .other .idleCheck, .wake]

theorem keys_attended_wakes :
    ∃ w, run Console.step firstConsole keyWakes = some w ∧ Attended w := by
  have runs : (run Console.step firstConsole keyWakes).isSome := by decide +kernel
  obtain ⟨w, ran⟩ := Option.isSome_iff_exists.mp runs
  exact ⟨w, ran, keys_attended (blockOfUid 0) someStack 0x1000 0x9000 (fun _ => 0) keyWakes w
    (by decide +kernel) ran⟩

/-- The key comes between the test and the sleep. -/
theorem key_before_sleep :
    ¬ ∀ block stack kernelSpace kbdWaitChannel storage es w,
      run Console.step (.boot block stack kernelSpace kbdWaitChannel storage) es = some w →
      Attended w := by
  intro claim
  let es : List KeyEvent := asksInVain ++ [.key [0x61], .sleep]
  have runs : (run Console.step firstConsole es).isSome := by decide +kernel
  obtain ⟨w, ran⟩ := Option.isSome_iff_exists.mp runs
  have missed : ∀ w ∈ run Console.step firstConsole es,
      0 < w.kernel.table.threadCapacity ∧ w.phase 0 = .asleep ∧ w.kernel.stateOf 0 = .blocked ∧
        w.kbdBuffer.tail ≠ w.kbdBuffer.head ∧ ∀ j < w.kernel.table.threadCapacity,
          ¬ (WillTake (w.phase j) ∧ Runnable (w.kernel.table.threads j)) := by decide +kernel
  obtain ⟨inTable, phase, blocked, value, nobody⟩ := missed w ran
  obtain ⟨j, hj, takes⟩ := claim _ _ _ _ _ _ w ran 0 inTable phase blocked value
  exact nobody j hj takes

end MiniKernel.Drivers.Keyboard
