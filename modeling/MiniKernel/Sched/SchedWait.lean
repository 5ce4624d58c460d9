import MiniKernel.Sched.Sleepers

/-!
# Waiting for a thread

Source: kernel/sched/thread.c:401-405 (`sched_wait`), 353-399 (`sched_sleep`,
`sched_wakeup`), 479-533 (`sched_exit_status`, `sched_kill`),
kernel/core/process.c (`process_mark_exited`). `sched_wait` looks whether the
thread is alive and goes to sleep in two steps, between which it can lose the
CPU, and only `sched_exit_status` wakes the channel it sleeps on.

Slots are used again, so a thread is named by its slot and the number of threads
published there before. `lives` and `ended` are for proofs only.
-/
namespace MiniKernel.Sched
open Memory.Paging (Word)
open Proc (Reschedules fallAsleep)
open Lib.Machine (run Meets)

variable {k t : Kernel} {e : Event} {i : Nat}

/-! ## The machine -/

/-- A thread, by its slot and the number of threads that had it before. -/
structure ThreadId where
  slot : Nat
  life : Nat
  deriving DecidableEq, Repr

/-- Where a thread is in `sched_wait` or `sched_kill`. -/
inductive WaitPhase where
  | none
  /-- Before the test of the loop. -/
  | testing (target : ThreadId)
  /-- The test has found the thread alive. -/
  | tested (target : ThreadId)
  | asleep (target : ThreadId)
  /-- Before the `process_mark_exited` of `sched_kill`; `pid` is what it finds. -/
  | marking (target : ThreadId) (pid : Option Word)
  deriving DecidableEq, Repr

structure Waiting where
  kernel : Kernel
  phase : Nat → WaitPhase
  lives : Nat → Nat
  /-- The exit of the thread, or the kill of it, is through. -/
  ended : ThreadId → Bool

inductive WaitEvent where
  | other (e : Event)
  | schedWait (tid : Nat)
  | test
  | sleep
  /-- `sched_sleep` returns. -/
  | wake
  | markExited

/-- `sched_is_alive`. -/
def schedIsAlive (s : ThreadTable) (tid : Nat) : Bool :=
  decide (tid < s.threadCapacity ∧ ((s.threads tid).state = .ready ∨
    (s.threads tid).state = .running ∨ (s.threads tid).state = .blocked))

/-- What happens to a thread wherever it is. -/
def Forced : Event → Prop
  | .timer => True
  | .keyboard _ => True
  | .idleCheck => True
  | _ => False

instance : DecidablePred Forced := fun e => by
  unfold Forced
  split <;> infer_instance

namespace Waiting

def cur (w : Waiting) : Nat := w.kernel.cur

/-- The thread now in the slot. -/
def idOf (w : Waiting) (slot : Nat) : ThreadId := ⟨slot, w.lives slot⟩

def moveTo (w : Waiting) (p : WaitPhase) : Waiting :=
  { w with phase := Function.update w.phase w.cur p }

def finish (w : Waiting) (target : ThreadId) : Waiting :=
  { w with ended := Function.update w.ended target true }

/-- The kernel has made a step; slots beyond the table hold nobody. -/
def stepped (w : Waiting) (k : Kernel) : Waiting :=
  { w with
    kernel := k
    phase := fun i => if i < w.kernel.table.threadCapacity then w.phase i else .none }

/-- What the step `e` to the kernel `k` means for waiters and killers. -/
def after (w : Waiting) (e : Event) (k : Kernel) : Waiting :=
  match e with
  | .exit _ => (w.stepped k).finish (w.idOf w.cur)
  | .kill tid pid =>
    if w.kernel.table.threadCapacity ≤ tid then w.stepped k
    else if tid = w.cur then (w.stepped k).finish (w.idOf tid)
    else if w.kernel.stateOf tid = .unused ∨ w.kernel.stateOf tid = .zombie then w.stepped k
    else
      { w.stepped k with
        phase := Function.update (Function.update (w.stepped k).phase tid .none) w.cur
          (.marking (w.idOf tid) pid) }
  | .spawnStep _ _ =>
    match w.kernel.place w.cur with
    | .spawning _ (.publish slot _) =>
      { w.stepped k with
        phase := Function.update (w.stepped k).phase slot .none
        lives := Function.update w.lives slot (w.lives slot + 1) }
    | _ => w.stepped k
  | _ => w.stepped k

def step (w : Waiting) : WaitEvent → Option Waiting
  | .other e =>
    if w.phase w.cur = .none ∨ Forced e then (Sched.step w.kernel e).map (w.after e) else none
  | .schedWait tid =>
    if w.phase w.cur = .none ∧ w.kernel.place w.cur = .code then
      some (w.moveTo (.testing (w.idOf tid)))
    else none
  | .test =>
    match w.phase w.cur with
    | .testing target =>
      some (w.moveTo (if schedIsAlive w.kernel.table target.slot then .tested target else .none))
    | _ => none
  | .sleep =>
    match w.phase w.cur with
    | .tested target =>
      if w.kernel.place w.cur = .code then
        some { w.moveTo (.asleep target) with
          kernel := schedSleep (tidChannel target.slot) w.kernel }
      else none
    | _ => none
  | .wake =>
    match w.phase w.cur with
    | .asleep target =>
      if w.kernel.place w.cur = .code then some (w.moveTo (.testing target)) else none
    | _ => none
  | .markExited =>
    match w.phase w.cur with
    | .marking target pid =>
      some (({ w.moveTo .none with
        kernel := { w.kernel with table := Sched.markExited w.kernel.table pid } }).finish target)
    | _ => none

def boot (block : Nat → Thread) (stack : GuardedStack) (kernelSpace : Word) : Waiting where
  kernel := Sched.boot block stack kernelSpace
  phase := fun _ => .none
  lives := fun _ => 0
  ended := fun _ => false

end Waiting

/-- Nobody sleeps in `sched_wait` for a thread that has exited or was killed. -/
def NoneStranded (w : Waiting) : Prop :=
  ∀ i < w.kernel.table.threadCapacity, ∀ target, w.phase i = .asleep target →
    w.kernel.stateOf i = .blocked → w.ended target = false

/-- No thread is between the test of its `sched_wait` and the sleep. -/
def NobodyBetween (w : Waiting) (target : ThreadId) : Prop :=
  ∀ i < w.kernel.table.threadCapacity, w.phase i ≠ .tested target

instance (w : Waiting) (target : ThreadId) : Decidable (NobodyBetween w target) :=
  inferInstanceAs (Decidable (∀ i < _, _))

/-- The wakeup of `process_mark_exited` reaches all who sleep in `sched_wait`. -/
def MarkWakes (w : Waiting) (target : ThreadId) (pid : Option Word) : Prop :=
  ∀ i < w.kernel.table.threadCapacity, w.phase i = .asleep target →
    w.kernel.stateOf i = .blocked → pid = some (tidChannel target.slot)

instance (w : Waiting) (target : ThreadId) (pid : Option Word) :
    Decidable (MarkWakes w target pid) :=
  inferInstanceAs (Decidable (∀ i < _, _ → _ → _))

/-- No thread ends while another is about to sleep for it or, when it is killed,
sleeps already; and the test takes no other thread for one that has ended. -/
def Heard (w : Waiting) : WaitEvent → Prop
  | .other (.exit _) => NobodyBetween w (w.idOf w.cur)
  | .other (.kill tid _) => tid = w.cur → NobodyBetween w (w.idOf w.cur)
  | .test =>
    match w.phase w.cur with
    | .testing target => w.ended target = true → schedIsAlive w.kernel.table target.slot = false
    | _ => True
  | .markExited =>
    match w.phase w.cur with
    | .marking target pid => NobodyBetween w target ∧ MarkWakes w target pid
    | _ => True
  | _ => True

instance (w : Waiting) (e : WaitEvent) : Decidable (Heard w e) := by
  unfold Heard
  split
  · infer_instance
  · infer_instance
  · split <;> infer_instance
  · split <;> infer_instance
  · infer_instance

/-! ## What every step keeps -/

structure Audible (w : Waiting) : Prop where
  wf : WellFormed w.kernel
  tested : ∀ i < w.kernel.table.threadCapacity, ∀ target, w.phase i = .tested target →
    w.ended target = false
  asleep : ∀ i < w.kernel.table.threadCapacity, ∀ target, w.phase i = .asleep target →
    w.kernel.stateOf i = .blocked → w.ended target = false ∧
      (w.kernel.table.threads i).waitChannel = tidChannel target.slot

variable {w v : Waiting} {target : ThreadId}

/-- Neither about to sleep nor asleep. -/
def Afoot : WaitPhase → Prop
  | .tested _ => False
  | .asleep _ => False
  | _ => True

/-- Threads that leave the loop, or have yet to test. -/
theorem Audible.rephase (aud : Audible w) (phase : Nat → WaitPhase)
    (same : ∀ i, phase i = w.phase i ∨ Afoot (phase i)) (lives : Nat → Nat) :
    Audible { w with phase := phase, lives := lives } := by
  have old (i : Nat) (p : WaitPhase) (hp : ¬ Afoot p) (h : phase i = p) : w.phase i = p := by
    rcases same i with kept | afoot
    · rw [← kept, h]
    · rw [h] at afoot
      exact absurd afoot hp
  exact ⟨aud.wf, fun i hi target h => aud.tested i hi target (old i _ id h),
    fun i hi target h => aud.asleep i hi target (old i _ id h)⟩

theorem Audible.finish (aud : Audible w) (between : NobodyBetween w target)
    (woken : ∀ i < w.kernel.table.threadCapacity, w.phase i = .asleep target →
      w.kernel.stateOf i ≠ .blocked) : Audible (w.finish target) := by
  refine ⟨aud.wf, fun i hi other h => ?_, fun i hi other h blocked => ?_⟩
  · have apart : other ≠ target := by
      intro same
      rw [same] at h
      exact between i hi h
    change Function.update w.ended target true other = false
    rw [Function.update_of_ne apart]
    exact aud.tested i hi other h
  · have apart : other ≠ target := by
      intro same
      rw [same] at h
      exact woken i hi h blocked
    change Function.update w.ended target true other = false ∧ _
    rw [Function.update_of_ne apart]
    exact aud.asleep i hi other h blocked

theorem Audible.stepped (aud : Audible w) (h : Sched.step w.kernel e = some k)
    (idle : w.phase w.cur = .none ∨ Forced e) : Audible (w.stepped k) := by
  have old (i : Nat) (p : WaitPhase) (hp : p ≠ .none) (phase : (w.stepped k).phase i = p) :
      i < w.kernel.table.threadCapacity ∧ w.phase i = p := by
    change (if i < w.kernel.table.threadCapacity then w.phase i else .none) = p at phase
    split at phase
    · next inTable => exact ⟨inTable, phase⟩
    · exact absurd phase.symm hp
  refine ⟨step_wellFormed aud.wf h, fun i _ target phase => ?_, fun i hi target phase blocked => ?_⟩
  · obtain ⟨inTable, was⟩ := old i (.tested target) nofun phase
    exact aud.tested i inTable target was
  · obtain ⟨inTable, was⟩ := old i (.asleep target) nofun phase
    rcases step_blocked aud.wf h hi blocked with ⟨channel, rfl, self⟩ | ⟨_, slept, channel⟩
    · -- the thread that goes to sleep here is in no `sched_wait`
      have none := idle.resolve_right id
      rw [self] at was
      change w.phase w.cur = _ at was
      rw [none] at was
      cases was
    · obtain ⟨alive, same⟩ := aud.asleep i inTable target was slept
      exact ⟨alive, channel.trans same⟩

theorem Audible.exited (aud : Audible w) (pid : Option Word)
    (h : Sched.step w.kernel e = some (schedExitStatus pid w.kernel))
    (idle : w.phase w.cur = .none ∨ Forced e) (between : NobodyBetween w (w.idOf w.cur)) :
    Audible ((w.stepped (schedExitStatus pid w.kernel)).finish (w.idOf w.cur)) := by
  have aud' := aud.stepped h idle
  refine aud'.finish (fun i hi phase => ?_) fun i hi phase blocked => ?_
  · change (if i < w.kernel.table.threadCapacity then w.phase i else .none) = _ at phase
    split at phase
    · next inTable => exact between i inTable phase
    · cases phase
  · have channel := (aud'.asleep i hi _ phase blocked).2
    change i < (schedExitStatus pid w.kernel).table.threadCapacity at hi
    rw [schedExitStatus_capacity] at hi
    exact exit_wakes aud.wf pid hi blocked channel

theorem Audible.killed (aud : Audible w) (tid : Nat) (pid : Option Word)
    (h : Sched.step w.kernel (.kill tid pid) = some k) (idle : w.phase w.cur = .none)
    (between : tid = w.cur → NobodyBetween w (w.idOf w.cur)) :
    Audible (w.after (.kill tid pid) k) := by
  have aud' := aud.stepped h (Or.inl idle)
  simp only [Waiting.after]
  split
  · exact aud'
  · next inTable =>
    split
    · next self =>
      have exits : k = schedExitStatus pid w.kernel := by
        obtain ⟨_, rfl⟩ := call_eq_some.mp h
        rw [schedKill, if_neg inTable]
        exact if_pos self
      rw [exits] at h ⊢
      rw [self]
      exact aud.exited pid h (Or.inl idle) (between self)
    · split
      · exact aud'
      · refine aud'.rephase _ (fun i => ?_) _
        simp only [Function.update_apply]
        split
        · exact Or.inr trivial
        · split
          · exact Or.inr trivial
          · exact Or.inl rfl

theorem Audible.after (aud : Audible w) (h : Sched.step w.kernel e = some k)
    (idle : w.phase w.cur = .none ∨ Forced e) (heard : Heard w (.other e)) :
    Audible (w.after e k) := by
  have aud' := aud.stepped h idle
  cases e with
  | exit pid =>
    obtain ⟨_, rfl⟩ := call_eq_some.mp h
    exact aud.exited pid h idle heard
  | kill tid pid => exact aud.killed tid pid h (idle.resolve_right id) heard
  | spawnStep block stack =>
    simp only [Waiting.after]
    split
    · refine aud'.rephase _ (fun i => ?_) _
      simp only [Function.update_apply]
      split
      · exact Or.inr trivial
      · exact Or.inl rfl
    · exact aud'
  | _ => exact aud'

/-- The thread moves on to a phase in which it does not count as waiting. -/
theorem Audible.moveTo (aud : Audible w) (p : WaitPhase) (afoot : Afoot p) :
    Audible (w.moveTo p) := by
  refine aud.rephase _ (fun i => ?_) w.lives
  simp only [Function.update_apply]
  split
  · exact Or.inr afoot
  · exact Or.inl rfl

theorem Audible.test (aud : Audible w) (alive : w.ended target = false) :
    Audible (w.moveTo (.tested target)) := by
  refine ⟨aud.wf, fun i hi other h => ?_, fun i hi other h => ?_⟩
  · simp only [Waiting.moveTo, Function.update_apply] at h
    split at h
    · cases h
      exact alive
    · exact aud.tested i hi other h
  · simp only [Waiting.moveTo, Function.update_apply] at h
    split at h
    · cases h
    · exact aud.asleep i hi other h

theorem Audible.sleep (aud : Audible w) (tested : w.phase w.cur = .tested target)
    (inCode : w.kernel.place w.cur = .code) :
    Audible { w.moveTo (.asleep target) with
      kernel := schedSleep (tidChannel target.slot) w.kernel } := by
  have moved := Proc.sleep_reschedules aud.wf (tidChannel target.slot) inCode
  have alive := aud.tested w.cur aud.wf.current target tested
  refine ⟨aud.wf.schedSleep _, fun i hi other h => ?_, fun i hi other h blocked => ?_⟩
  · have inTable : i < w.kernel.table.threadCapacity := moved.capacity ▸ hi
    simp only [Waiting.moveTo, Function.update_apply] at h
    split at h
    · cases h
    · exact aud.tested i inTable other h
  · have inTable : i < w.kernel.table.threadCapacity := moved.capacity ▸ hi
    obtain ⟨was, channel⟩ := moved.blocked blocked
    simp only [Waiting.moveTo, Function.update_apply] at h
    split at h
    · next self =>
      cases h
      refine ⟨alive, channel.trans ?_⟩
      rw [self, fallAsleep]
      exact congrArg Thread.waitChannel (updThread_same ..)
    · next elsewhere =>
      have kept : (fallAsleep (tidChannel target.slot) w.kernel).table.threads i =
          w.kernel.table.threads i := updThread_other _ _ _ _ elsewhere
      rw [Kernel.stateOf, kept] at was
      rw [kept] at channel
      obtain ⟨open', same⟩ := aud.asleep i inTable other h was
      exact ⟨open', channel.trans same⟩

theorem Audible.marked (aud : Audible w) (pid : Option Word) (between : NobodyBetween w target)
    (wakes : MarkWakes w target pid) :
    Audible (({ w.moveTo .none with
      kernel := { w.kernel with table := Sched.markExited w.kernel.table pid } }).finish
        target) := by
  have moved := Proc.markExited_reschedules w.kernel pid
  let v : Waiting := { w with
    kernel := { w.kernel with table := Sched.markExited w.kernel.table pid } }
  have capacity (i : Nat) (hi : i < v.kernel.table.threadCapacity) :
      i < w.kernel.table.threadCapacity := moved.capacity ▸ hi
  have wf : WellFormed v.kernel := by
    cases pid with
    | none => exact aud.wf
    | some pid => exact aud.wf.wakeup pid
  have woken : Audible v := by
    refine ⟨wf, fun i hi => aud.tested i (capacity i hi), fun i hi other h blocked => ?_⟩
    obtain ⟨was, channel⟩ := moved.blocked blocked
    obtain ⟨open', same⟩ := aud.asleep i (capacity i hi) other h was
    exact ⟨open', channel.trans same⟩
  have done := woken.finish (fun i hi => between i (capacity i hi)) fun i hi phase blocked => by
    obtain ⟨was, _⟩ := moved.blocked blocked
    have onPid := wakes i (capacity i hi) phase was
    have onTid := (woken.asleep i hi target phase blocked).2
    subst onPid
    exact Proc.schedWakeup_wakes _ _ i (capacity i hi) blocked onTid
  refine done.rephase _ (fun i => ?_) w.lives
  simp only [Waiting.moveTo, Function.update_apply]
  split
  · exact Or.inr trivial
  · exact Or.inl rfl

/-- Every step that is heard keeps the invariant. -/
theorem waiting_step (w : Waiting) (e : WaitEvent) (v : Waiting) (aud : Audible w)
    (heard : Heard w e) (h : w.step e = some v) : Audible v := by
  cases e with
  | other e =>
    simp only [Waiting.step] at h
    split at h
    · next idle =>
      obtain ⟨k, stepped, rfl⟩ := Option.map_eq_some_iff.mp h
      exact aud.after stepped idle heard
    · cases h
  | schedWait tid =>
    simp only [Waiting.step] at h
    split at h
    · cases h
      exact aud.moveTo _ trivial
    · cases h
  | test =>
    simp only [Waiting.step] at h
    split at h
    · next target testing =>
      cases h
      simp only [Heard, testing] at heard
      split
      · next alive =>
        refine aud.test ?_
        by_contra gone
        rw [heard (by simpa using gone)] at alive
        cases alive
      · exact aud.moveTo _ trivial
    · cases h
  | sleep =>
    simp only [Waiting.step] at h
    split at h
    · next target tested =>
      split at h
      · next inCode =>
        cases h
        exact aud.sleep tested inCode
      · cases h
    · cases h
  | wake =>
    simp only [Waiting.step] at h
    split at h
    · split at h
      · cases h
        exact aud.moveTo _ trivial
      · cases h
    · cases h
  | markExited =>
    simp only [Waiting.step] at h
    split at h
    · next target pid marking =>
      cases h
      simp only [Heard, marking] at heard
      exact aud.marked pid heard.1 heard.2
    · cases h

/-- In every run in which no end of a thread falls between the test and the
sleep of a `sched_wait` for it, or goes without a wakeup, nobody sleeps for a
thread that has ended. -/
theorem waits_are_heard (block : Nat → Thread) (stack : GuardedStack) (kernelSpace : Word)
    (es : List WaitEvent) (w : Waiting)
    (heard : Meets Waiting.step Heard (.boot block stack kernelSpace) es)
    (ran : run Waiting.step (.boot block stack kernelSpace) es = some w) : NoneStranded w := by
  have start : Audible (.boot block stack kernelSpace) := by
    refine ⟨boot_wellFormed block stack kernelSpace, fun i _ target phase => ?_,
      fun i _ target phase => ?_⟩
    · cases phase
    · cases phase
  have aud := Lib.Machine.run_invariant waiting_step start heard ran
  exact fun i hi target phase blocked => (aud.asleep i hi target phase blocked).1

def firstWaiting : Waiting := .boot (blockOfUid 0) someStack 0x1000

/-- Thread 0 spawns thread 1 and waits for it. -/
def spawnAndWait : List WaitEvent :=
  ((.setIf true :: spawnInto 1).map .other) ++ [.schedWait 1, .test]

/-- Thread 1 exits while thread 0 sleeps. -/
def exitHeard : List WaitEvent := spawnAndWait ++ [.sleep, .other (.exit none)]

theorem waits_are_heard_exit :
    ∃ w, run Waiting.step firstWaiting exitHeard = some w ∧ NoneStranded w := by
  have runs : (run Waiting.step firstWaiting exitHeard).isSome := by decide +kernel
  obtain ⟨w, ran⟩ := Option.isSome_iff_exists.mp runs
  exact ⟨w, ran, waits_are_heard (blockOfUid 0) someStack 0x1000 exitHeard w
    (by decide +kernel) ran⟩

/-- Thread 0 loses the CPU between the test and the sleep, and thread 1 exits. -/
def exitUnheard : List WaitEvent :=
  spawnAndWait ++ [.other .timer, .other .timer, .other .timer, .other .timer,
    .other (.exit none), .sleep]

theorem exit_between_test_and_sleep :
    ¬ ∀ block stack kernelSpace es w,
      run Waiting.step (.boot block stack kernelSpace) es = some w → NoneStranded w := by
  intro claim
  have runs : (run Waiting.step firstWaiting exitUnheard).isSome := by decide +kernel
  obtain ⟨w, ran⟩ := Option.isSome_iff_exists.mp runs
  have stranded : ∀ w ∈ run Waiting.step firstWaiting exitUnheard,
      0 < w.kernel.table.threadCapacity ∧ w.phase 0 = .asleep ⟨1, 1⟩ ∧
        w.kernel.stateOf 0 = .blocked ∧ w.ended ⟨1, 1⟩ = true := by decide +kernel
  obtain ⟨inTable, phase, blocked, ended⟩ := stranded w ran
  have open' := claim _ _ _ _ w ran 0 inTable _ phase blocked
  rw [ended] at open'
  cases open'

end MiniKernel.Sched
