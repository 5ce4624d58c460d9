import MiniKernel.Proc.Link

/-!
# Acting on a process acts on its own thread

Source: kernel/core/process.c (`process_kill`, `process_wait`,
`process_get_tid`), kernel/sched/thread.c (`sched_spawn`). `spawn_elf_request`
spawns under `irq_save`; the kernel shell spawns its own threads with interrupts
on. Other threads may then run between the steps of the spawn, and the slot it
found unused, or the table size it read, may be out of date when it goes on.
-/
namespace MiniKernel.Proc
open Memory.Paging (Word)
open Sched
open Ipc

inductive PreemptibleEvent where
  | whole (e : SysEvent)
  /-- A `sched_spawn` of kernel code begins, and takes its next step. -/
  | spawnBegin (req : SpawnRequest)
  | spawnStep (block : Option (Nat → Thread)) (stack : Option GuardedStack)

namespace System

/-- A step of the running thread's spawn; a slot that is published belongs to
the new kernel thread. -/
def spawnStep (req : SpawnRequest) (block : Option (Nat → Thread)) (stack : Option GuardedStack)
    (phase : SpawnPhase) (s : System) : System :=
  let stepped := { s with kernel := Sched.spawnStep req block stack s.kernel phase }
  match phase with
  | .publish slot _ =>
    { stepped with
      activity := Function.update s.activity slot .none
      history :=
        { s.history with occupant := Function.update s.history.occupant slot kernelThread } }
  | _ => stepped

def stepPreemptible (s : System) : PreemptibleEvent → Option System
  | .whole e => s.step e
  | .spawnBegin req => s.call { s with kernel := s.kernel.moveTo (.spawning req (.scan 0)) }
  | .spawnStep block stack =>
    match s.kernel.place s.cur with
    | .spawning req phase => some (s.spawnStep req block stack phase)
    | _ => none

end System

/-- A process is spawned under a pid that no record has; a spawn installs no
table smaller than the present one, and publishes a slot that is still unused. -/
def InOrder (s : System) : PreemptibleEvent → Prop
  | .whole (.spawn _) | .whole (.spawnRedirect _ _ _) => FreshPid s
  | .spawnStep _ _ =>
    match s.kernel.place s.cur with
    | .spawning _ (.grow _ newCapacity) => s.threads.threadCapacity ≤ newCapacity
    | .spawning _ (.publish slot _) => s.kernel.stateOf slot = .unused
    | _ => True
  | _ => True

instance (s : System) : Decidable (FreshPid s) :=
  inferInstanceAs (Decidable (∀ _, _ → _))

instance (s : System) (e : PreemptibleEvent) : Decidable (InOrder s e) := by
  unfold InOrder
  split
  · infer_instance
  · infer_instance
  · split <;> infer_instance
  · infer_instance

/-- Slot `tid` holds the thread created for the process in record `i`. -/
def HoldsOwn (s : System) (i : Fin processMax) (tid : Nat) : Prop :=
  (s.history.occupant tid).process = some (s.history.serial i)

/-- A record of the pid has its own thread in slot `tid`. -/
def OwnThread (s : System) (pid : Int) (tid : Nat) : Prop :=
  ∃ i, (s.table.processes i).state ≠ .unused ∧ (s.table.processes i).pid = pid ∧ HoldsOwn s i tid

structure OwnThreads (s : System) : Prop where
  slot : ∀ i tid, (s.table.processes i).state ≠ .unused → (s.table.processes i).tid = some tid →
    tid < s.threads.threadCapacity ∧ s.kernel.stateOf tid ≠ .unused ∧ HoldsOwn s i tid
  distinct : ∀ i j tid, (s.table.processes i).state ≠ .unused →
    (s.table.processes j).state ≠ .unused → (s.table.processes i).tid = some tid →
    (s.table.processes j).tid = some tid → i = j
  getTid : ∀ pid tid, processGetTid s.table pid = some tid → OwnThread s pid tid
  kill : ∀ pid sig tid, s.kernel.stateOf tid ≠ .zombie →
    (processKill pid sig s).kernel.stateOf tid = .zombie → OwnThread s pid tid
  wait : ∀ pid tid, s.kernel.stateOf tid ≠ .unused →
    (processWait pid s).kernel.stateOf tid = .unused → OwnThread s pid tid

variable {s t : System}

/-! ## What the operations on a pid reach -/

theorem Reschedules.of_zombie {k k' : Kernel} (moved : Reschedules k k') {i : Nat}
    (h : k'.stateOf i = .zombie) : k.stateOf i = .zombie := by
  rcases moved.state i with ⟨same, _⟩ | ⟨runnable, _, _⟩
  · exact same.symm.trans h
  · exact absurd (Or.inl h) (not_dead_of_runnable runnable)

theorem OwnThread.of_getTid (linked : Linked s) {pid : Int} {tid : Nat}
    (h : processGetTid s.table pid = some tid) : OwnThread s pid tid := by
  unfold processGetTid at h
  cases found : findProcess s.table pid with
  | none => simp [found] at h
  | some i =>
    simp only [found] at h
    split at h
    · obtain ⟨used, same⟩ := findProcess_some found
      exact ⟨i, used, same, (linked.slot i tid used h).2.2⟩
    · cases h

/-- An exit makes a zombie of the running thread only. -/
theorem exitStatus_zombie (wf : WellFormed s.kernel) (status : BitVec 32) {tid : Nat}
    (was : s.kernel.stateOf tid ≠ .zombie)
    (now : (exitStatus status s).kernel.stateOf tid = .zombie) : tid = s.cur := by
  let pid := (exitingPid s.table s.cur).map pidChannel
  have kernel : (exitStatus status s).kernel = schedExitStatus pid s.kernel := by
    simp only [exitStatus]
    split <;> rfl
  rw [kernel] at now
  have dying' := (dead_reschedules pid s.kernel).of_zombie ((exit_reschedules wf pid).of_zombie now)
  change ((setState s.kernel.table s.cur .zombie).threads tid).state = _ at dying'
  rw [setState_state] at dying'
  by_contra other
  rw [if_neg other] at dying'
  exact was dying'

theorem killOther_zombie (target : Nat) (status : BitVec 32) {tid : Nat}
    (was : s.kernel.stateOf tid ≠ .zombie)
    (now : (killOther target status s).kernel.stateOf tid = .zombie) : tid = target := by
  have moved := markExited_reschedules (slain target s.kernel)
    ((exitingPid s.table target).map pidChannel)
  rw [(killOther_parts target status s).1] at now
  have slain' := moved.of_zombie now
  rw [slain_stateOf] at slain'
  by_contra other
  rw [if_neg other] at slain'
  exact was slain'

theorem processKill_zombie (wf : WellFormed s.kernel) (pid : Int) (sig : BitVec 32) {tid : Nat}
    (was : s.kernel.stateOf tid ≠ .zombie)
    (now : (processKill pid sig s).kernel.stateOf tid = .zombie) :
    processGetTid s.table pid = some tid := by
  unfold processKill at now
  cases target : processGetTid s.table pid with
  | none => exact absurd (by simpa only [target] using now) was
  | some victim =>
    simp only [target] at now
    split at now
    · exact absurd now was
    · split at now
      · next self => rw [exitStatus_zombie wf _ was now, self]
      · split at now
        · exact absurd now was
        · rw [killOther_zombie victim _ was now]

/-- `sched_sleep` gives no slot back. -/
theorem schedSleep_unused {k : Kernel} (wf : WellFormed k) (channel : Word) {tid : Nat}
    (h : (schedSleep channel k).stateOf tid = .unused) : k.stateOf tid = .unused := by
  have asleep (h : (fallAsleep channel k).stateOf tid = .unused) : k.stateOf tid = .unused := by
    cases Decidable.em (tid = k.cur) with
    | inl same =>
      rw [same, Kernel.stateOf, fallAsleep, updThread_same] at h
      cases h
    | inr other =>
      rw [Kernel.stateOf, fallAsleep, updThread_other _ _ _ _ other] at h
      exact h
  rcases schedSleep_cases channel k wf.current with idles | ⟨next, _, _, _, switches⟩
  · rw [idles] at h
    exact asleep h
  · rw [switches, Kernel.stateOf, dispatchFresh_state] at h
    split at h
    · cases h
    · exact asleep h

theorem schedReapThread_unused (target : Nat) {tid : Nat}
    (was : s.kernel.stateOf tid ≠ .unused)
    (now : (schedReapThread target s).kernel.stateOf tid = .unused) : tid = target := by
  unfold schedReapThread at now
  split at now
  · have cleaned := (fdCleanupThread_reschedules target s).1.unused tid
    by_contra other
    have same := reapZombie_state (fdCleanupThread target s).threads target other
    change ((reapZombie _ target).threads tid).state = _ at now
    rw [same] at now
    exact was (cleaned.mp now)
  · exact absurd now was

theorem processWait_unused (wf : WellFormed s.kernel) (linked : Linked s) (pid : Int) {tid : Nat}
    (was : s.kernel.stateOf tid ≠ .unused)
    (now : (processWait pid s).kernel.stateOf tid = .unused) : OwnThread s pid tid := by
  unfold processWait at now
  cases found : findProcess s.table pid with
  | none =>
    simp only [found] at now
    exact absurd now was
  | some i =>
    simp only [found] at now
    obtain ⟨used, same⟩ := findProcess_some found
    split at now
    · exact absurd now was
    · split at now
      · cases record : (s.table.processes i).tid with
        | none =>
          simp only [record] at now
          exact absurd now was
        | some target =>
          simp only [record] at now
          obtain rfl : tid = target := schedReapThread_unused target was now
          exact ⟨i, used, same, (linked.slot i tid used record).2.2⟩
      · exact absurd (schedSleep_unused wf _ now) was

theorem Linked.ownThreads (linked : Linked s) (wf : WellFormed s.kernel) : OwnThreads s where
  slot := linked.slot
  distinct := linked.distinct
  getTid := fun _ _ h => .of_getTid linked h
  kill := fun pid sig _ was now => .of_getTid linked (processKill_zombie wf pid sig was now)
  wait := fun pid _ was now => processWait_unused wf linked pid was now

/-! ## Steps and runs -/

/-- A step of a spawn keeps the link, unless it works on what others have taken
in the meantime. -/
theorem Linked.spawnStep (linked : Linked s) (req : SpawnRequest)
    (block : Option (Nat → Thread)) (stack : Option GuardedStack) (phase : SpawnPhase)
    (larger : ∀ previous newCapacity, phase = .grow previous newCapacity →
      s.threads.threadCapacity ≤ newCapacity)
    (free : ∀ slot st, phase = .publish slot st → s.kernel.stateOf slot = .unused) :
    Linked (s.spawnStep req block stack phase) := by
  have kernel : (s.spawnStep req block stack phase).kernel =
      Sched.spawnStep req block stack s.kernel phase := by cases phase <;> rfl
  have table : (s.spawnStep req block stack phase).table = s.table := by cases phase <;> rfl
  have serial : (s.spawnStep req block stack phase).history.serial = s.history.serial := by
    cases phase <;> rfl
  refine linked.of_records ?_ (fun i inTable live => ?_) (fun i used => ?_)
    fun i _ => congrFun serial i
  · change _ ≤ (s.spawnStep req block stack phase).kernel.table.threadCapacity
    rw [kernel]
    exact spawnStep_capacity req block stack phase larger
  · have elsewhere : ∀ st, phase ≠ .publish i st := fun st here => live (free i st here)
    refine ⟨?_, ?_⟩
    · rw [kernel, spawnStep_state req block stack phase inTable elsewhere]
      exact live
    · cases phase with
      | publish slot st =>
        have other : i ≠ slot := fun same => elsewhere st (by rw [same])
        exact Function.update_of_ne other ..
      | scan => rfl
      | grow => rfl
      | stack => rfl
      | fill => rfl
  · rw [table] at used ⊢
    exact ⟨used, rfl, rfl⟩

/-- What a step keeps: the running thread is in its slot, and the records name
their own threads. -/
structure Orderly (s : System) : Prop where
  wf : WellFormed s.kernel
  linked : Linked s

theorem Orderly.step (orderly : Orderly s) {e : SysEvent} (h : s.step e = some t)
    (fresh : Risks s e .spawns → FreshPid s) : Orderly t := by
  have parts : Parts (fun s r => r = .spawns → FreshPid s) s t :=
    step_parts orderly.wf h fun r risk spawns => fresh (spawns ▸ risk)
  exact ⟨sysStep_wellFormed orderly.wf h,
    parts_invariant _ (fun _ _ linked part => linked.part part) orderly.linked parts⟩

theorem orderly_step (s : System) (e : PreemptibleEvent) (t : System) (orderly : Orderly s)
    (ok : InOrder s e) (h : s.stepPreemptible e = some t) : Orderly t := by
  cases e with
  | whole e =>
    refine orderly.step h fun risk => ?_
    rcases spawns_of_risk risk with ⟨a, rfl⟩ | ⟨a, stdinFd, stdoutFd, rfl⟩ <;> exact ok
  | spawnBegin req =>
    obtain ⟨_, rfl⟩ := call_eq_some.mp h
    exact ⟨orderly.wf.moveTo _ trivial,
      orderly.linked.of_records (Nat.le_refl _) (fun _ _ live => ⟨live, rfl⟩)
        (fun _ used => ⟨used, rfl, rfl⟩) fun _ _ => rfl⟩
  | spawnStep block stack =>
    simp only [System.stepPreemptible] at h
    split at h
    · next req phase place =>
      cases h
      have onOther := orderly.wf.spawns s.cur
      rw [place] at onOther
      have wf := orderly.wf.spawnStep req block stack phase onOther
      simp only [InOrder, place] at ok
      refine ⟨by cases phase <;> exact wf, ?_⟩
      refine orderly.linked.spawnStep req block stack phase (fun previous new here => ?_)
        fun slot st here => ?_
      · rw [here] at ok
        exact ok
      · rw [here] at ok
        exact ok
    · cases h

theorem boot_orderly (block : Nat → Thread) (stack : GuardedStack)
    (kernelSpace pipesAddress : Word) :
    Orderly (System.boot block stack kernelSpace pipesAddress) := by
  have unused (i : Fin processMax) :
      ((System.boot block stack kernelSpace pipesAddress).table.processes i).state = .unused := rfl
  exact ⟨boot_wellFormed block stack kernelSpace,
    fun i _ used _ => absurd (unused i) used,
    fun i _ _ used _ _ _ => absurd (unused i) used,
    fun i _ used _ _ => absurd (unused i) used⟩

/-- In every run whose steps are in order, records name their own threads, and
the calls on a pid act on its own thread. -/
theorem records_own_threads (block : Nat → Thread) (stack : GuardedStack)
    (kernelSpace pipesAddress : Word) (es : List PreemptibleEvent) (s : System)
    (ok : Lib.Machine.Meets System.stepPreemptible InOrder
      (System.boot block stack kernelSpace pipesAddress) es)
    (ran : Lib.Machine.run System.stepPreemptible
      (System.boot block stack kernelSpace pipesAddress) es = some s) : OwnThreads s := by
  have orderly := Lib.Machine.run_invariant orderly_step
    (boot_orderly block stack kernelSpace pipesAddress) ok ran
  exact orderly.linked.ownThreads orderly.wf

/-! ## A spawn that is interrupted -/

def firstSystem : System := .boot (blockOfUid 0) someStack 0x1000 0x300000

/-- A spawn for which the file, the heap and the frames are there. -/
def goodAnswers : SpawnAnswers :=
  { loaded := true, request := schedSpawn 0x8000, block := none, stack := some someStack }

/-- A process is started, reaped and started again. -/
def spawnAndReap : List PreemptibleEvent :=
  [.whole (.spawn goodAnswers), .whole (.kill 1 9), .whole (.wait 1), .whole (.spawn goodAnswers)]

theorem records_own_threads_reused :
    ∃ s, Lib.Machine.run System.stepPreemptible firstSystem spawnAndReap = some s ∧
      OwnThreads s := by
  have runs : (Lib.Machine.run System.stepPreemptible firstSystem spawnAndReap).isSome := by
    decide +kernel
  obtain ⟨s, ran⟩ := Option.isSome_iff_exists.mp runs
  exact ⟨s, ran, records_own_threads (blockOfUid 0) someStack 0x1000 0x300000 spawnAndReap s
    (by decide +kernel) ran⟩

/-- The shell runs with interrupts on and starts process 1. Its spawn of a
kernel thread finds slot 2 when its quantum ends; process 1 spawns process 2
into that slot from a system call, and when all processes sleep the shell goes on. -/
def spawnInterrupted : List PreemptibleEvent :=
  [.whole (.setIf true), .whole (.spawn goodAnswers), .spawnBegin (schedSpawn 0x9000),
    .spawnStep none none, .spawnStep none none, .spawnStep none none,
    .spawnStep none (some someStack),
    .whole .timer, .whole .timer, .whole .timer, .whole .timer,
    .whole (.setIf false), .whole (.spawn goodAnswers), .whole (.sleep 0x5000),
    .whole (.sleep 0x5000), .spawnStep none none, .spawnStep none none]

/-- Process 2's record then names the slot of the kernel thread. -/
theorem spawn_interrupted_takes_slot :
    ¬ ∀ block stack kernelSpace pipesAddress es s,
      Lib.Machine.run System.stepPreemptible (.boot block stack kernelSpace pipesAddress) es =
        some s → OwnThreads s := by
  intro claim
  have runs : (Lib.Machine.run System.stepPreemptible firstSystem spawnInterrupted).isSome := by
    decide +kernel
  obtain ⟨s, ran⟩ := Option.isSome_iff_exists.mp runs
  have taken : ∀ s ∈ Lib.Machine.run System.stepPreemptible firstSystem spawnInterrupted,
      s.kernel.place s.cur = .code ∧ (s.table.processes 1).state ≠ .unused ∧
        (s.table.processes 1).tid = some 2 ∧ (s.history.occupant 2).process = none := by
    decide +kernel
  obtain ⟨_, used, record, other⟩ := taken s ran
  have own := ((claim _ _ _ _ _ s ran).slot 1 2 used record).2.2
  rw [HoldsOwn, other] at own
  cases own

end MiniKernel.Proc
