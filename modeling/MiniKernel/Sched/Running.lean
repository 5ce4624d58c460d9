import MiniKernel.Sched.Zombie

/-!
# The running thread

Source: kernel/sched/thread.c:194-219 (`activate`, `sched_init`) and the
operations that write a thread state or `current_thread`. Whoever gives up the
CPU has left THREAD_RUNNING before the next thread enters it, and no spawn
writes to the slot of the thread that performs it. A thread that idles in
`sched_sleep` is current without being THREAD_RUNNING.
-/
namespace MiniKernel.Sched
open Memory.Paging (Word)

/-- What the table says about the running thread. -/
structure OneRunning (s : ThreadTable) : Prop where
  only : ∀ i < s.threadCapacity, (s.threads i).state = .running → i = s.currentThread
  stack : s.rsp0 = (s.threads s.currentThread).stackLow + threadStackSize

variable {s u : ThreadTable} {k t : Kernel} {e : Event}

/-- The CPU goes to `next` once no slot is running. -/
theorem OneRunning.dispatch (next : Nat)
    (left : ∀ i < s.threadCapacity, (s.threads i).state ≠ .running) :
    OneRunning (dispatch s next) := by
  refine ⟨fun i hi running => ?_, rfl⟩
  rw [dispatch_state] at running
  by_contra other
  rw [dispatch_current] at other
  rw [if_neg other] at running
  exact left i hi running

theorem OneRunning.dispatchFresh (next : Nat)
    (left : ∀ i < s.threadCapacity, (s.threads i).state ≠ .running) :
    OneRunning (dispatchFresh s next) := by
  refine ⟨fun i hi running => ?_, rfl⟩
  rw [dispatchFresh_state] at running
  by_contra other
  rw [dispatchFresh_current] at other
  rw [if_neg other] at running
  exact left i hi running

/-- The current thread stays, on its stack, and no other slot starts running. -/
theorem OneRunning.kept (one : OneRunning s) (hcur : u.currentThread = s.currentThread)
    (running : ∀ i < u.threadCapacity, i ≠ s.currentThread → (u.threads i).state = .running →
      i < s.threadCapacity ∧ (s.threads i).state = .running)
    (hstack : (u.threads s.currentThread).stackLow = (s.threads s.currentThread).stackLow)
    (hrsp : u.rsp0 = s.rsp0) : OneRunning u := by
  constructor
  · intro i hi runs
    rw [hcur]
    by_contra other
    obtain ⟨old, ran⟩ := running i hi other runs
    exact other (one.only i old ran)
  · rw [hcur, hstack, hrsp]
    exact one.stack

/-- A write to one slot: it does not make another slot run, and leaves the
current thread its stack. -/
theorem OneRunning.write (one : OneRunning s) (tid : Nat) (thread : Thread)
    (quiet : tid ≠ s.currentThread → thread.state ≠ .running)
    (own : tid = s.currentThread → thread.stackLow = (s.threads tid).stackLow) :
    OneRunning (updThread s tid thread) := by
  refine one.kept rfl ?_ ?_ rfl
  · intro i hi other running
    cases Decidable.em (i = tid) with
    | inl same =>
      subst same
      rw [updThread_same] at running
      exact absurd running (quiet other)
    | inr elsewhere =>
      rw [updThread_other _ _ _ _ elsewhere] at running
      exact ⟨hi, running⟩
  · cases Decidable.em (s.currentThread = tid) with
    | inl same => rw [same, updThread_same, own same.symm]
    | inr elsewhere => rw [updThread_other _ _ _ _ elsewhere]

/-- Once the current thread has left THREAD_RUNNING, no slot is running. -/
theorem OneRunning.left (one : OneRunning s) (thread : Thread) (gone : thread.state ≠ .running) :
    ∀ i < s.threadCapacity,
      ((updThread s s.currentThread thread).threads i).state ≠ .running := by
  intro i hi running
  cases Decidable.em (i = s.currentThread) with
  | inl same =>
    rw [same, updThread_same] at running
    exact gone running
  | inr other =>
    rw [updThread_other _ _ _ _ other] at running
    exact other (one.only i hi running)

theorem schedWakeup_stackLow (s : ThreadTable) (channel : Word) (i : Nat) :
    ((schedWakeup s channel).threads i).stackLow = (s.threads i).stackLow := by
  simp only [schedWakeup]
  split <;> rfl

theorem OneRunning.wakeup (one : OneRunning s) (channel : Word) :
    OneRunning (schedWakeup s channel) := by
  refine one.kept rfl (fun i hi _ running => ?_) (schedWakeup_stackLow s channel _) rfl
  rcases schedWakeup_state s channel i with same | ⟨_, ready⟩
  · exact ⟨hi, same ▸ running⟩
  · rw [ready] at running
    cases running

theorem OneRunning.markExited (one : OneRunning s) (pid : Option Word) :
    OneRunning (markExited s pid) := by
  cases pid with
  | none => exact one
  | some pid => exact one.wakeup pid

/-! ## One lemma for each operation -/

theorem OneRunning.schedYield (one : OneRunning k.table) (wf : WellFormed k) (resumeIf : Bool) :
    OneRunning (schedYield resumeIf k).table := by
  rcases schedYield_cases resumeIf k wf.current with ⟨_, stays⟩ | ⟨next, _, _, _, switches⟩
  · rw [stays]
    exact one
  · rw [switches]
    exact OneRunning.dispatchFresh next (one.left _ (by simp))

theorem OneRunning.countTick (one : OneRunning k.table) : OneRunning (countTick k).table :=
  one.write k.cur _ (fun moved => absurd rfl moved) (fun _ => rfl)

theorem OneRunning.schedTick (one : OneRunning k.table) (wf : WellFormed k) :
    OneRunning (schedTick k).table := by
  rcases schedTick_cases k with ⟨_, counts⟩ | ⟨_, yields⟩
  · rw [counts]
    exact one.countTick
  · rw [yields]
    exact one.countTick.schedYield wf.countTick true

theorem OneRunning.schedSleep (one : OneRunning k.table) (wf : WellFormed k) (channel : Word) :
    OneRunning (schedSleep channel k).table := by
  rcases schedSleep_cases channel k wf.current with idles | ⟨next, _, _, _, switches⟩
  · rw [idles]
    exact one.write k.cur _ (fun _ => by simp) (fun _ => rfl)
  · rw [switches]
    exact OneRunning.dispatchFresh next (one.left _ (by simp))

theorem OneRunning.exitTable (one : OneRunning k.table) (pid : Option Word) :
    OneRunning (exitTable pid k) := by
  have zombie : OneRunning (setState k.table k.cur .zombie) :=
    one.write k.cur _ (fun _ => by simp) (fun _ => rfl)
  exact (zombie.markExited pid).wakeup _

theorem OneRunning.schedExitStatus (one : OneRunning k.table) (wf : WellFormed k)
    (pid : Option Word) : OneRunning (schedExitStatus pid k).table := by
  have dying := one.exitTable pid
  rcases schedExitStatus_cases pid k wf.current with ⟨_, halts⟩ | ⟨next, _, _, _, switches⟩
  · rw [halts]
    exact dying
  · rw [switches]
    apply OneRunning.dispatch next
    intro i hi running
    have same := dying.only i hi running
    rw [exitTable_current] at same
    rw [same, exitTable_self] at running
    cases running

theorem OneRunning.schedKill (one : OneRunning k.table) (wf : WellFormed k) (tid : Nat)
    (pid : Option Word) : OneRunning (schedKill tid pid k).table := by
  unfold Sched.schedKill
  split
  · exact one
  · split
    · exact one.schedExitStatus wf pid
    · split
      · exact one
      · exact one.write tid _ (fun _ => by simp) (fun _ => rfl)

theorem OneRunning.reap (one : OneRunning s) (tid : Nat) : OneRunning (reapZombie s tid) := by
  unfold reapZombie
  split
  · next reapable =>
    exact one.write tid _ (fun _ => by simp [reapedSlot]) (fun same => absurd same reapable.2.1)
  · exact one

/-- Growth copies the slots in use; the ones it adds are unused. -/
theorem OneRunning.installTable (one : OneRunning s) (block : Nat → Thread) (newCapacity : Nat)
    (valid : s.currentThread < s.threadCapacity) :
    OneRunning (installTable block newCapacity s) := by
  refine one.kept rfl ?_ ?_ rfl
  · intro i hi _ running
    cases Nat.lt_or_ge i s.threadCapacity with
    | inl old =>
      rw [installTable_copied _ _ _ _ old] at running
      exact ⟨old, running⟩
    | inr fresh =>
      rw [installTable_capacity] at hi
      simp [Sched.installTable, Nat.not_lt.mpr fresh, hi, initThreadSlot] at running
  · rw [installTable_copied _ _ _ _ valid]

theorem OneRunning.spawnStep (one : OneRunning k.table) (wf : WellFormed k) (req : SpawnRequest)
    (block : Option (Nat → Thread)) (stack : Option GuardedStack) (phase : SpawnPhase)
    (ok : PhaseOk k.cur phase) : OneRunning (spawnStep req block stack k phase).table := by
  cases phase with
  | scan i =>
    simp only [Sched.spawnStep]
    split
    · split <;> exact one
    · exact one
  | grow previous newCapacity =>
    cases block with
    | none => exact one
    | some b => exact one.installTable b newCapacity wf.current
  | stack slot => cases stack <;> exact one
  | publish slot st => exact one.write slot _ (fun _ => by simp) (fun same => absurd same ok)
  | fill slot st =>
    refine one.kept rfl ?_ ?_ rfl
    · intro i hi _ running
      refine ⟨hi, ?_⟩
      change ((fillThread req st k.kernelSpace slot k.table).threads i).state = _ at running
      rwa [fillThread_state] at running
    · change ((updThread k.table slot _).threads k.cur).stackLow = _
      rw [updThread_other _ _ _ _ (Ne.symm ok)]
      rfl

/-- Every step keeps the running thread unique. -/
theorem step_oneRunning (wf : WellFormed k) (one : OneRunning k.table) (h : step k e = some t) :
    OneRunning t.table := by
  cases e with
  | timer =>
    obtain ⟨_, rfl⟩ := interrupt_eq_some.mp h
    exact one.schedTick wf
  | keyboard channel =>
    obtain ⟨_, rfl⟩ := interrupt_eq_some.mp h
    exact one.wakeup channel
  | setIf on =>
    obtain ⟨_, rfl⟩ := call_eq_some.mp h
    exact one
  | yield =>
    obtain ⟨_, rfl⟩ := call_eq_some.mp h
    exact one.schedYield wf _
  | sleep channel =>
    obtain ⟨_, rfl⟩ := call_eq_some.mp h
    exact one.schedSleep wf channel
  | wakeup channel =>
    obtain ⟨_, rfl⟩ := call_eq_some.mp h
    exact one.wakeup channel
  | exit pid =>
    obtain ⟨_, rfl⟩ := call_eq_some.mp h
    exact one.schedExitStatus wf pid
  | kill tid pid =>
    obtain ⟨_, rfl⟩ := call_eq_some.mp h
    exact one.schedKill wf tid pid
  | reap tid =>
    obtain ⟨_, rfl⟩ := call_eq_some.mp h
    exact one.reap tid
  | spawn req =>
    obtain ⟨_, rfl⟩ := call_eq_some.mp h
    exact one
  | spawnStep block stack =>
    obtain ⟨req, phase, place, rfl⟩ := spawnStep_eq_some.mp h
    have ok := wf.spawns k.cur
    rw [place] at ok
    exact one.spawnStep wf req block stack phase ok
  | idleCheck =>
    obtain ⟨flags, _, _, rfl⟩ := idleCheck_eq_some.mp h
    exact one.write k.cur _ (fun moved => absurd rfl moved) (fun _ => rfl)

theorem boot_oneRunning (block : Nat → Thread) (stack : GuardedStack) (kernelSpace : Word) :
    OneRunning (boot block stack kernelSpace).table := by
  constructor
  · intro i hi running
    cases i with
    | zero => rfl
    | succ j =>
      have inBlock : j + 1 < grownCapacity 0 := hi
      simp [boot, activate, installTable, updThread, inBlock, initThreadSlot] at running
  · simp [boot, activate]

/-- The running thread is unique and current, its slot is valid and in use,
and the TSS points to the top of its stack. -/
theorem running_is_current (reachable : Reachable k) :
    (∀ i < k.table.threadCapacity, k.stateOf i = .running → i = k.cur) ∧
      k.cur < k.table.threadCapacity ∧ k.stateOf k.cur ≠ .unused ∧
      k.table.rsp0 = (k.table.threads k.cur).stackLow + threadStackSize := by
  obtain ⟨block, stack, kernelSpace, es, hrun⟩ := reachable
  have meets : Lib.Machine.Meets step (fun _ _ => True) (boot block stack kernelSpace) es :=
    Lib.Machine.meets_always _ _
  have kept (s : Kernel) (e : Event) (t : Kernel) (inv : WellFormed s ∧ OneRunning s.table)
      (_ : True) (h : step s e = some t) : WellFormed t ∧ OneRunning t.table :=
    ⟨step_wellFormed inv.1 h, step_oneRunning inv.1 inv.2 h⟩
  have inv := Lib.Machine.run_invariant kept
    ⟨boot_wellFormed block stack kernelSpace, boot_oneRunning block stack kernelSpace⟩ meets hrun
  exact ⟨inv.2.only, inv.1.current, inv.1.inUse, inv.2.stack⟩

/-- Thread 0 sleeps alone, and a tick and a key arrive while it idles. -/
def idleAlone : List Event := [.sleep 0x9000, .timer, .keyboard 0x9000]

theorem running_is_current_idle :
    ∃ k, Lib.Machine.run step firstBoot idleAlone = some k ∧
      (∀ i < k.table.threadCapacity, k.stateOf i = .running → i = k.cur) ∧
      k.cur < k.table.threadCapacity ∧ k.stateOf k.cur ≠ .unused ∧
      k.table.rsp0 = (k.table.threads k.cur).stackLow + threadStackSize := by
  have ran : (Lib.Machine.run step firstBoot idleAlone).isSome := by decide +kernel
  obtain ⟨k, hk⟩ := Option.isSome_iff_exists.mp ran
  exact ⟨k, hk, running_is_current ⟨blockOfUid 0, someStack, 0x1000, idleAlone, hk⟩⟩

end MiniKernel.Sched
