import MiniKernel.Sched.Kernel

/-!
# What every run of the scheduler keeps

The running thread sits in the table and in use, and a spawn under way never
works on the slot of the thread that performs it: it found that slot unused, or
beyond the table, while its own thread was running. This holds in all runs,
also where a stale growth shrinks the table.
-/
namespace MiniKernel.Sched
open Memory.Paging (Word)

/-- A spawn by the thread in slot `i` works on another slot. -/
def PhaseOk (i : Nat) : SpawnPhase → Prop
  | .scan _ => True
  | .grow previous newCapacity => i < previous ∧ previous < newCapacity
  | .stack slot => slot ≠ i
  | .publish slot _ => slot ≠ i
  | .fill slot _ => slot ≠ i

def PlaceOk (i : Nat) : Place → Prop
  | .spawning _ phase => PhaseOk i phase
  | _ => True

structure WellFormed (k : Kernel) : Prop where
  current : k.cur < k.table.threadCapacity
  inUse : k.stateOf k.cur ≠ .unused
  spawns : ∀ i, PlaceOk i (k.place i)

variable {k t : Kernel}

@[simp] theorem moveTo_cur (k : Kernel) (p : Place) : (k.moveTo p).cur = k.cur := rfl
@[simp] theorem moveTo_table (k : Kernel) (p : Place) : (k.moveTo p).table = k.table := rfl

theorem moveTo_self (k : Kernel) (p : Place) : (k.moveTo p).place k.cur = p :=
  Function.update_self ..

theorem moveTo_other (k : Kernel) (p : Place) (i : Nat) (h : i ≠ k.cur) :
    (k.moveTo p).place i = k.place i := Function.update_of_ne h ..

theorem WellFormed.moved (wf : WellFormed k) (p : Place) (ok : PlaceOk k.cur p) :
    ∀ i, PlaceOk i ((k.moveTo p).place i) := by
  intro i
  cases Decidable.em (i = k.cur) with
  | inl same =>
    rw [same, moveTo_self]
    exact ok
  | inr other =>
    rw [moveTo_other k p i other]
    exact wf.spawns i

/-- A step that only moves the running thread on. -/
theorem WellFormed.moveTo (wf : WellFormed k) (p : Place) (ok : PlaceOk k.cur p) :
    WellFormed (k.moveTo p) :=
  ⟨wf.current, wf.inUse, wf.moved p ok⟩

theorem wakeup_inUse (s : ThreadTable) (channel : Word) (i : Nat)
    (h : (s.threads i).state ≠ .unused) : ((schedWakeup s channel).threads i).state ≠ .unused := by
  rcases schedWakeup_state s channel i with same | ⟨_, ready⟩
  · rw [same]
    exact h
  · rw [ready]
    simp

theorem WellFormed.wakeup (wf : WellFormed k) (channel : Word) :
    WellFormed { k with table := schedWakeup k.table channel } :=
  ⟨wf.current, wakeup_inUse _ _ _ wf.inUse, wf.spawns⟩

theorem WellFormed.countTick (wf : WellFormed k) : WellFormed (countTick k) := by
  refine ⟨wf.current, ?_, wf.spawns⟩
  change (Sched.countTick k).stateOf k.cur ≠ .unused
  rw [countTick_state]
  exact wf.inUse

theorem dispatchFresh_running (s : ThreadTable) (next : Nat) :
    ((dispatchFresh s next).threads next).state = .running := by
  rw [dispatchFresh_state, if_pos rfl]

theorem WellFormed.schedYield (wf : WellFormed k) (resumeIf : Bool) :
    WellFormed (schedYield resumeIf k) := by
  rcases schedYield_cases resumeIf k wf.current with
    ⟨_, stays⟩ | ⟨next, hnext, _, _, switches⟩
  · rw [stays]
    exact wf
  · rw [switches]
    refine ⟨hnext, ?_, wf.spawns⟩
    change ((dispatchFresh (setState k.table k.cur .ready) next).threads next).state ≠ _
    simp [dispatchFresh_running]

theorem WellFormed.schedTick (wf : WellFormed k) : WellFormed (schedTick k) := by
  rcases schedTick_cases k with ⟨_, counts⟩ | ⟨_, yields⟩
  · rw [counts]
    exact wf.countTick
  · rw [yields]
    exact wf.countTick.schedYield true

theorem WellFormed.schedSleep (wf : WellFormed k) (channel : Word) :
    WellFormed (schedSleep channel k) := by
  rcases schedSleep_cases channel k wf.current with idles | ⟨next, hnext, _, _, switches⟩
  · rw [idles]
    refine ⟨wf.current, ?_, wf.moved _ trivial⟩
    change ((updThread k.table k.cur _).threads k.cur).state ≠ _
    rw [updThread_same]
    simp
  · rw [switches]
    refine ⟨hnext, ?_, wf.spawns⟩
    change ((dispatchFresh _ next).threads next).state ≠ _
    simp [dispatchFresh_running]

theorem WellFormed.schedExitStatus (wf : WellFormed k) (pid : Option Word) :
    WellFormed (schedExitStatus pid k) := by
  rcases schedExitStatus_cases pid k wf.current with
    ⟨_, halts⟩ | ⟨next, hnext, _, _, switches⟩
  · rw [halts]
    refine ⟨?_, ?_, wf.moved _ trivial⟩
    · change (exitTable pid k).currentThread < (exitTable pid k).threadCapacity
      rw [exitTable_current, exitTable_capacity]
      exact wf.current
    · change ((exitTable pid k).threads (exitTable pid k).currentThread).state ≠ _
      rw [exitTable_current, exitTable_self]
      simp
  · rw [switches]
    refine ⟨?_, ?_, wf.moved _ trivial⟩
    · change next < (exitTable pid k).threadCapacity
      rw [exitTable_capacity]
      exact hnext
    · change ((dispatch (exitTable pid k) next).threads next).state ≠ _
      simp [dispatch_state]

theorem WellFormed.schedKill (wf : WellFormed k) (tid : Nat) (pid : Option Word) :
    WellFormed (schedKill tid pid k) := by
  unfold Sched.schedKill
  split
  · exact wf
  · split
    · exact wf.schedExitStatus pid
    · next other =>
      split
      · exact wf
      · refine ⟨wf.current, ?_, wf.spawns⟩
        change ((updThread k.table tid _).threads k.cur).state ≠ _
        rw [updThread_other _ _ _ _ (Ne.symm other)]
        exact wf.inUse

theorem WellFormed.reap (wf : WellFormed k) (tid : Nat) :
    WellFormed { k with table := reapZombie k.table tid } := by
  unfold reapZombie
  split
  · next reapable =>
    have other : k.cur ≠ tid := Ne.symm reapable.2.1
    refine ⟨wf.current, ?_, wf.spawns⟩
    change ((updThread k.table tid _).threads k.cur).state ≠ _
    rw [updThread_other _ _ _ _ other]
    exact wf.inUse
  · exact wf

theorem WellFormed.grow (wf : WellFormed k) (req : SpawnRequest) (b : Nat → Thread)
    (previous newCapacity : Nat) (ok : PhaseOk k.cur (.grow previous newCapacity)) :
    WellFormed { k.moveTo (.spawning req (.stack previous)) with
      table := installTable b newCapacity k.table } := by
  refine ⟨Nat.lt_trans ok.1 ok.2, ?_, wf.moved _ (Nat.ne_of_gt ok.1)⟩
  change ((installTable b newCapacity k.table).threads k.cur).state ≠ _
  rw [installTable_copied b newCapacity k.table k.cur wf.current]
  exact wf.inUse

theorem WellFormed.publish (wf : WellFormed k) (req : SpawnRequest) (stack : GuardedStack)
    (block : Option (Nat → Thread)) (answer : Option GuardedStack) (slot : Nat)
    (ok : slot ≠ k.cur) :
    WellFormed (spawnStep req block answer k (.publish slot stack)) := by
  refine ⟨wf.current, ?_, fun i => ?_⟩
  · change ((publishThread req stack slot k.table).threads k.cur).state ≠ _
    rw [publishThread, updThread_other _ _ _ _ (Ne.symm ok)]
    exact wf.inUse
  · change PlaceOk i (Function.update (Function.update k.place slot .code) k.cur
      (.spawning req (.fill slot stack)) i)
    simp only [Function.update_apply]
    split
    · next same =>
      rw [same]
      exact ok
    · split
      · trivial
      · exact wf.spawns i

theorem WellFormed.fill (wf : WellFormed k) (req : SpawnRequest) (stack : GuardedStack)
    (slot : Nat) (ok : slot ≠ k.cur) :
    WellFormed { k.moveTo .code with table := fillThread req stack k.kernelSpace slot k.table } := by
  refine ⟨wf.current, ?_, wf.moved _ trivial⟩
  change ((fillThread req stack k.kernelSpace slot k.table).threads k.cur).state ≠ _
  rw [fillThread, updThread_other _ _ _ _ (Ne.symm ok)]
  exact wf.inUse

theorem WellFormed.spawnStep (wf : WellFormed k) (req : SpawnRequest)
    (block : Option (Nat → Thread)) (stack : Option GuardedStack) (phase : SpawnPhase)
    (ok : PhaseOk k.cur phase) : WellFormed (spawnStep req block stack k phase) := by
  cases phase with
  | scan i =>
    simp only [Sched.spawnStep]
    split
    · split
      · next unused =>
        refine wf.moveTo _ ?_
        intro same
        rw [same] at unused
        exact wf.inUse unused
      · exact wf.moveTo _ trivial
    · refine wf.moveTo _ ⟨wf.current, ?_⟩
      have hpos : 0 < k.table.threadCapacity := Nat.zero_lt_of_lt wf.current
      rw [grownCapacity, if_neg (Nat.ne_of_gt hpos)]
      omega
  | grow previous newCapacity =>
    cases block with
    | none => exact wf.moveTo _ trivial
    | some b => exact wf.grow req b previous newCapacity ok
  | stack slot =>
    cases stack with
    | none => exact wf.moveTo _ trivial
    | some st => exact wf.moveTo _ ok
  | publish slot st => exact wf.publish req st block stack slot ok
  | fill slot st => exact wf.fill req st slot ok

theorem WellFormed.leaveIdle (wf : WellFormed k) (flags : Bool) :
    WellFormed (leaveIdle flags k) := by
  refine ⟨wf.current, ?_, wf.moved _ trivial⟩
  change ((setState k.table k.cur .running).threads k.cur).state ≠ _
  simp [setState_state]

/-- Every step keeps the invariant. -/
theorem step_wellFormed (wf : WellFormed k) {e : Event} (h : step k e = some t) :
    WellFormed t := by
  cases e with
  | timer =>
    obtain ⟨_, rfl⟩ := interrupt_eq_some.mp h
    exact wf.schedTick
  | keyboard channel =>
    obtain ⟨_, rfl⟩ := interrupt_eq_some.mp h
    exact wf.wakeup channel
  | setIf on =>
    obtain ⟨_, rfl⟩ := call_eq_some.mp h
    exact ⟨wf.current, wf.inUse, wf.spawns⟩
  | yield =>
    obtain ⟨_, rfl⟩ := call_eq_some.mp h
    exact wf.schedYield _
  | sleep channel =>
    obtain ⟨_, rfl⟩ := call_eq_some.mp h
    exact wf.schedSleep channel
  | wakeup channel =>
    obtain ⟨_, rfl⟩ := call_eq_some.mp h
    exact wf.wakeup channel
  | exit pid =>
    obtain ⟨_, rfl⟩ := call_eq_some.mp h
    exact wf.schedExitStatus pid
  | kill tid pid =>
    obtain ⟨_, rfl⟩ := call_eq_some.mp h
    exact wf.schedKill tid pid
  | reap tid =>
    obtain ⟨_, rfl⟩ := call_eq_some.mp h
    exact wf.reap tid
  | spawn req =>
    obtain ⟨_, rfl⟩ := call_eq_some.mp h
    exact wf.moveTo _ trivial
  | spawnStep block stack =>
    obtain ⟨req, phase, place, rfl⟩ := spawnStep_eq_some.mp h
    have ok := wf.spawns k.cur
    rw [place] at ok
    exact wf.spawnStep req block stack phase ok
  | idleCheck =>
    obtain ⟨flags, _, _, rfl⟩ := idleCheck_eq_some.mp h
    exact wf.leaveIdle flags

theorem boot_wellFormed (block : Nat → Thread) (stack : GuardedStack) (kernelSpace : Word) :
    WellFormed (boot block stack kernelSpace) := by
  constructor
  · change 0 < grownCapacity 0
    decide
  · simp [boot, Kernel.stateOf, Kernel.cur, activate]
  · exact fun _ => trivial

theorem reachable_wellFormed (h : Reachable k) : WellFormed k := by
  obtain ⟨block, stack, kernelSpace, es, hrun⟩ := h
  have meets : Lib.Machine.Meets step (fun _ _ => True) (boot block stack kernelSpace) es :=
    Lib.Machine.meets_always _ _
  exact Lib.Machine.run_invariant (fun _ _ _ wf _ hstep => step_wellFormed wf hstep)
    (boot_wellFormed block stack kernelSpace) meets hrun

/-! ## Spawning from a reachable table -/

/-- In every reachable table a spawn keeps the slots in use and passes on the
spawner's uid exactly when the uids survive it. -/
theorem spawn_reachable_iff (k : Kernel) (reachable : Reachable k) (req : SpawnRequest)
    (block : Option (Nat → Thread)) (stack : Option GuardedStack) :
    SpawnFrame k.table (schedSpawnPrioWithContext req block stack k.kernelSpace k.table) ↔
      UidsSurvive k.table block := by
  have wf := reachable_wellFormed reachable
  exact spawn_frame_iff req block stack k.kernelSpace k.table wf.current wf.inUse

/-- A heap block whose words are all zero but the uids. -/
def blockOfUid (uid : BitVec 32) (_ : Nat) : Thread :=
  { initThreadSlot
      { rsp := 0, state := .unused, stackLow := 0, guardPage := 0, priority := .normal,
        ticksRemaining := 0, addressSpace := 0, waitChannel := 0, context := 0,
        fds := fun _ => resetFdSlot, uid := uid } with uid := uid }

def someStack : GuardedStack := ⟨0x201000, 0x200000⟩

def firstBoot : Kernel := boot (blockOfUid 0) someStack 0x1000

/-- A spawn that takes the slot with number `slot`, as the slots below are in use. -/
def spawnInto (slot : Nat) : List Event :=
  .spawn (schedSpawn 0x8000) ::
    (List.replicate (slot + 1) (.spawnStep none none) ++
      [.spawnStep none (some someStack), .spawnStep none none, .spawnStep none none])

theorem spawn_after_boot :
    SpawnFrame firstBoot.table
      (schedSpawnPrioWithContext (schedSpawn 0x8000) none (some someStack) 0x1000
        firstBoot.table) := by
  have reachable : Reachable firstBoot := ⟨blockOfUid 0, someStack, 0x1000, [], rfl⟩
  have free : UidsSurvive firstBoot.table none := Or.inl ⟨1, by decide, by decide⟩
  exact (spawn_reachable_iff firstBoot reachable (schedSpawn 0x8000) none (some someStack)).mpr free

/-- Four threads fill the first table. -/
def fillTable : List Event := spawnInto 1 ++ spawnInto 2 ++ spawnInto 3

/-- The fifth thread makes the table grow; the block's uids replace the owners'. -/
theorem spawn_growth_changes_uids :
    ¬ ∀ k, Reachable k → ∀ req block stack,
      SpawnFrame k.table (schedSpawnPrioWithContext req block stack k.kernelSpace k.table) := by
  intro claim
  have ran : (Lib.Machine.run step firstBoot fillTable).isSome := by decide +kernel
  obtain ⟨k, hk⟩ := Option.isSome_iff_exists.mp ran
  have reachable : Reachable k := ⟨blockOfUid 0, someStack, 0x1000, fillTable, hk⟩
  have wf := reachable_wellFormed reachable
  have frame := claim k reachable (schedSpawn 0x8000) (some (blockOfUid 7)) (some someStack)
  have survive := (spawn_frame_iff _ _ _ _ _ wf.current wf.inUse).mp frame
  have full : ∀ k ∈ Lib.Machine.run step firstBoot fillTable,
      k.table.threadCapacity = 4 ∧ (k.table.threads 0).uid = 0 ∧
      ∀ i < 4, (k.table.threads i).state ≠ .unused := by decide +kernel
  obtain ⟨capacity, owner, used⟩ := full k hk
  rcases survive with ⟨i, hi, unused⟩ | uids
  · exact used i (capacity ▸ hi) unused
  · have changed := uids _ rfl 0 (by omega)
    rw [owner] at changed
    exact absurd changed (by decide)

end MiniKernel.Sched
