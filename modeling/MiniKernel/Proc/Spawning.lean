import MiniKernel.Proc.Descriptors

/-!
# What a spawn with interrupts off does

Source: kernel/sched/thread.c (`sched_spawn_prio_with_context`,
`grow_thread_table`), kernel/core/process.c (`spawn_elf_request`). The table may
grow first, which keeps all slots; then at most one unused slot is given to the
new thread.
-/
namespace MiniKernel.Proc
open Memory.Paging (Word)
open Sched
open Ipc

/-- The same threads, possibly in a larger table. -/
structure Grows (s t : ThreadTable) : Prop where
  current : t.currentThread = s.currentThread
  capacity : s.threadCapacity ≤ t.threadCapacity
  kept : ∀ i < s.threadCapacity, ∃ uid, t.threads i = { s.threads i with uid := uid }
  fresh : ∀ i, s.threadCapacity ≤ i → i < t.threadCapacity →
    (t.threads i).state = .unused ∧ (t.threads i).fds = fun _ => resetFdSlot

theorem Grows.refl (s : ThreadTable) : Grows s s :=
  ⟨rfl, Nat.le_refl _, fun i _ => ⟨(s.threads i).uid, rfl⟩, fun i low high => by omega⟩

theorem installTable_grows (block : Nat → Thread) (s : ThreadTable) (newCapacity : Nat)
    (larger : s.threadCapacity ≤ newCapacity) : Grows s (installTable block newCapacity s) := by
  refine ⟨rfl, larger, fun i hi => ⟨_, installTable_copied block newCapacity s i hi⟩, ?_⟩
  intro i low high
  change i < newCapacity at high
  simp only [installTable, if_neg (Nat.not_lt.mpr low), if_pos high, initThreadSlot]
  exact ⟨trivial, trivial⟩

theorem le_grownCapacity (capacity : Nat) : capacity ≤ grownCapacity capacity := by
  unfold grownCapacity
  split <;> omega

/-- The slot of a new thread once the spawn is through. -/
def startSlot (req : SpawnRequest) (stack : GuardedStack) (kernelSpace : Word) (slot : Nat)
    (s : ThreadTable) : ThreadTable :=
  fillThread req stack kernelSpace slot (publishThread req stack slot s)

theorem schedSpawn_cases (req : SpawnRequest) (block : Option (Nat → Thread))
    (stack : Option GuardedStack) (kernelSpace : Word) (s : ThreadTable) :
    ∃ grown, Grows s grown ∧
      (schedSpawnPrioWithContext req block stack kernelSpace s = (none, grown) ∨
        ∃ slot st, slot < grown.threadCapacity ∧ (grown.threads slot).state = .unused ∧
          schedSpawnPrioWithContext req block stack kernelSpace s =
            (some slot, startSlot req st kernelSpace slot grown)) := by
  cases found : findUnused s with
  | some slot =>
    obtain ⟨inTable, unused⟩ := findUnused_some s slot found
    refine ⟨s, Grows.refl s, ?_⟩
    simp only [schedSpawnPrioWithContext, found]
    cases stack with
    | none => exact Or.inl rfl
    | some st => exact Or.inr ⟨slot, st, inTable, unused, rfl⟩
  | none =>
    simp only [schedSpawnPrioWithContext, found, growThreadTable]
    cases block with
    | none => exact ⟨s, Grows.refl s, Or.inl rfl⟩
    | some b =>
      have grows := installTable_grows b s _ (le_grownCapacity s.threadCapacity)
      refine ⟨_, grows, ?_⟩
      cases stack with
      | none => exact Or.inl rfl
      | some st =>
        have more : s.threadCapacity < grownCapacity s.threadCapacity := by
          unfold grownCapacity
          split
          · next empty =>
            rw [empty]
            decide
          · omega
        exact Or.inr ⟨s.threadCapacity, st, more,
          (grows.fresh _ (Nat.le_refl _) more).1, rfl⟩

section

variable {req : SpawnRequest} {st : GuardedStack} {kernelSpace : Word} {slot i : Nat}
  {s : ThreadTable}

@[simp] theorem startSlot_capacity :
    (startSlot req st kernelSpace slot s).threadCapacity = s.threadCapacity := rfl

@[simp] theorem startSlot_current :
    (startSlot req st kernelSpace slot s).currentThread = s.currentThread := rfl

theorem startSlot_self :
    ((startSlot req st kernelSpace slot s).threads slot).state = .ready ∧
      ((startSlot req st kernelSpace slot s).threads slot).fds = initialFds := by
  rw [startSlot, fillThread, updThread_same]
  refine ⟨?_, rfl⟩
  change ((publishThread req st slot s).threads slot).state = _
  rw [publishThread, updThread_same]

theorem startSlot_other (other : i ≠ slot) :
    (startSlot req st kernelSpace slot s).threads i = s.threads i :=
  startThread_other req st kernelSpace slot i s other

end

/-! ## Starting a thread -/

/-- The bookkeeping of a thread that got `slot`. -/
def System.seat (s : System) (slot : Nat) (owner : Occupant) (t : ThreadTable) : System :=
  { s.withThreads t with
    kernel :=
      { s.kernel with
        table := t
        place := Function.update s.kernel.place slot .code
        savedIf := Function.update s.kernel.savedIf slot true }
    activity := Function.update s.activity slot .none
    history := { s.history with occupant := Function.update s.history.occupant slot owner } }

theorem startThread_cases (req : SpawnRequest) (block : Option (Nat → Thread))
    (stack : Option GuardedStack) (owner : Occupant) (s : System) :
    ∃ grown, Grows s.threads grown ∧
      (startThread req block stack owner s = (none, s.withThreads grown) ∨
        ∃ slot st, slot < grown.threadCapacity ∧ (grown.threads slot).state = .unused ∧
          startThread req block stack owner s =
            (some slot, s.seat slot owner (startSlot req st s.kernel.kernelSpace slot grown))) := by
  obtain ⟨grown, grows, spawned⟩ :=
    schedSpawn_cases req block stack s.kernel.kernelSpace s.threads
  refine ⟨grown, grows, ?_⟩
  rcases spawned with fails | ⟨slot, st, inTable, unused, starts⟩
  · left
    simp only [startThread, fails]
  · refine Or.inr ⟨slot, st, inTable, unused, ?_⟩
    simp only [startThread, starts]
    rfl

theorem Grows.stateOf {s t : ThreadTable} (grows : Grows s t) {i : Nat}
    (hi : i < s.threadCapacity) : (t.threads i).state = (s.threads i).state := by
  obtain ⟨uid, kept⟩ := grows.kept i hi
  rw [kept]

theorem Grows.fds {s t : ThreadTable} (grows : Grows s t) {i : Nat}
    (hi : i < s.threadCapacity) : (t.threads i).fds = (s.threads i).fds := by
  obtain ⟨uid, kept⟩ := grows.kept i hi
  rw [kept]

theorem Grows.waitChannel {s t : ThreadTable} (grows : Grows s t) {i : Nat}
    (hi : i < s.threadCapacity) : (t.threads i).waitChannel = (s.threads i).waitChannel := by
  obtain ⟨uid, kept⟩ := grows.kept i hi
  rw [kept]

/-- A slot in use after a growth was in the table before. -/
theorem Grows.old {s t : ThreadTable} (grows : Grows s t) {i : Nat}
    (hi : i < t.threadCapacity) (used : (t.threads i).state ≠ .unused) :
    i < s.threadCapacity := by
  by_contra high
  exact used (grows.fresh i (Nat.le_of_not_lt high) hi).1

/-! ## Spawning a process -/

/-- The state once `reserve_process` has handed out a record. -/
def System.reserved (s : System) (table : ProcessTable) : System :=
  { s with table := table, history := s.history.reserve s.table table }

theorem spawnElfRequest_cases (a : SpawnAnswers) (s : System) :
    spawnElfRequest a s = (none, s) ∨
    ∃ pid table, reserveProcess s.table s.cur = some (pid, table) ∧
      ∃ grown, Grows s.threads grown ∧
        (spawnElfRequest a s =
            (none, { (s.reserved table).withThreads grown with table := releaseProcess table pid }) ∨
          ∃ slot st, slot < grown.threadCapacity ∧ (grown.threads slot).state = .unused ∧
            let seated := (s.reserved table).seat slot ⟨some s.history.pids, pid⟩
              (startSlot a.request st s.kernel.kernelSpace slot grown)
            spawnElfRequest a s =
              (some pid, { seated with table := setProcessTid table pid slot }.note
                (.spawned pid seated.caller))) := by
  unfold spawnElfRequest
  split
  · exact Or.inl rfl
  · cases reserves : reserveProcess s.table s.cur with
    | none => exact Or.inl rfl
    | some made =>
      obtain ⟨pid, table⟩ := made
      obtain ⟨grown, grows, spawned⟩ :=
        startThread_cases a.request a.block a.stack ⟨some s.history.pids, pid⟩ (s.reserved table)
      refine Or.inr ⟨pid, table, rfl, grown, grows, ?_⟩
      rcases spawned with fails | ⟨slot, st, inTable, unused, starts⟩
      · left
        rw [System.reserved] at fails
        simp only [fails]
        rfl
      · refine Or.inr ⟨slot, st, inTable, unused, ?_⟩
        rw [System.reserved] at starts
        simp only [starts]
        rfl

end MiniKernel.Proc
