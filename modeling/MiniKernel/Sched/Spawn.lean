import MiniKernel.Sched.Thread

/-!
# Spawning a thread

Source: kernel/sched/thread.c:173-192 (`alloc_guarded_stack`) and 221-307
(`sched_spawn_prio_with_context` and its wrappers). The allocators are asked
twice: `block` is what `kmalloc` answers when the table has to grow, with the
contents it left in the block, `stack` what `alloc_guarded_stack` answers.
-/
namespace MiniKernel.Sched
open Memory.Paging (Word)

/-- The arguments of `sched_spawn_prio_with_context`. -/
structure SpawnRequest where
  entry : Word
  priority : Int
  context : Word
  deriving DecidableEq, Repr

/-- The stack and guard page of a new thread. -/
structure GuardedStack where
  stackLow : Word
  guardPage : Word
  deriving DecidableEq, Repr

def schedSpawnPrio (entry : Word) (priority : Int) : SpawnRequest := ⟨entry, priority, 0⟩
def schedSpawn (entry : Word) : SpawnRequest := ⟨entry, 1, 0⟩
def schedSpawnWithContext (entry context : Word) : SpawnRequest := ⟨entry, 1, context⟩

/-- Out of range priorities count as normal. -/
def clampPriority (p : Int) : ThreadPriority :=
  if p < 0 ∨ p ≥ 3 then .normal
  else if p = 0 then .low
  else if p = 1 then .normal
  else .high

/-- The words `switch_context` will pop: six registers, the flags, the return
address. RFLAGS 0x202 has the interrupt flag set. -/
def initialFrame (entry : Word) : List Word := [0, 0, 0, 0, 0, 0, 0x202, entry]

def initialRsp (stackLow entry : Word) : Word :=
  stackLow + threadStackSize - 8 * BitVec.ofNat 64 (initialFrame entry).length

def initialFds (i : Fin threadMaxFds) : FdSlot :=
  if i.val < 2 then consoleFdSlot else resetFdSlot

/-- The slot search at the start of the spawn. -/
def findUnused (s : ThreadTable) : Option Nat :=
  (List.range s.threadCapacity).find? fun i => decide ((s.threads i).state = .unused)

/-- The first two writes to the slot; from the second on it can be scheduled. -/
def publishThread (req : SpawnRequest) (stack : GuardedStack) (slot : Nat) (s : ThreadTable) :
    ThreadTable :=
  updThread s slot
    { s.threads slot with rsp := initialRsp stack.stackLow req.entry, state := .ready }

/-- The writes that follow. -/
def fillThread (req : SpawnRequest) (stack : GuardedStack) (kernelSpace : Word) (slot : Nat)
    (s : ThreadTable) : ThreadTable :=
  updThread s slot
    { s.threads slot with
      stackLow := stack.stackLow
      guardPage := stack.guardPage
      priority := clampPriority req.priority
      ticksRemaining := quantumTicks (clampPriority req.priority)
      addressSpace := kernelSpace
      context := req.context
      fds := initialFds
      uid := (s.threads s.currentThread).uid }

/-- `sched_spawn_prio_with_context` when nothing else runs meanwhile: the new
slot, or `none` for -1, and the table it leaves. -/
def schedSpawnPrioWithContext (req : SpawnRequest) (block : Option (Nat → Thread))
    (stack : Option GuardedStack) (kernelSpace : Word) (s : ThreadTable) :
    Option Nat × ThreadTable :=
  let found := match findUnused s with
    | some slot => some (slot, s)
    | none => (growThreadTable block s).map fun grown => (s.threadCapacity, grown)
  match found with
  | none => (none, s)
  | some (slot, s) =>
    match stack with
    | none => (none, s)
    | some stack =>
      (some slot, fillThread req stack kernelSpace slot (publishThread req stack slot s))

/-! ## What a spawn does to the other slots -/

theorem findUnused_some (s : ThreadTable) (slot : Nat) (h : findUnused s = some slot) :
    slot < s.threadCapacity ∧ (s.threads slot).state = .unused := by
  have found := List.find?_some h
  have member := List.mem_of_find?_eq_some h
  exact ⟨List.mem_range.mp member, of_decide_eq_true found⟩

theorem findUnused_none (s : ThreadTable) (h : findUnused s = none) :
    ∀ i < s.threadCapacity, (s.threads i).state ≠ .unused := by
  intro i hi unused
  have refused := List.find?_eq_none.mp h i (List.mem_range.mpr hi)
  exact refused (decide_eq_true unused)

/-- Growth copies every field but the uid, which stays what the block held. -/
theorem installTable_copied (block : Nat → Thread) (newCapacity : Nat) (s : ThreadTable) (i : Nat)
    (hi : i < s.threadCapacity) :
    (installTable block newCapacity s).threads i = { s.threads i with uid := (block i).uid } := by
  simp only [installTable, if_pos hi, copyThreadSlot]

theorem startThread_other (req : SpawnRequest) (stack : GuardedStack) (kernelSpace : Word)
    (slot i : Nat) (s : ThreadTable) (h : i ≠ slot) :
    (fillThread req stack kernelSpace slot (publishThread req stack slot s)).threads i =
      s.threads i := by
  rw [fillThread, updThread_other _ _ _ _ h, publishThread, updThread_other _ _ _ _ h]

/-- The new thread gets the uid its spawner has when the slot is filled. -/
theorem startThread_uid (req : SpawnRequest) (stack : GuardedStack) (kernelSpace : Word)
    (slot : Nat) (s : ThreadTable) (h : s.currentThread ≠ slot) :
    ((fillThread req stack kernelSpace slot (publishThread req stack slot s)).threads slot).uid =
      (s.threads s.currentThread).uid := by
  rw [fillThread, updThread_same]
  change ((publishThread req stack slot s).threads s.currentThread).uid = _
  rw [publishThread, updThread_other _ _ _ _ h]

/-- The whole effect a caller may rely on: slots in use are kept, field by
field, and the new thread runs under its spawner's uid. -/
structure SpawnFrame (s : ThreadTable) (result : Option Nat × ThreadTable) : Prop where
  kept : ∀ i < s.threadCapacity, (s.threads i).state ≠ .unused →
    result.2.threads i = s.threads i
  inherited : ∀ slot, result.1 = some slot →
    (result.2.threads slot).uid = (s.threads s.currentThread).uid

/-- The uids in the table survive a growth: there is none, because a slot is
free or the heap refuses the block, or the block happens to hold them already. -/
def UidsSurvive (s : ThreadTable) (block : Option (Nat → Thread)) : Prop :=
  (∃ i < s.threadCapacity, (s.threads i).state = .unused) ∨
  ∀ b, block = some b → ∀ i < s.threadCapacity, (b i).uid = (s.threads i).uid

theorem spawn_reuse_frame (req : SpawnRequest) (block : Option (Nat → Thread))
    (stack : Option GuardedStack) (kernelSpace : Word) (s : ThreadTable) (slot : Nat)
    (inUse : (s.threads s.currentThread).state ≠ .unused) (found : findUnused s = some slot) :
    SpawnFrame s (schedSpawnPrioWithContext req block stack kernelSpace s) := by
  have unused := (findUnused_some s slot found).2
  have other : s.currentThread ≠ slot := by
    intro same
    rw [same] at inUse
    exact inUse unused
  simp only [schedSpawnPrioWithContext, found]
  cases stack with
  | none => exact ⟨fun i _ _ => rfl, fun slot h => by cases h⟩
  | some stack =>
    constructor
    · intro i _ used
      apply startThread_other
      intro same
      rw [same] at used
      exact used unused
    · intro slot' h
      cases h
      exact startThread_uid req stack kernelSpace slot s other

theorem spawn_grow_frame_iff (req : SpawnRequest) (block : Option (Nat → Thread))
    (stack : Option GuardedStack) (kernelSpace : Word) (s : ThreadTable)
    (valid : s.currentThread < s.threadCapacity) (full : findUnused s = none) :
    SpawnFrame s (schedSpawnPrioWithContext req block stack kernelSpace s) ↔
      ∀ b, block = some b → ∀ i < s.threadCapacity, (b i).uid = (s.threads i).uid := by
  have used := findUnused_none s full
  simp only [schedSpawnPrioWithContext, full, growThreadTable]
  cases block with
  | none =>
    constructor
    · intro _ b h
      cases h
    · intro _
      exact ⟨fun i _ _ => rfl, fun slot h => by cases h⟩
  | some b =>
    simp only [Option.map_some, Option.some.injEq, forall_eq']
    let grown := installTable b (grownCapacity s.threadCapacity) s
    have copied (i : Nat) (hi : i < s.threadCapacity) :
        grown.threads i = { s.threads i with uid := (b i).uid } :=
      installTable_copied b _ s i hi
    -- whatever the stack allocator says, the old slots are those of the grown table
    have slots (i : Nat) (hi : i < s.threadCapacity) :
        (match stack with
          | none => (none, grown)
          | some stack => (some s.threadCapacity,
              fillThread req stack kernelSpace s.threadCapacity
                (publishThread req stack s.threadCapacity grown))).2.threads i =
          grown.threads i := by
      cases stack with
      | none => rfl
      | some stack => exact startThread_other _ _ _ _ _ _ (Nat.ne_of_lt hi)
    constructor
    · intro frame i hi
      have kept := frame.kept i hi (used i hi)
      rw [slots i hi, copied i hi] at kept
      have uids := congrArg Thread.uid kept
      exact uids
    · intro same
      have keep (i : Nat) (hi : i < s.threadCapacity) : grown.threads i = s.threads i := by
        rw [copied i hi, same i hi]
      constructor
      · intro i hi _
        rw [slots i hi, keep i hi]
      · intro slot h
        cases stack with
        | none => cases h
        | some stack =>
          cases h
          rw [← keep s.currentThread valid]
          exact startThread_uid req stack kernelSpace s.threadCapacity grown (Nat.ne_of_lt valid)

/-- A spawn keeps every slot in use and passes on the spawner's uid exactly
when the uids survive: the copy in `grow_thread_table` leaves them out. -/
theorem spawn_frame_iff (req : SpawnRequest) (block : Option (Nat → Thread))
    (stack : Option GuardedStack) (kernelSpace : Word) (s : ThreadTable)
    (valid : s.currentThread < s.threadCapacity)
    (inUse : (s.threads s.currentThread).state ≠ .unused) :
    SpawnFrame s (schedSpawnPrioWithContext req block stack kernelSpace s) ↔
      UidsSurvive s block := by
  cases found : findUnused s with
  | some slot =>
    have frame := spawn_reuse_frame req block stack kernelSpace s slot inUse found
    exact ⟨fun _ => Or.inl ⟨slot, findUnused_some s slot found⟩, fun _ => frame⟩
  | none =>
    have used := findUnused_none s found
    rw [spawn_grow_frame_iff req block stack kernelSpace s valid found, UidsSurvive]
    refine ⟨Or.inr, fun h => h.resolve_left ?_⟩
    rintro ⟨i, hi, unused⟩
    exact used i hi unused

end MiniKernel.Sched
