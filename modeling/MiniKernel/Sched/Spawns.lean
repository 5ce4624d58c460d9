import MiniKernel.Proc.Reschedule

/-!
# Spawns that interleave

Source: kernel/sched/thread.c:88-114 (`grow_thread_table`) and 221-307
(`sched_spawn_prio_with_context`), kernel/core/process.c:244-268
(`spawn_elf_request`). `spawn_elf_request` spawns with interrupts off; a kernel
thread that calls `sched_spawn` with interrupts on can lose the CPU between any
two steps of it, with a slot number or a table size in hand that no other spawn
sees.

The calls are numbered; `call`, `holder`, `ended` and `made` are for proofs
only. `entries` is the one word of the new stacks that matters here.
-/
namespace MiniKernel.Sched
open Memory.Paging (Word)
open Proc (Reschedules fallAsleep)
open Lib.Machine (run Meets)

variable {k t : Kernel} {e : Event} {i : Nat}

/-- A spawn that has published its thread. -/
structure Spawned where
  call : Nat
  slot : Nat
  req : SpawnRequest
  stack : GuardedStack
  deriving DecidableEq, Repr

structure Spawns where
  kernel : Kernel
  /-- How many spawns have begun. -/
  calls : Nat
  /-- The thread's latest spawn. -/
  call : Nat → Nat
  /-- The spawn that published the thread now in the slot. -/
  holder : Nat → Option Spawned
  /-- The thread of this spawn has exited or was killed. -/
  ended : Nat → Bool
  /-- The spawns that have returned a slot. -/
  made : List Spawned
  /-- The return address last written at the top of the stack with this low end. -/
  entries : Word → Word

/-- The slot whose thread the step ends. -/
def ending (k : Kernel) : Event → Option Nat
  | .exit _ => some k.cur
  | .kill tid _ =>
    if k.table.threadCapacity ≤ tid then none
    else if tid ≠ k.cur ∧ (k.stateOf tid = .unused ∨ k.stateOf tid = .zombie) then none
    else some tid
  | _ => none

namespace Spawns

def cur (s : Spawns) : Nat := s.kernel.cur

/-- The thread in the slot has ended. -/
def endSlot (s : Spawns) (slot : Nat) : Spawns :=
  match s.holder slot with
  | some h =>
    { s with
      holder := Function.update s.holder slot none
      ended := Function.update s.ended h.call true }
  | none => s

/-- What a step of the running thread's spawn means. -/
def spawning (s : Spawns) (req : SpawnRequest) (stack : Option GuardedStack) : SpawnPhase → Spawns
  | .stack _ =>
    match stack with
    | some st => { s with entries := Function.update s.entries st.stackLow req.entry }
    | none => s
  | .publish slot st =>
    { s with holder := Function.update s.holder slot (some ⟨s.call s.cur, slot, req, st⟩) }
  | .fill slot st => { s with made := ⟨s.call s.cur, slot, req, st⟩ :: s.made }
  | _ => s

/-- What the step `e` means for the spawns. -/
def note (s : Spawns) (e : Event) : Spawns :=
  match e with
  | .spawn _ => { s with calls := s.calls + 1, call := Function.update s.call s.cur s.calls }
  | .spawnStep _ stack =>
    match s.kernel.place s.cur with
    | .spawning req phase => s.spawning req stack phase
    | _ => s
  | e =>
    match ending s.kernel e with
    | some slot => s.endSlot slot
    | none => s

def step (s : Spawns) (e : Event) : Option Spawns :=
  (Sched.step s.kernel e).map fun k => { s.note e with kernel := k }

def boot (block : Nat → Thread) (stack : GuardedStack) (kernelSpace : Word) : Spawns where
  kernel := Sched.boot block stack kernelSpace
  calls := 0
  call := fun _ => 0
  holder := fun _ => none
  ended := fun _ => false
  made := []
  entries := fun _ => 0

end Spawns

instance (state : ThreadState) : Decidable (Alive state) :=
  inferInstanceAs (Decidable (_ ∨ _ ∨ _))

/-- The thread of the spawn is in its slot, on its stack, with its entry point
and its context. -/
structure InPlace (s : Spawns) (a : Spawned) : Prop where
  inTable : a.slot < s.kernel.table.threadCapacity
  alive : Alive (s.kernel.stateOf a.slot)
  own : s.holder a.slot = some a
  stack : (s.kernel.table.threads a.slot).stackLow = a.stack.stackLow ∧
    (s.kernel.table.threads a.slot).guardPage = a.stack.guardPage
  entry : s.entries a.stack.stackLow = a.req.entry
  context : (s.kernel.table.threads a.slot).context = a.req.context

/-- Every spawn that has returned a slot has its thread there, until that ends,
and no two share a slot or a stack. -/
structure Apart (s : Spawns) : Prop where
  inPlace : ∀ a ∈ s.made, s.ended a.call = false → InPlace s a
  slots : ∀ a ∈ s.made, ∀ b ∈ s.made, s.ended a.call = false → s.ended b.call = false →
    a.call ≠ b.call → a.slot ≠ b.slot ∧ a.stack.stackLow ≠ b.stack.stackLow

/-- The stack a spawn has been given and its new thread may not have yet. -/
def inHand : Place → Option GuardedStack
  | .spawning _ (.publish _ st) => some st
  | .spawning _ (.fill _ st) => some st
  | _ => none

/-- What the spawn relies on: `alloc_guarded_stack` gives no stack that a living
thread or another spawn has. -/
def FreshStack (s : Spawns) : Event → Prop
  | .spawnStep _ (some st) =>
    match s.kernel.place s.cur with
    | .spawning _ (.stack _) =>
      ∀ i < s.kernel.table.threadCapacity,
        (Alive (s.kernel.stateOf i) → (s.kernel.table.threads i).stackLow ≠ st.stackLow) ∧
        ∀ other ∈ inHand (s.kernel.place i), other.stackLow ≠ st.stackLow
    | _ => True
  | _ => True

/-- The spawn installs no table smaller than the present one, publishes into no
slot with a living thread, and fills no slot that another spawn has returned. -/
def Undisturbed (s : Spawns) : Event → Prop
  | .spawnStep _ _ =>
    match s.kernel.place s.cur with
    | .spawning _ (.grow _ newCapacity) => s.kernel.table.threadCapacity ≤ newCapacity
    | .spawning _ (.publish slot _) => ¬ Alive (s.kernel.stateOf slot)
    | .spawning _ (.fill slot _) =>
      ∀ h ∈ s.holder slot, h ∈ s.made → h.call = s.call s.cur
    | _ => True
  | _ => True

instance (s : Spawns) (e : Event) : Decidable (FreshStack s e) := by
  unfold FreshStack
  split
  · split <;> infer_instance
  · infer_instance

instance (s : Spawns) (e : Event) : Decidable (Undisturbed s e) := by
  induction e using Event.casesOn with
  | spawnStep block stack =>
    dsimp only [Undisturbed]
    induction s.kernel.place s.cur using Place.casesOn with
    | spawning req phase =>
      induction phase using SpawnPhase.casesOn <;> (dsimp only; infer_instance)
    | _ => exact inferInstanceAs (Decidable True)
  | _ => exact inferInstanceAs (Decidable True)

/-! ## Who stays alive, and on which stack -/

/-- What a spawn gives its thread for good. -/
structure SameStack (u v : Thread) : Prop where
  low : u.stackLow = v.stackLow
  guardPage : u.guardPage = v.guardPage
  context : u.context = v.context

theorem SameStack.refl (u : Thread) : SameStack u u := ⟨rfl, rfl, rfl⟩

theorem SameStack.trans {u v w : Thread} (first : SameStack u v) (second : SameStack v w) :
    SameStack u w :=
  ⟨first.low.trans second.low, first.guardPage.trans second.guardPage,
    first.context.trans second.context⟩

theorem updThread_stack (s : ThreadTable) (tid i : Nat) (thread : Thread)
    (same : i = tid → SameStack thread (s.threads tid)) :
    SameStack ((updThread s tid thread).threads i) (s.threads i) := by
  cases Decidable.em (i = tid) with
  | inl written =>
    rw [written, updThread_same]
    exact same written
  | inr other =>
    rw [updThread_other _ _ _ _ other]
    exact SameStack.refl _

theorem schedWakeup_stack (s : ThreadTable) (channel : Word) (i : Nat) :
    SameStack ((schedWakeup s channel).threads i) (s.threads i) := by
  simp only [schedWakeup]
  split <;> exact ⟨rfl, rfl, rfl⟩

theorem exitTable_stack (pid : Option Word) (k : Kernel) (i : Nat) :
    SameStack ((exitTable pid k).threads i) (k.table.threads i) := by
  have zombie := updThread_stack k.table k.cur i
    { k.table.threads k.cur with state := .zombie } fun _ => ⟨rfl, rfl, rfl⟩
  have marked : SameStack ((markExited (setState k.table k.cur .zombie) pid).threads i)
      ((setState k.table k.cur .zombie).threads i) := by
    cases pid with
    | none => exact SameStack.refl _
    | some pid => exact schedWakeup_stack _ pid i
  exact (schedWakeup_stack _ _ i).trans (marked.trans zombie)

theorem dispatchFresh_stack (s : ThreadTable) (next i : Nat) :
    SameStack ((dispatchFresh s next).threads i) (s.threads i) :=
  updThread_stack s next i _ fun _ => ⟨rfl, rfl, rfl⟩

theorem schedYield_stack (resumeIf : Bool) (k : Kernel) (i : Nat) :
    SameStack ((schedYield resumeIf k).table.threads i) (k.table.threads i) := by
  simp only [schedYield]
  split
  · exact SameStack.refl _
  · have ready := updThread_stack k.table k.cur i
      { k.table.threads k.cur with state := .ready } fun _ => ⟨rfl, rfl, rfl⟩
    exact (dispatchFresh_stack _ _ i).trans ready

theorem schedTick_stack (k : Kernel) (i : Nat) :
    SameStack ((schedTick k).table.threads i) (k.table.threads i) := by
  have counted : SameStack ((countTick k).table.threads i) (k.table.threads i) :=
    updThread_stack k.table k.cur i _ fun _ => ⟨rfl, rfl, rfl⟩
  rcases schedTick_cases k with ⟨_, counts⟩ | ⟨_, yields⟩
  · rw [counts]
    exact counted
  · rw [yields]
    exact (schedYield_stack true (countTick k) i).trans counted

theorem schedSleep_stack (channel : Word) (k : Kernel) (i : Nat) :
    SameStack ((schedSleep channel k).table.threads i) (k.table.threads i) := by
  have asleep := updThread_stack k.table k.cur i
    { k.table.threads k.cur with waitChannel := channel, state := .blocked }
    fun _ => ⟨rfl, rfl, rfl⟩
  simp only [schedSleep]
  split
  · exact asleep
  · exact (dispatchFresh_stack _ _ i).trans asleep

theorem dispatch_stack (s : ThreadTable) (next i : Nat) :
    SameStack ((dispatch s next).threads i) (s.threads i) :=
  updThread_stack s next i _ fun _ => ⟨rfl, rfl, rfl⟩

theorem schedExitStatus_stack (pid : Option Word) (k : Kernel) (i : Nat) :
    SameStack ((schedExitStatus pid k).table.threads i) (k.table.threads i) := by
  simp only [schedExitStatus]
  split
  · exact exitTable_stack pid k i
  · exact (dispatch_stack _ _ i).trans (exitTable_stack pid k i)

theorem schedKill_stack (tid : Nat) (pid : Option Word) (k : Kernel) (i : Nat) :
    SameStack ((schedKill tid pid k).table.threads i) (k.table.threads i) := by
  unfold schedKill
  split
  · exact SameStack.refl _
  · split
    · exact schedExitStatus_stack pid k i
    · split
      · exact SameStack.refl _
      · exact updThread_stack k.table tid i _ fun _ => ⟨rfl, rfl, rfl⟩

/-- The events that are no step of a spawn. -/
def Quiet : Event → Prop
  | .spawn _ => False
  | .spawnStep _ _ => False
  | _ => True

/-- What a step that is none of a spawn leaves alone. -/
structure Calm (k : Kernel) (e : Event) (t : Kernel) : Prop where
  capacity : t.table.threadCapacity = k.table.threadCapacity
  alive : ∀ i, Alive (k.stateOf i) → ending k e ≠ some i → Alive (t.stateOf i)
  stack : ∀ i, Alive (k.stateOf i) → SameStack (t.table.threads i) (k.table.threads i)
  place : ∀ j req phase, t.place j = .spawning req phase → k.place j = .spawning req phase

theorem alive_of_reschedules (moved : Reschedules k t) (alive : Alive (k.stateOf i)) :
    Alive (t.stateOf i) := by
  rcases moved.state i with ⟨same, _⟩ | ⟨runnable, _, _⟩
  · rw [same]
    exact alive
  · rcases runnable with ready | running
    · exact Or.inl ready
    · exact Or.inr (Or.inl running)

/-- The running thread has gone somewhere that is no spawn. -/
theorem moveTo_spawning {p : Place} (away : ∀ req phase, p ≠ .spawning req phase) {j : Nat}
    {req : SpawnRequest} {phase : SpawnPhase}
    (h : (k.moveTo p).place j = .spawning req phase) : k.place j = .spawning req phase := by
  cases Decidable.em (j = k.cur) with
  | inl same =>
    rw [same, moveTo_self] at h
    exact absurd h (away req phase)
  | inr other =>
    rw [moveTo_other k p j other] at h
    exact h

theorem schedYield_place (resumeIf : Bool) (k : Kernel) :
    (schedYield resumeIf k).place = k.place := by
  simp only [schedYield]
  split <;> rfl

theorem schedTick_place (k : Kernel) : (schedTick k).place = k.place := by
  rcases schedTick_cases k with ⟨_, counts⟩ | ⟨_, yields⟩
  · rw [counts]
    rfl
  · rw [yields, schedYield_place]
    rfl

theorem schedSleep_spawning {channel : Word} {j : Nat} {req : SpawnRequest} {phase : SpawnPhase} :
    (schedSleep channel k).place j = .spawning req phase → k.place j = .spawning req phase := by
  simp only [schedSleep]
  split
  · exact moveTo_spawning (p := .idle k.interrupts) fun _ _ same => by cases same
  · exact id

theorem schedExitStatus_spawning {pid : Option Word} {j : Nat} {req : SpawnRequest}
    {phase : SpawnPhase} :
    (schedExitStatus pid k).place j = .spawning req phase →
      k.place j = .spawning req phase := by
  simp only [schedExitStatus]
  split
  · exact moveTo_spawning (p := .halt) fun _ _ same => by cases same
  · exact moveTo_spawning (p := .gone) fun _ _ same => by cases same

theorem schedExitStatus_alive (wf : WellFormed k) (pid : Option Word) (other : i ≠ k.cur)
    (alive : Alive (k.stateOf i)) : Alive ((schedExitStatus pid k).stateOf i) := by
  have dying : (Proc.dying k).stateOf i = k.stateOf i :=
    congrArg Thread.state (updThread_other _ _ _ _ other)
  have dead := alive_of_reschedules (Proc.dead_reschedules pid k) (dying ▸ alive)
  exact alive_of_reschedules (Proc.exit_reschedules wf pid) dead

theorem schedKill_alive (wf : WellFormed k) (tid : Nat) (pid : Option Word)
    (alive : Alive (k.stateOf i)) (goesOn : ending k (.kill tid pid) ≠ some i) :
    Alive ((schedKill tid pid k).stateOf i) := by
  simp only [ending] at goesOn
  by_cases beyond : k.table.threadCapacity ≤ tid
  · rw [schedKill, if_pos beyond]
    exact alive
  rw [if_neg beyond] at goesOn
  by_cases self : tid = k.cur
  · rw [if_neg fun both => both.1 self] at goesOn
    rw [schedKill, if_neg beyond, if_pos self]
    exact schedExitStatus_alive wf pid (fun same => goesOn (by rw [self, same])) alive
  by_cases dead : k.stateOf tid = .unused ∨ k.stateOf tid = .zombie
  · rw [schedKill, if_neg beyond, if_neg self, if_pos dead]
    exact alive
  · rw [if_neg fun both => dead both.2] at goesOn
    rw [schedKill, if_neg beyond, if_neg self, if_neg dead]
    change Alive ((updThread k.table tid _).threads i).state
    rw [updThread_other _ _ _ _ fun same => goesOn (congrArg some same.symm)]
    exact alive

theorem schedKill_spawning {tid : Nat} {pid : Option Word} {j : Nat} {req : SpawnRequest}
    {phase : SpawnPhase} :
    (schedKill tid pid k).place j = .spawning req phase → k.place j = .spawning req phase := by
  simp only [schedKill]
  split
  · exact id
  · split
    · exact schedExitStatus_spawning
    · split
      · exact id
      · exact id

theorem reapZombie_alive (tid : Nat) (alive : Alive (k.stateOf i)) :
    (reapZombie k.table tid).threads i = k.table.threads i := by
  unfold reapZombie
  split
  · next reapable =>
    refine updThread_other _ _ _ _ fun same => ?_
    subst same
    change Alive (k.table.threads i).state at alive
    rw [reapable.2.2] at alive
    simp [Alive] at alive
  · rfl

theorem step_calm (wf : WellFormed k) (h : step k e = some t) (quiet : Quiet e) :
    Calm k e t := by
  cases e with
  | timer =>
    obtain ⟨_, rfl⟩ := interrupt_eq_some.mp h
    refine ⟨schedTick_capacity k, fun i alive _ => alive_of_reschedules
      (Proc.tick_reschedules wf) alive, fun i _ => schedTick_stack k i, fun j req phase => ?_⟩
    rw [schedTick_place]
    exact id
  | keyboard channel =>
    obtain ⟨_, rfl⟩ := interrupt_eq_some.mp h
    exact ⟨rfl, fun i alive _ => alive_of_reschedules (Proc.wakeup_reschedules k channel) alive,
      fun i _ => schedWakeup_stack _ channel i, fun _ _ _ => id⟩
  | setIf on =>
    obtain ⟨_, rfl⟩ := call_eq_some.mp h
    exact ⟨rfl, fun i alive _ => alive, fun i _ => SameStack.refl _, fun _ _ _ => id⟩
  | yield =>
    obtain ⟨_, rfl⟩ := call_eq_some.mp h
    refine ⟨schedYield_capacity _ k, fun i alive _ => alive_of_reschedules
      (Proc.yield_reschedules wf _) alive, fun i _ => schedYield_stack _ k i,
      fun j req phase => ?_⟩
    rw [schedYield_place]
    exact id
  | sleep channel =>
    obtain ⟨inCode, rfl⟩ := call_eq_some.mp h
    refine ⟨schedSleep_capacity channel k, fun i alive _ => ?_,
      fun i _ => schedSleep_stack channel k i, fun _ _ _ => schedSleep_spawning⟩
    refine alive_of_reschedules (Proc.sleep_reschedules wf channel inCode) ?_
    change Alive ((updThread k.table k.cur _).threads i).state
    cases Decidable.em (i = k.cur) with
    | inl same =>
      rw [same, updThread_same]
      exact Or.inr (Or.inr rfl)
    | inr other =>
      rw [updThread_other _ _ _ _ other]
      exact alive
  | wakeup channel =>
    obtain ⟨_, rfl⟩ := call_eq_some.mp h
    exact ⟨rfl, fun i alive _ => alive_of_reschedules (Proc.wakeup_reschedules k channel) alive,
      fun i _ => schedWakeup_stack _ channel i, fun _ _ _ => id⟩
  | exit pid =>
    obtain ⟨_, rfl⟩ := call_eq_some.mp h
    refine ⟨schedExitStatus_capacity pid k, fun i alive goesOn => ?_,
      fun i _ => schedExitStatus_stack pid k i, fun _ _ _ => schedExitStatus_spawning⟩
    exact schedExitStatus_alive wf pid (fun same => goesOn (congrArg some same.symm)) alive
  | kill tid pid =>
    obtain ⟨_, rfl⟩ := call_eq_some.mp h
    exact ⟨schedKill_capacity tid pid k, fun i alive => schedKill_alive wf tid pid alive,
      fun i _ => schedKill_stack tid pid k i, fun _ _ _ => schedKill_spawning⟩
  | reap tid =>
    obtain ⟨_, rfl⟩ := call_eq_some.mp h
    refine ⟨reapZombie_capacity _ tid, fun i alive _ => ?_, fun i alive => ?_, fun _ _ _ => id⟩
    · change Alive ((reapZombie k.table tid).threads i).state
      rw [reapZombie_alive tid alive]
      exact alive
    · change SameStack ((reapZombie k.table tid).threads i) _
      rw [reapZombie_alive tid alive]
      exact SameStack.refl _
  | spawn req => exact absurd quiet id
  | spawnStep block stack => exact absurd quiet id
  | idleCheck =>
    obtain ⟨flags, idles, _, rfl⟩ := idleCheck_eq_some.mp h
    exact ⟨rfl, fun i alive _ => alive_of_reschedules
      (Proc.leaveIdle_reschedules wf flags idles) alive,
      fun i _ => updThread_stack k.table k.cur i _ fun _ => ⟨rfl, rfl, rfl⟩,
      fun _ _ _ => moveTo_spawning (p := .code) nofun⟩

/-! ## What holds between the steps -/

/-- The spawn has a stack: its thread lives, or is about to be published or
filled in. -/
def Using (s : Spawns) (a : Spawned) : Prop :=
  (a ∈ s.made ∧ s.ended a.call = false) ∨
  ∃ j, s.call j = a.call ∧
    (s.kernel.place j = .spawning a.req (.publish a.slot a.stack) ∨
      s.kernel.place j = .spawning a.req (.fill a.slot a.stack))

/-- The slot of the spawn is in the table. -/
def SlotIn (capacity : Nat) : SpawnPhase → Prop
  | .scan _ => True
  | .grow previous newCapacity => previous < newCapacity
  | .stack slot => slot < capacity
  | .publish slot _ => slot < capacity
  | .fill slot _ => slot < capacity

theorem SlotIn.mono {c c' : Nat} (larger : c ≤ c') {phase : SpawnPhase} (h : SlotIn c phase) :
    SlotIn c' phase := by
  cases phase with
  | scan i => trivial
  | grow previous newCapacity => exact h
  | stack slot => exact Nat.lt_of_lt_of_le h larger
  | publish slot st => exact Nat.lt_of_lt_of_le h larger
  | fill slot st => exact Nat.lt_of_lt_of_le h larger

structure Tidy (s : Spawns) : Prop where
  places : ∀ j req phase, s.kernel.place j = .spawning req phase →
    j < s.kernel.table.threadCapacity ∧ SlotIn s.kernel.table.threadCapacity phase
  published : ∀ j req slot st, s.kernel.place j = .spawning req (.fill slot st) →
    s.ended (s.call j) = false →
      Alive (s.kernel.stateOf slot) ∧ s.holder slot = some ⟨s.call j, slot, req, st⟩
  inPlace : ∀ a ∈ s.made, s.ended a.call = false → InPlace s a
  distinct : ∀ a b, Using s a → Using s b → a.call ≠ b.call →
    a.stack.stackLow ≠ b.stack.stackLow
  entries : ∀ a, Using s a → s.entries a.stack.stackLow = a.req.entry

variable {s : Spawns} {req : SpawnRequest} {slot : Nat} {st : GuardedStack}

theorem Tidy.apart (tidy : Tidy s) : Apart s := by
  refine ⟨tidy.inPlace, fun a made b made' goesOn goesOn' other => ⟨fun same => ?_, ?_⟩⟩
  · have own := (tidy.inPlace a made goesOn).own
    rw [same, (tidy.inPlace b made' goesOn').own] at own
    exact other (congrArg Spawned.call (Option.some.inj own).symm)
  · exact tidy.distinct a b (Or.inl ⟨made, goesOn⟩) (Or.inl ⟨made', goesOn'⟩) other

/-- A quiet step ends at most one thread, whose spawn is then marked. -/
structure Ends (s : Spawns) (e : Event) (t : Spawns) : Prop where
  made : t.made = s.made
  call : t.call = s.call
  entries : t.entries = s.entries
  ended : ∀ c, t.ended c = false → s.ended c = false
  holder : ∀ slot h, s.holder slot = some h → t.ended h.call = false →
    t.holder slot = some h ∧ ending s.kernel e ≠ some slot

theorem note_ends (quiet : Quiet e) : Ends s e (s.note e) := by
  have noted : s.note e = match ending s.kernel e with
      | some slot => s.endSlot slot
      | none => s := by
    cases e with
    | spawn req => exact absurd quiet id
    | spawnStep block stack => exact absurd quiet id
    | _ => rfl
  rw [noted]
  cases dies : ending s.kernel e with
  | none => exact ⟨rfl, rfl, rfl, fun _ => id, fun slot h held _ => ⟨held, dies ▸ nofun⟩⟩
  | some x =>
    simp only [Spawns.endSlot]
    split
    · next hx held =>
      refine ⟨rfl, rfl, rfl, fun c goesOn => ?_, fun slot h own goesOn => ?_⟩ <;>
        dsimp only at goesOn
      · by_cases same : c = hx.call
        · rw [same, Function.update_self] at goesOn
          cases goesOn
        · rwa [Function.update_of_ne same] at goesOn
      · have other : slot ≠ x := by
          intro same
          rw [same, held] at own
          rw [← Option.some.inj own, Function.update_self] at goesOn
          cases goesOn
        refine ⟨(Function.update_of_ne other ..).trans own, ?_⟩
        rw [dies]
        exact fun same => other (Option.some.inj same).symm
    · next held =>
      refine ⟨rfl, rfl, rfl, fun _ => id, fun slot h own _ => ⟨own, fun same => ?_⟩⟩
      rw [dies] at same
      rw [← Option.some.inj same, held] at own
      cases own

theorem Tidy.quiet (tidy : Tidy s) (wf : WellFormed s.kernel)
    (h : Sched.step s.kernel e = some k) (quiet : Quiet e) :
    Tidy { s.note e with kernel := k } := by
  have calm := step_calm wf h quiet
  have ends : Ends s e (s.note e) := note_ends quiet
  have using' (a : Spawned) (h : Using { s.note e with kernel := k } a) : Using s a := by
    rcases h with ⟨made, goesOn⟩ | ⟨j, calls, place⟩
    · exact Or.inl ⟨ends.made ▸ made, ends.ended _ goesOn⟩
    · exact Or.inr ⟨j, ends.call ▸ calls, place.imp (calm.place _ _ _) (calm.place _ _ _)⟩
  refine ⟨fun j req phase place => ?_, fun j req slot st place goesOn => ?_,
    fun a made goesOn => ?_, fun a b h h' => tidy.distinct a b (using' a h) (using' b h'),
    fun a h => ?_⟩
  · change j < k.table.threadCapacity ∧ SlotIn k.table.threadCapacity phase
    rw [calm.capacity]
    exact tidy.places j req phase (calm.place _ _ _ place)
  · change (s.note e).ended ((s.note e).call j) = false at goesOn
    change Alive (k.stateOf slot) ∧ (s.note e).holder slot = some ⟨(s.note e).call j, _, _, _⟩
    rw [ends.call] at goesOn ⊢
    obtain ⟨alive, own⟩ := tidy.published j req slot st (calm.place _ _ _ place)
      (ends.ended _ goesOn)
    obtain ⟨held, goes⟩ := ends.holder slot _ own goesOn
    exact ⟨calm.alive slot alive goes, held⟩
  · have was := tidy.inPlace a (ends.made ▸ made) (ends.ended _ goesOn)
    obtain ⟨held, goes⟩ := ends.holder a.slot a was.own goesOn
    have stack := calm.stack a.slot was.alive
    refine ⟨?_, calm.alive a.slot was.alive goes, held, ?_, ?_, stack.context.trans was.context⟩
    · change a.slot < k.table.threadCapacity
      rw [calm.capacity]
      exact was.inTable
    · exact ⟨stack.low.trans was.stack.1, stack.guardPage.trans was.stack.2⟩
    · change (s.note e).entries _ = _
      rw [ends.entries]
      exact was.entry
  · change (s.note e).entries _ = _
    rw [ends.entries]
    exact tidy.entries a (using' a h)

/-! ## The steps of a spawn -/

/-- The running thread goes where it holds no stack. -/
theorem Tidy.moveTo (tidy : Tidy s) (wf : WellFormed s.kernel) {p : Place}
    (empty : inHand p = none)
    (inTable : ∀ req phase, p = .spawning req phase →
      SlotIn s.kernel.table.threadCapacity phase) :
    Tidy { s with kernel := s.kernel.moveTo p } := by
  have elsewhere {j : Nat} {req : SpawnRequest} {phase : SpawnPhase}
      (holds : (inHand (.spawning req phase)).isSome)
      (place : (s.kernel.moveTo p).place j = .spawning req phase) :
      s.kernel.place j = .spawning req phase := by
    have other : j ≠ s.kernel.cur := by
      intro same
      rw [same, moveTo_self] at place
      rw [← place, empty] at holds
      cases holds
    rwa [moveTo_other _ _ _ other] at place
  have using' (a : Spawned) (h : Using { s with kernel := s.kernel.moveTo p } a) : Using s a :=
    h.imp id fun ⟨j, calls, place⟩ => ⟨j, calls, place.imp (elsewhere rfl) (elsewhere rfl)⟩
  refine ⟨fun j req phase place => ?_, fun j req slot st place => ?_, fun a made goesOn => ?_,
    fun a b h h' => tidy.distinct a b (using' a h) (using' b h'),
    fun a h => tidy.entries a (using' a h)⟩
  · cases Decidable.em (j = s.kernel.cur) with
    | inl same =>
      subst same
      exact ⟨wf.current, inTable req phase ((moveTo_self _ p).symm.trans place)⟩
    | inr other =>
      exact tidy.places j req phase ((moveTo_other _ p j other).symm.trans place)
  · exact tidy.published j req slot st (elsewhere rfl place)
  · have was := tidy.inPlace a made goesOn
    exact ⟨was.inTable, was.alive, was.own, was.stack, was.entry, was.context⟩

theorem Tidy.installed (tidy : Tidy s) (b : Nat → Thread) {newCapacity : Nat}
    (larger : s.kernel.table.threadCapacity ≤ newCapacity) :
    Tidy { s with
      kernel := { s.kernel with table := installTable b newCapacity s.kernel.table } } := by
  have copied {i : Nat} (hi : i < s.kernel.table.threadCapacity) :
      (installTable b newCapacity s.kernel.table).threads i =
        { s.kernel.table.threads i with uid := (b i).uid } :=
    installTable_copied b newCapacity s.kernel.table i hi
  refine ⟨fun j req phase place => ?_, fun j req slot st place goesOn => ?_,
    fun a made goesOn => ?_, tidy.distinct, tidy.entries⟩
  · obtain ⟨inTable, slotIn⟩ := tidy.places j req phase place
    exact ⟨Nat.lt_of_lt_of_le inTable larger, slotIn.mono larger⟩
  · obtain ⟨alive, own⟩ := tidy.published j req slot st place goesOn
    have inTable : slot < s.kernel.table.threadCapacity := (tidy.places j req _ place).2
    refine ⟨?_, own⟩
    change Alive ((installTable b newCapacity s.kernel.table).threads slot).state
    rw [copied inTable]
    exact alive
  · have was := tidy.inPlace a made goesOn
    have same := copied was.inTable
    refine ⟨Nat.lt_of_lt_of_le was.inTable larger, ?_, was.own, ?_, was.entry, ?_⟩
    · change Alive ((installTable b newCapacity s.kernel.table).threads a.slot).state
      rw [same]
      exact was.alive
    · change ((installTable b newCapacity s.kernel.table).threads a.slot).stackLow = _ ∧
        ((installTable b newCapacity s.kernel.table).threads a.slot).guardPage = _
      rw [same]
      exact was.stack
    · change ((installTable b newCapacity s.kernel.table).threads a.slot).context = _
      rw [same]
      exact was.context

/-- A spawn gets its stack, with the entry point at the top. -/
theorem Tidy.stacked (tidy : Tidy s) (wf : WellFormed s.kernel) {block : Option (Nat → Thread)}
    (place : s.kernel.place s.kernel.cur = .spawning req (.stack slot))
    (fresh : FreshStack s (.spawnStep block (some st))) :
    Tidy { s with
      kernel := s.kernel.moveTo (.spawning req (.publish slot st))
      entries := Function.update s.entries st.stackLow req.entry } := by
  simp only [FreshStack, Spawns.cur, place] at fresh
  have differs (a : Spawned) (h : Using s a) : a.stack.stackLow ≠ st.stackLow := by
    rcases h with ⟨made, goesOn⟩ | ⟨j, _, place⟩
    · have was := tidy.inPlace a made goesOn
      rw [← was.stack.1]
      exact (fresh a.slot was.inTable).1 was.alive
    · have inTable : j < s.kernel.table.threadCapacity :=
        place.elim (fun h => (tidy.places j _ _ h).1) fun h => (tidy.places j _ _ h).1
      refine (fresh j inTable).2 a.stack ?_
      rcases place with h | h <;> rw [h] <;> rfl
  -- the only spawn that has come to hold a stack
  have using' (a : Spawned)
      (h : Using { s with
        kernel := s.kernel.moveTo (.spawning req (.publish slot st))
        entries := Function.update s.entries st.stackLow req.entry } a) :
      Using s a ∨ a = ⟨s.call s.kernel.cur, slot, req, st⟩ := by
    rcases h with made | ⟨j, calls, place⟩
    · exact Or.inl (Or.inl made)
    · cases Decidable.em (j = s.kernel.cur) with
      | inl same =>
        subst same
        obtain ⟨call, slot', req', st'⟩ := a
        simp only [moveTo_self, Place.spawning.injEq, SpawnPhase.publish.injEq, reduceCtorEq,
          and_false, or_false] at place
        obtain ⟨rfl, rfl, rfl⟩ := place
        exact Or.inr (congrArg (fun call => (⟨call, slot, req, st⟩ : Spawned)) calls.symm)
      | inr other =>
        simp only [moveTo_other _ _ j other] at place
        exact Or.inl (Or.inr ⟨j, calls, place⟩)
  refine ⟨fun j req' phase h => ?_, fun j req' slot' st' h goesOn => ?_, fun a made goesOn => ?_,
    fun a b h h' other => ?_, fun a h => ?_⟩
  · cases Decidable.em (j = s.kernel.cur) with
    | inl same =>
      subst same
      have slotIn : SlotIn s.kernel.table.threadCapacity (.stack slot) :=
        (tidy.places _ _ _ place).2
      obtain ⟨rfl, rfl⟩ := Place.spawning.inj ((moveTo_self _ _).symm.trans h)
      exact ⟨wf.current, slotIn⟩
    | inr other => exact tidy.places j req' phase ((moveTo_other _ _ j other).symm.trans h)
  · have other : j ≠ s.kernel.cur := by
      intro same
      subst same
      have filling := (moveTo_self _ _).symm.trans h
      cases filling
    exact tidy.published j req' slot' st' ((moveTo_other _ _ j other).symm.trans h) goesOn
  · have was := tidy.inPlace a made goesOn
    refine ⟨was.inTable, was.alive, was.own, was.stack, ?_, was.context⟩
    exact (Function.update_of_ne (differs a (Or.inl ⟨made, goesOn⟩)) ..).trans was.entry
  · rcases using' a h with old | rfl
    · rcases using' b h' with old' | rfl
      · exact tidy.distinct a b old old' other
      · exact differs a old
    · rcases using' b h' with old' | rfl
      · exact (differs b old').symm
      · exact absurd rfl other
  · rcases using' a h with old | rfl
    · exact (Function.update_of_ne (differs a old) ..).trans (tidy.entries a old)
    · exact Function.update_self ..

/-- A spawn makes its thread READY in a slot with no living thread. -/
theorem Tidy.publish (tidy : Tidy s) (wf : WellFormed s.kernel)
    (place : s.kernel.place s.kernel.cur = .spawning req (.publish slot st))
    (free : ¬ Alive (s.kernel.stateOf slot)) (block : Option (Nat → Thread))
    (stack : Option GuardedStack) :
    Tidy { s with
      kernel := spawnStep req block stack s.kernel (.publish slot st)
      holder := Function.update s.holder slot (some ⟨s.call s.kernel.cur, slot, req, st⟩) } := by
  have notSelf : s.kernel.cur ≠ slot := by
    intro same
    have ok : PlaceOk s.kernel.cur (s.kernel.place s.kernel.cur) := wf.spawns _
    rw [place] at ok
    exact ok same.symm
  have slotIn : slot < s.kernel.table.threadCapacity := (tidy.places _ _ _ place).2
  have kept {i : Nat} (alive : Alive (s.kernel.stateOf i)) :
      i ≠ slot ∧ (publishThread req st slot s.kernel.table).threads i =
        s.kernel.table.threads i := by
    have other : i ≠ slot := fun same => free (same ▸ alive)
    exact ⟨other, updThread_other _ _ _ _ other⟩
  -- the places after the step
  have places {j : Nat} {req' : SpawnRequest} {phase : SpawnPhase}
      (h : (spawnStep req block stack s.kernel (.publish slot st)).place j =
        .spawning req' phase) :
      (j = s.kernel.cur ∧ req' = req ∧ phase = .fill slot st) ∨
        (j ≠ s.kernel.cur ∧ s.kernel.place j = .spawning req' phase) := by
    change Function.update (Function.update s.kernel.place slot .code) s.kernel.cur
      (.spawning req (.fill slot st)) j = _ at h
    cases Decidable.em (j = s.kernel.cur) with
    | inl same =>
      rw [same, Function.update_self] at h
      obtain ⟨rfl, rfl⟩ := Place.spawning.inj h
      exact Or.inl ⟨same, rfl, rfl⟩
    | inr other =>
      rw [Function.update_of_ne other] at h
      have notSlot : j ≠ slot := by
        intro same
        rw [same, Function.update_self] at h
        cases h
      rw [Function.update_of_ne notSlot] at h
      exact Or.inr ⟨other, h⟩
  have using' (a : Spawned)
      (h : Using { s with
        kernel := spawnStep req block stack s.kernel (.publish slot st)
        holder := Function.update s.holder slot (some ⟨s.call s.kernel.cur, slot, req, st⟩) } a) :
      Using s a := by
    rcases h with made | ⟨j, calls, published | filling⟩
    · exact Or.inl made
    · rcases places published with ⟨_, _, no⟩ | ⟨_, same⟩
      · cases no
      · exact Or.inr ⟨j, calls, Or.inl same⟩
    · rcases places filling with ⟨rfl, sameReq, samePhase⟩ | ⟨_, same⟩
      · obtain ⟨sameSlot, sameStack⟩ := SpawnPhase.fill.inj samePhase
        rw [← sameReq, ← sameSlot, ← sameStack] at place
        exact Or.inr ⟨_, calls, Or.inl place⟩
      · exact Or.inr ⟨j, calls, Or.inr same⟩
  refine ⟨fun j req' phase h => ?_, fun j req' slot' st' h goesOn => ?_, fun a made goesOn => ?_,
    fun a b h h' => tidy.distinct a b (using' a h) (using' b h'),
    fun a h => tidy.entries a (using' a h)⟩
  · rcases places h with ⟨rfl, rfl, rfl⟩ | ⟨_, same⟩
    · exact ⟨wf.current, slotIn⟩
    · exact tidy.places j req' phase same
  · rcases places h with ⟨rfl, rfl, samePhase⟩ | ⟨_, same⟩
    · obtain ⟨rfl, rfl⟩ := SpawnPhase.fill.inj samePhase
      refine ⟨Or.inl ?_, Function.update_self ..⟩
      exact congrArg Thread.state (updThread_same _ _ _)
    · obtain ⟨alive, own⟩ := tidy.published j req' slot' st' same goesOn
      obtain ⟨other, unchanged⟩ := kept alive
      refine ⟨?_, (Function.update_of_ne other ..).trans own⟩
      change Alive ((publishThread req st slot s.kernel.table).threads slot').state
      rw [unchanged]
      exact alive
  · have was := tidy.inPlace a made goesOn
    obtain ⟨other, unchanged⟩ := kept was.alive
    refine ⟨was.inTable, ?_, (Function.update_of_ne other ..).trans was.own,
      ⟨(congrArg Thread.stackLow unchanged).trans was.stack.1,
        (congrArg Thread.guardPage unchanged).trans was.stack.2⟩, was.entry,
      (congrArg Thread.context unchanged).trans was.context⟩
    change Alive ((publishThread req st slot s.kernel.table).threads a.slot).state
    rw [unchanged]
    exact was.alive

/-- A spawn writes the rest of its slot and returns. -/
theorem Tidy.fill (tidy : Tidy s)
    (place : s.kernel.place s.kernel.cur = .spawning req (.fill slot st))
    (unclaimed : ∀ h ∈ s.holder slot, h ∈ s.made → h.call = s.call s.kernel.cur) :
    Tidy { s with
      kernel := { s.kernel.moveTo .code with
        table := fillThread req st s.kernel.kernelSpace slot s.kernel.table }
      made := ⟨s.call s.kernel.cur, slot, req, st⟩ :: s.made } := by
  have using' (a : Spawned)
      (h : Using { s with
        kernel := { s.kernel.moveTo .code with
          table := fillThread req st s.kernel.kernelSpace slot s.kernel.table }
        made := ⟨s.call s.kernel.cur, slot, req, st⟩ :: s.made } a) : Using s a := by
    rcases h with ⟨made, goesOn⟩ | ⟨j, calls, places⟩
    · rcases List.mem_cons.mp made with rfl | before
      · exact Or.inr ⟨s.kernel.cur, rfl, Or.inr place⟩
      · exact Or.inl ⟨before, goesOn⟩
    · exact Or.inr ⟨j, calls, places.imp (moveTo_spawning (p := .code) nofun)
        (moveTo_spawning (p := .code) nofun)⟩
  have slotIn : slot < s.kernel.table.threadCapacity := (tidy.places _ _ _ place).2
  have states (i : Nat) :
      ((fillThread req st s.kernel.kernelSpace slot s.kernel.table).threads i).state =
        s.kernel.stateOf i := fillThread_state req st s.kernel.kernelSpace slot s.kernel.table
  have filled (goesOn : s.ended (s.call s.kernel.cur) = false) :
      InPlace { s with
        kernel := { s.kernel.moveTo .code with
          table := fillThread req st s.kernel.kernelSpace slot s.kernel.table }
        made := ⟨s.call s.kernel.cur, slot, req, st⟩ :: s.made }
        ⟨s.call s.kernel.cur, slot, req, st⟩ := by
    obtain ⟨alive, own⟩ := tidy.published _ req slot st place goesOn
    have written := updThread_same s.kernel.table slot
    have entry := tidy.entries ⟨s.call s.kernel.cur, slot, req, st⟩
      (Or.inr ⟨s.kernel.cur, rfl, Or.inr place⟩)
    refine ⟨slotIn, ?_, own, ⟨congrArg Thread.stackLow (written _),
      congrArg Thread.guardPage (written _)⟩, entry, congrArg Thread.context (written _)⟩
    change Alive ((fillThread req st _ slot s.kernel.table).threads slot).state
    rw [states]
    exact alive
  refine ⟨fun j req' phase h => ?_, fun j req' slot' st' h goesOn => ?_, fun a made goesOn => ?_,
    fun a b h h' => tidy.distinct a b (using' a h) (using' b h'),
    fun a h => tidy.entries a (using' a h)⟩
  · exact tidy.places j req' phase (moveTo_spawning (p := .code) nofun h)
  · obtain ⟨alive, own⟩ := tidy.published j req' slot' st'
      (moveTo_spawning (p := .code) nofun h) goesOn
    refine ⟨?_, own⟩
    change Alive ((fillThread req st _ slot s.kernel.table).threads slot').state
    rw [states]
    exact alive
  · rcases List.mem_cons.mp made with rfl | before
    · exact filled goesOn
    · have was := tidy.inPlace a before goesOn
      by_cases taken : a.slot = slot
      · -- then it is the spawn that writes
        have own := was.own
        rw [taken] at own
        have call := unclaimed a own before
        have goesOn' : s.ended (s.call s.kernel.cur) = false := call ▸ goesOn
        rw [(tidy.published _ req slot st place goesOn').2] at own
        rw [← Option.some.inj own]
        exact filled goesOn'
      · have unchanged : (fillThread req st s.kernel.kernelSpace slot s.kernel.table).threads
            a.slot = s.kernel.table.threads a.slot := updThread_other _ _ _ _ taken
        refine ⟨was.inTable, ?_, was.own, ⟨(congrArg Thread.stackLow unchanged).trans was.stack.1,
          (congrArg Thread.guardPage unchanged).trans was.stack.2⟩, was.entry,
          (congrArg Thread.context unchanged).trans was.context⟩
        change Alive ((fillThread req st _ slot s.kernel.table).threads a.slot).state
        rw [states]
        exact was.alive

theorem Tidy.spawnStep (tidy : Tidy s) (wf : WellFormed s.kernel)
    {block : Option (Nat → Thread)} {stack : Option GuardedStack} {phase : SpawnPhase}
    (place : s.kernel.place s.kernel.cur = .spawning req phase)
    (fresh : FreshStack s (.spawnStep block stack))
    (ok : Undisturbed s (.spawnStep block stack)) :
    Tidy { s.spawning req stack phase with
      kernel := Sched.spawnStep req block stack s.kernel phase } := by
  simp only [Undisturbed, Spawns.cur, place] at ok
  have slotIn := (tidy.places _ _ _ place).2
  cases phase with
  | scan i =>
    simp only [Spawns.spawning, Sched.spawnStep]
    split
    · next inTable =>
      split
      · refine tidy.moveTo wf rfl fun req' phase same => ?_
        obtain ⟨rfl, rfl⟩ := Place.spawning.inj same
        exact inTable
      · refine tidy.moveTo wf rfl fun req' phase same => ?_
        obtain ⟨rfl, rfl⟩ := Place.spawning.inj same
        trivial
    · refine tidy.moveTo wf rfl fun req' phase same => ?_
      obtain ⟨rfl, rfl⟩ := Place.spawning.inj same
      have positive : 0 < s.kernel.table.threadCapacity := Nat.zero_lt_of_lt wf.current
      rw [SlotIn, grownCapacity, if_neg (Nat.ne_of_gt positive)]
      omega
  | grow previous newCapacity =>
    cases block with
    | none => exact tidy.moveTo wf rfl fun _ _ same => by cases same
    | some b =>
      have grown : WellFormed { s.kernel with
          table := installTable b newCapacity s.kernel.table } := by
        refine ⟨Nat.lt_of_lt_of_le wf.current ok, ?_, wf.spawns⟩
        change ((installTable b newCapacity s.kernel.table).threads s.kernel.cur).state ≠ _
        rw [installTable_copied b newCapacity _ _ wf.current]
        exact wf.inUse
      refine (tidy.installed b ok).moveTo grown (p := .spawning req (.stack previous)) rfl
        fun req' phase same => ?_
      obtain ⟨rfl, rfl⟩ := Place.spawning.inj same
      exact slotIn
  | stack slot =>
    cases stack with
    | none => exact tidy.moveTo wf rfl fun _ _ same => by cases same
    | some st => exact tidy.stacked wf place fresh
  | publish slot st => exact tidy.publish wf place ok block stack
  | fill slot st => exact tidy.fill place ok

end MiniKernel.Sched
