import MiniKernel.Sched.Zombie

/-!
# What a scheduling decision leaves alone

Source: kernel/sched/thread.c. Ticks, yields, wakeups and the ends of
`sched_sleep` and `sched_exit_status` choose a thread and wake sleepers. They
change no descriptor, put no thread to sleep and bring none to life.
-/
namespace MiniKernel.Proc
open Memory.Paging (Word)
open Sched

/-- The thread in this place has left its code for good. -/
def Final (p : Place) : Prop := p = .halt ∨ p = .gone

structure Reschedules (k k' : Kernel) : Prop where
  capacity : k'.table.threadCapacity = k.table.threadCapacity
  fds : ∀ i, (k'.table.threads i).fds = (k.table.threads i).fds
  /-- A slot keeps its state, or its thread may run now; of the zombies only the
  running one may. -/
  state : ∀ i,
    (k'.stateOf i = k.stateOf i ∧
      (k'.table.threads i).waitChannel = (k.table.threads i).waitChannel) ∨
    (Runnable (k'.table.threads i) ∧ k.stateOf i ≠ .unused ∧
      (k.stateOf i = .zombie → i = k.cur))
  place : ∀ i, Final (k'.place i) ↔ Final (k.place i)
  next : k'.cur = k.cur ∨ (k.stateOf k'.cur ≠ .unused ∧ k.stateOf k'.cur ≠ .zombie)

variable {k k' : Kernel}

theorem Reschedules.refl (k : Kernel) : Reschedules k k :=
  ⟨rfl, fun _ => rfl, fun _ => Or.inl ⟨rfl, rfl⟩, fun _ => Iff.rfl, Or.inl rfl⟩

theorem Reschedules.unused (moved : Reschedules k k') (i : Nat) :
    k'.stateOf i = .unused ↔ k.stateOf i = .unused := by
  rcases moved.state i with ⟨same, _⟩ | ⟨runnable, used, _⟩
  · rw [same]
  · constructor
    · intro unused
      exact absurd (Or.inr unused) (not_dead_of_runnable runnable)
    · exact fun unused => absurd unused used

/-- Nobody falls asleep. -/
theorem Reschedules.blocked (moved : Reschedules k k') {i : Nat} (h : k'.stateOf i = .blocked) :
    k.stateOf i = .blocked ∧
      (k'.table.threads i).waitChannel = (k.table.threads i).waitChannel := by
  rcases moved.state i with ⟨same, channel⟩ | ⟨runnable, _, _⟩
  · exact ⟨same.symm.trans h, channel⟩
  · change (k'.table.threads i).state = _ at h
    rw [Runnable, h] at runnable
    simp at runnable

/-- A zombie that does not run stays one and does not get to run. -/
theorem Reschedules.zombie (moved : Reschedules k k') {i : Nat} (other : i ≠ k.cur)
    (h : k.stateOf i = .zombie) : k'.stateOf i = .zombie ∧ i ≠ k'.cur := by
  constructor
  · rcases moved.state i with ⟨same, _⟩ | ⟨_, _, running⟩
    · exact same.trans h
    · exact absurd (running h) other
  · intro same
    rcases moved.next with stays | ⟨_, alive⟩
    · exact other (same.trans stays)
    · exact alive (same ▸ h)

theorem Reschedules.trans {k'' : Kernel} (first : Reschedules k k') (second : Reschedules k' k'')
    (stays : k'.cur = k.cur) : Reschedules k k'' := by
  constructor
  · rw [second.capacity, first.capacity]
  · exact fun i => (second.fds i).trans (first.fds i)
  · intro i
    rcases second.state i with ⟨same, channel⟩ | ⟨runnable, used, zombie⟩
    · rcases first.state i with ⟨same', channel'⟩ | ⟨runnable', used', zombie'⟩
      · exact Or.inl ⟨same.trans same', channel.trans channel'⟩
      · refine Or.inr ⟨?_, used', zombie'⟩
        rw [Runnable, show (k''.table.threads i).state = (k'.table.threads i).state from same]
        exact runnable'
    · rw [ne_eq, first.unused] at used
      refine Or.inr ⟨runnable, used, fun was => ?_⟩
      by_contra other
      have still := first.zombie other was
      exact still.2 (zombie still.1)
  · exact fun i => (second.place i).trans (first.place i)
  · rcases second.next with same | ⟨used, alive⟩
    · exact Or.inl (same.trans stays)
    · cases Decidable.em (k''.cur = k.cur) with
      | inl same => exact Or.inl same
      | inr other =>
        rw [ne_eq, first.unused] at used
        exact Or.inr ⟨used, fun was => alive (first.zombie other was).1⟩

/-! ## The operations -/

/-- One slot changes its state: what it has to be for a scheduling decision. -/
theorem reschedules_of_slot (tid : Nat) (t : Thread)
    (threads : k'.table.threads = (updThread k.table tid t).threads)
    (capacity : k'.table.threadCapacity = k.table.threadCapacity)
    (fds : t.fds = (k.table.threads tid).fds)
    (state : (t.state = k.stateOf tid ∧ t.waitChannel = (k.table.threads tid).waitChannel) ∨
      (Runnable t ∧ k.stateOf tid ≠ .unused ∧ (k.stateOf tid = .zombie → tid = k.cur)))
    (place : ∀ i, Final (k'.place i) ↔ Final (k.place i))
    (next : k'.cur = k.cur ∨ (k.stateOf k'.cur ≠ .unused ∧ k.stateOf k'.cur ≠ .zombie)) :
    Reschedules k k' := by
  have self : k'.table.threads tid = t := by rw [threads, updThread_same]
  have others (i : Nat) (other : i ≠ tid) : k'.table.threads i = k.table.threads i := by
    rw [threads, updThread_other _ _ _ _ other]
  refine ⟨capacity, fun i => ?_, fun i => ?_, place, next⟩
  · cases Decidable.em (i = tid) with
    | inl same => rw [same, self, fds]
    | inr other => rw [others i other]
  · cases Decidable.em (i = tid) with
    | inl same =>
      rw [same, Kernel.stateOf, self]
      exact state
    | inr other =>
      rw [Kernel.stateOf, others i other]
      exact Or.inl ⟨rfl, rfl⟩

theorem wakeup_reschedules (k : Kernel) (channel : Word) :
    Reschedules k { k with table := schedWakeup k.table channel } := by
  have slot (i : Nat) : (schedWakeup k.table channel).threads i = k.table.threads i ∨
      (k.stateOf i = .blocked ∧ (schedWakeup k.table channel).threads i =
        { k.table.threads i with state := .ready, waitChannel := 0 }) := by
    simp only [schedWakeup]
    split
    · next woken => exact Or.inr ⟨woken.2.1, rfl⟩
    · exact Or.inl rfl
  refine ⟨rfl, fun i => ?_, fun i => ?_, fun _ => Iff.rfl, Or.inl rfl⟩
  · change ((schedWakeup k.table channel).threads i).fds = _
    rcases slot i with same | ⟨_, woken⟩
    · rw [same]
    · rw [woken]
  · change (((schedWakeup k.table channel).threads i).state = _ ∧ _) ∨
      Runnable ((schedWakeup k.table channel).threads i) ∧ _
    rcases slot i with same | ⟨blocked, woken⟩
    · exact Or.inl ⟨congrArg Thread.state same, congrArg Thread.waitChannel same⟩
    · rw [woken, blocked]
      refine Or.inr ⟨Or.inl rfl, ?_, fun zombie => ?_⟩
      · intro unused
        cases unused
      · cases zombie

/-- A wakeup leaves nobody asleep on its channel. -/
theorem schedWakeup_wakes (s : ThreadTable) (channel : Word) (i : Nat) (hi : i < s.threadCapacity)
    (asleep : ((schedWakeup s channel).threads i).state = .blocked) :
    ((schedWakeup s channel).threads i).waitChannel ≠ channel := by
  simp only [schedWakeup] at asleep ⊢
  split
  · next woken =>
    rw [if_pos woken] at asleep
    cases asleep
  · next kept =>
    rw [if_neg kept] at asleep
    exact fun same => kept ⟨hi, asleep, same⟩

/-- What a switch to a runnable thread asks of it. -/
theorem alive_of_runnable {thread : Thread} (h : Runnable thread) :
    thread.state ≠ .unused ∧ thread.state ≠ .zombie :=
  ⟨fun unused => not_dead_of_runnable h (Or.inr unused),
    fun zombie => not_dead_of_runnable h (Or.inl zombie)⟩

theorem dispatchFresh_reschedules (k : Kernel) (next : Nat) (saved : Nat → Bool) (on : Bool)
    (runnable : Runnable (k.table.threads next)) :
    Reschedules k
      { k with table := dispatchFresh k.table next, savedIf := saved, interrupts := on } := by
  have alive := alive_of_runnable runnable
  exact reschedules_of_slot next _ rfl rfl rfl
    (Or.inr ⟨Or.inr rfl, alive.1, fun h => absurd h alive.2⟩) (fun _ => Iff.rfl) (Or.inr alive)

/-- `sched_yield` makes the thread it takes the CPU from READY, a zombie as well. -/
theorem yield_reschedules (wf : WellFormed k) (resumeIf : Bool) :
    Reschedules k (schedYield resumeIf k) := by
  rcases schedYield_cases resumeIf k wf.current with ⟨_, stays⟩ | ⟨next, _, other, runnable, moves⟩
  · rw [stays]
    exact Reschedules.refl k
  · rw [moves]
    have ready : Reschedules k { k with table := setState k.table k.cur .ready } :=
      reschedules_of_slot k.cur _ rfl rfl rfl (Or.inr ⟨Or.inl rfl, wf.inUse, fun _ => rfl⟩)
        (fun _ => Iff.rfl) (Or.inl rfl)
    have still : Runnable ((setState k.table k.cur .ready).threads next) := by
      rw [setState, updThread_other _ _ _ _ other]
      exact runnable
    exact ready.trans (dispatchFresh_reschedules _ next _ _ still) rfl

theorem tick_reschedules (wf : WellFormed k) : Reschedules k (schedTick k) := by
  have counts : Reschedules k (countTick k) :=
    reschedules_of_slot k.cur _ rfl rfl rfl (Or.inl ⟨rfl, rfl⟩) (fun _ => Iff.rfl) (Or.inl rfl)
  rcases schedTick_cases k with ⟨_, same⟩ | ⟨_, yields⟩
  · rw [same]
    exact counts
  · rw [yields]
    exact counts.trans (yield_reschedules wf.countTick true) rfl

/-- The running thread marked as asleep on the channel. -/
def fallAsleep (channel : Word) (k : Kernel) : Kernel :=
  { k with
    table := updThread k.table k.cur
      { k.table.threads k.cur with waitChannel := channel, state := .blocked } }

theorem sleep_reschedules (wf : WellFormed k) (channel : Word) (inCode : k.place k.cur = .code) :
    Reschedules (fallAsleep channel k) (schedSleep channel k) := by
  rcases schedSleep_cases channel k wf.current with idles | ⟨next, _, other, runnable, moves⟩
  · rw [idles]
    refine ⟨rfl, fun _ => rfl, fun _ => Or.inl ⟨rfl, rfl⟩, fun i => ?_, Or.inl rfl⟩
    change Final ((k.moveTo _).place i) ↔ Final (k.place i)
    cases Decidable.em (i = k.cur) with
    | inl same =>
      rw [same, moveTo_self, inCode]
      simp [Final]
    | inr elsewhere => rw [moveTo_other _ _ _ elsewhere]
  · rw [moves]
    have still : Runnable ((fallAsleep channel k).table.threads next) := by
      rw [fallAsleep, updThread_other _ _ _ _ other]
      exact runnable
    exact dispatchFresh_reschedules _ next _ _ still

/-- The running thread marked as dead, in its last code. -/
def dying (k : Kernel) : Kernel :=
  { k.moveTo .gone with table := setState k.table k.cur .zombie }

theorem markExited_reschedules (k : Kernel) (pid : Option Word) :
    Reschedules k { k with table := markExited k.table pid } := by
  cases pid with
  | none => exact Reschedules.refl k
  | some pid => exact wakeup_reschedules k pid

/-- The kernel once the running thread is dead and the waiters of its process
are woken. -/
def dead (pid : Option Word) (k : Kernel) : Kernel :=
  { k.moveTo .gone with table := markExited (setState k.table k.cur .zombie) pid }

theorem dead_reschedules (pid : Option Word) (k : Kernel) : Reschedules (dying k) (dead pid k) :=
  markExited_reschedules (dying k) pid

theorem dead_cur (pid : Option Word) (k : Kernel) : (dead pid k).cur = k.cur :=
  markExited_current _ pid

theorem exit_reschedules (wf : WellFormed k) (pid : Option Word) :
    Reschedules (dead pid k) (schedExitStatus pid k) := by
  have woken : Reschedules (dead pid k) { dead pid k with table := exitTable pid k } :=
    wakeup_reschedules (dead pid k) (tidChannel k.cur)
  have stays : ({ dead pid k with table := exitTable pid k } : Kernel).cur = (dead pid k).cur := rfl
  rcases schedExitStatus_cases pid k wf.current with ⟨_, halts⟩ | ⟨next, _, _, runnable, moves⟩
  · rw [halts]
    refine ⟨woken.capacity, woken.fds, woken.state, fun i => ?_, Or.inl stays⟩
    change Final ((k.moveTo .halt).place i) ↔ Final ((k.moveTo .gone).place i)
    cases Decidable.em (i = k.cur) with
    | inl same =>
      rw [same, moveTo_self, moveTo_self]
      simp [Final]
    | inr elsewhere => rw [moveTo_other _ _ _ elsewhere, moveTo_other _ _ _ elsewhere]
  · rw [moves]
    have alive := alive_of_runnable runnable
    exact woken.trans (reschedules_of_slot next _ rfl rfl rfl
      (Or.inr ⟨Or.inr rfl, alive.1, fun h => absurd h alive.2⟩) (fun _ => Iff.rfl)
      (Or.inr alive)) stays

theorem leaveIdle_reschedules (wf : WellFormed k) (flags : Bool)
    (idles : k.place k.cur = .idle flags) : Reschedules k (leaveIdle flags k) := by
  refine reschedules_of_slot k.cur _ rfl rfl rfl (Or.inr ⟨Or.inr rfl, wf.inUse, fun _ => rfl⟩)
    (fun i => ?_) (Or.inl rfl)
  change Final ((k.moveTo .code).place i) ↔ _
  cases Decidable.em (i = k.cur) with
  | inl same =>
    rw [same, moveTo_self, idles]
    simp [Final]
  | inr other => rw [moveTo_other _ _ _ other]

end MiniKernel.Proc
