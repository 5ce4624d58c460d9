import MiniKernel.Proc.Reschedule

/-!
# Who is asleep after a step

Source: kernel/sched/thread.c:353-399 (`sched_sleep`, `sched_wakeup`), 479-533
(`sched_exit_status`, `sched_kill`). Only `sched_sleep` puts a thread to sleep,
and no other operation changes the channel of one that sleeps on.
-/
namespace MiniKernel.Sched
open Memory.Paging (Word)
open Proc (Reschedules fallAsleep)

variable {k t : Kernel} {e : Event} {i : Nat}

theorem schedExitStatus_blocked (wf : WellFormed k) (pid : Option Word)
    (blocked : (schedExitStatus pid k).stateOf i = .blocked) :
    ((exitTable pid k).threads i).state = .blocked ∧
      ((schedExitStatus pid k).table.threads i).waitChannel =
        ((exitTable pid k).threads i).waitChannel := by
  rcases schedExitStatus_cases pid k wf.current with ⟨_, halts⟩ | ⟨next, _, _, _, switches⟩
  · rw [halts] at blocked ⊢
    exact ⟨blocked, rfl⟩
  · rw [switches] at blocked ⊢
    have state := dispatch_state (exitTable pid k) next i
    change ((dispatch (exitTable pid k) next).threads i).state = _ at blocked
    rw [blocked] at state
    split at state
    · cases state
    · next other =>
      refine ⟨state.symm, ?_⟩
      change ((updThread (exitTable pid k) next _).threads i).waitChannel = _
      rw [updThread_other _ _ _ _ other]

/-- An exit leaves nobody asleep on the slot number of the dying thread. -/
theorem exit_wakes (wf : WellFormed k) (pid : Option Word) (hi : i < k.table.threadCapacity)
    (blocked : (schedExitStatus pid k).stateOf i = .blocked) :
    ((schedExitStatus pid k).table.threads i).waitChannel ≠ tidChannel k.cur := by
  obtain ⟨asleep, channel⟩ := schedExitStatus_blocked wf pid blocked
  rw [channel]
  exact Proc.schedWakeup_wakes _ _ i (by simpa [setState] using hi) asleep

theorem exit_blocked (wf : WellFormed k) (pid : Option Word)
    (blocked : (schedExitStatus pid k).stateOf i = .blocked) :
    k.stateOf i = .blocked ∧
      ((schedExitStatus pid k).table.threads i).waitChannel =
        (k.table.threads i).waitChannel := by
  obtain ⟨was, channel⟩ := (Proc.exit_reschedules wf pid).blocked blocked
  obtain ⟨was', channel'⟩ := (Proc.dead_reschedules pid k).blocked was
  have other : i ≠ k.cur := by
    intro same
    change ((setState k.table k.cur .zombie).threads i).state = _ at was'
    rw [setState_state, if_pos same] at was'
    cases was'
  have same : (Proc.dying k).table.threads i = k.table.threads i :=
    updThread_other _ _ _ _ other
  rw [Kernel.stateOf, same] at was'
  rw [same] at channel'
  exact ⟨was', channel.trans channel'⟩

/-- The slot was asleep before the step, on the same channel. -/
def WasBlocked (k t : Kernel) (i : Nat) : Prop :=
  i < k.table.threadCapacity ∧ k.stateOf i = .blocked ∧
    (t.table.threads i).waitChannel = (k.table.threads i).waitChannel

theorem wasBlocked_of_reschedules (moved : Reschedules k t) (hi : i < t.table.threadCapacity)
    (blocked : t.stateOf i = .blocked) : WasBlocked k t i :=
  ⟨moved.capacity ▸ hi, moved.blocked blocked⟩

/-- A write that puts no thread to sleep. -/
theorem updThread_blocked (s : ThreadTable) (tid : Nat) (thread : Thread)
    (awake : thread.state ≠ .blocked)
    (blocked : ((updThread s tid thread).threads i).state = .blocked) :
    (s.threads i).state = .blocked ∧
      ((updThread s tid thread).threads i).waitChannel = (s.threads i).waitChannel := by
  cases Decidable.em (i = tid) with
  | inl same =>
    rw [same, updThread_same] at blocked
    exact absurd blocked awake
  | inr other =>
    rw [updThread_other _ _ _ _ other] at blocked ⊢
    exact ⟨blocked, rfl⟩

theorem schedKill_blocked (wf : WellFormed k) (tid : Nat) (pid : Option Word)
    (hi : i < k.table.threadCapacity) :
    (schedKill tid pid k).stateOf i = .blocked → WasBlocked k (schedKill tid pid k) i := by
  unfold schedKill
  split
  · exact fun blocked => ⟨hi, blocked, rfl⟩
  · split
    · exact fun blocked => ⟨hi, exit_blocked wf pid blocked⟩
    · split
      · exact fun blocked => ⟨hi, blocked, rfl⟩
      · exact fun blocked => ⟨hi, updThread_blocked k.table tid _ nofun blocked⟩

theorem reapZombie_blocked (tid : Nat) (hi : i < k.table.threadCapacity) :
    ((reapZombie k.table tid).threads i).state = .blocked →
      WasBlocked k { k with table := reapZombie k.table tid } i := by
  unfold reapZombie
  split
  · exact fun blocked => ⟨hi, updThread_blocked k.table tid _ nofun blocked⟩
  · exact fun blocked => ⟨hi, blocked, rfl⟩

theorem spawnStep_blocked (req : SpawnRequest) (block : Option (Nat → Thread))
    (stack : Option GuardedStack) (phase : SpawnPhase)
    (hi : i < (spawnStep req block stack k phase).table.threadCapacity)
    (blocked : (spawnStep req block stack k phase).stateOf i = .blocked) :
    WasBlocked k (spawnStep req block stack k phase) i := by
  cases phase with
  | scan j =>
    have same : (spawnStep req block stack k (.scan j)).table = k.table := by
      simp only [spawnStep]
      split
      · split <;> rfl
      · rfl
    rw [WasBlocked, same]
    rw [same] at hi
    rw [Kernel.stateOf, same] at blocked
    exact ⟨hi, blocked, rfl⟩
  | grow previous newCapacity =>
    cases block with
    | none => exact ⟨hi, blocked, rfl⟩
    | some b =>
      change i < newCapacity at hi
      change ((installTable b newCapacity k.table).threads i).state = _ at blocked
      cases Nat.lt_or_ge i k.table.threadCapacity with
      | inl old =>
        have copied := installTable_copied b newCapacity k.table i old
        rw [copied] at blocked
        refine ⟨old, blocked, ?_⟩
        change ((installTable b newCapacity k.table).threads i).waitChannel = _
        rw [copied]
      | inr fresh =>
        simp [installTable, Nat.not_lt.mpr fresh, hi, initThreadSlot] at blocked
  | stack slot => cases stack <;> exact ⟨hi, blocked, rfl⟩
  | publish slot st =>
    exact ⟨hi, updThread_blocked k.table slot _ (fun same => by cases same) blocked⟩
  | fill slot st =>
    have same : ((fillThread req st k.kernelSpace slot k.table).threads i).waitChannel =
        (k.table.threads i).waitChannel := by
      unfold fillThread
      cases Decidable.em (i = slot) with
      | inl same => rw [same, updThread_same]
      | inr other => rw [updThread_other _ _ _ _ other]
    change ((fillThread req st k.kernelSpace slot k.table).threads i).state = _ at blocked
    rw [fillThread_state] at blocked
    exact ⟨hi, blocked, same⟩

/-- A thread asleep after a step was asleep before it, on the same channel, or
is the one that has just gone to sleep. -/
theorem step_blocked (wf : WellFormed k) (h : step k e = some t)
    (hi : i < t.table.threadCapacity) (blocked : t.stateOf i = .blocked) :
    (∃ channel, e = .sleep channel ∧ i = k.cur) ∨ WasBlocked k t i := by
  cases e with
  | timer =>
    obtain ⟨_, rfl⟩ := interrupt_eq_some.mp h
    exact Or.inr (wasBlocked_of_reschedules (Proc.tick_reschedules wf) hi blocked)
  | keyboard channel =>
    obtain ⟨_, rfl⟩ := interrupt_eq_some.mp h
    exact Or.inr (wasBlocked_of_reschedules (Proc.wakeup_reschedules k channel) hi blocked)
  | setIf on =>
    obtain ⟨_, rfl⟩ := call_eq_some.mp h
    exact Or.inr ⟨hi, blocked, rfl⟩
  | yield =>
    obtain ⟨_, rfl⟩ := call_eq_some.mp h
    exact Or.inr (wasBlocked_of_reschedules (Proc.yield_reschedules wf _) hi blocked)
  | sleep channel =>
    obtain ⟨inCode, rfl⟩ := call_eq_some.mp h
    have moved := Proc.sleep_reschedules wf channel inCode
    obtain ⟨was, same⟩ := moved.blocked blocked
    cases Decidable.em (i = k.cur) with
    | inl self => exact Or.inl ⟨channel, rfl, self⟩
    | inr other =>
      have kept : (fallAsleep channel k).table.threads i = k.table.threads i :=
        updThread_other _ _ _ _ other
      rw [Kernel.stateOf, kept] at was
      rw [kept] at same
      exact Or.inr ⟨moved.capacity ▸ hi, was, same⟩
  | wakeup channel =>
    obtain ⟨_, rfl⟩ := call_eq_some.mp h
    exact Or.inr (wasBlocked_of_reschedules (Proc.wakeup_reschedules k channel) hi blocked)
  | exit pid =>
    obtain ⟨_, rfl⟩ := call_eq_some.mp h
    rw [schedExitStatus_capacity] at hi
    exact Or.inr ⟨hi, exit_blocked wf pid blocked⟩
  | kill tid pid =>
    obtain ⟨_, rfl⟩ := call_eq_some.mp h
    rw [schedKill_capacity] at hi
    exact Or.inr (schedKill_blocked wf tid pid hi blocked)
  | reap tid =>
    obtain ⟨_, rfl⟩ := call_eq_some.mp h
    change i < (reapZombie k.table tid).threadCapacity at hi
    rw [reapZombie_capacity] at hi
    exact Or.inr (reapZombie_blocked tid hi blocked)
  | spawn req =>
    obtain ⟨_, rfl⟩ := call_eq_some.mp h
    exact Or.inr ⟨hi, blocked, rfl⟩
  | spawnStep block stack =>
    obtain ⟨req, phase, _, rfl⟩ := spawnStep_eq_some.mp h
    exact Or.inr (spawnStep_blocked req block stack phase hi blocked)
  | idleCheck =>
    obtain ⟨flags, idles, _, rfl⟩ := idleCheck_eq_some.mp h
    exact Or.inr (wasBlocked_of_reschedules (Proc.leaveIdle_reschedules wf flags idles) hi blocked)

end MiniKernel.Sched
