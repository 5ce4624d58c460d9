import MiniKernel.Sched.Turns

/-!
# Quanta

Source: kernel/sched/thread.c:22-26 (`quantum_ticks`), 318-385 (`sched_yield`,
`sched_tick`, `sched_sleep`) and 479-506 (`sched_exit_status`).
`ticks_remaining` is counted down by `sched_tick` alone and filled up again by
two of the three paths that hand over the CPU: a thread that gets it from an
exiting one goes on with what it had left. The counter has no lower limit while
nobody else can run.
-/
namespace MiniKernel.Sched
open Memory.Paging (Word)
open Lib.Machine (run Meets)

variable {k t : Kernel} {e : Event} {n : Nat}

/-- The ticks of the thread that runs after a step, when the one that ran
before it had `n`. -/
def ticksAfter (n : Nat) (k : Kernel) (e : Event) (t : Kernel) : Nat :=
  if t.cur = k.cur then
    match e with
    | .timer => n + 1
    | _ => n
  else 0

/-- The timer ticks since the running thread was switched in, `n` of them
before the run. -/
def ticksSince : Nat → Kernel → List Event → Nat
  | n, _, [] => n
  | n, k, e :: es =>
    match step k e with
    | none => n
    | some t => ticksSince (ticksAfter n k e t) t es

def FullQuantum (t : Thread) : Prop := t.ticksRemaining = quantumTicks t.priority

instance (t : Thread) : Decidable (FullQuantum t) := inferInstanceAs (Decidable (_ = _))

/-- The thread can run once the exit of the running one has woken its waiters. -/
def Awake (k : Kernel) (pid : Option Word) (i : Nat) : Prop :=
  Runnable (k.table.threads i) ∨
    (k.stateOf i = .blocked ∧ ((k.table.threads i).waitChannel = tidChannel k.cur ∨
      pid = some (k.table.threads i).waitChannel))

instance (k : Kernel) (pid : Option Word) (i : Nat) : Decidable (Awake k pid i) :=
  inferInstanceAs (Decidable (_ ∨ _ ∧ (_ ∨ _)))

instance (start last j : Nat) : Decidable (Upto start last j) := by
  unfold Upto
  infer_instance

/-- Slot `i` is the first behind the running thread's that can run. -/
def TakesOver (k : Kernel) (pid : Option Word) (i : Nat) : Prop :=
  i ≠ k.cur ∧ Awake k pid i ∧
    ∀ j < k.table.threadCapacity, j ≠ k.cur → Upto k.cur i j → j ≠ i → ¬ Awake k pid j

instance (k : Kernel) (pid : Option Word) (i : Nat) : Decidable (TakesOver k pid i) :=
  inferInstanceAs (Decidable (_ ∧ _ ∧ ∀ j < _, _ → _ → _ → _))

/-- Whoever takes over from the exiting thread has its quantum untouched. -/
def HandsOverFull (k : Kernel) (pid : Option Word) : Prop :=
  ∀ i < k.table.threadCapacity, TakesOver k pid i → FullQuantum (k.table.threads i)

instance (k : Kernel) (pid : Option Word) : Decidable (HandsOverFull k pid) :=
  inferInstanceAs (Decidable (∀ i < _, _ → _))

/-- No exit hands over a used quantum, and no tick finds the counter at the
lowest int. -/
def Refilled (k : Kernel) : Event → Prop
  | .timer => -2 ^ 31 < (k.table.threads k.cur).ticksRemaining
  | .exit pid => HandsOverFull k pid
  | .kill tid pid => tid = k.cur → HandsOverFull k pid
  | _ => True

instance (k : Kernel) (e : Event) : Decidable (Refilled k e) := by
  induction e using Event.casesOn <;> (dsimp only [Refilled]; infer_instance)

/-- What a step does with quanta, `n` ticks after the running thread was
switched in. -/
structure KeepsQuanta (n : Nat) (k : Kernel) (e : Event) (t : Kernel) : Prop where
  full : t.cur ≠ k.cur → FullQuantum (t.table.threads t.cur)
  preempted : e = .timer → t.cur ≠ k.cur →
    quantumTicks (k.table.threads k.cur).priority ≤ n + 1
  counter : -2 ^ 31 ≤ (t.table.threads t.cur).ticksRemaining ∧
    (t.table.threads t.cur).ticksRemaining < 2 ^ 31

/-- The counter and the ticks since the switch make up the quantum. -/
structure Counted (n : Nat) (k : Kernel) : Prop where
  wellFormed : WellFormed k
  sum : (k.table.threads k.cur).ticksRemaining + n =
    quantumTicks (k.table.threads k.cur).priority
  low : -2 ^ 31 ≤ (k.table.threads k.cur).ticksRemaining

theorem quantumTicks_range (p : ThreadPriority) : 0 < quantumTicks p ∧ quantumTicks p ≤ 8 := by
  cases p <;> decide

theorem Counted.range (counted : Counted n k) :
    -2 ^ 31 ≤ (k.table.threads k.cur).ticksRemaining ∧
      (k.table.threads k.cur).ticksRemaining < 2 ^ 31 := by
  have quantum := quantumTicks_range (k.table.threads k.cur).priority
  have sum := counted.sum
  exact ⟨counted.low, by omega⟩

theorem Counted.fresh (wf : WellFormed k) (full : FullQuantum (k.table.threads k.cur)) :
    Counted 0 k := by
  have quantum := quantumTicks_range (k.table.threads k.cur).priority
  unfold FullQuantum at full
  exact ⟨wf, by omega, by omega⟩

theorem countTick_self (k : Kernel) :
    ((countTick k).table.threads k.cur).ticksRemaining =
      (k.table.threads k.cur).ticksRemaining - 1 := by
  change ((updThread k.table k.cur _).threads k.cur).ticksRemaining = _
  rw [updThread_same]

/-! ## The running thread goes on -/

/-- A slot's counter and priority are what they were. -/
def SameQuantum (u v : Thread) : Prop :=
  u.ticksRemaining = v.ticksRemaining ∧ u.priority = v.priority

theorem SameQuantum.trans {u v w : Thread} (first : SameQuantum u v) (second : SameQuantum v w) :
    SameQuantum u w := ⟨first.1.trans second.1, first.2.trans second.2⟩

theorem schedWakeup_quantum (s : ThreadTable) (channel : Word) (i : Nat) :
    SameQuantum ((schedWakeup s channel).threads i) (s.threads i) := by
  simp only [schedWakeup]
  split <;> exact ⟨rfl, rfl⟩

theorem markExited_quantum (s : ThreadTable) (pid : Option Word) (i : Nat) :
    SameQuantum ((markExited s pid).threads i) (s.threads i) := by
  cases pid with
  | none => exact ⟨rfl, rfl⟩
  | some pid => exact schedWakeup_quantum s pid i

/-- A write that leaves the counter of its slot alone. -/
theorem updThread_quantum (s : ThreadTable) (tid i : Nat) (thread : Thread)
    (same : SameQuantum thread (s.threads tid)) :
    SameQuantum ((updThread s tid thread).threads i) (s.threads i) := by
  cases Decidable.em (i = tid) with
  | inl written =>
    rw [written, updThread_same]
    exact same
  | inr other =>
    rw [updThread_other _ _ _ _ other]
    exact ⟨rfl, rfl⟩

theorem exitTable_quantum (pid : Option Word) (k : Kernel) (i : Nat) :
    SameQuantum ((exitTable pid k).threads i) (k.table.threads i) := by
  have zombie := updThread_quantum k.table k.cur i
    { k.table.threads k.cur with state := .zombie } ⟨rfl, rfl⟩
  have marked := markExited_quantum (setState k.table k.cur .zombie) pid i
  exact (schedWakeup_quantum _ _ i).trans (marked.trans zombie)

theorem reapZombie_quantum (s : ThreadTable) (tid i : Nat) :
    SameQuantum ((reapZombie s tid).threads i) (s.threads i) := by
  unfold reapZombie
  split
  · exact updThread_quantum s tid i _ ⟨rfl, rfl⟩
  · exact ⟨rfl, rfl⟩

theorem spawnStep_quantum (wf : WellFormed k) (req : SpawnRequest)
    (block : Option (Nat → Thread)) (stack : Option GuardedStack) (phase : SpawnPhase)
    (ok : PhaseOk k.cur phase) :
    SameQuantum ((spawnStep req block stack k phase).table.threads k.cur)
      (k.table.threads k.cur) := by
  cases phase with
  | scan i =>
    simp only [spawnStep]
    split
    · split <;> exact ⟨rfl, rfl⟩
    · exact ⟨rfl, rfl⟩
  | grow previous newCapacity =>
    cases block with
    | none => exact ⟨rfl, rfl⟩
    | some b =>
      change SameQuantum ((installTable b newCapacity k.table).threads k.cur) _
      rw [installTable_copied b newCapacity k.table k.cur wf.current]
      exact ⟨rfl, rfl⟩
  | stack slot => cases stack <;> exact ⟨rfl, rfl⟩
  | publish slot st => exact updThread_quantum k.table slot k.cur _ ⟨rfl, rfl⟩
  | fill slot st =>
    change SameQuantum ((fillThread req st k.kernelSpace slot k.table).threads k.cur) _
    rw [fillThread, updThread_other _ _ _ _ (Ne.symm ok)]
    exact ⟨rfl, rfl⟩

/-- Without a switch only a tick changes the counter, by one. -/
theorem schedTick_stays (stayed : (schedTick k).cur = k.cur) : schedTick k = countTick k := by
  rcases schedTick_cases k with ⟨_, counts⟩ | ⟨_, yields⟩
  · exact counts
  · rw [yields] at stayed ⊢
    by_cases stay : findNextRunnable (countTick k).table (countTick k).cur = (countTick k).cur
    · rw [schedYield, if_pos stay]
    · rw [schedYield, if_neg stay] at stayed
      exact absurd stayed stay

theorem schedExitStatus_stays (wf : WellFormed k) (pid : Option Word)
    (stayed : (schedExitStatus pid k).cur = k.cur) :
    SameQuantum ((schedExitStatus pid k).table.threads k.cur) (k.table.threads k.cur) := by
  rcases schedExitStatus_cases pid k wf.current with ⟨_, halts⟩ | ⟨next, _, moved, _, switches⟩
  · rw [halts]
    exact exitTable_quantum pid k k.cur
  · rw [switches] at stayed
    exact absurd stayed moved

theorem schedKill_stays (wf : WellFormed k) (tid : Nat) (pid : Option Word) :
    (schedKill tid pid k).cur = k.cur →
      SameQuantum ((schedKill tid pid k).table.threads k.cur) (k.table.threads k.cur) := by
  unfold schedKill
  split
  · exact fun _ => ⟨rfl, rfl⟩
  · split
    · exact schedExitStatus_stays wf pid
    · split
      · exact fun _ => ⟨rfl, rfl⟩
      · exact fun _ => updThread_quantum k.table tid k.cur _ ⟨rfl, rfl⟩

theorem step_stays (wf : WellFormed k) (h : step k e = some t) (stayed : t.cur = k.cur)
    (noTick : e ≠ .timer) :
    SameQuantum (t.table.threads t.cur) (k.table.threads k.cur) := by
  rw [stayed]
  cases e with
  | timer => exact absurd rfl noTick
  | keyboard channel =>
    obtain ⟨_, rfl⟩ := interrupt_eq_some.mp h
    exact schedWakeup_quantum k.table channel k.cur
  | yield =>
    obtain ⟨_, rfl⟩ := call_eq_some.mp h
    by_cases stay : findNextRunnable k.table k.cur = k.cur
    · rw [schedYield, if_pos stay]
      exact ⟨rfl, rfl⟩
    · rw [schedYield, if_neg stay] at stayed
      exact absurd stayed stay
  | sleep channel =>
    obtain ⟨_, rfl⟩ := call_eq_some.mp h
    rcases schedSleep_cases channel k wf.current with idles | ⟨next, _, moved, _, switches⟩
    · rw [idles]
      exact updThread_quantum k.table k.cur k.cur _ ⟨rfl, rfl⟩
    · rw [switches] at stayed
      exact absurd stayed moved
  | wakeup channel =>
    obtain ⟨_, rfl⟩ := call_eq_some.mp h
    exact schedWakeup_quantum k.table channel k.cur
  | exit pid =>
    obtain ⟨_, rfl⟩ := call_eq_some.mp h
    exact schedExitStatus_stays wf pid stayed
  | kill tid pid =>
    obtain ⟨_, rfl⟩ := call_eq_some.mp h
    exact schedKill_stays wf tid pid stayed
  | reap tid =>
    obtain ⟨_, rfl⟩ := call_eq_some.mp h
    exact reapZombie_quantum k.table tid k.cur
  | spawnStep block stack =>
    obtain ⟨req, phase, place, rfl⟩ := spawnStep_eq_some.mp h
    have ok := wf.spawns k.cur
    rw [place] at ok
    exact spawnStep_quantum wf req block stack phase ok
  | idleCheck =>
    obtain ⟨flags, _, _, rfl⟩ := idleCheck_eq_some.mp h
    exact updThread_quantum k.table k.cur k.cur _ ⟨rfl, rfl⟩
  | setIf on | spawn req =>
    obtain ⟨_, rfl⟩ := call_eq_some.mp h
    exact ⟨rfl, rfl⟩

/-! ## The CPU changes hands -/

theorem dispatchFresh_full (s : ThreadTable) (next : Nat) :
    FullQuantum ((dispatchFresh s next).threads next) := by
  change FullQuantum ((updThread s next _).threads next)
  rw [updThread_same]
  exact rfl

theorem dispatch_quantum (s : ThreadTable) (next : Nat) :
    SameQuantum ((dispatch s next).threads next) (s.threads next) :=
  updThread_quantum s next next _ ⟨rfl, rfl⟩

theorem schedYield_full (resumeIf : Bool) (moved : (schedYield resumeIf k).cur ≠ k.cur) :
    FullQuantum ((schedYield resumeIf k).table.threads (schedYield resumeIf k).cur) := by
  by_cases stay : findNextRunnable k.table k.cur = k.cur
  · rw [schedYield, if_pos stay] at moved
    exact absurd rfl moved
  · rw [schedYield, if_neg stay]
    exact dispatchFresh_full _ _

/-- The slots that are awake are the ones an exit finds runnable. -/
theorem exitTable_awake (pid : Option Word) (i : Nat) (other : i ≠ k.cur)
    (hi : i < k.table.threadCapacity) :
    Awake k pid i → Runnable ((exitTable pid k).threads i) := by
  rintro (runnable | ⟨blocked, waiting⟩)
  · exact exitTable_runnable pid i other runnable
  · exact Or.inl (exitTable_wakes pid i hi other blocked waiting)

theorem schedWakeup_cases (s : ThreadTable) (channel : Word) (i : Nat) :
    (schedWakeup s channel).threads i = s.threads i ∨
      ((s.threads i).state = .blocked ∧ (s.threads i).waitChannel = channel) := by
  simp only [schedWakeup]
  split
  · next woken => exact Or.inr woken.2
  · exact Or.inl rfl

theorem markExited_cases (s : ThreadTable) (pid : Option Word) (i : Nat) :
    (markExited s pid).threads i = s.threads i ∨
      ((s.threads i).state = .blocked ∧ pid = some (s.threads i).waitChannel) := by
  cases pid with
  | none => exact Or.inl rfl
  | some channel =>
    rcases schedWakeup_cases s channel i with same | ⟨blocked, waiting⟩
    · exact Or.inl same
    · exact Or.inr ⟨blocked, by rw [waiting]⟩

theorem awake_of_exitTable (pid : Option Word) (i : Nat) (other : i ≠ k.cur)
    (runnable : Runnable ((exitTable pid k).threads i)) : Awake k pid i := by
  let zombie := setState k.table k.cur .zombie
  have same : zombie.threads i = k.table.threads i := updThread_other _ _ _ _ other
  have marked := markExited_cases zombie pid i
  have woken := schedWakeup_cases (markExited zombie pid) (tidChannel k.cur) i
  rw [same] at marked
  rcases marked with unmarked | ⟨blocked, waiting⟩
  · rw [unmarked] at woken
    rcases woken with asleep | ⟨blocked, waiting⟩
    · exact Or.inl (asleep ▸ runnable)
    · exact Or.inr ⟨blocked, Or.inl waiting⟩
  · exact Or.inr ⟨blocked, Or.inr waiting⟩

/-- The exit hands over to the first slot that is awake. -/
theorem exit_takesOver (wf : WellFormed k) (pid : Option Word)
    (moved : findNextRunnable (exitTable pid k) k.cur ≠ k.cur) :
    TakesOver k pid (findNextRunnable (exitTable pid k) k.cur) := by
  have hcap := exitTable_capacity pid k
  have valid : k.cur < (exitTable pid k).threadCapacity := by rw [hcap]; exact wf.current
  have found := (findNextRunnable_spec (exitTable pid k) k.cur valid).2 moved
  refine ⟨moved, awake_of_exitTable pid _ moved found, ?_⟩
  intro j hj other passed different awake
  have upto : Upto k.cur j (findNextRunnable (exitTable pid k) k.cur) :=
    findNextRunnable_upto (exitTable pid k) k.cur valid (by rw [hcap]; exact hj)
      (fun _ => exitTable_awake pid j other hj awake)
  exact different (upto_antisymm passed upto)

theorem schedExitStatus_full (wf : WellFormed k) (pid : Option Word) (full : HandsOverFull k pid)
    (moved : (schedExitStatus pid k).cur ≠ k.cur) :
    FullQuantum ((schedExitStatus pid k).table.threads (schedExitStatus pid k).cur) := by
  by_cases stay : findNextRunnable (exitTable pid k) k.cur = k.cur
  · rw [schedExitStatus, if_pos stay] at moved
    exact absurd (exitTable_current pid k) moved
  · rw [schedExitStatus, if_neg stay]
    have hcap := exitTable_capacity pid k
    let next := findNextRunnable (exitTable pid k) k.cur
    have valid : next < (exitTable pid k).threadCapacity :=
      (findNextRunnable_spec (exitTable pid k) k.cur (by rw [hcap]; exact wf.current)).1
    have fresh := full next (by rw [← hcap]; exact valid) (exit_takesOver wf pid stay)
    have same := (dispatch_quantum (exitTable pid k) next).trans (exitTable_quantum pid k next)
    change ((dispatch (exitTable pid k) next).threads next).ticksRemaining =
      quantumTicks ((dispatch (exitTable pid k) next).threads next).priority
    rw [same.1, same.2]
    exact fresh

theorem step_full (wf : WellFormed k) (h : step k e = some t) (ok : Refilled k e)
    (moved : t.cur ≠ k.cur) : FullQuantum (t.table.threads t.cur) := by
  rcases step_switching h moved with
    ⟨rfl, rfl⟩ | ⟨rfl, rfl⟩ | ⟨channel, rfl, rfl⟩ | ⟨pid, dies, rfl⟩
  · rcases schedTick_cases k with ⟨_, counts⟩ | ⟨_, yields⟩
    · rw [counts] at moved
      exact absurd rfl moved
    · rw [yields] at moved ⊢
      exact schedYield_full true moved
  · exact schedYield_full _ moved
  · rcases schedSleep_cases channel k wf.current with idles | ⟨next, _, _, _, switches⟩
    · rw [idles] at moved
      exact absurd rfl moved
    · rw [switches]
      exact dispatchFresh_full _ _
  · have full : HandsOverFull k pid := by
      rcases dies with rfl | rfl
      · exact ok
      · exact ok rfl
    exact schedExitStatus_full wf pid full moved

/-! ## Steps and runs -/

/-- A tick that takes the CPU away finds the quantum used up. -/
theorem tick_preempts (counted : Counted n k) (moved : (schedTick k).cur ≠ k.cur) :
    quantumTicks (k.table.threads k.cur).priority ≤ n + 1 := by
  have sum := counted.sum
  rcases schedTick_cases k with ⟨_, counts⟩ | ⟨used, _⟩
  · rw [counts] at moved
    exact absurd rfl moved
  · rw [countTick_self] at used
    omega

theorem step_counted (counted : Counted n k) (ok : Refilled k e) (h : step k e = some t) :
    Counted (ticksAfter n k e t) t := by
  have wf := step_wellFormed counted.wellFormed h
  unfold ticksAfter
  split
  · next stayed =>
    split
    · obtain ⟨_, rfl⟩ := interrupt_eq_some.mp h
      have low : -2 ^ 31 < (k.table.threads k.cur).ticksRemaining := ok
      have sum := counted.sum
      rw [schedTick_stays stayed] at wf ⊢
      refine ⟨wf, ?_, ?_⟩
      · change ((countTick k).table.threads k.cur).ticksRemaining + _ =
          quantumTicks ((updThread k.table k.cur _).threads k.cur).priority
        rw [countTick_self, updThread_same]
        push_cast
        omega
      · change _ ≤ ((countTick k).table.threads k.cur).ticksRemaining
        rw [countTick_self]
        omega
    · next noTick =>
      have same := step_stays counted.wellFormed h stayed noTick
      constructor
      · exact wf
      · rw [same.1, same.2]
        exact counted.sum
      · rw [same.1]
        exact counted.low
  · next moved => exact Counted.fresh wf (step_full counted.wellFormed h ok moved)

/-- What one step does with quanta, `n` ticks after the last switch. -/
theorem step_keepsQuanta (counted : Counted n k) (ok : Refilled k e) (h : step k e = some t) :
    KeepsQuanta n k e t := by
  constructor
  · exact step_full counted.wellFormed h ok
  · rintro rfl moved
    obtain ⟨_, rfl⟩ := interrupt_eq_some.mp h
    exact tick_preempts counted moved
  · exact (step_counted counted ok h).range

theorem run_counted {es : List Event} (counted : Counted n k) (meets : Meets step Refilled k es)
    (hrun : run step k es = some t) : Counted (ticksSince n k es) t := by
  induction es generalizing k n with
  | nil =>
    cases hrun
    exact counted
  | cons e es ih =>
    obtain ⟨u, hu, rest⟩ := Lib.Machine.run_cons.mp hrun
    simp only [ticksSince, hu]
    exact ih (step_counted counted meets.1 hu) (meets.2 u hu) rest

theorem boot_counted (block : Nat → Thread) (stack : GuardedStack) (kernelSpace : Word) :
    Counted 0 (boot block stack kernelSpace) := by
  apply Counted.fresh (boot_wellFormed block stack kernelSpace)
  simp [FullQuantum, boot, activate, Kernel.cur, installTable, initThreadSlot, grownCapacity,
    initialThreadCapacity]

/-- Whichever operation switches a thread in, it starts with a full quantum and
keeps the CPU for it, and its counter stays an int. -/
theorem quanta_kept (block : Nat → Thread) (stack : GuardedStack) (kernelSpace : Word)
    (es : List Event) (e : Event) (k t : Kernel)
    (refilled : Meets step Refilled (boot block stack kernelSpace) (es ++ [e]))
    (reached : run step (boot block stack kernelSpace) es = some k) (h : step k e = some t) :
    KeepsQuanta (ticksSince 0 (boot block stack kernelSpace) es) k e t := by
  obtain ⟨before, last⟩ := Lib.Machine.meets_append refilled reached
  have counted := run_counted (boot_counted block stack kernelSpace) before reached
  exact step_keepsQuanta counted last.1 h

/-- Thread 0 spawns thread 1 and yields to it. -/
def yieldToSpawned : List Event := .setIf true :: spawnInto 1 ++ [.yield]

/-- Thread 1 is preempted on its fourth tick. -/
theorem quanta_kept_preempted :
    ∃ k t, run step firstBoot (yieldToSpawned ++ List.replicate 3 .timer) = some k ∧
      step k .timer = some t ∧ t.cur = 0 ∧
      KeepsQuanta (ticksSince 0 firstBoot (yieldToSpawned ++ List.replicate 3 .timer)) k .timer
        t := by
  have first : (run step firstBoot (yieldToSpawned ++ List.replicate 3 .timer)).isSome := by
    decide +kernel
  obtain ⟨k, hk⟩ := Option.isSome_iff_exists.mp first
  have second : ∀ k ∈ run step firstBoot (yieldToSpawned ++ List.replicate 3 .timer),
      (step k .timer).isSome ∧ ∀ t ∈ step k .timer, t.cur = 0 := by decide +kernel
  obtain ⟨ticks, preempted⟩ := second k hk
  obtain ⟨t, ht⟩ := Option.isSome_iff_exists.mp ticks
  exact ⟨k, t, hk, ht, preempted t ht,
    quanta_kept (blockOfUid 0) someStack 0x1000 _ .timer k t (by decide +kernel) hk ht⟩

/-- The exiting thread 1 hands over to thread 0, which had used one tick. -/
theorem exit_hands_over_used_quantum :
    ¬ ∀ block stack kernelSpace es e k t, run step (boot block stack kernelSpace) es = some k →
      step k e = some t →
      KeepsQuanta (ticksSince 0 (boot block stack kernelSpace) es) k e t := by
  intro claim
  let es : List Event := .setIf true :: .timer :: spawnInto 1 ++ [.yield]
  have first : (run step firstBoot es).isSome := by decide +kernel
  obtain ⟨k, hk⟩ := Option.isSome_iff_exists.mp first
  have second : ∀ k ∈ run step firstBoot es, (step k (.exit none)).isSome ∧
      ∀ t ∈ step k (.exit none), t.cur ≠ k.cur ∧ ¬ FullQuantum (t.table.threads t.cur) := by
    decide +kernel
  obtain ⟨exits, used⟩ := second k hk
  obtain ⟨t, ht⟩ := Option.isSome_iff_exists.mp exits
  have kept := claim (blockOfUid 0) someStack 0x1000 es (.exit none) k t hk ht
  exact (used t ht).2 (kept.full (used t ht).1)

end MiniKernel.Sched
