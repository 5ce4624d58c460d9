import MiniKernel.Sched.WellFormed

/-!
# Zombies stay dead until they are reaped

Source: kernel/sched/thread.c. Two steps of the source can revive a zombie. A
thread that exits while no other is runnable stays `current_thread` in its halt
loop, and when the timer later finds a woken thread, `sched_yield` makes the
zombie READY. A spawn is not under `irq_save`, so the slot it found, or the
table size it read, may be stale when it writes them. `Settled` excludes
exactly these, and nothing else is needed.
-/
namespace MiniKernel.Sched
open Memory.Paging (Word)
open Lib.Machine (run Meets)

variable {k t : Kernel} {e : Event} {i : Nat}

/-- The step neither takes the CPU from a zombie nor writes through a stale
slot number or table size. -/
def Settled (k : Kernel) : Event → Prop
  | .timer => k.stateOf k.cur = .zombie →
      ((countTick k).table.threads k.cur).ticksRemaining > 0 ∨
        findNextRunnable (countTick k).table k.cur = k.cur
  | .spawnStep _ _ =>
    match k.place k.cur with
    | .spawning _ (.grow _ newCapacity) => k.table.threadCapacity ≤ newCapacity
    | .spawning _ (.publish slot _) => k.stateOf slot ≠ .zombie
    | _ => True
  | _ => True

instance (k : Kernel) (e : Event) : Decidable (Settled k e) := by
  unfold Settled
  split
  · infer_instance
  · split <;> infer_instance
  · infer_instance

/-- A spawn gives slot `i` to its new thread. -/
def Reuses (k : Kernel) (i : Nat) : Event → Prop
  | .spawnStep _ _ => ∃ req stack, k.place k.cur = .spawning req (.publish i stack)
  | _ => False

/-- The slot holds no thread that can run again. -/
def Dead (state : ThreadState) : Prop := state = .zombie ∨ state = .unused

def Alive (state : ThreadState) : Prop :=
  state = .ready ∨ state = .running ∨ state = .blocked

theorem not_dead_of_runnable {thread : Thread} (h : Runnable thread) : ¬ Dead thread.state := by
  intro dead
  rcases h with ready | running <;> rcases dead with zombie | unused <;> simp_all

/-! ## A dead slot that is not the running thread's -/

theorem schedWakeup_dead (s : ThreadTable) (channel : Word) (dead : Dead (s.threads i).state) :
    ((schedWakeup s channel).threads i).state = (s.threads i).state := by
  rcases schedWakeup_state s channel i with same | ⟨blocked, _⟩
  · exact same
  · rw [blocked] at dead
    simp [Dead] at dead

theorem schedYield_dead (wf : WellFormed k) (resumeIf : Bool) (other : i ≠ k.cur)
    (dead : Dead (k.stateOf i)) : (schedYield resumeIf k).stateOf i = k.stateOf i := by
  rcases schedYield_cases resumeIf k wf.current with
    ⟨_, stays⟩ | ⟨next, _, _, runnable, switches⟩
  · rw [stays]
  · have notNext : i ≠ next := by
      intro same
      rw [same] at dead
      exact not_dead_of_runnable runnable dead
    rw [switches]
    change ((dispatchFresh (setState k.table k.cur .ready) next).threads i).state = _
    rw [dispatchFresh_state, if_neg notNext, setState_state, if_neg other]
    rfl

theorem schedTick_dead (wf : WellFormed k) (other : i ≠ k.cur) (dead : Dead (k.stateOf i)) :
    (schedTick k).stateOf i = k.stateOf i := by
  rcases schedTick_cases k with ⟨_, counts⟩ | ⟨_, yields⟩
  · rw [counts, countTick_state]
  · rw [← countTick_state k i] at dead
    rw [yields, schedYield_dead wf.countTick true other dead, countTick_state]

theorem schedSleep_dead (wf : WellFormed k) (channel : Word) (other : i ≠ k.cur)
    (dead : Dead (k.stateOf i)) : (schedSleep channel k).stateOf i = k.stateOf i := by
  rcases schedSleep_cases channel k wf.current with idles | ⟨next, _, _, runnable, switches⟩
  · rw [idles]
    change ((updThread k.table k.cur _).threads i).state = _
    rw [updThread_other _ _ _ _ other]
    rfl
  · have notNext : i ≠ next := by
      intro same
      rw [same] at dead
      exact not_dead_of_runnable runnable dead
    rw [switches]
    change ((dispatchFresh (updThread k.table k.cur _) next).threads i).state = _
    rw [dispatchFresh_state, if_neg notNext, updThread_other _ _ _ _ other]
    rfl

theorem exitTable_dead (pid : Option Word) (other : i ≠ k.cur) (dead : Dead (k.stateOf i)) :
    ((exitTable pid k).threads i).state = k.stateOf i := by
  rcases exitTable_state pid k i other with same | ⟨blocked, _⟩
  · exact same
  · rw [blocked] at dead
    simp [Dead] at dead

theorem schedExitStatus_dead (wf : WellFormed k) (pid : Option Word) (other : i ≠ k.cur)
    (dead : Dead (k.stateOf i)) : (schedExitStatus pid k).stateOf i = k.stateOf i := by
  have kept := exitTable_dead pid other dead
  rcases schedExitStatus_cases pid k wf.current with
    ⟨_, halts⟩ | ⟨next, _, _, runnable, switches⟩
  · rw [halts]
    exact kept
  · have notNext : i ≠ next := by
      intro same
      rw [← kept, same] at dead
      exact not_dead_of_runnable runnable dead
    rw [switches]
    change ((dispatch (exitTable pid k) next).threads i).state = _
    rw [dispatch_state, if_neg notNext, kept]

theorem schedKill_dead (wf : WellFormed k) (tid : Nat) (pid : Option Word) (other : i ≠ k.cur)
    (dead : Dead (k.stateOf i)) : (schedKill tid pid k).stateOf i = k.stateOf i := by
  unfold schedKill
  split
  · rfl
  · split
    · exact schedExitStatus_dead wf pid other dead
    · split
      · rfl
      · next alive =>
        have notTid : i ≠ tid := by
          intro same
          rw [same] at dead
          exact alive dead.symm
        change ((updThread k.table tid _).threads i).state = _
        rw [updThread_other _ _ _ _ notTid]
        rfl

theorem reapZombie_state (s : ThreadTable) (tid : Nat) (other : i ≠ tid) :
    ((reapZombie s tid).threads i).state = (s.threads i).state := by
  unfold reapZombie
  split
  · rw [updThread_other _ _ _ _ other]
  · rfl

theorem fillThread_state (req : SpawnRequest) (stack : GuardedStack) (kernelSpace : Word)
    (slot : Nat) (s : ThreadTable) :
    ((fillThread req stack kernelSpace slot s).threads i).state = (s.threads i).state := by
  unfold fillThread
  cases Decidable.em (i = slot) with
  | inl same => rw [same, updThread_same]
  | inr other => rw [updThread_other _ _ _ _ other]

/-- Every phase of a spawn leaves the states of the table's slots alone, but
that of the slot it publishes. -/
theorem spawnStep_state (req : SpawnRequest) (block : Option (Nat → Thread))
    (stack : Option GuardedStack) (phase : SpawnPhase) (hi : i < k.table.threadCapacity)
    (notPublished : ∀ st, phase ≠ .publish i st) :
    (spawnStep req block stack k phase).stateOf i = k.stateOf i := by
  cases phase with
  | scan j =>
    simp only [spawnStep]
    split
    · split <;> rfl
    · rfl
  | grow previous newCapacity =>
    cases block with
    | none => rfl
    | some b =>
      change ((installTable b newCapacity k.table).threads i).state = _
      rw [installTable_copied b newCapacity k.table i hi]
      rfl
  | stack slot => cases stack <;> rfl
  | publish slot st =>
    have other : i ≠ slot := by
      intro same
      exact notPublished st (by rw [same])
    change ((publishThread req st slot k.table).threads i).state = _
    rw [publishThread, updThread_other _ _ _ _ other]
    rfl
  | fill slot st => exact fillThread_state req st k.kernelSpace slot k.table

/-- A dead slot changes its state by being reaped, or by being given to a new
thread. -/
theorem step_dead (wf : WellFormed k) (h : step k e = some t) (hi : i < k.table.threadCapacity)
    (other : i ≠ k.cur) (dead : Dead (k.stateOf i)) :
    t.stateOf i = k.stateOf i ∨ (e = .reap i ∧ t.stateOf i = .unused) ∨ Reuses k i e := by
  cases e with
  | timer =>
    obtain ⟨_, rfl⟩ := interrupt_eq_some.mp h
    exact Or.inl (schedTick_dead wf other dead)
  | keyboard channel =>
    obtain ⟨_, rfl⟩ := interrupt_eq_some.mp h
    exact Or.inl (schedWakeup_dead _ channel dead)
  | setIf on =>
    obtain ⟨_, rfl⟩ := call_eq_some.mp h
    exact Or.inl rfl
  | yield =>
    obtain ⟨_, rfl⟩ := call_eq_some.mp h
    exact Or.inl (schedYield_dead wf _ other dead)
  | sleep channel =>
    obtain ⟨_, rfl⟩ := call_eq_some.mp h
    exact Or.inl (schedSleep_dead wf channel other dead)
  | wakeup channel =>
    obtain ⟨_, rfl⟩ := call_eq_some.mp h
    exact Or.inl (schedWakeup_dead _ channel dead)
  | exit pid =>
    obtain ⟨_, rfl⟩ := call_eq_some.mp h
    exact Or.inl (schedExitStatus_dead wf pid other dead)
  | kill tid pid =>
    obtain ⟨_, rfl⟩ := call_eq_some.mp h
    exact Or.inl (schedKill_dead wf tid pid other dead)
  | reap tid =>
    obtain ⟨_, rfl⟩ := call_eq_some.mp h
    cases Decidable.em (i = tid) with
    | inl same =>
      subst same
      by_cases reapable : Reapable k.table i
      · refine Or.inr (Or.inl ⟨rfl, ?_⟩)
        change ((reapZombie k.table i).threads i).state = _
        rw [reapZombie, if_pos reapable, updThread_same]
        rfl
      · refine Or.inl ?_
        change ((reapZombie k.table i).threads i).state = _
        rw [reapZombie, if_neg reapable]
        rfl
    | inr otherTid => exact Or.inl (reapZombie_state _ _ otherTid)
  | spawn req =>
    obtain ⟨_, rfl⟩ := call_eq_some.mp h
    exact Or.inl rfl
  | spawnStep block stack =>
    obtain ⟨req, phase, place, rfl⟩ := spawnStep_eq_some.mp h
    by_cases published : ∃ st, phase = .publish i st
    · obtain ⟨st, rfl⟩ := published
      exact Or.inr (Or.inr ⟨req, st, place⟩)
    · refine Or.inl (spawnStep_state req block stack phase hi ?_)
      intro st same
      exact published ⟨st, same⟩
  | idleCheck =>
    obtain ⟨flags, _, _, rfl⟩ := idleCheck_eq_some.mp h
    refine Or.inl ?_
    change ((setState k.table k.cur .running).threads i).state = _
    rw [setState_state, if_neg other]
    rfl

/-! ## The table does not shrink -/

theorem schedYield_capacity (resumeIf : Bool) (k : Kernel) :
    (schedYield resumeIf k).table.threadCapacity = k.table.threadCapacity := by
  simp only [schedYield]
  split <;> rfl

theorem schedTick_capacity (k : Kernel) :
    (schedTick k).table.threadCapacity = k.table.threadCapacity := by
  rcases schedTick_cases k with ⟨_, counts⟩ | ⟨_, yields⟩
  · rw [counts]
    rfl
  · rw [yields, schedYield_capacity]
    rfl

theorem schedSleep_capacity (channel : Word) (k : Kernel) :
    (schedSleep channel k).table.threadCapacity = k.table.threadCapacity := by
  simp only [schedSleep]
  split <;> rfl

theorem schedExitStatus_capacity (pid : Option Word) (k : Kernel) :
    (schedExitStatus pid k).table.threadCapacity = k.table.threadCapacity := by
  simp only [schedExitStatus]
  split <;> simp

theorem schedKill_capacity (tid : Nat) (pid : Option Word) (k : Kernel) :
    (schedKill tid pid k).table.threadCapacity = k.table.threadCapacity := by
  unfold schedKill
  split
  · rfl
  · split
    · exact schedExitStatus_capacity pid k
    · split <;> rfl

theorem reapZombie_capacity (s : ThreadTable) (tid : Nat) :
    (reapZombie s tid).threadCapacity = s.threadCapacity := by
  unfold reapZombie
  split <;> rfl

theorem spawnStep_capacity (req : SpawnRequest) (block : Option (Nat → Thread))
    (stack : Option GuardedStack) (phase : SpawnPhase)
    (notStale : ∀ previous newCapacity, phase = .grow previous newCapacity →
      k.table.threadCapacity ≤ newCapacity) :
    k.table.threadCapacity ≤ (spawnStep req block stack k phase).table.threadCapacity := by
  cases phase with
  | scan j =>
    simp only [spawnStep]
    split
    · split <;> exact Nat.le_refl _
    · exact Nat.le_refl _
  | grow previous newCapacity =>
    cases block with
    | none => exact Nat.le_refl _
    | some b => exact notStale previous newCapacity rfl
  | stack slot => cases stack <;> exact Nat.le_refl _
  | publish slot st => exact Nat.le_refl _
  | fill slot st => exact Nat.le_refl _

theorem step_capacity (h : step k e = some t) (ok : Settled k e) :
    k.table.threadCapacity ≤ t.table.threadCapacity := by
  cases e with
  | timer =>
    obtain ⟨_, rfl⟩ := interrupt_eq_some.mp h
    exact Nat.le_of_eq (schedTick_capacity k).symm
  | keyboard channel =>
    obtain ⟨_, rfl⟩ := interrupt_eq_some.mp h
    exact Nat.le_refl _
  | setIf on =>
    obtain ⟨_, rfl⟩ := call_eq_some.mp h
    exact Nat.le_refl _
  | yield =>
    obtain ⟨_, rfl⟩ := call_eq_some.mp h
    exact Nat.le_of_eq (schedYield_capacity _ k).symm
  | sleep channel =>
    obtain ⟨_, rfl⟩ := call_eq_some.mp h
    exact Nat.le_of_eq (schedSleep_capacity channel k).symm
  | wakeup channel =>
    obtain ⟨_, rfl⟩ := call_eq_some.mp h
    exact Nat.le_refl _
  | exit pid =>
    obtain ⟨_, rfl⟩ := call_eq_some.mp h
    exact Nat.le_of_eq (schedExitStatus_capacity pid k).symm
  | kill tid pid =>
    obtain ⟨_, rfl⟩ := call_eq_some.mp h
    exact Nat.le_of_eq (schedKill_capacity tid pid k).symm
  | reap tid =>
    obtain ⟨_, rfl⟩ := call_eq_some.mp h
    exact Nat.le_of_eq (reapZombie_capacity k.table tid).symm
  | spawn req =>
    obtain ⟨_, rfl⟩ := call_eq_some.mp h
    exact Nat.le_refl _
  | spawnStep block stack =>
    obtain ⟨req, phase, place, rfl⟩ := spawnStep_eq_some.mp h
    apply spawnStep_capacity
    intro previous newCapacity grows
    simp only [Settled, place, grows] at ok
    exact ok
  | idleCheck =>
    obtain ⟨flags, _, _, rfl⟩ := idleCheck_eq_some.mp h
    exact Nat.le_refl _

/-! ## The running thread is a zombie only in its halt loop -/

/-- What is left to show of the invariant, besides well-formedness. -/
def HaltsIfZombie (k : Kernel) : Prop := k.stateOf k.cur = .zombie → k.place k.cur = .halt

theorem haltsIfZombie_of_state (h : t.stateOf t.cur ≠ .zombie) : HaltsIfZombie t :=
  fun zombie => absurd zombie h

theorem schedWakeup_zombie (s : ThreadTable) (channel : Word) (i : Nat) :
    ((schedWakeup s channel).threads i).state = .zombie → (s.threads i).state = .zombie := by
  intro zombie
  rcases schedWakeup_state s channel i with same | ⟨_, ready⟩
  · exact same ▸ zombie
  · rw [ready] at zombie
    cases zombie

theorem schedYield_halts (resumeIf : Bool) (wf : WellFormed k) (halts : HaltsIfZombie k) :
    HaltsIfZombie (schedYield resumeIf k) := by
  rcases schedYield_cases resumeIf k wf.current with ⟨_, stays⟩ | ⟨next, _, _, _, switches⟩
  · rw [stays]
    exact halts
  · rw [switches]
    apply haltsIfZombie_of_state
    change ((dispatchFresh _ next).threads next).state ≠ _
    simp [dispatchFresh_running]

theorem schedTick_halts (wf : WellFormed k) (halts : HaltsIfZombie k) :
    HaltsIfZombie (schedTick k) := by
  have counted : HaltsIfZombie (countTick k) := by
    intro zombie
    apply halts
    rw [← countTick_state]
    exact zombie
  rcases schedTick_cases k with ⟨_, counts⟩ | ⟨_, yields⟩
  · rw [counts]
    exact counted
  · rw [yields]
    exact schedYield_halts true wf.countTick counted

theorem schedSleep_halts (channel : Word) (wf : WellFormed k) :
    HaltsIfZombie (schedSleep channel k) := by
  apply haltsIfZombie_of_state
  rcases schedSleep_cases channel k wf.current with idles | ⟨next, _, _, _, switches⟩
  · rw [idles]
    change ((updThread k.table k.cur _).threads k.cur).state ≠ _
    rw [updThread_same]
    simp
  · rw [switches]
    change ((dispatchFresh _ next).threads next).state ≠ _
    simp [dispatchFresh_running]

theorem schedExitStatus_halts (pid : Option Word) (wf : WellFormed k) :
    HaltsIfZombie (schedExitStatus pid k) := by
  rcases schedExitStatus_cases pid k wf.current with
    ⟨_, halts⟩ | ⟨next, _, _, _, switches⟩
  · rw [halts]
    intro _
    change (k.moveTo .halt).place (exitTable pid k).currentThread = .halt
    rw [exitTable_current, moveTo_self]
  · rw [switches]
    apply haltsIfZombie_of_state
    change ((dispatch (exitTable pid k) next).threads next).state ≠ _
    simp [dispatch_state]

theorem schedKill_halts (tid : Nat) (pid : Option Word) (wf : WellFormed k)
    (alive : k.stateOf k.cur ≠ .zombie) : HaltsIfZombie (schedKill tid pid k) := by
  unfold schedKill
  split
  · exact haltsIfZombie_of_state alive
  · split
    · exact schedExitStatus_halts pid wf
    · next other =>
      split
      · exact haltsIfZombie_of_state alive
      · apply haltsIfZombie_of_state
        change ((updThread k.table tid _).threads k.cur).state ≠ _
        rw [updThread_other _ _ _ _ (Ne.symm other)]
        exact alive

theorem spawnStep_cur (req : SpawnRequest) (block : Option (Nat → Thread))
    (stack : Option GuardedStack) (phase : SpawnPhase) :
    (spawnStep req block stack k phase).cur = k.cur := by
  cases phase with
  | scan j =>
    simp only [spawnStep]
    split
    · split <;> rfl
    · rfl
  | grow previous newCapacity => cases block <;> rfl
  | stack slot => cases stack <;> rfl
  | publish slot st => rfl
  | fill slot st => rfl

theorem spawnStep_halts (req : SpawnRequest) (block : Option (Nat → Thread))
    (stack : Option GuardedStack) (phase : SpawnPhase) (wf : WellFormed k)
    (place : k.place k.cur = .spawning req phase) (alive : k.stateOf k.cur ≠ .zombie) :
    HaltsIfZombie (spawnStep req block stack k phase) := by
  have ok := wf.spawns k.cur
  rw [place] at ok
  apply haltsIfZombie_of_state
  rw [spawnStep_cur, spawnStep_state req block stack phase wf.current]
  · exact alive
  · rintro st rfl
    exact ok rfl

theorem step_halts (wf : WellFormed k) (halts : HaltsIfZombie k) (h : step k e = some t) :
    HaltsIfZombie t := by
  have alive (elsewhere : k.place k.cur ≠ .halt) : k.stateOf k.cur ≠ .zombie :=
    fun zombie => elsewhere (halts zombie)
  cases e with
  | timer =>
    obtain ⟨_, rfl⟩ := interrupt_eq_some.mp h
    exact schedTick_halts wf halts
  | keyboard channel =>
    obtain ⟨_, rfl⟩ := interrupt_eq_some.mp h
    exact fun zombie => halts (schedWakeup_zombie _ _ _ zombie)
  | setIf on =>
    obtain ⟨_, rfl⟩ := call_eq_some.mp h
    exact halts
  | yield =>
    obtain ⟨_, rfl⟩ := call_eq_some.mp h
    exact schedYield_halts _ wf halts
  | sleep channel =>
    obtain ⟨_, rfl⟩ := call_eq_some.mp h
    exact schedSleep_halts channel wf
  | wakeup channel =>
    obtain ⟨_, rfl⟩ := call_eq_some.mp h
    exact fun zombie => halts (schedWakeup_zombie _ _ _ zombie)
  | exit pid =>
    obtain ⟨_, rfl⟩ := call_eq_some.mp h
    exact schedExitStatus_halts pid wf
  | kill tid pid =>
    obtain ⟨code, rfl⟩ := call_eq_some.mp h
    exact schedKill_halts tid pid wf (alive (by simp [code]))
  | reap tid =>
    obtain ⟨code, rfl⟩ := call_eq_some.mp h
    apply haltsIfZombie_of_state
    have running := alive (by simp [code])
    unfold reapZombie
    split
    · next reapable =>
      have other : k.cur ≠ tid := Ne.symm reapable.2.1
      change ((updThread k.table tid _).threads k.cur).state ≠ _
      rw [updThread_other _ _ _ _ other]
      exact running
    · exact running
  | spawn req =>
    obtain ⟨code, rfl⟩ := call_eq_some.mp h
    exact haltsIfZombie_of_state (alive (by simp [code]))
  | spawnStep block stack =>
    obtain ⟨req, phase, place, rfl⟩ := spawnStep_eq_some.mp h
    exact spawnStep_halts req block stack phase wf place (alive (by simp [place]))
  | idleCheck =>
    obtain ⟨flags, _, _, rfl⟩ := idleCheck_eq_some.mp h
    apply haltsIfZombie_of_state
    change ((setState k.table k.cur .running).threads k.cur).state ≠ _
    simp [setState_state]

/-! ## From zombie to the next life -/

structure Sound (k : Kernel) : Prop where
  wellFormed : WellFormed k
  halts : HaltsIfZombie k

theorem step_sound (s : Kernel) (e : Event) (t : Kernel) (sound : Sound s) (_ : Settled s e)
    (h : step s e = some t) : Sound t :=
  ⟨step_wellFormed sound.wellFormed h, step_halts sound.wellFormed sound.halts h⟩

/-- In its halt loop the zombie keeps the CPU, so nothing makes it ready. -/
theorem zombie_kept_current (sound : Sound k) (ok : Settled k e) (h : step k e = some t)
    (zombie : k.stateOf k.cur = .zombie) : t.stateOf k.cur = .zombie := by
  have halt := sound.halts zombie
  have dead : Dead (k.stateOf k.cur) := Or.inl zombie
  have notCalled {result : Kernel} (h : call k result = some t) : t.stateOf k.cur = .zombie := by
    have code := (call_eq_some.mp h).1
    rw [halt] at code
    cases code
  cases e with
  | timer =>
    obtain ⟨_, rfl⟩ := interrupt_eq_some.mp h
    rcases schedTick_cases k with ⟨_, counts⟩ | ⟨used, yields⟩
    · rw [counts, countTick_state]
      exact zombie
    · have stays := (ok zombie).resolve_left used
      rw [yields]
      rcases schedYield_cases true (countTick k) sound.wellFormed.countTick.current with
        ⟨_, same⟩ | ⟨next, _, _, _, switches⟩
      · rw [same, countTick_state]
        exact zombie
      · have : schedYield true (countTick k) = countTick k := if_pos stays
        rw [this, countTick_state]
        exact zombie
  | keyboard channel =>
    obtain ⟨_, rfl⟩ := interrupt_eq_some.mp h
    exact (schedWakeup_dead _ channel dead).trans zombie
  | setIf on => exact notCalled h
  | yield => exact notCalled h
  | sleep channel => exact notCalled h
  | wakeup channel => exact notCalled h
  | exit pid => exact notCalled h
  | kill tid pid => exact notCalled h
  | reap tid => exact notCalled h
  | spawn req => exact notCalled h
  | spawnStep block stack =>
    obtain ⟨req, phase, place, _⟩ := spawnStep_eq_some.mp h
    rw [halt] at place
    cases place
  | idleCheck =>
    obtain ⟨flags, place, _⟩ := idleCheck_eq_some.mp h
    rw [halt] at place
    cases place

theorem zombie_kept (sound : Sound k) (ok : Settled k e) (h : step k e = some t)
    (hi : i < k.table.threadCapacity) (zombie : k.stateOf i = .zombie) :
    t.stateOf i = .zombie ∨ e = .reap i := by
  cases Decidable.em (i = k.cur) with
  | inl same =>
    rw [same] at zombie
    rw [same]
    exact Or.inl (zombie_kept_current sound ok h zombie)
  | inr other =>
    rcases step_dead sound.wellFormed h hi other (Or.inl zombie) with kept | ⟨reaped, _⟩ | reused
    · exact Or.inl (kept.trans zombie)
    · exact Or.inr reaped
    · -- a settled spawn does not publish into a zombie's slot
      cases e with
      | spawnStep block stack =>
        obtain ⟨req, st, place⟩ := reused
        simp only [Settled, place] at ok
        exact absurd zombie ok
      | _ => exact reused.elim

theorem unused_kept (wf : WellFormed k) (h : step k e = some t)
    (hi : i < k.table.threadCapacity) (unused : k.stateOf i = .unused) :
    t.stateOf i = .unused ∨ Reuses k i e := by
  have other : i ≠ k.cur := by
    intro same
    rw [same] at unused
    exact wf.inUse unused
  rcases step_dead wf h hi other (Or.inr unused) with kept | ⟨_, reaped⟩ | reused
  · exact Or.inl (kept.trans unused)
  · exact Or.inl reaped
  · exact Or.inr reused

theorem reap_unused (h : step k (.reap i) = some t) (reapable : Reapable k.table i) :
    t.stateOf i = .unused := by
  obtain ⟨_, rfl⟩ := call_eq_some.mp h
  change ((reapZombie k.table i).threads i).state = _
  rw [reapZombie, if_pos reapable, updThread_same]
  rfl

/-- The run from a zombie to the slot's next life: `reap_zombie` frees the slot,
and a later spawn gives it to a new thread. -/
def NextLife (i : Nat) (s : Kernel) (fs : List Event) : Prop :=
  ∃ pre mid post e zombie freed free,
    fs = pre ++ .reap i :: (mid ++ e :: post) ∧
    run step s pre = some zombie ∧ zombie.stateOf i = .zombie ∧
    step zombie (.reap i) = some freed ∧ freed.stateOf i = .unused ∧
    run step freed mid = some free ∧ free.stateOf i = .unused ∧ Reuses free i e

/-- A zombie's slot is given away, if at all, after it was reaped. -/
theorem nextLife_of_alive (fs : List Event) (s t : Kernel) (sound : Sound s)
    (meets : Meets step Settled s fs) (hrun : run step s fs = some t)
    (hi : i < s.table.threadCapacity) (zombie : s.stateOf i = .zombie)
    (alive : Alive (t.stateOf i)) : NextLife i s fs := by
  let Holds (state : ThreadState) (k : Kernel) : Prop :=
    i < k.table.threadCapacity ∧ k.stateOf i = state
  have staysZombie (s : Kernel) (e : Event) (t : Kernel) (sound : Sound s)
      (q : Sound s ∧ Holds .zombie s) (ok : Settled s e) (h : step s e = some t) :
      (Sound t ∧ Holds .zombie t) ∨ e = .reap i :=
    (zombie_kept sound ok h q.2.1 q.2.2).imp
      (fun kept => ⟨step_sound s e t sound ok h,
        Nat.lt_of_lt_of_le q.2.1 (step_capacity h ok), kept⟩) id
  rcases Lib.Machine.run_persists step_sound staysZombie sound ⟨sound, hi, zombie⟩ meets hrun with ⟨_, _, still⟩ | ⟨pre, e, rest, z, split, toZ, hz, stop⟩
  · rw [still] at alive
    simp [Alive] at alive
  subst stop
  obtain ⟨soundZ, capacityZ, zombieZ⟩ := hz
  rw [split] at meets hrun
  obtain ⟨z', toZ', fromZ⟩ := Lib.Machine.run_append.mp hrun
  obtain rfl : z' = z := Option.some.inj (toZ'.symm.trans toZ)
  have meetsZ := (Lib.Machine.meets_append meets toZ).2
  obtain ⟨freed, reaps, fromFreed⟩ := Lib.Machine.run_cons.mp fromZ
  have code := (call_eq_some.mp reaps).1
  have reapable : Reapable z'.table i := by
    refine ⟨capacityZ, ?_, zombieZ⟩
    intro running
    have halt := soundZ.halts (by rw [Kernel.cur, ← running]; exact zombieZ)
    rw [halt] at code
    cases code
  have unused := reap_unused reaps reapable
  have soundF := step_sound z' _ freed soundZ meetsZ.1 reaps
  have capacityF := Nat.lt_of_lt_of_le capacityZ (step_capacity reaps meetsZ.1)
  have staysUnused (s : Kernel) (e : Event) (t : Kernel) (sound : Sound s) (q : Holds .unused s)
      (ok : Settled s e) (h : step s e = some t) : Holds .unused t ∨ Reuses s i e :=
    (unused_kept sound.wellFormed h q.1 q.2).imp
      (fun kept => ⟨Nat.lt_of_lt_of_le q.1 (step_capacity h ok), kept⟩) id
  rcases Lib.Machine.run_persists step_sound staysUnused soundF ⟨capacityF, unused⟩
      (meetsZ.2 freed reaps) fromFreed with
    ⟨_, still⟩ | ⟨mid, e, post, free, split', toFree, ⟨_, unusedFree⟩, reuses⟩
  · rw [still] at alive
    simp [Alive] at alive
  · exact ⟨pre, mid, post, e, z', freed, free, by rw [split, split'], toZ, zombieZ, reaps, unused,
      toFree, unusedFree, reuses⟩

theorem boot_sound (block : Nat → Thread) (stack : GuardedStack) (kernelSpace : Word) :
    Sound (boot block stack kernelSpace) := by
  refine ⟨boot_wellFormed block stack kernelSpace, haltsIfZombie_of_state ?_⟩
  simp [boot, Kernel.stateOf, Kernel.cur, activate]

/-- In every settled run, a slot that has become a zombie comes back to life
only through its reaping and a later spawn. -/
theorem zombie_stays_dead (block : Nat → Thread) (stack : GuardedStack) (kernelSpace : Word)
    (es fs : List Event) (s t : Kernel) (i : Nat)
    (settled : Meets step Settled (boot block stack kernelSpace) (es ++ fs))
    (reached : run step (boot block stack kernelSpace) es = some s)
    (continued : run step s fs = some t) (valid : i < s.table.threadCapacity)
    (zombie : s.stateOf i = .zombie) (alive : Alive (t.stateOf i)) : NextLife i s fs := by
  obtain ⟨before, after⟩ := Lib.Machine.meets_append settled reached
  have sound := Lib.Machine.run_invariant step_sound (boot_sound block stack kernelSpace)
    before reached
  exact nextLife_of_alive fs s t sound after continued valid zombie alive

def killOne : List Event := spawnInto 1 ++ [.kill 1 none]
def reapAndRespawn : List Event := .reap 1 :: spawnInto 1

/-- Thread 1 is killed, reaped and replaced. -/
theorem zombie_stays_dead_respawn :
    ∃ s, run step firstBoot killOne = some s ∧ NextLife 1 s reapAndRespawn := by
  have first : (run step firstBoot killOne).isSome := by decide +kernel
  obtain ⟨s, hs⟩ := Option.isSome_iff_exists.mp first
  have second : ∀ s ∈ run step firstBoot killOne, 1 < s.table.threadCapacity ∧
      s.stateOf 1 = .zombie ∧ (run step s reapAndRespawn).isSome ∧
      ∀ t ∈ run step s reapAndRespawn, t.stateOf 1 = .ready := by decide +kernel
  obtain ⟨valid, zombie, runs, ready⟩ := second s hs
  obtain ⟨t, ht⟩ := Option.isSome_iff_exists.mp runs
  exact ⟨s, hs, zombie_stays_dead (blockOfUid 0) someStack 0x1000 killOne reapAndRespawn s t 1
    (by decide +kernel) hs ht valid zombie (Or.inl (ready t ht))⟩

/-- Thread 0 waits for the keyboard, thread 1 exits and halts. -/
def exitAlone : List Event := .setIf true :: spawnInto 1 ++ [.sleep 0x9000, .exit none]

/-- A key makes thread 0 ready, and the quantum of the halted zombie runs out. -/
def keyThenTicks : List Event := [.keyboard 0x9000, .timer, .timer, .timer, .timer]

/-- The timer makes the zombie ready again. -/
theorem zombie_revived_by_timer :
    ¬ ∀ block stack kernelSpace es fs s t i,
      run step (boot block stack kernelSpace) es = some s → run step s fs = some t →
      i < s.table.threadCapacity → s.stateOf i = .zombie → Alive (t.stateOf i) →
      NextLife i s fs := by
  intro claim
  have first : (run step firstBoot exitAlone).isSome := by decide +kernel
  obtain ⟨s, hs⟩ := Option.isSome_iff_exists.mp first
  have second : ∀ s ∈ run step firstBoot exitAlone, 1 < s.table.threadCapacity ∧
      s.stateOf 1 = .zombie ∧ (run step s keyThenTicks).isSome ∧
      ∀ t ∈ run step s keyThenTicks, t.stateOf 1 = .ready := by decide +kernel
  obtain ⟨valid, zombie, runs, ready⟩ := second s hs
  obtain ⟨t, ht⟩ := Option.isSome_iff_exists.mp runs
  obtain ⟨pre, mid, post, e, z, freed, free, split, _⟩ :=
    claim _ _ _ exitAlone keyThenTicks s t 1 hs ht valid zombie (Or.inl (ready t ht))
  have reaped : Event.reap 1 ∈ keyThenTicks := by simp [split]
  simp [keyThenTicks] at reaped

end MiniKernel.Sched
