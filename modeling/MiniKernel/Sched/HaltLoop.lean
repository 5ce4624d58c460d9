import MiniKernel.Sched.WellFormed

/-!
# Halt loops and the interrupt flag

Source: kernel/sched/thread.c:353-385 (`sched_sleep`) and 479-506
(`sched_exit_status`), kernel/arch/x86_64/idt.c:25-40 (interrupt gates, which
clear the flag). `sched_sleep` enables interrupts before it halts;
`sched_exit_status` goes back to the flags of its caller, so it halts with
interrupts off for good when a system call or an exception ended the last
thread that could run.
-/
namespace MiniKernel.Sched
open Memory.Paging (Word)
open Lib.Machine (run Meets)

variable {k t : Kernel} {e : Event}

/-- A thread at this place executes `hlt` in a loop. -/
def Waits : Place → Prop
  | .idle _ => True
  | .halt => True
  | _ => False

instance : DecidablePred Waits := fun p => by
  unfold Waits
  split <;> infer_instance

/-- No other thread could run, nor will the exit of this one wake any. -/
def NobodyElse (k : Kernel) (pid : Option Word) : Prop :=
  ∀ i < k.table.threadCapacity, i ≠ k.cur →
    ¬ Runnable (k.table.threads i) ∧
    ¬ (k.stateOf i = .blocked ∧ ((k.table.threads i).waitChannel = tidChannel k.cur ∨
      pid = some (k.table.threads i).waitChannel))

instance (k : Kernel) (pid : Option Word) : Decidable (NobodyElse k pid) :=
  inferInstanceAs (Decidable (∀ i < _, _ → _ ∧ _))

/-- The last thread that could run exits with interrupts on only. -/
def ExitsOpen (k : Kernel) : Event → Prop
  | .exit pid => NobodyElse k pid → k.interrupts = true
  | .kill tid pid => tid = k.cur → NobodyElse k pid → k.interrupts = true
  | _ => True

instance (k : Kernel) (e : Event) : Decidable (ExitsOpen k e) := by
  unfold ExitsOpen
  split <;> infer_instance

/-- Interrupts reach the halt loops, the running thread's now and the others'
once they are switched in. -/
structure LoopsOpen (k : Kernel) : Prop where
  wellFormed : WellFormed k
  running : Waits (k.place k.cur) → k.interrupts = true
  suspended : ∀ i, i ≠ k.cur → Waits (k.place i) → k.savedIf i = true

/-! ## Exit with nobody to switch to -/

theorem schedWakeup_wakes (s : ThreadTable) (i : Nat) (hi : i < s.threadCapacity)
    (blocked : (s.threads i).state = .blocked) :
    ((schedWakeup s (s.threads i).waitChannel).threads i).state = .ready := by
  simp [schedWakeup, hi, blocked]

theorem schedWakeup_keeps (s : ThreadTable) (channel : Word) (i : Nat) :
    (schedWakeup s channel).threads i = s.threads i ∨
      ((schedWakeup s channel).threads i).state = .ready := by
  simp only [schedWakeup]
  split
  · exact Or.inr rfl
  · exact Or.inl rfl

theorem exitTable_wakes (pid : Option Word) (i : Nat) (hi : i < k.table.threadCapacity)
    (other : i ≠ k.cur) (blocked : k.stateOf i = .blocked)
    (waiting : (k.table.threads i).waitChannel = tidChannel k.cur ∨
      pid = some (k.table.threads i).waitChannel) :
    ((exitTable pid k).threads i).state = .ready := by
  let zombie := setState k.table k.cur .zombie
  have same : zombie.threads i = k.table.threads i := updThread_other _ _ _ _ other
  have still : (zombie.threads i).state = .blocked := by
    rw [same]
    exact blocked
  have ready_stays (s : ThreadTable) (ready : (s.threads i).state = .ready) :
      ((schedWakeup s (tidChannel k.cur)).threads i).state = .ready := by
    rcases schedWakeup_keeps s (tidChannel k.cur) i with kept | woken
    · rw [kept]
      exact ready
    · exact woken
  rcases waiting with onTid | onPid
  · -- a wakeup by pid in between leaves the thread alone, or wakes it already
    have marked : (markExited zombie pid).threads i = zombie.threads i ∨
        ((markExited zombie pid).threads i).state = .ready := by
      cases pid with
      | none => exact Or.inl rfl
      | some pid => exact schedWakeup_keeps zombie pid i
    rcases marked with kept | ready
    · have channel : ((markExited zombie pid).threads i).waitChannel = tidChannel k.cur := by
        rw [kept, same]
        exact onTid
      have woken := schedWakeup_wakes (markExited zombie pid) i (by simpa [zombie, setState]) (by
        rw [kept]
        exact still)
      rw [channel] at woken
      exact woken
    · exact ready_stays _ ready
  · subst onPid
    apply ready_stays
    have woken := schedWakeup_wakes zombie i hi still
    rw [same] at woken
    exact woken

theorem exitTable_runnable (pid : Option Word) (i : Nat) (other : i ≠ k.cur)
    (runnable : Runnable (k.table.threads i)) : Runnable ((exitTable pid k).threads i) := by
  rcases exitTable_state pid k i other with same | ⟨_, ready⟩
  · unfold Runnable
    rw [same]
    exact runnable
  · exact Or.inl ready

/-- When `sched_exit_status` finds no other thread, there was none to find. -/
theorem nobodyElse_of_halts (pid : Option Word) (valid : k.cur < k.table.threadCapacity)
    (halts : findNextRunnable (exitTable pid k) k.cur = k.cur) : NobodyElse k pid := by
  intro i hi other
  have none := findNextRunnable_self (exitTable pid k) k.cur
    (by rw [exitTable_capacity]; exact valid) halts i (by rw [exitTable_capacity]; exact hi) other
  constructor
  · intro runnable
    exact none (exitTable_runnable pid i other runnable)
  · rintro ⟨blocked, waiting⟩
    exact none (Or.inl (exitTable_wakes pid i hi other blocked waiting))

/-! ## One lemma for each way to give up the CPU -/

/-- The running thread goes on somewhere that is no halt loop. -/
theorem LoopsOpen.moved (opened : LoopsOpen k) (wf : WellFormed t) (hcur : t.cur = k.cur)
    (elsewhere : ¬ Waits (t.place k.cur)) (hplace : ∀ i, i ≠ k.cur → t.place i = k.place i)
    (hsaved : t.savedIf = k.savedIf) : LoopsOpen t := by
  refine ⟨wf, fun waits => absurd (hcur ▸ waits) elsewhere, ?_⟩
  intro i other waits
  rw [hcur] at other
  rw [hplace i other] at waits
  rw [hsaved]
  exact opened.suspended i other waits

/-- A step that leaves the running thread where it is, with its flag. -/
theorem LoopsOpen.stayed (opened : LoopsOpen k) (wf : WellFormed t) (hcur : t.cur = k.cur)
    (hplace : t.place = k.place) (hsaved : t.savedIf = k.savedIf)
    (hint : t.interrupts = k.interrupts) : LoopsOpen t := by
  constructor
  · exact wf
  · rw [hcur, hplace, hint]
    exact opened.running
  · rw [hcur, hplace, hsaved]
    exact opened.suspended

/-- The CPU goes to `next`, with the flag that thread was left with; the old
one keeps `resumeIf`, set if it was in a halt loop. -/
theorem LoopsOpen.switched (opened : LoopsOpen k) (wf : WellFormed t) (next : Nat)
    (resumeIf : Bool) (moved : next ≠ k.cur) (hcur : t.cur = next) (hplace : t.place = k.place)
    (hsaved : t.savedIf = Function.update k.savedIf k.cur resumeIf)
    (hint : t.interrupts = k.savedIf next)
    (resumes : Waits (k.place k.cur) → resumeIf = true) : LoopsOpen t := by
  constructor
  · exact wf
  · rw [hcur, hplace, hint]
    exact opened.suspended next moved
  · intro i _ waits
    rw [hplace] at waits
    rw [hsaved]
    cases Decidable.em (i = k.cur) with
    | inl same =>
      rw [same] at waits
      rw [same, Function.update_self]
      exact resumes waits
    | inr other =>
      rw [Function.update_of_ne other]
      exact opened.suspended i other waits

theorem LoopsOpen.schedYield (opened : LoopsOpen k) (resumeIf : Bool)
    (resumes : Waits (k.place k.cur) → resumeIf = true) : LoopsOpen (schedYield resumeIf k) := by
  have wf := opened.wellFormed.schedYield resumeIf
  rcases schedYield_cases resumeIf k opened.wellFormed.current with
    ⟨_, stays⟩ | ⟨next, _, moved, _, switches⟩
  · rw [stays]
    exact opened
  · rw [switches] at wf ⊢
    exact opened.switched wf next resumeIf moved rfl rfl rfl rfl resumes

theorem LoopsOpen.schedTick (opened : LoopsOpen k) : LoopsOpen (schedTick k) := by
  have counted : LoopsOpen (countTick k) :=
    opened.stayed opened.wellFormed.countTick rfl rfl rfl rfl
  rcases schedTick_cases k with ⟨_, counts⟩ | ⟨_, yields⟩
  · rw [counts]
    exact counted
  · rw [yields]
    exact counted.schedYield true (fun _ => rfl)

theorem LoopsOpen.schedSleep (opened : LoopsOpen k) (channel : Word)
    (code : k.place k.cur = .code) : LoopsOpen (schedSleep channel k) := by
  have wf := opened.wellFormed.schedSleep channel
  rcases schedSleep_cases channel k opened.wellFormed.current with
    idles | ⟨next, _, moved, _, switches⟩
  · rw [idles] at wf ⊢
    -- `sti` before the loop
    refine ⟨wf, fun _ => rfl, ?_⟩
    intro i other waits
    exact opened.suspended i other (moveTo_other k _ i other ▸ waits)
  · rw [switches] at wf ⊢
    refine opened.switched wf next k.interrupts moved rfl rfl rfl rfl ?_
    intro waits
    rw [code] at waits
    exact waits.elim

theorem LoopsOpen.schedExitStatus (opened : LoopsOpen k) (pid : Option Word)
    (flag : NobodyElse k pid → k.interrupts = true) : LoopsOpen (schedExitStatus pid k) := by
  have wf := opened.wellFormed.schedExitStatus pid
  rcases schedExitStatus_cases pid k opened.wellFormed.current with
    ⟨halts, stays⟩ | ⟨next, _, moved, _, switches⟩
  · have on := flag (nobodyElse_of_halts pid opened.wellFormed.current halts)
    rw [stays] at wf ⊢
    refine ⟨wf, fun _ => on, ?_⟩
    intro i other waits
    have other' : i ≠ k.cur := by
      rw [← exitTable_current pid k]
      exact other
    exact opened.suspended i other' (moveTo_other k _ i other' ▸ waits)
  · rw [switches] at wf ⊢
    constructor
    · exact wf
    · intro waits
      exact opened.suspended next moved (moveTo_other k _ next moved ▸ waits)
    · intro i _ waits
      have other : i ≠ k.cur := by
        intro same
        rw [same] at waits
        exact absurd waits (by rw [moveTo_self]; exact id)
      exact opened.suspended i other (moveTo_other k _ i other ▸ waits)

theorem LoopsOpen.schedKill (opened : LoopsOpen k) (tid : Nat) (pid : Option Word)
    (flag : tid = k.cur → NobodyElse k pid → k.interrupts = true) :
    LoopsOpen (schedKill tid pid k) := by
  have wf := opened.wellFormed.schedKill tid pid
  unfold Sched.schedKill at wf ⊢
  by_cases outside : k.table.threadCapacity ≤ tid
  · rw [if_pos outside]
    exact opened
  rw [if_neg outside] at wf ⊢
  by_cases own : tid = k.cur
  · rw [if_pos own]
    exact opened.schedExitStatus pid (flag own)
  rw [if_neg own] at wf ⊢
  by_cases dead : k.stateOf tid = .unused ∨ k.stateOf tid = .zombie
  · rw [if_pos dead]
    exact opened
  · rw [if_neg dead] at wf ⊢
    exact opened.stayed wf rfl rfl rfl rfl

theorem publish_open (opened : LoopsOpen k) (req : SpawnRequest) (stack : GuardedStack)
    (block : Option (Nat → Thread)) (answer : Option GuardedStack) (slot : Nat)
    (wf : WellFormed (spawnStep req block answer k (.publish slot stack))) :
    LoopsOpen (spawnStep req block answer k (.publish slot stack)) := by
  have place : (spawnStep req block answer k (.publish slot stack)).place =
      Function.update (Function.update k.place slot .code) k.cur
        (.spawning req (.fill slot stack)) := rfl
  have saved : (spawnStep req block answer k (.publish slot stack)).savedIf =
      Function.update k.savedIf slot true := rfl
  constructor
  · exact wf
  · intro waits
    have running : (spawnStep req block answer k (.publish slot stack)).cur = k.cur := rfl
    rw [place, running, Function.update_self] at waits
    exact waits.elim
  · intro i other waits
    have other' : i ≠ k.cur := other
    rw [place, Function.update_of_ne other'] at waits
    rw [saved]
    cases Decidable.em (i = slot) with
    | inl same => rw [same, Function.update_self]
    | inr otherSlot =>
      rw [Function.update_of_ne otherSlot] at waits ⊢
      exact opened.suspended i other' waits

theorem LoopsOpen.spawnStep (opened : LoopsOpen k) (req : SpawnRequest)
    (block : Option (Nat → Thread)) (stack : Option GuardedStack) (phase : SpawnPhase)
    (place : k.place k.cur = .spawning req phase) :
    LoopsOpen (spawnStep req block stack k phase) := by
  have ok := opened.wellFormed.spawns k.cur
  rw [place] at ok
  have wf := opened.wellFormed.spawnStep req block stack phase ok
  have moves {u : Kernel} (p : Place) (wf : WellFormed u) (hcur : u.cur = k.cur)
      (hplace : u.place = (k.moveTo p).place) (hsaved : u.savedIf = k.savedIf)
      (elsewhere : ¬ Waits p) : LoopsOpen u := by
    refine opened.moved wf hcur ?_ (fun i other => ?_) hsaved
    · rw [hplace, moveTo_self]
      exact elsewhere
    · rw [hplace, moveTo_other k p i other]
  cases phase with
  | scan j =>
    simp only [Sched.spawnStep] at wf ⊢
    by_cases inside : j < k.table.threadCapacity
    · rw [if_pos inside] at wf ⊢
      by_cases unused : k.stateOf j = .unused
      · rw [if_pos unused] at wf ⊢
        exact moves _ wf rfl rfl rfl id
      · rw [if_neg unused] at wf ⊢
        exact moves _ wf rfl rfl rfl id
    · rw [if_neg inside] at wf ⊢
      exact moves _ wf rfl rfl rfl id
  | grow previous newCapacity =>
    cases block with
    | none => exact moves .code wf rfl rfl rfl id
    | some b => exact moves (.spawning req (.stack previous)) wf rfl rfl rfl id
  | stack slot =>
    cases stack with
    | none => exact moves .code wf rfl rfl rfl id
    | some st => exact moves (.spawning req (.publish slot st)) wf rfl rfl rfl id
  | publish slot st => exact publish_open opened req st block stack slot wf
  | fill slot st => exact moves .code wf rfl rfl rfl id

theorem LoopsOpen.leaveIdle (opened : LoopsOpen k) (flags : Bool) :
    LoopsOpen (leaveIdle flags k) := by
  refine opened.moved (opened.wellFormed.leaveIdle flags) rfl ?_ (moveTo_other k .code) rfl
  exact fun waits => absurd waits (by simp [Sched.leaveIdle, moveTo_self, Waits])

/-- Every step that meets `ExitsOpen` keeps the loops open. -/
theorem step_open (k : Kernel) (e : Event) (t : Kernel) (opened : LoopsOpen k)
    (ok : ExitsOpen k e) (h : step k e = some t) : LoopsOpen t := by
  have wf := step_wellFormed opened.wellFormed h
  cases e with
  | timer =>
    obtain ⟨_, rfl⟩ := interrupt_eq_some.mp h
    exact opened.schedTick
  | keyboard channel =>
    obtain ⟨_, rfl⟩ := interrupt_eq_some.mp h
    exact opened.stayed wf rfl rfl rfl rfl
  | setIf on =>
    obtain ⟨code, rfl⟩ := call_eq_some.mp h
    exact opened.moved wf rfl (by rw [code]; exact id) (fun _ _ => rfl) rfl
  | yield =>
    obtain ⟨code, rfl⟩ := call_eq_some.mp h
    exact opened.schedYield _ (fun waits => absurd waits (by rw [code]; exact id))
  | sleep channel =>
    obtain ⟨code, rfl⟩ := call_eq_some.mp h
    exact opened.schedSleep channel code
  | wakeup channel =>
    obtain ⟨_, rfl⟩ := call_eq_some.mp h
    exact opened.stayed wf rfl rfl rfl rfl
  | exit pid =>
    obtain ⟨_, rfl⟩ := call_eq_some.mp h
    exact opened.schedExitStatus pid ok
  | kill tid pid =>
    obtain ⟨_, rfl⟩ := call_eq_some.mp h
    exact opened.schedKill tid pid ok
  | reap tid =>
    obtain ⟨_, rfl⟩ := call_eq_some.mp h
    have hcur : (reapZombie k.table tid).currentThread = k.cur := by
      unfold reapZombie
      split <;> rfl
    exact opened.stayed wf hcur rfl rfl rfl
  | spawn req =>
    obtain ⟨_, rfl⟩ := call_eq_some.mp h
    exact opened.moved wf rfl (by rw [moveTo_self]; exact id) (moveTo_other k _) rfl
  | spawnStep block stack =>
    obtain ⟨req, phase, place, rfl⟩ := spawnStep_eq_some.mp h
    exact opened.spawnStep req block stack phase place
  | idleCheck =>
    obtain ⟨flags, _, _, rfl⟩ := idleCheck_eq_some.mp h
    exact opened.leaveIdle flags

theorem boot_open (block : Nat → Thread) (stack : GuardedStack) (kernelSpace : Word) :
    LoopsOpen (boot block stack kernelSpace) :=
  ⟨boot_wellFormed block stack kernelSpace, fun waits => waits.elim, fun _ _ waits => waits.elim⟩

/-- A CPU that waits in a halt loop can be reached by the timer and by every
key, which is what makes a blocked thread ready again. -/
def Responsive (k : Kernel) : Prop :=
  Waits (k.place k.cur) → k.interrupts = true ∧ (step k .timer).isSome ∧
    ∀ channel, step k (.keyboard channel) =
      some { k with table := schedWakeup k.table channel }

theorem LoopsOpen.responsive (opened : LoopsOpen k) : Responsive k := by
  intro waits
  have on := opened.running waits
  exact ⟨on, by simp [step, interrupt, on], fun channel => by simp [step, interrupt, on]⟩

/-- In every run in which the last thread exits with interrupts on only, every
halt loop that is reached has interrupts on. -/
theorem halt_loops_responsive (block : Nat → Thread) (stack : GuardedStack) (kernelSpace : Word)
    (es : List Event) (k : Kernel)
    (exits : Meets step ExitsOpen (boot block stack kernelSpace) es)
    (reached : run step (boot block stack kernelSpace) es = some k) : Responsive k :=
  (Lib.Machine.run_invariant step_open (boot_open block stack kernelSpace) exits reached).responsive

/-- Thread 0 waits for the keyboard, thread 1 idles for another channel. -/
def everyoneSleeps : List Event := spawnInto 1 ++ [.sleep 0x9000, .sleep 0x9008]

theorem halt_loops_responsive_idle :
    ∃ k, run step firstBoot everyoneSleeps = some k ∧ Waits (k.place k.cur) ∧ Responsive k := by
  have ran : (run step firstBoot everyoneSleeps).isSome := by decide +kernel
  obtain ⟨k, hk⟩ := Option.isSome_iff_exists.mp ran
  have idle : ∀ k ∈ run step firstBoot everyoneSleeps, Waits (k.place k.cur) := by decide +kernel
  exact ⟨k, hk, idle k hk, halt_loops_responsive (blockOfUid 0) someStack 0x1000 everyoneSleeps k
    (by decide +kernel) hk⟩

/-- Thread 0 waits for the keyboard; thread 1 enters SYS_EXIT through its gate. -/
def exitFromSyscall : List Event :=
  .setIf true :: spawnInto 1 ++ [.sleep 0x9000, .setIf false, .exit none]

/-- The last `hlt` loop then has interrupts off, for good. -/
theorem exit_from_syscall_hangs :
    ¬ ∀ block stack kernelSpace es k, run step (boot block stack kernelSpace) es = some k →
      Responsive k := by
  intro claim
  have ran : (run step firstBoot exitFromSyscall).isSome := by decide +kernel
  obtain ⟨k, hk⟩ := Option.isSome_iff_exists.mp ran
  have hangs : ∀ k ∈ run step firstBoot exitFromSyscall,
      Waits (k.place k.cur) ∧ k.interrupts = false := by decide +kernel
  obtain ⟨waits, off⟩ := hangs k hk
  have on := (claim _ _ _ exitFromSyscall k hk waits).1
  rw [off] at on
  cases on

end MiniKernel.Sched
