import MiniKernel.Proc.PipeCounts
import MiniKernel.Proc.Waits

/-!
# Nobody sleeps on a pipe for nothing

Source: kernel/core/pipe.c, kernel/core/fd.c (`release_slot`), kernel/sched/thread.c
(`sched_sleep`, `sched_wakeup`, `sched_kill`). Every operation that ends what a sleeper waits
for wakes the pipe's channel afterwards. The end of a thread is none of them: a killed
writer counts until its parent has reaped it.
-/
namespace MiniKernel.Proc
open Memory.Paging (Word)
open Sched
open Ipc

variable {ok : System → Risk → Prop} {s t : System}

/-- The sleepers of `t` slept before, in the same loop and on the same channel. -/
def NoNewSleepers (s t : System) : Prop :=
  ∀ u < t.threads.threadCapacity, t.kernel.stateOf u = .blocked → t.activity u ≠ .none →
    u < s.threads.threadCapacity ∧ s.kernel.stateOf u = .blocked ∧
      (t.threads.threads u).waitChannel = (s.threads.threads u).waitChannel ∧
      t.activity u = s.activity u

/-- Nothing that the pipe's sleepers wait for has happened between the two. -/
structure StillAwaited (p q : Pipe) : Prop where
  inUse : q.inUse = p.inUse
  count : q.count = p.count
  readers : 0 < p.readers → 0 < q.readers
  writers : 0 < p.writers → 0 < q.writers

theorem StillAwaited.refl (p : Pipe) : StillAwaited p p := ⟨rfl, rfl, id, id⟩

/-- Why a thread sleeps on this channel in a loop of a pipe. -/
def OnPipe (s : System) (channel : Word) : Activity → Prop
  | .waiting _ => True
  | a => SleepsOn s channel a

structure Sleepers (s : System) : Prop where
  counted : Counted s
  asleep : ∀ u < s.threads.threadCapacity, s.kernel.stateOf u = .blocked →
    OnPipe s (s.threads.threads u).waitChannel (s.activity u)

theorem OnPipe.kept {channel : Word} {a : Activity} (onPipe : OnPipe s channel a)
    (address : t.pipesAddress = s.pipesAddress)
    (pipes : ∀ i : Fin pipeMax, (s.pipes i).inUse = true → channel = s.pipeChannel i.val →
      StillAwaited (s.pipes i) (t.pipes i)) : OnPipe t channel a := by
  have same (idx : Int) : t.pipeChannel idx = s.pipeChannel idx := by
    rw [System.pipeChannel, System.pipeChannel, address]
  cases a with
  | none => trivial
  | waiting pid => trivial
  | reading idx len =>
    obtain ⟨i, rfl, on, used, empty, writers⟩ := onPipe
    have awaited := pipes i used on
    exact ⟨i, rfl, on.trans (same _).symm, awaited.inUse.trans used, awaited.count.trans empty,
      awaited.writers writers⟩
  | writing idx src =>
    obtain ⟨i, rfl, on, used, full, readers⟩ := onPipe
    have awaited := pipes i used on
    exact ⟨i, rfl, on.trans (same _).symm, awaited.inUse.trans used, awaited.count ▸ full,
      awaited.readers readers⟩

/-- A pipe is as its sleepers left it, or it has none any more. -/
theorem Sleepers.of_pipes (sleepers : Sleepers s) (counted : Counted t) (kept : NoNewSleepers s t)
    (address : t.pipesAddress = s.pipesAddress)
    (pipes : ∀ i : Fin pipeMax, (s.pipes i).inUse = true →
      StillAwaited (s.pipes i) (t.pipes i) ∨
        ∀ u < t.threads.threadCapacity, t.kernel.stateOf u = .blocked → t.activity u ≠ .none →
          (t.threads.threads u).waitChannel ≠ s.pipeChannel i.val) : Sleepers t := by
  refine ⟨counted, fun u inTable blocked => ?_⟩
  by_cases loop : t.activity u = .none
  · rw [loop]
    trivial
  obtain ⟨before, was, channel, activity⟩ := kept u inTable blocked loop
  have onPipe := sleepers.asleep u before was
  rw [← channel, ← activity] at onPipe
  refine onPipe.kept address fun i used on => ?_
  exact (pipes i used).resolve_right fun woken => woken u inTable blocked loop on

/-! ## Who sleeps after a part -/

theorem Quiet.noNew (quiet : Quiet s t) : NoNewSleepers s t := by
  intro u inTable blocked loop
  rw [quiet.capacity] at inTable
  exact ⟨inTable, quiet.asleep u blocked loop⟩

theorem died_noNew (s : System) (status : BitVec 32) : NoNewSleepers s (die status s) := by
  obtain ⟨kernel, _, activity, _⟩ := die_parts status s
  have moved : Reschedules (dying s.kernel) (die status s).kernel := by
    rw [kernel]
    exact dead_reschedules _ s.kernel
  intro u inTable blocked _
  obtain ⟨was, channel⟩ := moved.blocked blocked
  have state : (dying s.kernel).stateOf u = if u = s.cur then .zombie else s.kernel.stateOf u :=
    setState_state s.kernel.table s.cur u .zombie
  rw [state] at was
  split at was
  · cases was
  · next other =>
    have kept : (dying s.kernel).table.threads u = s.threads.threads u :=
      updThread_other _ _ _ _ other
    rw [kept] at channel
    change u < (die status s).kernel.table.threadCapacity at inTable
    rw [moved.capacity] at inTable
    exact ⟨inTable, was, channel, congrFun activity u⟩

theorem killed_noNew (s : System) (tid : Nat) (status : BitVec 32) :
    NoNewSleepers s (killOther tid status s) := by
  obtain ⟨kernel, _, activity, _⟩ := killOther_parts tid status s
  have moved : Reschedules (slain tid s.kernel) (killOther tid status s).kernel := by
    rw [kernel]
    exact markExited_reschedules (slain tid s.kernel) _
  intro u inTable blocked _
  obtain ⟨was, channel⟩ := moved.blocked blocked
  rw [slain_stateOf] at was
  split at was
  · cases was
  · next other =>
    have kept : (slain tid s.kernel).table.threads u = s.threads.threads u :=
      updThread_other _ _ _ _ other
    rw [kept] at channel
    change u < (killOther tid status s).kernel.table.threadCapacity at inTable
    rw [moved.capacity] at inTable
    exact ⟨inTable, was, channel, congrFun activity u⟩

theorem Seated.noNew {slot : Nat} (seated : Seated s t slot)
    (awake : slot < t.threads.threadCapacity → t.kernel.stateOf slot ≠ .blocked) :
    NoNewSleepers s t := by
  intro u inTable blocked _
  have other : u ≠ slot := by
    rintro rfl
    exact awake inTable blocked
  have before := seated.old u inTable (by rw [blocked]; nofun) other
  obtain ⟨state, channel, _, activity, _⟩ := seated.kept u before other
  exact ⟨before, state.symm.trans blocked, channel, activity⟩

theorem collected_noNew {pid : Int} {i : Fin processMax} (found : findProcess s.table pid = some i) :
    NoNewSleepers s (collect pid i s) := by
  rw [collect_eq pid i s found]
  intro u inTable blocked loop
  change u < (buried i s).threads.threadCapacity at inTable
  change ((buried i s).threads.threads u).state = _ at blocked
  change Function.update s.activity s.cur .none u ≠ _ at loop
  change _ ∧ _ ∧ ((buried i s).threads.threads u).waitChannel = _ ∧
    Function.update s.activity s.cur .none u = _
  rw [(buried_keeps s i).1] at inTable
  have same : (buried i s).threads.threads u = s.threads.threads u := by
    rcases buried_slot s i u with same | ⟨_, _, reaped⟩
    · exact same
    · rw [reaped] at blocked
      cases blocked
  rw [Function.update_apply] at loop ⊢
  split at loop
  · exact absurd rfl loop
  · next other =>
    rw [same] at blocked ⊢
    rw [if_neg other]
    exact ⟨inTable, blocked, rfl, rfl⟩

theorem refused_noNew (s : System) (pid : Int) : NoNewSleepers s (refuse pid s) :=
  (quiet_loopEnded s).noNew

/-- A wakeup leaves no sleeper on its channel. -/
theorem wake_wakes (s : System) (channel : Word) (u : Nat)
    (inTable : u < (s.wake channel).threads.threadCapacity)
    (blocked : (s.wake channel).kernel.stateOf u = .blocked) :
    ((s.wake channel).threads.threads u).waitChannel ≠ channel :=
  schedWakeup_wakes s.threads channel u inTable blocked

/-! ## The parts -/

/-- The pipes in use stay as they are. -/
theorem Sleepers.same (sleepers : Sleepers s) (counted : Counted t) (kept : NoNewSleepers s t)
    (address : t.pipesAddress = s.pipesAddress) (pipes : t.pipes = s.pipes) : Sleepers t :=
  sleepers.of_pipes counted kept address fun _ _ => Or.inl (pipes ▸ StillAwaited.refl _)

theorem Sleepers.fellAsleep (sleepers : Sleepers s) {a : Activity} {channel : Word}
    (reason : SleepsOn s channel a)
    (counted : Counted { s.doing a with kernel := fallAsleep channel s.kernel }) :
    Sleepers { s.doing a with kernel := fallAsleep channel s.kernel } := by
  refine ⟨counted, fun u inTable blocked => ?_⟩
  change u < s.threads.threadCapacity at inTable
  change (fallAsleep channel s.kernel).stateOf u = _ at blocked
  change OnPipe _ ((fallAsleep channel s.kernel).table.threads u).waitChannel
    (Function.update s.activity s.cur a u)
  by_cases same : u = s.cur
  · have on : ((fallAsleep channel s.kernel).table.threads u).waitChannel = channel := by
      change ((updThread s.kernel.table s.kernel.cur _).threads u).waitChannel = _
      rw [show u = s.kernel.cur from same, updThread_same]
    rw [on, same, Function.update_self]
    cases a with
    | none => trivial
    | waiting pid => trivial
    | reading idx len => exact reason
    | writing idx src => exact reason
  · rw [fallAsleep_stateOf, if_neg (show u ≠ s.kernel.cur from same)] at blocked
    rw [fallAsleep, updThread_other _ _ _ _ (show u ≠ s.kernel.cur from same),
      Function.update_of_ne same]
    exact (sleepers.asleep u inTable blocked).kept rfl fun _ _ _ => StillAwaited.refl _

theorem Sleepers.transferred (sleepers : Sleepers s) {i : Fin pipeMax} {p : Pipe}
    (counted : Counted (({ s with pipes := Function.update s.pipes i p }.doing .none).wake
      (s.pipeChannel i.val))) :
    Sleepers (({ s with pipes := Function.update s.pipes i p }.doing .none).wake
      (s.pipeChannel i.val)) := by
  have quiet := ((quiet_pipes s (Function.update s.pipes i p)).trans (quiet_loopEnded _)).trans
    (quiet_wake _ (s.pipeChannel i.val))
  refine sleepers.of_pipes counted quiet.noNew rfl fun j _ => ?_
  by_cases here : j = i
  · subst here
    exact Or.inr fun u inTable blocked _ => wake_wakes _ _ u inTable blocked
  · left
    change StillAwaited _ (Function.update s.pipes i p j)
    rw [Function.update_of_ne here]
    exact .refl _

theorem Sleepers.closed (sleepers : Sleepers s) (tid : Nat) (fd : Fin threadMaxFds)
    (counted : Counted (closeFdOf tid fd s)) : Sleepers (closeFdOf tid fd s) := by
  have quiet := quiet_closed tid fd s
  rcases releaseSlot_cases ((s.threads.threads tid).fds fd) s with
    ⟨i, lower, _, _, _, releases⟩ | ⟨_, nothing⟩
  · let lowered : System := { s with pipes := Function.update s.pipes i (lower (s.pipes i)) }
    let woken := lowered.wake (s.pipeChannel i.val)
    have closes : closeFdOf tid fd s =
        woken.withThreads (setFd woken.threads tid fd resetFdSlot) := by
      simp only [closeFdOf, releases]
      rfl
    rw [closes] at quiet counted ⊢
    refine sleepers.of_pipes counted quiet.noNew rfl fun j _ => ?_
    by_cases here : j = i
    · subst here
      refine Or.inr fun u inTable blocked loop => ?_
      obtain ⟨was, channel, _⟩ := (quiet_setFd woken tid fd resetFdSlot).asleep u blocked loop
      rw [channel]
      exact wake_wakes lowered _ u inTable was
    · left
      change StillAwaited _ (Function.update s.pipes i _ j)
      rw [Function.update_of_ne here]
      exact .refl _
  · have closes : closeFdOf tid fd s = s.withThreads (setFd s.threads tid fd resetFdSlot) := by
      simp only [closeFdOf, nothing]
    rw [closes] at quiet counted ⊢
    exact sleepers.same counted quiet.noNew rfl rfl

theorem Sleepers.threadSpawned (sleepers : Sleepers s) (req : SpawnRequest)
    (block : Option (Nat → Thread)) (stack : Option GuardedStack)
    (counted : Counted (startThread req block stack kernelThread s).2) :
    Sleepers (startThread req block stack kernelThread s).2 := by
  obtain ⟨grown, grows, fails | ⟨slot, st, _, _, starts⟩⟩ :=
    startThread_cases req block stack kernelThread s
  · rw [fails] at counted ⊢
    exact sleepers.same counted
      ((grown_seated grows).noNew fun beyond => absurd beyond (Nat.lt_irrefl _)) rfl rfl
  · rw [starts] at counted ⊢
    refine sleepers.same counted
      ((seat_seated grows slot kernelThread req st s.kernel.kernelSpace).noNew fun _ => ?_) rfl rfl
    change ((startSlot req st s.kernel.kernelSpace slot grown).threads slot).state ≠ _
    rw [startSlot_self.1]
    nofun

theorem Sleepers.processSpawned (sleepers : Sleepers s) (a : SpawnAnswers)
    (counted : Counted (spawnElfRequest a s).2) : Sleepers (spawnElfRequest a s).2 := by
  rcases spawnElfRequest_cases a s with
    same | ⟨pid, table, _, grown, grows, fails | ⟨slot, st, _, _, spawns⟩⟩
  · rw [same]
    exact sleepers
  · rw [fails] at counted ⊢
    have seated := grown_seated (s := s.reserved table) grows
    exact sleepers.same counted
      (seated.noNew fun beyond => absurd beyond (Nat.lt_irrefl _)) rfl rfl
  · simp only at spawns
    rw [spawns] at counted ⊢
    have seated := seat_seated (s := s.reserved table) grows slot ⟨some s.history.pids, pid⟩
      a.request st s.kernel.kernelSpace
    refine sleepers.same counted (seated.noNew fun _ => ?_) rfl rfl
    change ((startSlot a.request st s.kernel.kernelSpace slot grown).threads slot).state ≠ _
    rw [startSlot_self.1]
    nofun

/-- A pipe that was not in use had no sleepers. -/
theorem Sleepers.updated (sleepers : Sleepers s) {i : Fin pipeMax} {p : Pipe}
    (free : (s.pipes i).inUse = false) (quiet : Quiet s t) (counted : Counted t)
    (address : t.pipesAddress = s.pipesAddress) (pipes : t.pipes = Function.update s.pipes i p) :
    Sleepers t := by
  refine sleepers.of_pipes counted quiet.noNew address fun j used => Or.inl ?_
  have other : j ≠ i := by
    rintro rfl
    rw [free] at used
    cases used
  rw [pipes, Function.update_of_ne other]
  exact .refl _

theorem Sleepers.redirected (sleepers : Sleepers s) {kind : FdKind} {raise : Pipe → Pipe}
    (ends : kind = .pipeRead ∧ raise = Pipe.addReader ∨ kind = .pipeWrite ∧ raise = Pipe.addWriter)
    (idx : Int) (quiet : Quiet s t) (counted : Counted t)
    (address : t.pipesAddress = s.pipesAddress) (pipes : t.pipes = (addEnd raise s.pipes idx).2) :
    Sleepers t := by
  refine sleepers.of_pipes counted quiet.noNew address fun j _ => Or.inl ?_
  have raised (p : Pipe) : StillAwaited p (raise p) := by
    rcases ends with ⟨_, rfl⟩ | ⟨_, rfl⟩
    · exact ⟨rfl, rfl, fun held => Int.lt_add_one_of_le (Int.le_of_lt held), id⟩
    · exact ⟨rfl, rfl, id, fun held => Int.lt_add_one_of_le (Int.le_of_lt held)⟩
  rw [pipes]
  rcases addEnd_at raise s.pipes idx j with more | same
  · rw [more]
    exact raised _
  · rw [same]
    exact .refl _

theorem Sleepers.part (sleepers : Sleepers s) (part : Part ok s t) : Sleepers t := by
  have counted := sleepers.counted.part part
  cases part with
  | scheduled moved => exact sleepers.same counted (quiet_scheduled moved).noNew rfl rfl
  | fellAsleep _ reason => exact sleepers.fellAsleep reason counted
  | loopEnded => exact sleepers.same counted (quiet_loopEnded s).noNew rfl rfl
  | transferred => exact sleepers.transferred counted
  | died =>
    refine sleepers.same counted (died_noNew s _) ?_ (die_parts _ s).2.2.2.1
    unfold die
    simp only
    split <;> rfl
  | killed =>
    refine sleepers.same counted (killed_noNew s _ _) ?_ (killOther_parts _ _ s).2.2.2.1
    unfold killOther markProcessExited
    simp only
    split <;> rfl
  | threadSpawned => exact sleepers.threadSpawned _ _ _ counted
  | processSpawned => exact sleepers.processSpawned _ counted
  | closed => exact sleepers.closed _ _ counted
  | @collected pid i _ found =>
    refine sleepers.same counted (collected_noNew found) ?_ ?_
    all_goals
      rw [collect_eq pid i s found]
      unfold buried bury
      split
      · split <;> rfl
      · rfl
  | refused => exact sleepers.same counted (refused_noNew s _) rfl rfl
  | redirected ends =>
    exact sleepers.redirected ends _ ((quiet_pipes s _).trans (quiet_setFd _ _ _ _)) counted rfl rfl
  | @piped i r w free =>
    have reading := (quiet_pipes s (Function.update s.pipes i (s.pipes i).opened)).trans
      (quiet_setFd _ s.cur r ⟨.pipeRead, i.val, 0⟩)
    exact sleepers.updated free (reading.trans (quiet_setFd _ s.cur w ⟨.pipeWrite, i.val, 0⟩))
      counted rfl rfl
  | pipeFailed free =>
    exact sleepers.updated free ((quiet_pipes s _).trans (quiet_withFds _ _ _)) counted rfl rfl
  | opened => exact sleepers.same counted (quiet_setFd _ _ _ _).noNew rfl rfl
  | started =>
    exact sleepers.same counted (fun _ inTable blocked _ => ⟨inTable, blocked, rfl, rfl⟩) rfl rfl

/-! ## Runs -/

end MiniKernel.Proc
