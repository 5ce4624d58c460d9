import MiniKernel.Proc.Steps

/-!
# A process record and its thread

Source: kernel/core/process.c, kernel/sched/thread.c (`reap_zombie`). Slots of
threads and records of processes are recycled separately; a record names its
thread by slot number. The link is exact as long as no spawn takes a pid that a
record still has: `find_process` would find that record instead of the new one.
-/
namespace MiniKernel.Proc
open Memory.Paging (Word)
open Sched
open Ipc

/-! ## Parts that leave processes alone -/

/-- The threads live on, and nobody falls asleep. -/
structure Quiet (s t : System) : Prop where
  table : t.table = s.table
  history : t.history = s.history
  capacity : t.threads.threadCapacity = s.threads.threadCapacity
  unused : ∀ i, t.kernel.stateOf i = .unused ↔ s.kernel.stateOf i = .unused
  zombie : ∀ i, i ≠ s.cur → s.kernel.stateOf i = .zombie →
    t.kernel.stateOf i = .zombie ∧ i ≠ t.cur
  final : ∀ i, Final (t.kernel.place i) ↔ Final (s.kernel.place i)
  asleep : ∀ i, t.kernel.stateOf i = .blocked → t.activity i ≠ .none →
    s.kernel.stateOf i = .blocked ∧
      (t.threads.threads i).waitChannel = (s.threads.threads i).waitChannel ∧
      t.activity i = s.activity i

variable {ok : System → Risk → Prop} {s t u : System}

theorem Quiet.trans (first : Quiet s t) (second : Quiet t u) : Quiet s u := by
  refine ⟨second.table.trans first.table, second.history.trans first.history,
    second.capacity.trans first.capacity, fun i => (second.unused i).trans (first.unused i),
    fun i other dead => ?_, fun i => (second.final i).trans (first.final i),
    fun i blocked loop => ?_⟩
  · obtain ⟨dead', other'⟩ := first.zombie i other dead
    exact second.zombie i other' dead'
  · obtain ⟨blocked', channel', loop'⟩ := second.asleep i blocked loop
    obtain ⟨blocked'', channel'', loop''⟩ := first.asleep i blocked' (loop' ▸ loop)
    exact ⟨blocked'', channel'.trans channel'', loop'.trans loop''⟩

theorem quiet_scheduled {k : Kernel} (moved : Reschedules s.kernel k) :
    Quiet s { s with kernel := k } :=
  ⟨rfl, rfl, moved.capacity, moved.unused, fun _ other dead => moved.zombie other dead,
    moved.place, fun _ blocked _ => ⟨(moved.blocked blocked).1, (moved.blocked blocked).2, rfl⟩⟩

theorem quiet_wake (s : System) (channel : Word) : Quiet s (s.wake channel) :=
  quiet_scheduled (wakeup_reschedules s.kernel channel)

theorem quiet_pipes (s : System) (pipes : Pipes) : Quiet s { s with pipes := pipes } :=
  ⟨rfl, rfl, rfl, fun _ => Iff.rfl, fun _ other dead => ⟨dead, other⟩, fun _ => Iff.rfl,
    fun _ blocked _ => ⟨blocked, rfl, rfl⟩⟩

theorem quiet_loopEnded (s : System) : Quiet s (s.doing .none) := by
  refine ⟨rfl, rfl, rfl, fun _ => Iff.rfl, fun _ other dead => ⟨dead, other⟩, fun _ => Iff.rfl,
    fun i blocked loop => ⟨blocked, rfl, ?_⟩⟩
  simp only [System.doing, Function.update_apply] at loop ⊢
  split
  · next same => simp [same] at loop
  · rfl

theorem quiet_withFds (s : System) (tid : Nat) (fds : Fin threadMaxFds → FdSlot) :
    Quiet s (s.withFds tid fds) := by
  have slot (i : Nat) : (s.withFds tid fds).kernel.stateOf i = s.kernel.stateOf i ∧
      ((s.withFds tid fds).threads.threads i).waitChannel =
        (s.threads.threads i).waitChannel := by
    change ((updThread s.threads tid _).threads i).state = _ ∧
      ((updThread s.threads tid _).threads i).waitChannel = _
    cases Decidable.em (i = tid) with
    | inl same =>
      rw [same, updThread_same]
      exact ⟨rfl, rfl⟩
    | inr other =>
      rw [updThread_other _ _ _ _ other]
      exact ⟨rfl, rfl⟩
  refine ⟨rfl, rfl, rfl, fun i => by rw [(slot i).1], fun i other dead => ⟨?_, other⟩,
    fun _ => Iff.rfl, fun i blocked _ => ⟨?_, (slot i).2, rfl⟩⟩
  · rw [(slot i).1]
    exact dead
  · rw [← (slot i).1]
    exact blocked

theorem quiet_setFd (s : System) (tid : Nat) (i : Fin threadMaxFds) (slot : FdSlot) :
    Quiet s (s.withThreads (setFd s.threads tid i slot)) := quiet_withFds ..

theorem quiet_closed (tid : Nat) (i : Fin threadMaxFds) (s : System) :
    Quiet s (closeFdOf tid i s) := by
  refine Quiet.trans ?_ (quiet_setFd _ tid i resetFdSlot)
  rcases releaseSlot_cases ((s.threads.threads tid).fds i) s with
    ⟨j, lower, _, _, _, releases⟩ | ⟨_, nothing⟩
  · rw [releases]
    exact (quiet_pipes s _).trans (quiet_wake _ _)
  · rw [nothing]
    exact quiet_pipes s s.pipes

/-! ## The link -/

/-- No record has the pid that the next process gets. -/
def FreshPid (s : System) : Prop :=
  ∀ i, (s.table.processes i).state ≠ .unused → (s.table.processes i).pid ≠ s.table.nextPid

/-- A record that names a slot names the slot of its own thread. -/
structure Linked (s : System) : Prop where
  slot : ∀ i tid, (s.table.processes i).state ≠ .unused → (s.table.processes i).tid = some tid →
    tid < s.threads.threadCapacity ∧ s.kernel.stateOf tid ≠ .unused ∧
      (s.history.occupant tid).process = some (s.history.serial i)
  distinct : ∀ i j tid, (s.table.processes i).state ≠ .unused →
    (s.table.processes j).state ≠ .unused → (s.table.processes i).tid = some tid →
    (s.table.processes j).tid = some tid → i = j
  pids : DistinctPids s.table

/-- Slots stay in use, and the records keep pid and thread. -/
theorem Linked.of_records (linked : Linked s)
    (capacity : s.threads.threadCapacity ≤ t.threads.threadCapacity)
    (used : ∀ i < s.threads.threadCapacity, s.kernel.stateOf i ≠ .unused →
      t.kernel.stateOf i ≠ .unused ∧ t.history.occupant i = s.history.occupant i)
    (records : ∀ i, (t.table.processes i).state ≠ .unused →
      (s.table.processes i).state ≠ .unused ∧
        (t.table.processes i).tid = (s.table.processes i).tid ∧
        (t.table.processes i).pid = (s.table.processes i).pid)
    (serial : ∀ i, (t.table.processes i).state ≠ .unused →
      t.history.serial i = s.history.serial i) : Linked t := by
  constructor
  · intro i tid inUse record
    obtain ⟨was, tid', _⟩ := records i inUse
    obtain ⟨inTable, live, own⟩ := linked.slot i tid was (tid' ▸ record)
    obtain ⟨live', same⟩ := used tid inTable live
    rw [serial i inUse, same]
    exact ⟨Nat.lt_of_lt_of_le inTable capacity, live', own⟩
  · intro i j tid inUse inUse' record record'
    obtain ⟨was, tid', _⟩ := records i inUse
    obtain ⟨was', tid'', _⟩ := records j inUse'
    exact linked.distinct i j tid was was' (tid' ▸ record) (tid'' ▸ record')
  · intro i j inUse inUse' same
    obtain ⟨was, _, pid⟩ := records i inUse
    obtain ⟨was', _, pid'⟩ := records j inUse'
    rw [pid, pid'] at same
    exact linked.pids i j was was' same

theorem Linked.quiet (linked : Linked s) (quiet : Quiet s t) : Linked t := by
  refine linked.of_records (Nat.le_of_eq quiet.capacity.symm) (fun i _ live => ⟨?_, ?_⟩) ?_
    fun i _ => ?_
  · rw [ne_eq, quiet.unused]
    exact live
  · rw [quiet.history]
  · intro i inUse
    rw [quiet.table] at inUse ⊢
    exact ⟨inUse, rfl, rfl⟩
  · rw [quiet.history]

/-! ## The parts that change a process -/

/-- A record that changes its state and status only. -/
theorem records_kept {p : ProcessTable} {i : Fin processMax} {r : Process}
    (inUse : (p.processes i).state ≠ .unused) (pid : r.pid = (p.processes i).pid)
    (tid : r.tid = (p.processes i).tid) (j : Fin processMax)
    (used : ((setRecord p i r).processes j).state ≠ .unused) :
    (p.processes j).state ≠ .unused ∧
      ((setRecord p i r).processes j).tid = (p.processes j).tid ∧
      ((setRecord p i r).processes j).pid = (p.processes j).pid := by
  cases Decidable.em (j = i) with
  | inl same =>
    rw [same, setRecord_same]
    exact ⟨inUse, tid, pid⟩
  | inr other =>
    rw [setRecord_other _ _ _ _ other] at used ⊢
    exact ⟨used, rfl, rfl⟩

theorem markExited_records (p : ProcessTable) (tid : Nat) (status : BitVec 32)
    (j : Fin processMax)
    (used : ((processMarkExited p tid status).processes j).state ≠ .unused) :
    (p.processes j).state ≠ .unused ∧
      ((processMarkExited p tid status).processes j).tid = (p.processes j).tid ∧
      ((processMarkExited p tid status).processes j).pid = (p.processes j).pid := by
  unfold processMarkExited at used ⊢
  cases found : findProcessByTid p tid with
  | none =>
    rw [found] at used
    exact ⟨used, rfl, rfl⟩
  | some i =>
    simp only [found] at used ⊢
    refine records_kept (findProcessByTid_some found).1 ?_ ?_ j used <;> rfl

theorem started_records (p : ProcessTable) (tid : Nat) (j : Fin processMax)
    (used : ((processStarted p tid).processes j).state ≠ .unused) :
    (p.processes j).state ≠ .unused ∧
      ((processStarted p tid).processes j).tid = (p.processes j).tid ∧
      ((processStarted p tid).processes j).pid = (p.processes j).pid := by
  unfold processStarted at used ⊢
  cases found : findProcessByTid p tid with
  | none =>
    rw [found] at used
    exact ⟨used, rfl, rfl⟩
  | some i =>
    simp only [found] at used ⊢
    refine records_kept (findProcessByTid_some found).1 ?_ ?_ j used <;> rfl

theorem dead_used (k : Kernel) (pid : Option Word) (i : Nat) (used : k.stateOf i ≠ .unused) :
    (dead pid k).stateOf i ≠ .unused := by
  rw [ne_eq, (dead_reschedules pid k).unused]
  change ¬ ((setState k.table k.cur .zombie).threads i).state = .unused
  rw [setState_state]
  split
  · nofun
  · exact used

theorem die_parts (status : BitVec 32) (s : System) :
    (die status s).kernel = dead ((exitingPid s.table s.cur).map pidChannel) s.kernel ∧
      (die status s).table = processMarkExited s.table s.cur status ∧
      (die status s).activity = s.activity ∧ (die status s).pipes = s.pipes ∧
      (die status s).history.occupant = s.history.occupant ∧
      (die status s).history.serial = s.history.serial ∧
      (die status s).history.pids = s.history.pids := by
  unfold die
  cases exitingPid s.table s.cur <;> exact ⟨rfl, rfl, rfl, rfl, rfl, rfl, rfl⟩

/-- The kernel once thread `tid` is killed. -/
def slain (tid : Nat) (k : Kernel) : Kernel :=
  { k with
    table := updThread k.table tid
      { k.table.threads tid with state := .zombie, waitChannel := 0 } }

theorem killOther_parts (tid : Nat) (status : BitVec 32) (s : System) :
    (killOther tid status s).kernel = { s.kernel with
        table := markExited (slain tid s.kernel).table
          ((exitingPid s.table tid).map pidChannel) } ∧
      (killOther tid status s).table = processMarkExited s.table tid status ∧
      (killOther tid status s).activity = s.activity ∧ (killOther tid status s).pipes = s.pipes ∧
      (killOther tid status s).history.occupant = s.history.occupant ∧
      (killOther tid status s).history.serial = s.history.serial ∧
      (killOther tid status s).history.pids = s.history.pids := by
  simp only [killOther, markProcessExited, System.withThreads]
  cases exitingPid s.table tid <;> exact ⟨rfl, rfl, rfl, rfl, rfl, rfl, rfl⟩

theorem slain_stateOf (tid : Nat) (k : Kernel) (i : Nat) :
    (slain tid k).stateOf i = if i = tid then .zombie else k.stateOf i := by
  change ((updThread k.table tid _).threads i).state = _
  split
  · next same => rw [same, updThread_same]
  · next other =>
    rw [updThread_other _ _ _ _ other]
    rfl

theorem Linked.died (linked : Linked s) (status : BitVec 32) : Linked (die status s) := by
  obtain ⟨kernel, table, _, _, occupant, serial, _⟩ := die_parts status s
  have moved := dead_reschedules ((exitingPid s.table s.cur).map pidChannel) s.kernel
  refine linked.of_records ?_ (fun i _ live => ⟨?_, by rw [occupant]⟩) (fun i used => ?_)
    fun i _ => congrFun serial i
  · change _ ≤ (die status s).kernel.table.threadCapacity
    rw [kernel, moved.capacity]
    exact Nat.le_refl _
  · rw [kernel]
    exact dead_used _ _ i live
  · rw [table] at used ⊢
    exact markExited_records _ _ _ i used

theorem Linked.killed (linked : Linked s) (tid : Nat) (status : BitVec 32) :
    Linked (killOther tid status s) := by
  obtain ⟨kernel, table, _, _, occupant, serial, _⟩ := killOther_parts tid status s
  have moved := markExited_reschedules (slain tid s.kernel)
    ((exitingPid s.table tid).map pidChannel)
  refine linked.of_records ?_ (fun i _ live => ⟨?_, by rw [occupant]⟩) (fun i used => ?_)
    fun i _ => congrFun serial i
  · change _ ≤ (killOther tid status s).kernel.table.threadCapacity
    rw [kernel]
    exact Nat.le_of_eq moved.capacity.symm
  · rw [kernel]
    change (Kernel.stateOf { slain tid s.kernel with table := _ } i) ≠ _
    rw [ne_eq, moved.unused, slain_stateOf]
    split
    · nofun
    · exact live
  · rw [table] at used ⊢
    exact markExited_records _ _ _ i used

/-- Growing the table and seating a new thread in an unused slot. -/
theorem seat_used {grown : ThreadTable} (grows : Grows s.threads grown) {slot : Nat}
    (unused : (grown.threads slot).state = .unused) (owner : Occupant) (req : SpawnRequest)
    (st : GuardedStack) (kernelSpace : Word) (i : Nat) (inTable : i < s.threads.threadCapacity)
    (live : s.kernel.stateOf i ≠ .unused) :
    i ≠ slot ∧
      (s.seat slot owner (startSlot req st kernelSpace slot grown)).kernel.stateOf i =
        s.kernel.stateOf i ∧
      (s.seat slot owner (startSlot req st kernelSpace slot grown)).history.occupant i =
        s.history.occupant i := by
  have other : i ≠ slot := by
    intro same
    rw [← same, grows.stateOf inTable] at unused
    exact live unused
  refine ⟨other, ?_, Function.update_of_ne other ..⟩
  change ((startSlot req st kernelSpace slot grown).threads i).state = _
  rw [startSlot_other other, grows.stateOf inTable]
  rfl

theorem Linked.grown (linked : Linked s) {grown : ThreadTable} (grows : Grows s.threads grown) :
    Linked (s.withThreads grown) :=
  linked.of_records grows.capacity
    (fun i inTable live => ⟨by
      change (grown.threads i).state ≠ _
      rw [grows.stateOf inTable]
      exact live, rfl⟩) (fun i used => ⟨used, rfl, rfl⟩) fun _ _ => rfl

theorem Linked.threadSpawned (linked : Linked s) (req : SpawnRequest)
    (block : Option (Nat → Thread)) (stack : Option GuardedStack) (owner : Occupant) :
    Linked (startThread req block stack owner s).2 := by
  obtain ⟨grown, grows, fails | ⟨slot, st, inTable, unused, starts⟩⟩ :=
    startThread_cases req block stack owner s
  · rw [fails]
    exact linked.grown grows
  · rw [starts]
    refine linked.of_records grows.capacity (fun i old live => ?_)
      (fun i used => ⟨used, rfl, rfl⟩) fun _ _ => rfl
    obtain ⟨_, state, occupant⟩ :=
      seat_used grows unused owner req st s.kernel.kernelSpace i old live
    exact ⟨state ▸ live, occupant⟩

/-- The record that `reserve_process` fills. -/
def startingProcess (s : System) : Process :=
  { pid := s.table.nextPid, tid := none,
    parentPid := currentPid { s.table with nextPid := advancePid s.table.nextPid } s.cur,
    exitStatus := -1, state := .starting }

/-- The table with record `i` filled by `reserve_process`. -/
def startingTable (s : System) (i : Fin processMax) : ProcessTable :=
  setRecord { s.table with nextPid := advancePid s.table.nextPid } i (startingProcess s)

/-- The history of the spawn under way: record `i` belongs to the new process. -/
theorem reserve_starting {i : Fin processMax} (free : (s.table.processes i).state = .unused) :
    s.history.reserve s.table (startingTable s i) =
      { s.history with
        pids := s.history.pids + 1
        serial := Function.update s.history.serial i s.history.pids } := by
  have serial : (s.history.reserve s.table (startingTable s i)).serial =
      Function.update s.history.serial i s.history.pids := by
    funext j
    cases Decidable.em (j = i) with
    | inl same =>
      have taken : ((startingTable s i).processes i).state ≠ .unused := by
        rw [startingTable, setRecord_same]
        nofun
      rw [same, Function.update_self]
      exact if_pos ⟨free, taken⟩
    | inr other =>
      have kept : (startingTable s i).processes j = s.table.processes j :=
        setRecord_other _ _ _ _ other
      rw [Function.update_of_ne other]
      exact if_neg fun new => new.2 (kept ▸ new.1)
  rw [← serial]
  rfl

/-- When the pid is fresh, the search for it finds the record just reserved. -/
theorem findProcess_starting (fresh : FreshPid s) (i : Fin processMax) :
    findProcess (startingTable s i) s.table.nextPid = some i := by
  cases search : findProcess (startingTable s i) s.table.nextPid with
  | none =>
    have refused := findProcess_none search i (by
      rw [startingTable, setRecord_same]
      nofun)
    rw [startingTable, setRecord_same] at refused
    exact absurd rfl refused
  | some j =>
    obtain ⟨used, same⟩ := findProcess_some search
    cases Decidable.em (j = i) with
    | inl here => rw [here]
    | inr other =>
      rw [startingTable, setRecord_other _ _ _ _ other] at used same
      exact absurd same (fresh j used)

/-- What a spawn does when the pid is fresh. -/
theorem spawn_fresh (fresh : FreshPid s) (a : SpawnAnswers) :
    spawnElfRequest a s = (none, s) ∨
    ∃ i grown, (s.table.processes i).state = .unused ∧ Grows s.threads grown ∧
      (spawnElfRequest a s = (none,
          { (s.reserved (startingTable s i)).withThreads grown with
            table := setRecord (startingTable s i) i unusedProcess }) ∨
        ∃ slot st, slot < grown.threadCapacity ∧ (grown.threads slot).state = .unused ∧
          let seated := (s.reserved (startingTable s i)).seat slot
            ⟨some s.history.pids, s.table.nextPid⟩
            (startSlot a.request st s.kernel.kernelSpace slot grown)
          spawnElfRequest a s =
            (some s.table.nextPid,
              { seated with
                table := setRecord (startingTable s i) i
                  { startingProcess s with tid := some slot } }.note
                (.spawned s.table.nextPid seated.caller))) := by
  rcases spawnElfRequest_cases a s with same | ⟨pid, table, reserves, grown, grows, outcome⟩
  · exact Or.inl same
  · obtain ⟨i, free, isPid, isTable⟩ := reserveProcess_some reserves
    obtain rfl : pid = s.table.nextPid := isPid
    obtain rfl : table = startingTable s i := isTable
    have found := findProcess_starting fresh i
    refine Or.inr ⟨i, grown, free, grows, ?_⟩
    rcases outcome with fails | ⟨slot, st, inTable, unused, spawns⟩
    · left
      rw [fails, releaseProcess, found]
    · refine Or.inr ⟨slot, st, inTable, unused, ?_⟩
      have given : setProcessTid (startingTable s i) s.table.nextPid slot =
          setRecord (startingTable s i) i { startingProcess s with tid := some slot } := by
        have own : (startingTable s i).processes i = startingProcess s := setRecord_same ..
        rw [setProcessTid, found]
        simp only [own]
      simp only at spawns ⊢
      rw [spawns, given]

theorem startingTable_other {i j : Fin processMax} (s : System) (r : Process) (other : j ≠ i) :
    (setRecord (startingTable s i) i r).processes j = s.table.processes j := by
  rw [setRecord_other _ _ _ _ other, startingTable, setRecord_other _ _ _ _ other]

/-- A new record for a thread in a slot that was not in use. -/
theorem Linked.insert (linked : Linked s) {i : Fin processMax} {slot : Nat}
    (capacity : s.threads.threadCapacity ≤ t.threads.threadCapacity)
    (kept : ∀ u < s.threads.threadCapacity, s.kernel.stateOf u ≠ .unused →
      u ≠ slot ∧ t.kernel.stateOf u ≠ .unused ∧ t.history.occupant u = s.history.occupant u)
    (old : ∀ j, j ≠ i → t.table.processes j = s.table.processes j ∧
      t.history.serial j = s.history.serial j)
    (inTable : slot < t.threads.threadCapacity) (live : t.kernel.stateOf slot ≠ .unused)
    (own : (t.history.occupant slot).process = some (t.history.serial i))
    (names : (t.table.processes i).tid = some slot)
    (fresh : ∀ j, (s.table.processes j).state ≠ .unused →
      (s.table.processes j).pid ≠ (t.table.processes i).pid) : Linked t := by
  -- no old record names the slot
  have apart (j : Fin processMax) (other : j ≠ i) (used : (t.table.processes j).state ≠ .unused) :
      (t.table.processes j).tid ≠ some slot := by
    intro record
    rw [(old j other).1] at used record
    obtain ⟨low, live, _⟩ := linked.slot j slot used record
    exact (kept slot low live).1 rfl
  constructor
  · intro j tid used record
    cases Decidable.em (j = i) with
    | inl same =>
      rw [same, names] at record
      cases record
      rw [same]
      exact ⟨inTable, live, own⟩
    | inr other =>
      rw [(old j other).1] at used record
      obtain ⟨low, live, own⟩ := linked.slot j tid used record
      obtain ⟨_, live', occupant⟩ := kept tid low live
      rw [occupant, (old j other).2]
      exact ⟨Nat.lt_of_lt_of_le low capacity, live', own⟩
  · intro j k tid used used' record record'
    cases Decidable.em (j = i) with
    | inl same =>
      cases Decidable.em (k = i) with
      | inl same' => rw [same, same']
      | inr other =>
        rw [same, names] at record
        cases record
        exact absurd record' (apart k other used')
    | inr other =>
      cases Decidable.em (k = i) with
      | inl same' =>
        rw [same', names] at record'
        cases record'
        exact absurd record (apart j other used)
      | inr other' =>
        rw [(old j other).1] at used record
        rw [(old k other').1] at used' record'
        exact linked.distinct j k tid used used' record record'
  · intro j k used used' same
    cases Decidable.em (j = i) with
    | inl here =>
      cases Decidable.em (k = i) with
      | inl here' => rw [here, here']
      | inr other =>
        rw [(old k other).1] at used' same
        rw [here] at same
        exact absurd same.symm (fresh k used')
    | inr other =>
      rw [(old j other).1] at used same
      cases Decidable.em (k = i) with
      | inl here' =>
        rw [here'] at same
        exact absurd same (fresh j used)
      | inr other' =>
        rw [(old k other').1] at used' same
        exact linked.pids j k used used' same

theorem Linked.processSpawned (linked : Linked s) (fresh : FreshPid s) (a : SpawnAnswers) :
    Linked (spawnElfRequest a s).2 := by
  rcases spawn_fresh fresh a with
    same | ⟨i, grown, free, grows, fails | ⟨slot, st, inTable, unused, spawns⟩⟩
  · rw [same]
    exact linked
  · rw [fails]
    have other (j : Fin processMax)
        (used : ((setRecord (startingTable s i) i unusedProcess).processes j).state ≠ .unused) :
        j ≠ i := by
      intro same
      rw [same, setRecord_same] at used
      exact used rfl
    refine (linked.grown grows).of_records (Nat.le_refl _) (fun j _ live => ⟨live, rfl⟩)
      (fun j used => ?_) fun j used => ?_
    · have kept := startingTable_other s unusedProcess (other j used)
      change ((setRecord (startingTable s i) i unusedProcess).processes j).state ≠ _ at used
      change _ ∧ ((setRecord (startingTable s i) i unusedProcess).processes j).tid = _ ∧
        ((setRecord (startingTable s i) i unusedProcess).processes j).pid = _
      rw [kept] at used ⊢
      exact ⟨used, rfl, rfl⟩
    · change (s.history.reserve s.table (startingTable s i)).serial j = _
      rw [reserve_starting free]
      exact Function.update_of_ne (other j used) ..
  · rw [spawns]
    let started : Process := { startingProcess s with tid := some slot }
    have new : (setRecord (startingTable s i) i started).processes i = started := setRecord_same ..
    have serial : (s.history.reserve s.table (startingTable s i)).serial =
        Function.update s.history.serial i s.history.pids := by rw [reserve_starting free]
    refine @Linked.insert _ _ linked i slot grows.capacity (fun u low live => ?_)
      (fun j other => ⟨startingTable_other s started other, ?_⟩) inTable ?_ ?_ ?_ ?_
    · obtain ⟨apart, state, occupant⟩ := seat_used (s := s.reserved (startingTable s i)) grows
        unused ⟨some s.history.pids, s.table.nextPid⟩ a.request st s.kernel.kernelSpace u low live
      exact ⟨apart, state ▸ live, occupant⟩
    · change (s.history.reserve s.table (startingTable s i)).serial j = _
      rw [serial]
      exact Function.update_of_ne other ..
    · change ((startSlot a.request st s.kernel.kernelSpace slot grown).threads slot).state ≠ _
      rw [startSlot_self.1]
      nofun
    · change (Function.update s.history.occupant slot ⟨some s.history.pids, _⟩ slot).process =
        some ((s.history.reserve s.table (startingTable s i)).serial i)
      rw [serial, Function.update_self, Function.update_self]
    · change ((setRecord (startingTable s i) i started).processes i).tid = _
      rw [new]
    · intro j used
      change _ ≠ ((setRecord (startingTable s i) i started).processes i).pid
      rw [new]
      exact fresh j used

theorem bury_keeps (s : System) (tid : Nat) :
    (bury tid s).threads.threadCapacity = s.threads.threadCapacity ∧
      (bury tid s).history = s.history ∧ (bury tid s).activity = s.activity ∧
      (bury tid s).cur = s.cur ∧ (bury tid s).kernel.place = s.kernel.place := by
  unfold bury
  split <;> exact ⟨rfl, rfl, rfl, rfl, rfl⟩

/-- The state when the thread of record `i` is buried. -/
def buried (i : Fin processMax) (s : System) : System :=
  match (s.table.processes i).tid with
  | some tid => bury tid s
  | none => s

theorem buried_keeps (s : System) (i : Fin processMax) :
    (buried i s).threads.threadCapacity = s.threads.threadCapacity ∧
      (buried i s).history = s.history ∧ (buried i s).activity = s.activity ∧
      (buried i s).cur = s.cur ∧ (buried i s).kernel.place = s.kernel.place := by
  unfold buried
  split
  · exact bury_keeps s _
  · exact ⟨rfl, rfl, rfl, rfl, rfl⟩

/-- Only the slot that the record names can change, from zombie to unused. -/
theorem buried_slot (s : System) (i : Fin processMax) (u : Nat) :
    (buried i s).threads.threads u = s.threads.threads u ∨
      ((s.table.processes i).tid = some u ∧ Reapable s.threads u ∧
        (buried i s).threads.threads u = reapedSlot (s.threads.threads u)) := by
  unfold buried
  cases record : (s.table.processes i).tid with
  | none => exact Or.inl rfl
  | some tid =>
    simp only [bury]
    split
    · next reapable =>
      change (updThread s.threads tid _).threads u = _ ∨
        _ ∧ _ ∧ (updThread s.threads tid _).threads u = _
      cases Decidable.em (u = tid) with
      | inl same =>
        rw [same, updThread_same]
        exact Or.inr ⟨rfl, reapable, rfl⟩
      | inr other =>
        rw [updThread_other _ _ _ _ other]
        exact Or.inl rfl
    · exact Or.inl rfl

theorem buried_other (s : System) (i : Fin processMax) {u : Nat}
    (other : (s.table.processes i).tid ≠ some u) :
    (buried i s).kernel.stateOf u = s.kernel.stateOf u := by
  rcases buried_slot s i u with same | ⟨record, _⟩
  · exact congrArg Thread.state same
  · exact absurd record other

theorem collect_eq (pid : Int) (i : Fin processMax) (s : System)
    (found : findProcess s.table pid = some i) :
    collect pid i s =
      { buried i s with
        table := setRecord s.table i unusedProcess
        activity := Function.update s.activity s.cur .none
        history := { s.history with
          log := .waited pid s.caller (some (s.table.processes i).exitStatus) ::
            s.history.log } } := by
  obtain ⟨_, history, activity, cur, _⟩ := buried_keeps s i
  unfold collect
  change (System.doing { buried i s with table := _ } .none).note _ = _
  simp only [System.note, System.doing, releaseProcess, found]
  have here : System.cur { buried i s with table := setRecord s.table i unusedProcess } = s.cur :=
    cur
  rw [here, activity, history]

theorem Linked.collected (linked : Linked s) {pid : Int} {i : Fin processMax}
    (found : findProcess s.table pid = some i) : Linked (collect pid i s) := by
  have inUse := (findProcess_some found).1
  have kept (j : Fin processMax)
      (used : ((setRecord s.table i unusedProcess).processes j).state ≠ .unused) :
      j ≠ i ∧ (setRecord s.table i unusedProcess).processes j = s.table.processes j := by
    have other : j ≠ i := by
      intro same
      rw [same, setRecord_same] at used
      exact used rfl
    exact ⟨other, setRecord_other _ _ _ _ other⟩
  obtain ⟨capacity, _, _, _, _⟩ := buried_keeps s i
  rw [collect_eq pid i s found]
  constructor
  · intro j tid used record
    obtain ⟨other, same⟩ := kept j used
    change ((setRecord s.table i unusedProcess).processes j).state ≠ _ at used
    change ((setRecord s.table i unusedProcess).processes j).tid = _ at record
    rw [same] at used record
    obtain ⟨inTable, live, own⟩ := linked.slot j tid used record
    have apart : (s.table.processes i).tid ≠ some tid :=
      fun names => other (linked.distinct j i tid used inUse record names)
    refine ⟨capacity ▸ inTable, ?_, own⟩
    change (buried i s).kernel.stateOf tid ≠ _
    rw [buried_other s i apart]
    exact live
  · intro j k tid used used' record record'
    obtain ⟨_, same⟩ := kept j used
    obtain ⟨_, same'⟩ := kept k used'
    change ((setRecord s.table i unusedProcess).processes j).state ≠ _ at used
    change ((setRecord s.table i unusedProcess).processes k).state ≠ _ at used'
    change ((setRecord s.table i unusedProcess).processes j).tid = _ at record
    change ((setRecord s.table i unusedProcess).processes k).tid = _ at record'
    rw [same] at used record
    rw [same'] at used' record'
    exact linked.distinct j k tid used used' record record'
  · intro j k used used' pids
    obtain ⟨_, same⟩ := kept j used
    obtain ⟨_, same'⟩ := kept k used'
    change ((setRecord s.table i unusedProcess).processes j).state ≠ _ at used
    change ((setRecord s.table i unusedProcess).processes k).state ≠ _ at used'
    change ((setRecord s.table i unusedProcess).processes j).pid =
      ((setRecord s.table i unusedProcess).processes k).pid at pids
    rw [same] at used pids
    rw [same'] at used' pids
    exact linked.pids j k used used' pids

/-- Every part keeps the link, a spawn under a fresh pid. -/
theorem Linked.part (linked : Linked s)
    (part : Part (fun s r => r = .spawns → FreshPid s) s t) : Linked t := by
  cases part with
  | scheduled moved => exact linked.quiet (quiet_scheduled moved)
  | fellAsleep =>
    refine linked.of_records (Nat.le_refl _) (fun i _ live => ⟨?_, rfl⟩)
      (fun i used => ⟨used, rfl, rfl⟩) fun _ _ => rfl
    change ((updThread s.kernel.table s.kernel.cur _).threads i).state ≠ _
    cases Decidable.em (i = s.kernel.cur) with
    | inl same =>
      rw [same, updThread_same]
      nofun
    | inr other =>
      rw [updThread_other _ _ _ _ other]
      exact live
  | loopEnded => exact linked.quiet (quiet_loopEnded s)
  | transferred =>
    exact linked.quiet (((quiet_pipes s _).trans (quiet_loopEnded _)).trans (quiet_wake _ _))
  | died => exact linked.died _
  | killed => exact linked.killed _ _
  | threadSpawned => exact linked.threadSpawned _ _ _ _
  | processSpawned _ fresh => exact linked.processSpawned (fresh rfl) _
  | closed => exact linked.quiet (quiet_closed _ _ s)
  | collected _ found => exact linked.collected found
  | refused =>
    exact linked.of_records (Nat.le_refl _) (fun i _ live => ⟨live, rfl⟩)
      (fun i used => ⟨used, rfl, rfl⟩) fun _ _ => rfl
  | redirected => exact linked.quiet ((quiet_pipes s _).trans (quiet_setFd _ _ _ _))
  | @piped i r w =>
    have reading := (quiet_pipes s (Function.update s.pipes i (s.pipes i).opened)).trans
      (quiet_setFd _ s.cur r ⟨.pipeRead, i.val, 0⟩)
    exact linked.quiet (reading.trans (quiet_setFd _ s.cur w ⟨.pipeWrite, i.val, 0⟩))
  | pipeFailed => exact linked.quiet ((quiet_pipes s _).trans (quiet_withFds _ _ _))
  | opened => exact linked.quiet (quiet_setFd _ _ _ _)
  | started =>
    exact linked.of_records (Nat.le_refl _) (fun i _ live => ⟨live, rfl⟩)
      (started_records s.table s.cur) fun _ _ => rfl

end MiniKernel.Proc
