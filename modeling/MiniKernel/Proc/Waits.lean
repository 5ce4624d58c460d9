import MiniKernel.Proc.Link
import MiniKernel.Proc.Lives

/-!
# Spawned, ended and waited for

Source: kernel/core/process.c (`process_wait`, `process_mark_exited`,
`reserve_process`, `release_process`), kernel/sched/thread.c (`sched_sleep`,
`sched_wakeup`, `sched_exit_status`, `sched_kill`). As long as the pids have not
wrapped around, the record of a process lives from its spawn to the one wait
that collects its status, and nobody sleeps on a process that has exited.
-/
namespace MiniKernel.Proc
open Memory.Paging (Word)
open Sched
open Ipc

/-- The thread in the slot runs none of its own code any more. -/
def Gone (s : System) (u : Nat) : Prop :=
  Final (s.kernel.place u) ∨ (s.kernel.stateOf u = .zombie ∧ u ≠ s.cur)

structure Accounted (s : System) : Prop where
  wf : WellFormed s.kernel
  linked : Linked s
  next : s.table.nextPid = s.history.pids + 1 ∨ s.history.pids = 2147483647
  ahead : ∀ pid : Int, pid ≤ 0 ∨ s.history.pids < pid →
    Unlisted s.table pid ∧ Untold s.history.log pid
  kernelPid : ∀ u, (s.history.occupant u).process = none → (s.history.occupant u).pid = 0
  ownPid : ∀ i u, (s.table.processes i).state ≠ .unused → (s.table.processes i).tid = some u →
    (s.history.occupant u).pid = (s.table.processes i).pid
  exited : ∀ i u, (s.table.processes i).state = .exited → (s.table.processes i).tid = some u →
    Gone s u
  /-- A process whose thread goes on has a record. -/
  listed : ∀ u < s.threads.threadCapacity, s.kernel.stateOf u ≠ .unused →
    (s.history.occupant u).process ≠ none → ¬ Gone s u →
    ∃ i, (s.table.processes i).state ≠ .unused ∧ (s.table.processes i).tid = some u
  life : ∀ pid, Life s.table s.history.log pid
  asleep : ∀ u < s.threads.threadCapacity, s.kernel.stateOf u = .blocked →
    ∀ pid, s.activity u = .waiting pid →
      (s.threads.threads u).waitChannel = pidChannel pid ∧
      ∀ i, (s.table.processes i).state ≠ .unused → (s.table.processes i).pid = pid →
        (s.table.processes i).state ≠ .exited

variable {ok : System → Risk → Prop} {s t : System}

/-! ## The running process -/

theorem running_not_gone (inCode : s.kernel.place s.cur = .code) : ¬ Gone s s.cur := by
  rintro (final | ⟨_, other⟩)
  · rw [inCode] at final
    rcases final with h | h <;> cases h
  · exact other rfl

/-- `current_pid` is the pid of the process the running thread was created for. -/
theorem Accounted.currentPid (acc : Accounted s) (inCode : s.kernel.place s.cur = .code) :
    currentPid s.table s.cur = s.caller := by
  cases kind : (s.history.occupant s.cur).process with
  | none =>
    have nobody : findProcessByTid s.table s.cur = none := by
      cases found : findProcessByTid s.table s.cur with
      | none => rfl
      | some i =>
        obtain ⟨used, record⟩ := findProcessByTid_some found
        have own := (acc.linked.slot i s.cur used record).2.2
        rw [kind] at own
        cases own
    rw [Proc.currentPid, nobody, System.caller, acc.kernelPid s.cur kind]
  | some n =>
    obtain ⟨i, used, record⟩ := acc.listed s.cur acc.wf.current acc.wf.inUse
      (by rw [kind]; exact Option.some_ne_none n) (running_not_gone inCode)
    cases found : findProcessByTid s.table s.cur with
    | none => exact absurd record (findProcessByTid_none found i used)
    | some j =>
      obtain ⟨used', record'⟩ := findProcessByTid_some found
      rw [Proc.currentPid, found, System.caller, acc.ownPid j s.cur used' record']

/-- The record of a thread that runs its own code has not exited. -/
theorem Accounted.running (acc : Accounted s) (inCode : s.kernel.place s.cur = .code)
    {i : Fin processMax} (found : findProcessByTid s.table s.cur = some i) :
    (s.table.processes i).state ≠ .exited := fun exited =>
  running_not_gone inCode (acc.exited i s.cur exited (findProcessByTid_some found).2)

theorem Linked.findByTid (linked : Linked s) {i : Fin processMax} {tid : Nat}
    (used : (s.table.processes i).state ≠ .unused) (record : (s.table.processes i).tid = some tid) :
    findProcessByTid s.table tid = some i := by
  cases found : findProcessByTid s.table tid with
  | none => exact absurd record (findProcessByTid_none found i used)
  | some j =>
    obtain ⟨used', record'⟩ := findProcessByTid_some found
    rw [linked.distinct i j tid used used' record record']

theorem Accounted.fresh (acc : Accounted s) (bound : s.history.pids < 2147483647) :
    s.table.nextPid = s.history.pids + 1 ∧ FreshPid s := by
  have next : s.table.nextPid = s.history.pids + 1 := acc.next.resolve_right (by omega)
  refine ⟨next, fun i used => ?_⟩
  rw [next]
  exact (acc.ahead _ (Or.inr (by omega))).1 i used

/-! ## Parts that leave processes alone -/

theorem Quiet.gone (quiet : Quiet s t) {u : Nat} (gone : Gone s u) : Gone t u := by
  rcases gone with final | ⟨zombie, other⟩
  · exact Or.inl ((quiet.final u).mpr final)
  · exact Or.inr (quiet.zombie u other zombie)

theorem Accounted.quiet (acc : Accounted s) (quiet : Quiet s t) (wf : WellFormed t.kernel) :
    Accounted t := by
  have linked := acc.linked.quiet quiet
  refine ⟨wf, linked, ?_, ?_, ?_, ?_, ?_, ?_, ?_, ?_⟩
  · rw [quiet.table, quiet.history]
    exact acc.next
  · rw [quiet.table, quiet.history]
    exact acc.ahead
  · rw [quiet.history]
    exact acc.kernelPid
  · rw [quiet.table, quiet.history]
    exact acc.ownPid
  · rw [quiet.table]
    exact fun i u exited record => quiet.gone (acc.exited i u exited record)
  · rw [quiet.table, quiet.history, quiet.capacity]
    intro u inTable used process goes
    rw [ne_eq, quiet.unused] at used
    exact acc.listed u inTable used process fun gone => goes (quiet.gone gone)
  · rw [quiet.table, quiet.history]
    exact acc.life
  · rw [quiet.table, quiet.capacity]
    intro u inTable blocked pid waits
    obtain ⟨was, channel, loop⟩ := quiet.asleep u blocked (by rw [waits]; nofun)
    rw [channel]
    exact acc.asleep u inTable was pid (loop ▸ waits)

/-! ## Going to sleep -/

theorem fallAsleep_stateOf (channel : Word) (k : Kernel) (u : Nat) :
    (fallAsleep channel k).stateOf u = if u = k.cur then .blocked else k.stateOf u := by
  split
  · next same => rw [same, Kernel.stateOf, fallAsleep, updThread_same]
  · next other =>
    rw [Kernel.stateOf, fallAsleep, updThread_other _ _ _ _ other]
    rfl

theorem Accounted.fellAsleep (acc : Accounted s) {a : Activity} {channel : Word}
    (reason : SleepsOn s channel a)
    (wf : WellFormed (fallAsleep channel s.kernel)) :
    Accounted { s.doing a with kernel := fallAsleep channel s.kernel } := by
  have linked : Linked { s.doing a with kernel := fallAsleep channel s.kernel } := by
    refine acc.linked.of_records (Nat.le_refl _) (fun i _ live => ⟨?_, rfl⟩)
      (fun i used => ⟨used, rfl, rfl⟩) fun _ _ => rfl
    change (fallAsleep channel s.kernel).stateOf i ≠ _
    rw [fallAsleep_stateOf]
    split
    · nofun
    · exact live
  have gone (u : Nat) (gone : Gone s u) :
      Gone { s.doing a with kernel := fallAsleep channel s.kernel } u := by
    rcases gone with final | ⟨zombie, other⟩
    · exact Or.inl final
    · refine Or.inr ⟨?_, other⟩
      change (fallAsleep channel s.kernel).stateOf u = _
      rw [fallAsleep_stateOf, if_neg (show u ≠ s.kernel.cur from other)]
      exact zombie
  refine ⟨wf, linked, acc.next, acc.ahead, acc.kernelPid, acc.ownPid,
    fun i u exited record => gone u (acc.exited i u exited record), ?_, acc.life, ?_⟩
  · intro u inTable used process goes
    refine acc.listed u inTable ?_ process fun was => goes (gone u was)
    intro unused
    apply used
    change (fallAsleep channel s.kernel).stateOf u = _
    rw [fallAsleep_stateOf, if_neg, unused]
    rintro rfl
    exact acc.wf.inUse unused
  · intro u inTable blocked pid waits
    change Function.update s.activity s.cur a u = _ at waits
    change (fallAsleep channel s.kernel).stateOf u = _ at blocked
    change ((fallAsleep channel s.kernel).table.threads u).waitChannel = _ ∧ _
    cases Decidable.em (u = s.cur) with
    | inl same =>
      rw [same, Function.update_self] at waits
      rw [waits] at reason
      obtain ⟨on, i, found, running⟩ := reason
      obtain ⟨used, is⟩ := findProcess_some found
      refine ⟨?_, fun j used' is' => ?_⟩
      · rw [same, on]
        change ((updThread s.kernel.table s.kernel.cur _).threads s.kernel.cur).waitChannel = _
        rw [updThread_same]
      · change (s.table.processes j).state ≠ .exited
        rw [acc.linked.pids j i used' used (Eq.trans is' is.symm)]
        exact running
    | inr other =>
      rw [Function.update_of_ne other] at waits
      rw [fallAsleep_stateOf, if_neg (show u ≠ s.kernel.cur from other)] at blocked
      rw [fallAsleep, updThread_other _ _ _ _ (show u ≠ s.kernel.cur from other)]
      exact acc.asleep u inTable blocked pid waits

/-! ## The end of a process -/

/-- The log once the process of thread `tid` has ended. -/
def endedLog (s : System) (tid : Nat) (status : BitVec 32) : List Happening :=
  match exitingPid s.table tid with
  | some pid => .ended pid status :: s.history.log
  | none => s.history.log

/-- What the end of thread `tid` does besides marking the record. -/
structure Ends (s t : System) (tid : Nat) (status : BitVec 32) : Prop where
  wf : WellFormed t.kernel
  linked : Linked t
  table : t.table = processMarkExited s.table tid status
  log : t.history.log = endedLog s tid status
  occupant : t.history.occupant = s.history.occupant
  pids : t.history.pids = s.history.pids
  activity : t.activity = s.activity
  capacity : t.threads.threadCapacity = s.threads.threadCapacity
  used : ∀ u, t.kernel.stateOf u ≠ .unused → s.kernel.stateOf u ≠ .unused ∨ u = tid
  gone : ∀ u, Gone s u ∨ u = tid → Gone t u
  woken : ∀ u < s.threads.threadCapacity, t.kernel.stateOf u = .blocked →
    s.kernel.stateOf u = .blocked ∧
      (t.threads.threads u).waitChannel = (s.threads.threads u).waitChannel ∧
      ∀ pid, exitingPid s.table tid = some pid →
        (t.threads.threads u).waitChannel ≠ pidChannel pid

/-- The record that is marked, if there is one. -/
theorem markExited_cases (p : ProcessTable) (tid : Nat) (status : BitVec 32) :
    (findProcessByTid p tid = none ∧ exitingPid p tid = none ∧
      processMarkExited p tid status = p) ∨
    ∃ i, findProcessByTid p tid = some i ∧ exitingPid p tid = some (p.processes i).pid ∧
      processMarkExited p tid status =
        setRecord p i { p.processes i with exitStatus := status, state := .exited } := by
  cases found : findProcessByTid p tid with
  | none => exact Or.inl ⟨rfl, by rw [exitingPid, found]; rfl, by rw [processMarkExited, found]⟩
  | some i =>
    exact Or.inr ⟨i, rfl, by rw [exitingPid, found]; rfl, by rw [processMarkExited, found]⟩

/-- The life of the process that ends, and of the others. -/
theorem Accounted.endedLife (acc : Accounted s) (tid : Nat) (status : BitVec 32)
    (running : ∀ i, findProcessByTid s.table tid = some i →
      (s.table.processes i).state ≠ .exited) (pid : Int) :
    Life (processMarkExited s.table tid status) (endedLog s tid status) pid := by
  rcases markExited_cases s.table tid status with ⟨_, nobody, same⟩ | ⟨i, found, exits, marks⟩
  · rw [endedLog, nobody, same]
    exact acc.life pid
  · obtain ⟨used, _⟩ := findProcessByTid_some found
    rw [endedLog, exits, marks]
    cases Decidable.em ((s.table.processes i).pid = pid) with
    | inl own =>
      subst own
      have awaited := (acc.life _).awaited acc.linked.pids used rfl
      have none_yet := awaited.endings
      rw [if_neg (running i found)] at none_yet
      refine Or.inr ⟨i, by rw [setRecord_same], ?_⟩
      rw [setRecord_same]
      refine ⟨nofun, ?_, ?_, ?_⟩
      · simp only [spawners_ended]
        exact awaited.spawners
      · simp only [endings_ended, if_true, none_yet]
      · simp only [collections_ended]
        exact awaited.collections
    | inr elsewhere =>
      refine (acc.life pid).same ?_ ⟨rfl, by simp [elsewhere], rfl⟩
      exact sameRecords_setRecord _ elsewhere (Or.inr rfl) (Or.inr rfl)

theorem Accounted.ends (acc : Accounted s) {tid : Nat} {status : BitVec 32}
    (ends : Ends s t tid status)
    (running : ∀ i, findProcessByTid s.table tid = some i →
      (s.table.processes i).state ≠ .exited) : Accounted t := by
  have records := markExited_records s.table tid status
  refine ⟨ends.wf, ends.linked, ?_, ?_, ?_, ?_, ?_, ?_, ?_, ?_⟩
  · have next : t.table.nextPid = s.table.nextPid := by
      rw [ends.table]
      rcases markExited_cases s.table tid status with ⟨_, _, same⟩ | ⟨i, _, _, marks⟩
      · rw [same]
      · rw [marks]
        rfl
    rw [next, ends.pids]
    exact acc.next
  · rw [ends.pids, ends.table, ends.log]
    intro pid out
    obtain ⟨unlisted, untold⟩ := acc.ahead pid out
    refine ⟨fun i used is => ?_, ?_⟩
    · obtain ⟨was, _, same⟩ := records i used
      exact unlisted i was (same.symm.trans is)
    · rcases markExited_cases s.table tid status with ⟨_, nobody, _⟩ | ⟨i, found, exits, _⟩
      · rw [endedLog, nobody]
        exact untold
      · have elsewhere := unlisted i (findProcessByTid_some found).1
        rw [endedLog, exits]
        exact untold.same ⟨rfl, by simp [elsewhere], rfl⟩
  · rw [ends.occupant]
    exact acc.kernelPid
  · rw [ends.table, ends.occupant]
    intro i u used record
    obtain ⟨was, sameTid, samePid⟩ := records i used
    rw [samePid]
    exact acc.ownPid i u was (sameTid ▸ record)
  · rw [ends.table]
    intro i u exited record
    rcases markExited_cases s.table tid status with ⟨_, _, same⟩ | ⟨j, found, _, marks⟩
    · rw [same] at exited record
      exact ends.gone u (Or.inl (acc.exited i u exited record))
    · rw [marks] at exited record
      cases Decidable.em (i = j) with
      | inl here =>
        rw [here, setRecord_same] at record
        have own : u = tid := Option.some.inj (record.symm.trans (findProcessByTid_some found).2)
        exact ends.gone u (Or.inr own)
      | inr other =>
        rw [setRecord_other _ _ _ _ other] at exited record
        exact ends.gone u (Or.inl (acc.exited i u exited record))
  · rw [ends.capacity, ends.occupant, ends.table]
    intro u inTable used process goes
    have other : u ≠ tid := fun same => goes (ends.gone u (Or.inr same))
    obtain ⟨i, was, record⟩ := acc.listed u inTable ((ends.used u used).resolve_right other) process
      fun gone => goes (ends.gone u (Or.inl gone))
    refine ⟨i, ?_⟩
    rcases markExited_cases s.table tid status with ⟨_, _, same⟩ | ⟨j, _, _, marks⟩
    · rw [same]
      exact ⟨was, record⟩
    · rw [marks, setRecord_apply]
      split
      · next here => exact ⟨nofun, by rw [← here]; exact record⟩
      · exact ⟨was, record⟩
  · rw [ends.table, ends.log]
    exact acc.endedLife tid status running
  · rw [ends.capacity, ends.activity, ends.table]
    intro u inTable blocked pid waits
    obtain ⟨was, channel, woken⟩ := ends.woken u inTable blocked
    obtain ⟨on, notYet⟩ := acc.asleep u inTable was pid waits
    refine ⟨channel.trans on, fun i used is exited => ?_⟩
    obtain ⟨used', _, samePid⟩ := records i used
    rcases markExited_cases s.table tid status with ⟨_, _, same⟩ | ⟨j, _, exits, marks⟩
    · rw [same] at exited
      exact notYet i used' (samePid.symm.trans is) exited
    · rw [marks] at exited
      cases Decidable.em (i = j) with
      | inl here =>
        -- the sleeper would have been on the channel that was woken
        refine woken _ exits ?_
        rw [channel, on, ← here, ← samePid, is]
      | inr other =>
        rw [setRecord_other _ _ _ _ other] at exited
        exact notYet i used' (samePid.symm.trans is) exited

/-- The sleepers that are left after `process_mark_exited`. -/
theorem markExited_wakes (s : ThreadTable) (pid : Option Int) (u : Nat)
    (inTable : u < s.threadCapacity)
    (asleep : ((markExited s (pid.map pidChannel)).threads u).state = .blocked) :
    ∀ p, pid = some p → ((markExited s (pid.map pidChannel)).threads u).waitChannel ≠
      pidChannel p := by
  rintro p rfl
  exact schedWakeup_wakes s (pidChannel p) u inTable asleep

theorem Accounted.died (acc : Accounted s) (status : BitVec 32)
    (inCode : s.kernel.place s.cur = .code) (wf : WellFormed (die status s).kernel) :
    Accounted (die status s) := by
  obtain ⟨kernel, table, activity, _, occupant, _, pids⟩ := die_parts status s
  let pid := (exitingPid s.table s.cur).map pidChannel
  have moved : Reschedules (dying s.kernel) (die status s).kernel := by
    rw [kernel]
    exact dead_reschedules pid s.kernel
  have cur : (die status s).cur = s.cur := by
    change (die status s).kernel.cur = _
    rw [kernel]
    exact dead_cur pid s.kernel
  have state (u : Nat) : (dying s.kernel).stateOf u = if u = s.cur then .zombie else
      s.kernel.stateOf u := setState_state s.kernel.table s.cur u .zombie
  refine @Accounted.ends _ _ acc s.cur status ?_ fun i found => acc.running inCode found
  refine ⟨wf, acc.linked.died status, table, ?_, occupant, pids, activity, moved.capacity,
    fun u used => ?_, fun u gone => ?_, fun u inTable blocked => ?_⟩
  · simp only [die, endedLog]
    cases exitingPid s.table s.cur <;> rfl
  · rw [ne_eq, moved.unused, state] at used
    split at used
    · next same => exact Or.inr same
    · exact Or.inl used
  · rcases Decidable.em (u = s.cur) with same | other
    · refine Or.inl ((moved.place u).mpr (Or.inr ?_))
      rw [same]
      exact moveTo_self s.kernel .gone
    · rcases gone with (final | ⟨zombie, _⟩) | here
      · refine Or.inl ((moved.place u).mpr ?_)
        change Final ((s.kernel.moveTo .gone).place u)
        rw [moveTo_other _ _ _ other]
        exact final
      · refine Or.inr ?_
        have dead := moved.zombie (i := u) other (by rw [state, if_neg other]; exact zombie)
        exact dead
      · exact absurd here other
  · obtain ⟨was, channel⟩ := moved.blocked blocked
    rw [state] at was
    split at was
    · cases was
    · next other =>
      refine ⟨was, ?_, ?_⟩
      · have kept : ((dying s.kernel).table.threads u) = s.threads.threads u :=
          updThread_other _ _ _ _ other
        rw [kept] at channel
        exact channel
      · rw [kernel] at blocked
        change ∀ pid, _ → ((die status s).kernel.table.threads u).waitChannel ≠ _
        rw [kernel]
        exact markExited_wakes (setState s.kernel.table s.kernel.cur .zombie) _ u inTable blocked

theorem Accounted.killed (acc : Accounted s) {tid : Nat} (status : BitVec 32)
    {i : Fin processMax} (other : tid ≠ s.cur)
    (used : (s.table.processes i).state ≠ .unused)
    (running : (s.table.processes i).state ≠ .exited)
    (record : (s.table.processes i).tid = some tid)
    (wf : WellFormed (killOther tid status s).kernel) : Accounted (killOther tid status s) := by
  obtain ⟨kernel, table, activity, _, occupant, _, pids⟩ := killOther_parts tid status s
  let pid := (exitingPid s.table tid).map pidChannel
  have moved : Reschedules (slain tid s.kernel) (killOther tid status s).kernel := by
    rw [kernel]
    exact markExited_reschedules (slain tid s.kernel) pid
  have cur : (killOther tid status s).cur = s.cur := by
    change (killOther tid status s).kernel.cur = _
    rw [kernel]
    exact markExited_current _ _
  refine @Accounted.ends _ _ acc tid status ?_ fun j found => ?_
  · refine ⟨wf, acc.linked.killed tid status, table, ?_, occupant, pids, activity,
      moved.capacity, fun u used => ?_, fun u gone => ?_, fun u inTable blocked => ?_⟩
    · simp only [killOther, markProcessExited, endedLog, System.withThreads]
      cases exitingPid s.table tid <;> rfl
    · rw [ne_eq, moved.unused, slain_stateOf] at used
      split at used
      · next same => exact Or.inr same
      · exact Or.inl used
    · have zombie (was : (slain tid s.kernel).stateOf u = .zombie) (apart : u ≠ s.cur) :
          Gone (killOther tid status s) u := Or.inr (moved.zombie apart was)
      rcases gone with (final | ⟨was, apart⟩) | here
      · exact Or.inl ((moved.place u).mpr final)
      · refine zombie ?_ apart
        rw [slain_stateOf, was, ite_self]
      · rw [here] at zombie ⊢
        exact zombie (by rw [slain_stateOf, if_pos rfl]) other
    · obtain ⟨was, channel⟩ := moved.blocked blocked
      rw [slain_stateOf] at was
      split at was
      · cases was
      · next apart =>
        refine ⟨was, ?_, ?_⟩
        · have kept : ((slain tid s.kernel).table.threads u) = s.threads.threads u :=
            updThread_other _ _ _ _ apart
          rw [kept] at channel
          exact channel
        · rw [kernel] at blocked
          change ∀ pid, _ → ((killOther tid status s).kernel.table.threads u).waitChannel ≠ _
          rw [kernel]
          exact markExited_wakes (slain tid s.kernel).table _ u inTable blocked
  · rw [acc.linked.findByTid used record] at found
    cases found
    exact running

/-! ## Spawns -/

/-- The slots but `slot` are as before. -/
structure Seated (s t : System) (slot : Nat) : Prop where
  cur : t.cur = s.cur
  old : ∀ u < t.threads.threadCapacity, t.kernel.stateOf u ≠ .unused → u ≠ slot →
    u < s.threads.threadCapacity
  kept : ∀ u < s.threads.threadCapacity, u ≠ slot →
    t.kernel.stateOf u = s.kernel.stateOf u ∧
      (t.threads.threads u).waitChannel = (s.threads.threads u).waitChannel ∧
      t.kernel.place u = s.kernel.place u ∧ t.activity u = s.activity u ∧
      t.history.occupant u = s.history.occupant u

theorem grown_seated {grown : ThreadTable} (grows : Grows s.threads grown) :
    Seated s (s.withThreads grown) grown.threadCapacity := by
  refine ⟨grows.current, fun u inTable used _ => grows.old inTable used, fun u inTable _ => ?_⟩
  exact ⟨grows.stateOf inTable, grows.waitChannel inTable, rfl, rfl, rfl⟩

theorem seat_seated {grown : ThreadTable} (grows : Grows s.threads grown) (slot : Nat)
    (owner : Occupant) (req : SpawnRequest) (st : GuardedStack) (kernelSpace : Word) :
    Seated s (s.seat slot owner (startSlot req st kernelSpace slot grown)) slot := by
  have other (u : Nat) (apart : u ≠ slot) :
      (startSlot req st kernelSpace slot grown).threads u = grown.threads u :=
    startSlot_other apart
  refine ⟨grows.current, fun u inTable used apart => ?_, fun u inTable apart => ?_⟩
  · refine grows.old inTable ?_
    rw [← other u apart]
    exact used
  · refine ⟨?_, ?_, Function.update_of_ne apart .., Function.update_of_ne apart ..,
      Function.update_of_ne apart ..⟩
    · change ((startSlot req st kernelSpace slot grown).threads u).state = _
      rw [other u apart]
      exact grows.stateOf inTable
    · change ((startSlot req st kernelSpace slot grown).threads u).waitChannel = _
      rw [other u apart]
      exact grows.waitChannel inTable

/-- What became of a slot that is given away. -/
structure Given (t : System) (slot : Nat) : Prop where
  awake : t.kernel.stateOf slot ≠ .blocked
  kernelPid : (t.history.occupant slot).process = none → (t.history.occupant slot).pid = 0
  listed : (t.history.occupant slot).process ≠ none →
    ∃ i, (t.table.processes i).state ≠ .unused ∧ (t.table.processes i).tid = some slot

/-- The accounts after a slot was given to a new thread. A record is as before,
or it is the record of the new thread. -/
theorem Accounted.seated (acc : Accounted s) {slot : Nat} (seated : Seated s t slot)
    (free : slot < s.threads.threadCapacity → s.kernel.stateOf slot = .unused)
    (wf : WellFormed t.kernel) (linked : Linked t)
    (given : slot < t.threads.threadCapacity → Given t slot)
    (kernelPid : ∀ u, (t.history.occupant u).process = none → (t.history.occupant u).pid = 0)
    (next : t.table.nextPid = t.history.pids + 1 ∨ t.history.pids = 2147483647)
    (ahead : ∀ pid : Int, pid ≤ 0 ∨ t.history.pids < pid →
      Unlisted t.table pid ∧ Untold t.history.log pid)
    (life : ∀ pid, Life t.table t.history.log pid)
    (records : ∀ i, (t.table.processes i).state ≠ .unused →
      ((s.table.processes i).state ≠ .unused ∧ t.table.processes i = s.table.processes i) ∨
      ((t.table.processes i).tid = some slot ∧ (t.table.processes i).state ≠ .exited ∧
        (t.history.occupant slot).pid = (t.table.processes i).pid))
    (kept : ∀ i, (s.table.processes i).state ≠ .unused →
      t.table.processes i = s.table.processes i) : Accounted t := by
  -- a record names a slot in use, and that is not the one given away
  have apart {i : Fin processMax} {u : Nat} (used : (s.table.processes i).state ≠ .unused)
      (record : (s.table.processes i).tid = some u) :
      u < s.threads.threadCapacity ∧ u ≠ slot := by
    obtain ⟨inTable, live, _⟩ := acc.linked.slot i u used record
    refine ⟨inTable, ?_⟩
    rintro rfl
    exact live (free inTable)
  have gone (u : Nat) (inTable : u < s.threads.threadCapacity) (other : u ≠ slot) :
      Gone t u ↔ Gone s u := by
    obtain ⟨state, _, place, _, _⟩ := seated.kept u inTable other
    rw [Gone, Gone, state, place, seated.cur]
  refine ⟨wf, linked, next, ahead, kernelPid, ?_, ?_, ?_, life, ?_⟩
  · intro i u used record
    rcases records i used with ⟨was, same⟩ | ⟨new, _, pid⟩
    · rw [same] at record ⊢
      obtain ⟨inTable, other⟩ := apart was record
      rw [(seated.kept u inTable other).2.2.2.2]
      exact acc.ownPid i u was record
    · rw [new] at record
      cases record
      exact pid
  · intro i u exited record
    rcases records i (by rw [exited]; nofun) with ⟨was, same⟩ | ⟨_, running, _⟩
    · rw [same] at exited record
      obtain ⟨inTable, other⟩ := apart was record
      exact (gone u inTable other).mpr (acc.exited i u exited record)
    · exact absurd exited running
  · intro u inTable used process goes
    rcases Decidable.em (u = slot) with same | other
    · rw [same] at inTable process ⊢
      exact (given inTable).listed process
    · have before := seated.old u inTable used other
      obtain ⟨state, _, _, _, occupant⟩ := seated.kept u before other
      rw [state] at used
      rw [occupant] at process
      obtain ⟨i, was, record⟩ := acc.listed u before used process
        fun was => goes ((gone u before other).mpr was)
      refine ⟨i, ?_⟩
      rw [kept i was]
      exact ⟨was, record⟩
  · intro u inTable blocked pid waits
    have other : u ≠ slot := by
      rintro rfl
      exact (given inTable).awake blocked
    have before := seated.old u inTable (by rw [blocked]; nofun) other
    obtain ⟨state, channel, _, activity, _⟩ := seated.kept u before other
    rw [state] at blocked
    rw [activity] at waits
    obtain ⟨on, notYet⟩ := acc.asleep u before blocked pid waits
    refine ⟨channel.trans on, fun i used is => ?_⟩
    rcases records i used with ⟨was, same⟩ | ⟨_, running, _⟩
    · rw [same] at is ⊢
      exact notYet i was is
    · exact running

theorem seat_given {grown : ThreadTable} {slot : Nat} {req : SpawnRequest} {st : GuardedStack}
    {kernelSpace : Word} (state : t.kernel.stateOf slot =
      ((startSlot req st kernelSpace slot grown).threads slot).state)
    (kernelPid : (t.history.occupant slot).process = none → (t.history.occupant slot).pid = 0)
    (listed : (t.history.occupant slot).process ≠ none →
      ∃ i, (t.table.processes i).state ≠ .unused ∧ (t.table.processes i).tid = some slot) :
    Given t slot := by
  refine ⟨?_, kernelPid, listed⟩
  rw [state, startSlot_self.1]
  nofun

theorem free_slot {grown : ThreadTable} (grows : Grows s.threads grown) {slot : Nat}
    (unused : (grown.threads slot).state = .unused) (inTable : slot < s.threads.threadCapacity) :
    s.kernel.stateOf slot = .unused := (grows.stateOf inTable).symm.trans unused

theorem kernelPid_seat (acc : Accounted s) (slot : Nat) (owner : Occupant)
    (own : owner.process = none → owner.pid = 0) (u : Nat)
    (process : (Function.update s.history.occupant slot owner u).process = none) :
    (Function.update s.history.occupant slot owner u).pid = 0 := by
  rw [Function.update_apply] at process ⊢
  split
  · next same =>
    rw [if_pos same] at process
    exact own process
  · next other =>
    rw [if_neg other] at process
    exact acc.kernelPid u process

theorem Accounted.threadSpawned (acc : Accounted s) (req : SpawnRequest)
    (block : Option (Nat → Thread)) (stack : Option GuardedStack) :
    Accounted (startThread req block stack kernelThread s).2 := by
  have wf := wellFormed_startThread acc.wf req block stack kernelThread
  have linked := acc.linked.threadSpawned req block stack kernelThread
  obtain ⟨grown, grows, fails | ⟨slot, st, inTable, unused, starts⟩⟩ :=
    startThread_cases req block stack kernelThread s
  · rw [fails] at wf linked ⊢
    exact acc.seated (grown_seated grows)
      (fun high => absurd grows.capacity (Nat.not_le.mpr high)) wf linked
      (fun beyond => absurd beyond (Nat.lt_irrefl _)) acc.kernelPid acc.next acc.ahead acc.life
      (fun i used => Or.inl ⟨used, rfl⟩) fun i _ => rfl
  · rw [starts] at wf linked ⊢
    have self : Function.update s.history.occupant slot kernelThread slot = kernelThread :=
      Function.update_self ..
    have given : Given (s.seat slot kernelThread
        (startSlot req st s.kernel.kernelSpace slot grown)) slot := by
      refine seat_given rfl (fun _ => ?_) fun process => ?_
      · change (Function.update s.history.occupant slot kernelThread slot).pid = 0
        rw [self]
        rfl
      · change (Function.update s.history.occupant slot kernelThread slot).process ≠ _ at process
        rw [self] at process
        exact absurd rfl process
    exact acc.seated (seat_seated grows slot kernelThread req st s.kernel.kernelSpace)
      (free_slot grows unused) wf linked (fun _ => given)
      (kernelPid_seat acc slot kernelThread fun _ => rfl) acc.next acc.ahead acc.life
      (fun i used => Or.inl ⟨used, rfl⟩) fun i _ => rfl

/-- The table and the log after a spawn that took a pid. -/
structure Spawned (s : System) (i : Fin processMax) (t : System) : Prop where
  others : ∀ j, j ≠ i → t.table.processes j = s.table.processes j
  nextPid : t.table.nextPid = advancePid s.table.nextPid
  pids : t.history.pids = s.history.pids + 1
  outcome :
    ((t.table.processes i).state = .unused ∧ t.history.log = s.history.log) ∨
    ((t.table.processes i).state = .starting ∧ (t.table.processes i).pid = s.table.nextPid ∧
      (t.table.processes i).parentPid = currentPid s.table s.cur ∧
      t.history.log = .spawned s.table.nextPid s.caller :: s.history.log)

theorem advancePid_next {n : Nat} (bound : n < 2147483647) :
    advancePid (n + 1) = n + 1 + 1 ∨ n + 1 = 2147483647 := by
  unfold advancePid
  rcases Decidable.em ((n : Int) + 1 = 2147483647) with last | before
  · right
    omega
  · left
    simp only [if_neg before]
    rw [if_neg]
    omega

section

variable {i : Fin processMax}

theorem Spawned.sameRecords (spawned : Spawned s i t) (free : (s.table.processes i).state = .unused)
    {pid : Int} (elsewhere : s.table.nextPid ≠ pid) : SameRecords s.table t.table pid := by
  intro j either
  rcases Decidable.em (j = i) with same | other
  · rw [same] at either
    rcases either with ⟨used, _⟩ | ⟨used, is⟩
    · exact absurd free used
    · rcases spawned.outcome with ⟨unused, _⟩ | ⟨_, own, _⟩
      · exact absurd unused used
      · exact absurd (own.symm.trans is) elsewhere
  · exact spawned.others j other

theorem Spawned.sameLog (spawned : Spawned s i t) {pid : Int} (elsewhere : s.table.nextPid ≠ pid) :
    SameLog s.history.log t.history.log pid := by
  rcases spawned.outcome with ⟨_, log⟩ | ⟨_, _, _, log⟩
  · rw [log]
    exact .refl _ _
  · rw [log]
    exact ⟨by simp [elsewhere], rfl, rfl⟩

theorem Spawned.next (spawned : Spawned s i t) (isNext : s.table.nextPid = s.history.pids + 1)
    (bound : s.history.pids < 2147483647) :
    t.table.nextPid = t.history.pids + 1 ∨ t.history.pids = 2147483647 := by
  rw [spawned.nextPid, spawned.pids, isNext]
  rcases advancePid_next bound with next | last
  · left
    rw [next]
    push_cast
    rfl
  · exact Or.inr last

theorem Spawned.ahead (spawned : Spawned s i t) (acc : Accounted s)
    (free : (s.table.processes i).state = .unused)
    (isNext : s.table.nextPid = s.history.pids + 1) (pid : Int)
    (out : pid ≤ 0 ∨ t.history.pids < pid) :
    Unlisted t.table pid ∧ Untold t.history.log pid := by
  have elsewhere : s.table.nextPid ≠ pid := by
    rw [isNext]
    rw [spawned.pids] at out
    push_cast at out
    omega
  have before : pid ≤ 0 ∨ s.history.pids < pid := by
    rw [spawned.pids] at out
    push_cast at out
    omega
  obtain ⟨unlisted, untold⟩ := acc.ahead pid before
  exact ⟨unlisted.same (spawned.sameRecords free elsewhere),
    untold.same (spawned.sameLog elsewhere)⟩

theorem Spawned.life (spawned : Spawned s i t) (acc : Accounted s)
    (inCode : s.kernel.place s.cur = .code) (free : (s.table.processes i).state = .unused)
    (isNext : s.table.nextPid = s.history.pids + 1) (pid : Int) :
    Life t.table t.history.log pid := by
  rcases Decidable.em (s.table.nextPid = pid) with own | elsewhere
  · subst own
    obtain ⟨unlisted, untold⟩ := acc.ahead s.table.nextPid (Or.inr (by omega))
    rcases spawned.outcome with ⟨unused, log⟩ | ⟨starting, named, parent, log⟩
    · refine Or.inl ⟨fun j used => ?_, ?_⟩
      · rcases Decidable.em (j = i) with same | other
        · exact absurd unused (same ▸ used)
        · rw [spawned.others j other] at used ⊢
          exact unlisted j used
      · rw [log]
        exact Or.inl untold
    · refine Or.inr ⟨i, named, ?_⟩
      rw [log]
      refine ⟨by rw [starting]; nofun, ?_, ?_, ?_⟩
      · rw [named, parent, acc.currentPid inCode]
        simp only [spawners_spawned, if_true, untold.spawners]
      · rw [named, starting]
        simp only [endings_spawned, untold.endings]
        rfl
      · rw [named]
        simp only [collections_spawned, untold.collections]
  · exact (acc.life pid).same (spawned.sameRecords free elsewhere) (spawned.sameLog elsewhere)

end

theorem Accounted.processSpawned (acc : Accounted s) (a : SpawnAnswers)
    (inCode : s.kernel.place s.cur = .code)
    (bound : (spawnElfRequest a s).2.history.pids < 2147483648) :
    Accounted (spawnElfRequest a s).2 := by
  rcases spawnElfRequest_cases a s with same | ⟨pid, table, _, grown, _, outcome⟩
  · rw [same]
    exact acc
  have room : s.history.pids < 2147483647 := by
    have taken : (spawnElfRequest a s).2.history.pids = s.history.pids + 1 := by
      rcases outcome with fails | ⟨slot, st, _, _, spawns⟩
      · rw [fails]
        rfl
      · simp only at spawns
        rw [spawns]
        rfl
    omega
  obtain ⟨isNext, fresh⟩ := acc.fresh room
  have wf := wellFormed_spawn acc.wf a
  have linked := acc.linked.processSpawned fresh a
  rcases spawn_fresh fresh a with
    same | ⟨i, grown, free, grows, fails | ⟨slot, st, inTable, unused, spawns⟩⟩
  · rw [same]
    exact acc
  · rw [fails] at wf linked ⊢
    have spawned : Spawned s i { (s.reserved (startingTable s i)).withThreads grown with
        table := setRecord (startingTable s i) i unusedProcess } :=
      ⟨fun j other => startingTable_other s unusedProcess other, rfl, rfl,
        Or.inl ⟨by simp [unusedProcess], rfl⟩⟩
    obtain ⟨cur, old, kept⟩ := grown_seated grows
    refine acc.seated ⟨cur, old, kept⟩ (fun high => absurd grows.capacity (Nat.not_le.mpr high))
      wf linked (fun beyond => absurd beyond (Nat.lt_irrefl _)) acc.kernelPid
      (spawned.next isNext room) (spawned.ahead acc free isNext)
      (spawned.life acc inCode free isNext) (fun j used => ?_) fun j used => ?_
    · have other : j ≠ i := by
        rintro rfl
        exact used (by simp [unusedProcess])
      have same := spawned.others j other
      exact Or.inl ⟨same ▸ used, same⟩
    · exact spawned.others j fun same => used (same ▸ free)
  · simp only at spawns
    rw [spawns] at wf linked ⊢
    let owner : Occupant := ⟨some s.history.pids, s.table.nextPid⟩
    let started : Process := { startingProcess s with tid := some slot }
    have seated := seat_seated (s := s.reserved (startingTable s i)) grows slot owner a.request st
      s.kernel.kernelSpace
    have new : (setRecord (startingTable s i) i started).processes i = started := setRecord_same ..
    have self : Function.update s.history.occupant slot owner slot = owner :=
      Function.update_self ..
    have caller : ((s.reserved (startingTable s i)).seat slot owner
        (startSlot a.request st s.kernel.kernelSpace slot grown)).caller = s.caller := by
      have elsewhere : s.cur ≠ slot := by
        intro same
        have low : s.cur < s.threads.threadCapacity := acc.wf.current
        have live : s.kernel.stateOf s.cur ≠ .unused := acc.wf.inUse
        rw [same] at low live
        exact live (free_slot grows unused low)
      change (Function.update s.history.occupant slot owner
        (startSlot a.request st s.kernel.kernelSpace slot grown).currentThread).pid = _
      rw [startSlot_current, grows.current]
      exact congrArg Occupant.pid (Function.update_of_ne elsewhere ..)
    have spawned : Spawned s i ({ (s.reserved (startingTable s i)).seat slot owner
        (startSlot a.request st s.kernel.kernelSpace slot grown) with
          table := setRecord (startingTable s i) i started }.note
            (.spawned s.table.nextPid ((s.reserved (startingTable s i)).seat slot owner
              (startSlot a.request st s.kernel.kernelSpace slot grown)).caller)) := by
      refine ⟨fun j other => startingTable_other s started other, rfl, rfl, Or.inr ?_⟩
      rw [caller]
      exact ⟨congrArg Process.state new, congrArg Process.pid new,
        congrArg Process.parentPid new, rfl⟩
    obtain ⟨cur, old, kept⟩ := seated
    refine acc.seated ⟨cur, old, kept⟩ (free_slot grows unused) wf linked (fun _ => ?_)
      (kernelPid_seat acc slot owner nofun) (spawned.next isNext room)
      (spawned.ahead acc free isNext) (spawned.life acc inCode free isNext) (fun j used => ?_)
      fun j used => ?_
    · refine seat_given rfl ?_ fun _ => ⟨i, ?_⟩
      · exact kernelPid_seat acc slot owner nofun slot
      · change ((setRecord (startingTable s i) i started).processes i).state ≠ _ ∧
          ((setRecord (startingTable s i) i started).processes i).tid = _
        rw [new]
        exact ⟨nofun, rfl⟩
    · rcases Decidable.em (j = i) with same | other
      · right
        change ((setRecord (startingTable s i) i started).processes j).tid = _ ∧
          ((setRecord (startingTable s i) i started).processes j).state ≠ _ ∧
          (Function.update s.history.occupant slot owner slot).pid =
            ((setRecord (startingTable s i) i started).processes j).pid
        rw [same, new, self]
        exact ⟨rfl, nofun, rfl⟩
      · have same := spawned.others j other
        exact Or.inl ⟨same ▸ used, same⟩
    · exact spawned.others j fun same => used (same ▸ free)

/-! ## Waits -/

theorem Accounted.refused (acc : Accounted s) (pid : Int) : Accounted (refuse pid s) := by
  have linked : Linked (refuse pid s) :=
    acc.linked.of_records (Nat.le_refl _) (fun _ _ live => ⟨live, rfl⟩)
      (fun _ used => ⟨used, rfl, rfl⟩) fun _ _ => rfl
  have logs (other : Int) : SameLog s.history.log (refuse pid s).history.log other :=
    ⟨rfl, rfl, rfl⟩
  refine ⟨acc.wf, linked, acc.next, fun other out => ?_, acc.kernelPid, acc.ownPid, acc.exited,
    acc.listed, fun other => (acc.life other).same (fun _ _ => rfl) (logs other),
    fun u inTable blocked other waits => ?_⟩
  · obtain ⟨unlisted, untold⟩ := acc.ahead other out
    exact ⟨unlisted, untold.same (logs other)⟩
  change Function.update s.activity s.cur .none u = _ at waits
  rw [Function.update_apply] at waits
  split at waits
  · cases waits
  · exact acc.asleep u inTable blocked other waits

theorem Accounted.started (acc : Accounted s) (inCode : s.kernel.place s.cur = .code) :
    Accounted { s with table := processStarted s.table s.cur } := by
  cases found : findProcessByTid s.table s.cur with
  | none =>
    have same : processStarted s.table s.cur = s.table := by rw [processStarted, found]
    rw [same]
    exact acc
  | some i =>
    let running : Process := { s.table.processes i with state := .running }
    have marks : processStarted s.table s.cur = setRecord s.table i running := by
      rw [processStarted, found]
    obtain ⟨used, record⟩ := findProcessByTid_some found
    have notYet := acc.running inCode found
    have records := started_records s.table s.cur
    have linked : Linked { s with table := processStarted s.table s.cur } :=
      acc.linked.of_records (Nat.le_refl _) (fun _ _ live => ⟨live, rfl⟩) records fun _ _ => rfl
    have exits (j : Fin processMax)
        (exited : ((processStarted s.table s.cur).processes j).state = .exited) :
        (s.table.processes j).state = .exited := by
      rw [marks, setRecord_apply] at exited
      split at exited
      · cases exited
      · exact exited
    refine ⟨acc.wf, linked, ?_, ?_, acc.kernelPid, ?_, ?_, ?_, ?_, ?_⟩
    · rw [marks]
      exact acc.next
    · intro pid out
      obtain ⟨unlisted, untold⟩ := acc.ahead pid out
      refine ⟨fun j used is => ?_, untold⟩
      obtain ⟨was, _, same⟩ := records j used
      exact unlisted j was (same.symm.trans is)
    · intro j u used record
      obtain ⟨was, sameTid, samePid⟩ := records j used
      exact (acc.ownPid j u was (sameTid.symm.trans record)).trans samePid.symm
    · intro j u exited record
      have was := exits j exited
      exact acc.exited j u was ((records j (by rw [exited]; nofun)).2.1.symm.trans record)
    · intro u inTable used process goes
      obtain ⟨j, was, names⟩ := acc.listed u inTable used process goes
      refine ⟨j, ?_⟩
      change ((processStarted s.table s.cur).processes j).state ≠ _ ∧
        ((processStarted s.table s.cur).processes j).tid = _
      rw [marks, setRecord_apply]
      split
      · next here =>
        rw [here] at names
        exact ⟨nofun, names⟩
      · exact ⟨was, names⟩
    · intro pid
      change Life (processStarted s.table s.cur) s.history.log pid
      rw [marks]
      rcases Decidable.em ((s.table.processes i).pid = pid) with own | elsewhere
      · subst own
        have awaited := (acc.life _).awaited acc.linked.pids used rfl
        have none_yet := awaited.endings
        rw [if_neg notYet] at none_yet
        refine Or.inr ⟨i, by rw [setRecord_same], ?_⟩
        rw [setRecord_same]
        exact ⟨nofun, awaited.spawners, none_yet, awaited.collections⟩
      · exact (acc.life pid).same (sameRecords_setRecord _ elsewhere (Or.inr rfl) (Or.inr rfl))
          (.refl _ _)
    · intro u inTable blocked pid waits
      obtain ⟨on, notYet⟩ := acc.asleep u inTable blocked pid waits
      refine ⟨on, fun j used is exited => ?_⟩
      obtain ⟨was, _, same⟩ := records j used
      exact notYet j was (same.symm.trans is) (exits j exited)

theorem Accounted.collected (acc : Accounted s) {pid : Int} {i : Fin processMax}
    (inCode : s.kernel.place s.cur = .code)
    (found : findProcess s.table pid = some i)
    (own : (s.table.processes i).parentPid = Proc.currentPid s.table s.cur)
    (exited : (s.table.processes i).state = .exited)
    (wf : WellFormed (collect pid i s).kernel) : Accounted (collect pid i s) := by
  have linked := acc.linked.collected found
  obtain ⟨used, named⟩ := findProcess_some found
  obtain ⟨capacity, history, activity, cur, place⟩ := buried_keeps s i
  have records (j : Fin processMax)
      (live : ((setRecord s.table i unusedProcess).processes j).state ≠ .unused) :
      j ≠ i ∧ (setRecord s.table i unusedProcess).processes j = s.table.processes j := by
    have other : j ≠ i := by
      rintro rfl
      exact live (by simp [unusedProcess])
    exact ⟨other, setRecord_other _ _ _ _ other⟩
  have slot := buried_slot s i
  -- the other records name other slots, and those are as before
  have elsewhere (j : Fin processMax) (other : j ≠ i) (u : Nat)
      (live : (s.table.processes j).state ≠ .unused)
      (record : (s.table.processes j).tid = some u) :
      (s.table.processes i).tid ≠ some u := fun names =>
    other (acc.linked.distinct j i u live used record names)
  have gone (u : Nat) (apart : (s.table.processes i).tid ≠ some u) :
      Gone (buried i s) u ↔ Gone s u := by
    rw [Gone, Gone, place, cur, buried_other s i apart]
  rw [collect_eq pid i s found] at wf linked ⊢
  refine ⟨wf, linked, acc.next, ?_, ?_, ?_, ?_, ?_, ?_, ?_⟩
  · intro other out
    obtain ⟨unlisted, untold⟩ := acc.ahead other out
    have apart : pid ≠ other := by
      rintro rfl
      exact unlisted i used named
    refine ⟨unlisted.same (sameRecords_setRecord _ apart (Or.inr named) (Or.inl rfl)),
      untold.same ⟨rfl, rfl, ?_⟩⟩
    simp [apart]
  · exact acc.kernelPid
  · intro j u live record
    obtain ⟨_, same⟩ := records j live
    change ((setRecord s.table i unusedProcess).processes j).tid = _ at record
    change _ = ((setRecord s.table i unusedProcess).processes j).pid
    rw [same] at live record ⊢
    exact acc.ownPid j u live record
  · intro j u ended record
    change ((setRecord s.table i unusedProcess).processes j).state = _ at ended
    change ((setRecord s.table i unusedProcess).processes j).tid = _ at record
    obtain ⟨other, same⟩ := records j (by rw [ended]; nofun)
    rw [same] at ended record
    exact (gone u (elsewhere j other u (by rw [ended]; nofun) record)).mpr
      (acc.exited j u ended record)
  · intro u inTable live process goes
    change (buried i s).kernel.stateOf u ≠ _ at live
    change ¬ Gone (buried i s) u at goes
    change u < (buried i s).threads.threadCapacity at inTable
    rw [capacity] at inTable
    rcases Decidable.em ((s.table.processes i).tid = some u) with record | apart
    · -- the thread of the record was reaped, or it never comes back
      exfalso
      rcases slot u with same | ⟨_, _, reaped⟩
      · rcases acc.exited i u exited record with final | ⟨zombie, other⟩
        · exact goes (Or.inl (by rw [place]; exact final))
        · refine goes (Or.inr ⟨?_, by rw [cur]; exact other⟩)
          exact (congrArg Thread.state same).trans zombie
      · refine live ?_
        change ((buried i s).threads.threads u).state = _
        rw [reaped]
        rfl
    · rw [buried_other s i apart] at live
      obtain ⟨j, was, names⟩ := acc.listed u inTable live process
        fun before => goes ((gone u apart).mpr before)
      refine ⟨j, ?_⟩
      have other : j ≠ i := by
        rintro rfl
        exact apart names
      change ((setRecord s.table i unusedProcess).processes j).state ≠ _ ∧
        ((setRecord s.table i unusedProcess).processes j).tid = _
      rw [setRecord_other _ _ _ _ other]
      exact ⟨was, names⟩
  · intro other
    rcases Decidable.em (pid = other) with rfl | apart
    · have awaited := (acc.life pid).awaited acc.linked.pids used named
      have ended := awaited.endings
      rw [if_pos exited] at ended
      refine Or.inl ⟨fun j live is => ?_, Or.inr ⟨s.caller, (s.table.processes i).exitStatus,
        ?_, ?_, ?_⟩⟩
      · obtain ⟨differs, same⟩ := records j live
        change ((setRecord s.table i unusedProcess).processes j).state ≠ _ at live
        change ((setRecord s.table i unusedProcess).processes j).pid = _ at is
        rw [same] at live is
        exact differs (acc.linked.pids j i live used (is.trans named.symm))
      · rw [spawners_waited, ← acc.currentPid inCode, ← own, ← named]
        exact awaited.spawners
      · rw [endings_waited, ← named]
        exact ended
      · have none_yet := awaited.collections
        rw [named] at none_yet
        rw [collections_waited, if_pos rfl, none_yet]
    · refine (acc.life other).same
        (sameRecords_setRecord _ apart (Or.inr named) (Or.inl rfl)) ⟨rfl, rfl, ?_⟩
      simp [apart]
  · intro u inTable blocked other waits
    change u < (buried i s).threads.threadCapacity at inTable
    change ((buried i s).threads.threads u).state = _ at blocked
    change Function.update s.activity s.cur .none u = _ at waits
    change ((buried i s).threads.threads u).waitChannel = _ ∧ _
    rw [capacity] at inTable
    have same : (buried i s).threads.threads u = s.threads.threads u := by
      rcases slot u with same | ⟨_, _, reaped⟩
      · exact same
      · rw [reaped] at blocked
        cases blocked
    rw [same] at blocked ⊢
    rw [Function.update_apply] at waits
    split at waits
    · cases waits
    · obtain ⟨on, notYet⟩ := acc.asleep u inTable blocked other waits
      refine ⟨on, fun j live is => ?_⟩
      obtain ⟨_, kept⟩ := records j live
      change ((setRecord s.table i unusedProcess).processes j).state ≠ _ at live
      change ((setRecord s.table i unusedProcess).processes j).pid = _ at is
      change ((setRecord s.table i unusedProcess).processes j).state ≠ _
      rw [kept] at live is ⊢
      exact notYet j live is

end MiniKernel.Proc
