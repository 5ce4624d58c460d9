import MiniKernel.Proc.Pids
import MiniKernel.Proc.Waits

/-!
# Parents and their children's records

Source: kernel/core/process.c:68-105 (`current_pid`, `reserve_process`,
`release_process`), 332-372 (`process_wait`, `process_mark_exited`). Only the
process that `parent_pid` names can wait for a record and have it released, and
nothing changes `parent_pid` when that process ends: the record of a child that
exits later stays EXITED, with its thread slot, stack and address space.
-/
namespace MiniKernel.Proc
open Memory.Paging (Word)
open Sched
open Lib.Machine (run Meets)

variable {s t : System} {p q : ProcessTable}

/-- Some process of that pid has not exited. -/
def AlivePid (p : ProcessTable) (pid : Int) : Prop :=
  ∃ j, (p.processes j).state ≠ .unused ∧ (p.processes j).state ≠ .exited ∧
    (p.processes j).pid = pid

instance (p : ProcessTable) (pid : Int) : Decidable (AlivePid p pid) :=
  inferInstanceAs (Decidable (∃ j, (p.processes j).state ≠ .unused ∧ _ ∧ _))

/-- Every record can be waited for: its parent is the kernel or has not exited. -/
def ParentsAlive (p : ProcessTable) : Prop :=
  ∀ i, (p.processes i).state ≠ .unused →
    (p.processes i).parentPid = 0 ∨ AlivePid p (p.processes i).parentPid

/-- A record names the process of record `i` as its parent. -/
def HasChildren (p : ProcessTable) (i : Fin processMax) : Prop :=
  ∃ k, (p.processes k).state ≠ .unused ∧ (p.processes k).parentPid = (p.processes i).pid

instance (p : ProcessTable) (i : Fin processMax) : Decidable (HasChildren p i) :=
  inferInstanceAs (Decidable (∃ k, (p.processes k).state ≠ .unused ∧ _))

/-- Another process with the pid of record `i` has not exited. -/
def SharesPid (p : ProcessTable) (i : Fin processMax) : Prop :=
  ∃ j, j ≠ i ∧ (p.processes j).state ≠ .unused ∧ (p.processes j).state ≠ .exited ∧
    (p.processes j).pid = (p.processes i).pid

instance (p : ProcessTable) (i : Fin processMax) : Decidable (SharesPid p i) :=
  inferInstanceAs (Decidable (∃ j, j ≠ i ∧ (p.processes j).state ≠ .unused ∧ _ ∧ _))

/-- The end of the thread in slot `tid` leaves no record without a parent. -/
def EndsChildless (p : ProcessTable) (tid : Nat) : Prop :=
  ∀ i ∈ findProcessByTid p tid, HasChildren p i → SharesPid p i

instance (p : ProcessTable) (tid : Nat) : Decidable (EndsChildless p tid) :=
  inferInstanceAs (Decidable (∀ i ∈ findProcessByTid p tid, _ → _))

/-- The process of the thread in slot `tid` has not exited. -/
def CallerAlive (p : ProcessTable) (tid : Nat) : Prop :=
  ∀ i ∈ findProcessByTid p tid, AlivePid p (p.processes i).pid

instance (p : ProcessTable) (tid : Nat) : Decidable (CallerAlive p tid) :=
  inferInstanceAs (Decidable (∀ i ∈ findProcessByTid p tid, _))

/-- No process ends while a record names it as its parent, and none is created
by a thread whose process has exited. -/
def LeavesNoOrphan (s : System) : PreemptibleEvent → Prop
  | .whole (.spawn a) | .whole (.spawnRedirect a _ _) =>
    Reserves a s → CallerAlive s.table s.cur
  | .whole (.exit _) => EndsChildless s.table s.cur
  | .whole (.kill pid _) => ∀ tid ∈ processGetTid s.table pid, EndsChildless s.table tid
  | _ => True

instance (s : System) (e : PreemptibleEvent) : Decidable (LeavesNoOrphan s e) := by
  induction e using PreemptibleEvent.casesOn with
  | whole e => induction e using SysEvent.casesOn <;> (dsimp only [LeavesNoOrphan]; infer_instance)
  | spawnBegin req => exact inferInstanceAs (Decidable True)
  | spawnStep block stack => exact inferInstanceAs (Decidable True)

/-- As long as no pid was handed out twice, a thread that runs its own code
belongs to a process that has not exited. -/
theorem Accounted.callerAlive (acc : Accounted s) (inCode : s.kernel.place s.cur = .code) :
    CallerAlive s.table s.cur := by
  intro i found
  exact ⟨i, (findProcessByTid_some found).1, acc.running inCode found, rfl⟩

/-! ## Changes of the process table -/

/-- Records keep their parents, and who was alive is alive, or another of its pid. -/
theorem ParentsAlive.of_records (alive : ParentsAlive p)
    (records : ∀ i, (q.processes i).state ≠ .unused →
      (p.processes i).state ≠ .unused ∧ (q.processes i).parentPid = (p.processes i).parentPid)
    (lives : ∀ i, (p.processes i).state ≠ .unused →
      AlivePid p (p.processes i).parentPid → AlivePid q (p.processes i).parentPid) :
    ParentsAlive q := by
  intro i used
  obtain ⟨was, parent⟩ := records i used
  rw [parent]
  rcases alive i was with kernel | living
  · exact Or.inl kernel
  · exact Or.inr (lives i was living)

theorem ParentsAlive.ended (alive : ParentsAlive p) (tid : Nat) (status : BitVec 32)
    (childless : EndsChildless p tid) : ParentsAlive (processMarkExited p tid status) := by
  unfold processMarkExited
  cases found : findProcessByTid p tid with
  | none => exact alive
  | some i =>
    have used := (findProcessByTid_some found).1
    refine alive.of_records (fun k hk => ?_) fun k hk living => ?_
    · simp only [setRecord_apply] at hk ⊢
      split
      · next same =>
        rw [same]
        exact ⟨used, rfl⟩
      · next other =>
        rw [if_neg other] at hk
        exact ⟨hk, rfl⟩
    · -- if the parent is the one that ends, another process has its pid
      have other : ∃ j, j ≠ i ∧ (p.processes j).state ≠ .unused ∧
          (p.processes j).state ≠ .exited ∧ (p.processes j).pid = (p.processes k).parentPid := by
        obtain ⟨j, usedJ, livesJ, pid⟩ := living
        cases Decidable.em (j = i) with
        | inl same =>
          rw [same] at pid
          obtain ⟨j', apart, rest⟩ := childless i found ⟨k, hk, pid.symm⟩
          rw [pid] at rest
          exact ⟨j', apart, rest⟩
        | inr apart => exact ⟨j, apart, usedJ, livesJ, pid⟩
      obtain ⟨j, apart, rest⟩ := other
      refine ⟨j, ?_⟩
      rw [setRecord_other _ _ _ _ apart]
      exact rest

theorem ParentsAlive.released (alive : ParentsAlive p) (i : Fin processMax)
    (exited : (p.processes i).state = .exited) : ParentsAlive (setRecord p i unusedProcess) := by
  refine alive.of_records (fun k hk => ?_) fun k _ ⟨j, used, lives, pid⟩ => ?_
  · simp only [setRecord_apply] at hk ⊢
    split at hk
    · exact absurd rfl hk
    · next other =>
      rw [if_neg other]
      exact ⟨hk, rfl⟩
  · have apart : j ≠ i := by
      intro same
      rw [same] at lives
      exact lives exited
    refine ⟨j, ?_⟩
    rw [setRecord_other _ _ _ _ apart]
    exact ⟨used, lives, pid⟩

theorem ParentsAlive.started (alive : ParentsAlive p) (tid : Nat) :
    ParentsAlive (processStarted p tid) := by
  unfold processStarted
  cases found : findProcessByTid p tid with
  | none => exact alive
  | some i =>
    have used := (findProcessByTid_some found).1
    refine alive.of_records (fun k hk => ?_) fun k _ ⟨j, usedJ, lives, pid⟩ => ⟨j, ?_⟩
    · simp only [setRecord_apply] at hk ⊢
      split
      · next same =>
        rw [same]
        exact ⟨used, rfl⟩
      · next other =>
        rw [if_neg other] at hk
        exact ⟨hk, rfl⟩
    · simp only [setRecord_apply]
      split
      · next same =>
        rw [same] at pid
        exact ⟨by simp, by simp, pid⟩
      · exact ⟨usedJ, lives, pid⟩

/-! ## A new record -/

/-- Parents are alive without counting record `i`. -/
def AliveBut (p : ProcessTable) (i : Fin processMax) (pid : Int) : Prop :=
  ∃ j, j ≠ i ∧ (p.processes j).state ≠ .unused ∧ (p.processes j).state ≠ .exited ∧
    (p.processes j).pid = pid

/-- The parents in the table with the reserved record are those of the table
before, and the caller. -/
theorem starting_parents (alive : ParentsAlive s.table) (caller : CallerAlive s.table s.cur)
    {i : Fin processMax} (free : (s.table.processes i).state = .unused) (k : Fin processMax)
    (used : ((startingTable s i).processes k).state ≠ .unused) :
    ((startingTable s i).processes k).parentPid = 0 ∨
      AliveBut (startingTable s i) i ((startingTable s i).processes k).parentPid := by
  have old (pid : Int) : AlivePid s.table pid → AliveBut (startingTable s i) i pid := by
    rintro ⟨j, usedJ, lives, same⟩
    have apart : j ≠ i := by
      intro here
      rw [here] at usedJ
      exact usedJ free
    refine ⟨j, apart, ?_⟩
    rw [startingTable, setRecord_other _ _ _ _ apart]
    exact ⟨usedJ, lives, same⟩
  cases Decidable.em (k = i) with
  | inl same =>
    have filled : (startingTable s i).processes i = startingProcess s := setRecord_same ..
    rw [same, filled]
    change currentPid s.table s.cur = 0 ∨ AliveBut _ i (currentPid s.table s.cur)
    unfold currentPid
    cases found : findProcessByTid s.table s.cur with
    | none => exact Or.inl rfl
    | some c => exact Or.inr (old _ (caller c found))
  | inr other =>
    have kept : (startingTable s i).processes k = s.table.processes k :=
      setRecord_other _ _ _ _ other
    rw [kept] at used ⊢
    exact (alive k used).imp_right (old _)

/-- A spawn that fails releases the first record with the pid; if that is not
its own, its own stays and has the pid. -/
theorem ParentsAlive.unreserved (alive : ParentsAlive s.table)
    (caller : CallerAlive s.table s.cur) {i : Fin processMax}
    (free : (s.table.processes i).state = .unused) :
    ParentsAlive (releaseProcess (startingTable s i) s.table.nextPid) := by
  have filled : (startingTable s i).processes i = startingProcess s := setRecord_same ..
  unfold releaseProcess
  cases found : findProcess (startingTable s i) s.table.nextPid with
  | none =>
    intro k used
    exact (starting_parents alive caller free k used).imp_right
      fun ⟨j, _, lives⟩ => ⟨j, lives⟩
  | some r =>
    intro k used
    simp only [setRecord_apply] at used ⊢
    split at used
    · exact absurd rfl used
    · next other =>
      rw [if_neg other]
      refine (starting_parents alive caller free k used).imp_right ?_
      rintro ⟨j, notOwn, usedJ, lives, pid⟩
      cases Decidable.em (j = r) with
      | inl same =>
        have own : i ≠ r := fun here => notOwn (same.trans here.symm)
        have samePid := (findProcess_some found).2
        rw [same, samePid] at pid
        refine ⟨i, ?_⟩
        rw [setRecord_other _ _ _ _ own, filled]
        exact ⟨nofun, nofun, pid⟩
      | inr apart =>
        refine ⟨j, ?_⟩
        rw [setRecord_other _ _ _ _ apart]
        exact ⟨usedJ, lives, pid⟩

theorem setProcessTid_parent (p : ProcessTable) (pid : Int) (tid : Nat) (j : Fin processMax) :
    ((setProcessTid p pid tid).processes j).parentPid = (p.processes j).parentPid := by
  unfold setProcessTid
  split
  · rw [setRecord_apply]
    split
    · next same => rw [same]
    · rfl
  · rfl

theorem ParentsAlive.spawned (alive : ParentsAlive s.table) (caller : CallerAlive s.table s.cur)
    (a : SpawnAnswers) : ParentsAlive (spawnElfRequest a s).2.table := by
  rcases spawnElfRequest_cases a s with
    same | ⟨pid, table, reserves, grown, _, outcome⟩
  · rw [same]
    exact alive
  · obtain ⟨i, free, isPid, isTable⟩ := reserveProcess_some reserves
    obtain rfl : pid = s.table.nextPid := isPid
    obtain rfl : table = startingTable s i := isTable
    rcases outcome with fails | ⟨slot, st, _, _, spawns⟩
    · rw [fails]
      exact alive.unreserved caller free
    · simp only at spawns
      rw [spawns]
      change ParentsAlive (setProcessTid (startingTable s i) s.table.nextPid slot)
      intro k used
      have records := setProcessTid_records (startingTable s i) s.table.nextPid slot
      rw [(records k).1] at used
      rw [setProcessTid_parent]
      refine (starting_parents alive caller free k used).imp_right ?_
      rintro ⟨j, _, usedJ, lives, samePid⟩
      refine ⟨j, ?_⟩
      rw [(records j).1, (records j).2]
      exact ⟨usedJ, lives, samePid⟩

/-! ## Runs -/

/-- The risks a run without orphans admits. -/
def NoOrphans (s : System) : Risk → Prop
  | .ends tid => EndsChildless s.table tid
  | .spawns => CallerAlive s.table s.cur
  | .sleeps _ => True

theorem parentsAlive_rules : TableRules NoOrphans ParentsAlive where
  ended _ tid status childless alive := alive.ended tid status childless
  spawned _ a caller alive := alive.spawned caller a
  released _ i exited alive := alive.released i exited
  started _ tid alive := alive.started tid

theorem admits_of_noOrphan {e : PreemptibleEvent} (ok : LeavesNoOrphan s e) :
    Admits NoOrphans s e := by
  unfold Admits
  split
  · exact ok
  · exact ok
  · next e noSpawn noRedirect =>
    intro r risk
    cases e with
    | spawn a => exact absurd rfl (noSpawn a)
    | spawnRedirect a i o => exact absurd rfl (noRedirect a i o)
    | exit status =>
      cases risk
      exact ok
    | kill pid sig =>
      obtain ⟨tid, target, rfl⟩ := risk
      exact ok tid target
    | sleep channel =>
      cases risk
      trivial
    | wait pid =>
      cases risk
      trivial
    | read fd len =>
      obtain ⟨_, _, _, rfl⟩ := risk
      trivial
    | write fd src =>
      obtain ⟨_, _, _, rfl⟩ := risk
      trivial
    | resume =>
      obtain ⟨_, rfl⟩ := risk
      trivial
    | _ => exact risk.elim
  · trivial

/-- In a run in which no process ends before its children are waited for, every
record has a parent that can wait for it. -/
theorem parents_alive (block : Nat → Thread) (stack : GuardedStack)
    (kernelSpace pipesAddress : Word) (es : List PreemptibleEvent) (s : System)
    (ok : Meets System.stepPreemptible LeavesNoOrphan
      (System.boot block stack kernelSpace pipesAddress) es)
    (ran : run System.stepPreemptible (System.boot block stack kernelSpace pipesAddress) es =
      some s) : ParentsAlive s.table := by
  have kept (s : System) (e : PreemptibleEvent) (t : System)
      (inv : WellFormed s.kernel ∧ ParentsAlive s.table) (ok : LeavesNoOrphan s e)
      (h : s.stepPreemptible e = some t) : WellFormed t.kernel ∧ ParentsAlive t.table :=
    ⟨preemptible_wellFormed inv.1 h,
      step_keeps_table parentsAlive_rules inv.1 h (admits_of_noOrphan ok) inv.2⟩
  have start : ParentsAlive (System.boot block stack kernelSpace pipesAddress).table :=
    fun _ used => absurd rfl used
  exact (Lib.Machine.run_invariant kept ⟨boot_wellFormed block stack kernelSpace, start⟩ ok ran).2

/-- Process 1 starts process 2 and goes on. -/
def startsChild : List PreemptibleEvent :=
  [.whole (.spawn goodAnswers), .whole .yield, .whole (.spawn goodAnswers)]

theorem parents_alive_child :
    ∃ s, run System.stepPreemptible firstSystem startsChild = some s ∧
      (s.table.processes 1).parentPid = 1 ∧ ParentsAlive s.table := by
  have runs : (run System.stepPreemptible firstSystem startsChild).isSome := by decide +kernel
  obtain ⟨s, ran⟩ := Option.isSome_iff_exists.mp runs
  have child : ∀ s ∈ run System.stepPreemptible firstSystem startsChild,
      (s.table.processes 1).parentPid = 1 := by decide +kernel
  exact ⟨s, ran, child s ran, parents_alive (blockOfUid 0) someStack 0x1000 0x300000 startsChild s
    (by decide +kernel) ran⟩

/-- Process 1 exits with process 2 still there: nobody can wait for 2 any more. -/
theorem exit_leaves_orphan :
    ¬ ∀ block stack kernelSpace pipesAddress es s,
      run System.stepPreemptible (.boot block stack kernelSpace pipesAddress) es = some s →
      ParentsAlive s.table := by
  intro claim
  let es : List PreemptibleEvent := startsChild ++ [.whole (.exit 0)]
  have runs : (run System.stepPreemptible firstSystem es).isSome := by decide +kernel
  obtain ⟨s, ran⟩ := Option.isSome_iff_exists.mp runs
  have orphan : ∀ s ∈ run System.stepPreemptible firstSystem es,
      (s.table.processes 1).state ≠ .unused ∧ (s.table.processes 1).parentPid ≠ 0 ∧
        ¬ AlivePid s.table (s.table.processes 1).parentPid := by decide +kernel
  obtain ⟨used, child, dead⟩ := orphan s ran
  exact (claim _ _ _ _ _ s ran 1 used).elim child dead

end MiniKernel.Proc
