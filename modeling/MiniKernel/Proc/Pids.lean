import MiniKernel.Proc.OwnThreads

/-!
# Pids after the counter has wrapped

Source: kernel/core/process.c:52-105 (`find_process`, `reserve_process`,
`release_process`). `next_pid` starts again at 1 after 2^31 - 1 processes, and
`reserve_process` hands it out without looking whether a record still has it.

Whether a property of the process table survives a step depends on five changes
of the table; `TableRules` lists them.
-/
namespace MiniKernel.Proc
open Memory.Paging (Word)
open Sched
open Lib.Machine (run Meets)

variable {ok : System → Risk → Prop} {s t : System} {p q : ProcessTable} {i : Fin processMax}

/-! ## What a step does to the process table -/

/-- The spawn gets as far as a pid. -/
def Reserves (a : SpawnAnswers) (s : System) : Prop :=
  a.loaded = true ∧ ∃ i, (s.table.processes i).state = .unused

instance (a : SpawnAnswers) (s : System) : Decidable (Reserves a s) :=
  inferInstanceAs (Decidable (_ = true ∧ ∃ i, (s.table.processes i).state = .unused))

theorem spawn_unreserved {a : SpawnAnswers} (h : ¬ Reserves a s) :
    spawnElfRequest a s = (none, s) := by
  rcases spawnElfRequest_cases a s with same | ⟨pid, table, reserves, _⟩
  · exact same
  · obtain ⟨i, free, _⟩ := reserveProcess_some reserves
    unfold spawnElfRequest
    split
    · rfl
    · next loaded => exact absurd ⟨by simpa using loaded, i, free⟩ h

/-- The risks of an event, a spawn's only if it reserves a pid. -/
def Admits (ok : System → Risk → Prop) (s : System) : PreemptibleEvent → Prop
  | .whole (.spawn a) | .whole (.spawnRedirect a _ _) => Reserves a s → ok s .spawns
  | .whole e => ∀ r, Risks s e r → ok s r
  | _ => True

/-- What keeps a property of the process table. -/
structure TableRules (ok : System → Risk → Prop) (I : ProcessTable → Prop) : Prop where
  ended : ∀ s tid status, ok s (.ends tid) → I s.table → I (processMarkExited s.table tid status)
  spawned : ∀ s a, ok s .spawns → I s.table → I (spawnElfRequest a s).2.table
  released : ∀ p i, (p.processes i).state = .exited → I p → I (setRecord p i unusedProcess)
  started : ∀ p tid, I p → I (processStarted p tid)

theorem startThread_table (req : SpawnRequest) (block : Option (Nat → Thread))
    (stack : Option GuardedStack) (owner : Occupant) (s : System) :
    (startThread req block stack owner s).2.table = s.table := by
  obtain ⟨grown, _, fails | ⟨slot, st, _, _, starts⟩⟩ :=
    startThread_cases req block stack owner s
  · rw [fails]
    rfl
  · rw [starts]
    rfl

theorem Part.keeps_table {I : ProcessTable → Prop} (rules : TableRules ok I)
    (part : Part ok s t) (holds : I s.table) : I t.table := by
  cases part with
  | @died status _ _ risk =>
    rw [(die_parts status s).2.1]
    exact rules.ended s s.cur status risk holds
  | @killed tid status _ _ _ _ _ _ _ risk =>
    rw [(killOther_parts tid status s).2.1]
    exact rules.ended s tid status risk holds
  | threadSpawned =>
    rw [startThread_table]
    exact holds
  | processSpawned _ risk => exact rules.spawned s _ risk holds
  | closed =>
    rw [(quiet_closed _ _ s).table]
    exact holds
  | @collected pid i _ found _ exited _ =>
    rw [collect_eq pid i s found]
    exact rules.released s.table i exited holds
  | started => exact rules.started s.table s.cur holds
  | scheduled | fellAsleep | loopEnded | transferred | refused | redirected | piped | pipeFailed
  | opened => exact holds

/-- A property of the process table that the rules keep survives every step. -/
theorem step_keeps_table {I : ProcessTable → Prop} (rules : TableRules ok I)
    (wf : WellFormed s.kernel) {e : PreemptibleEvent} (h : s.stepPreemptible e = some t)
    (admits : Admits ok s e) (holds : I s.table) : I t.table := by
  have chain (u : System) (parts : Parts ok s u) : I u.table :=
    parts_invariant ok (I := fun s => I s.table)
      (fun _ _ holds part => part.keeps_table rules holds) holds parts
  cases e with
  | spawnBegin req =>
    obtain ⟨_, rfl⟩ := call_eq_some.mp h
    exact holds
  | spawnStep block stack =>
    simp only [System.stepPreemptible] at h
    split at h
    · next req phase place =>
      cases h
      cases phase <;> exact holds
    · cases h
  | whole e =>
    by_cases spawns : ∃ a, e = .spawn a ∨ ∃ stdinFd stdoutFd, e = .spawnRedirect a stdinFd stdoutFd
    · obtain ⟨a, spawns⟩ := spawns
      by_cases reserves : Reserves a s
      · refine chain t (step_parts wf h fun r risk => ?_)
        rcases spawns with rfl | ⟨_, _, rfl⟩ <;>
        · cases risk
          exact admits reserves
      · have nothing := spawn_unreserved reserves
        rcases spawns with rfl | ⟨stdinFd, stdoutFd, rfl⟩
        · obtain ⟨_, rfl⟩ := call_eq_some.mp h
          rw [nothing]
          exact holds
        · obtain ⟨_, rfl⟩ := call_eq_some.mp h
          rw [spawnFromFileRedirect, nothing]
          exact holds
    · refine chain t (step_parts wf h ?_)
      unfold Admits at admits
      split at admits
      · next a here => cases here; exact absurd ⟨a, Or.inl rfl⟩ spawns
      · next a i o here => cases here; exact absurd ⟨a, Or.inr ⟨i, o, rfl⟩⟩ spawns
      · next e' _ _ here => cases here; exact admits
      · next notWhole => exact absurd rfl (notWhole e)

/-! ## Pids name one process each -/

/-- What a caller with a pid relies on. -/
structure PidsName (p : ProcessTable) : Prop where
  positive : ∀ i, (p.processes i).state ≠ .unused → 0 < (p.processes i).pid
  distinct : DistinctPids p
  found : ∀ i, (p.processes i).state ≠ .unused → findProcess p (p.processes i).pid = some i

/-- A spawn that gets as far as a pid gets one that no record has. -/
def TakesFreshPid (s : System) : PreemptibleEvent → Prop
  | .whole (.spawn a) | .whole (.spawnRedirect a _ _) => Reserves a s → FreshPid s
  | _ => True

instance (s : System) (e : PreemptibleEvent) : Decidable (TakesFreshPid s e) := by
  induction e using PreemptibleEvent.casesOn with
  | whole e => induction e using SysEvent.casesOn <;> (dsimp only [TakesFreshPid]; infer_instance)
  | spawnBegin req => exact inferInstanceAs (Decidable True)
  | spawnStep block stack => exact inferInstanceAs (Decidable True)

structure UniquePids (p : ProcessTable) : Prop where
  next : 1 ≤ p.nextPid ∧ p.nextPid ≤ 2147483647
  positive : ∀ i, (p.processes i).state ≠ .unused → 0 < (p.processes i).pid
  distinct : DistinctPids p

theorem UniquePids.pidsName (unique : UniquePids p) : PidsName p :=
  ⟨unique.positive, unique.distinct, fun _ used =>
    findProcess_of_distinct unique.distinct used rfl⟩

theorem advancePid_range {n : Int} (range : 1 ≤ n ∧ n ≤ 2147483647) :
    1 ≤ advancePid n ∧ advancePid n ≤ 2147483647 := by
  unfold advancePid
  split <;> simp only <;> split <;> omega

/-- The records still in use keep their pids. -/
theorem UniquePids.of_records (unique : UniquePids p)
    (next : 1 ≤ q.nextPid ∧ q.nextPid ≤ 2147483647)
    (records : ∀ i, (q.processes i).state ≠ .unused →
      (p.processes i).state ≠ .unused ∧ (q.processes i).pid = (p.processes i).pid) :
    UniquePids q := by
  refine ⟨next, fun i used => ?_, fun i j used used' same => ?_⟩
  · obtain ⟨was, pid⟩ := records i used
    rw [pid]
    exact unique.positive i was
  · obtain ⟨was, pid⟩ := records i used
    obtain ⟨was', pid'⟩ := records j used'
    rw [pid, pid'] at same
    exact unique.distinct i j was was' same

theorem UniquePids.released (unique : UniquePids p) (i : Fin processMax) :
    UniquePids (setRecord p i unusedProcess) := by
  refine unique.of_records unique.next fun j used => ?_
  cases Decidable.em (j = i) with
  | inl same =>
    rw [same, setRecord_same] at used
    exact absurd rfl used
  | inr other =>
    rw [setRecord_other _ _ _ _ other] at used ⊢
    exact ⟨used, rfl⟩

/-- A new record with a pid that no other has. -/
theorem UniquePids.reserved (unique : UniquePids s.table) (fresh : FreshPid s)
    (i : Fin processMax) (r : Process) (pid : r.pid = s.table.nextPid) :
    UniquePids (setRecord (startingTable s i) i r) := by
  have others (j : Fin processMax) (other : j ≠ i) := startingTable_other s r other
  refine ⟨advancePid_range unique.next, fun j used => ?_, fun j k used used' same => ?_⟩
  · cases Decidable.em (j = i) with
    | inl here =>
      rw [here, setRecord_same, pid]
      exact unique.next.1
    | inr other =>
      rw [others j other] at used ⊢
      exact unique.positive j used
  · cases Decidable.em (j = i) with
    | inl here =>
      cases Decidable.em (k = i) with
      | inl here' => rw [here, here']
      | inr other =>
        rw [others k other] at used' same
        rw [here, setRecord_same, pid] at same
        exact absurd same.symm (fresh k used')
    | inr other =>
      rw [others j other] at used same
      cases Decidable.em (k = i) with
      | inl here =>
        rw [here, setRecord_same, pid] at same
        exact absurd same (fresh j used)
      | inr other' =>
        rw [others k other'] at used' same
        exact unique.distinct j k used used' same

theorem UniquePids.spawned (unique : UniquePids s.table) (fresh : FreshPid s)
    (a : SpawnAnswers) : UniquePids (spawnElfRequest a s).2.table := by
  rcases spawn_fresh fresh a with same | ⟨i, grown, _, _, fails | ⟨slot, st, _, _, spawns⟩⟩
  · rw [same]
    exact unique
  · rw [fails]
    have starting : UniquePids (startingTable s i) := by
      have filled := unique.reserved fresh i (startingProcess s) rfl
      have twice : setRecord (startingTable s i) i (startingProcess s) = startingTable s i := by
        simp [setRecord, startingTable]
      rwa [twice] at filled
    exact starting.released i
  · rw [spawns]
    exact unique.reserved fresh i { startingProcess s with tid := some slot } rfl

theorem markExited_nextPid (p : ProcessTable) (tid : Nat) (status : BitVec 32) :
    (processMarkExited p tid status).nextPid = p.nextPid := by
  unfold processMarkExited
  split <;> rfl

theorem started_nextPid (p : ProcessTable) (tid : Nat) :
    (processStarted p tid).nextPid = p.nextPid := by
  unfold processStarted
  split <;> rfl

theorem uniquePids_rules : TableRules (fun s r => r = .spawns → FreshPid s) UniquePids where
  ended s tid status _ unique := by
    refine unique.of_records (by rw [markExited_nextPid]; exact unique.next) fun i used => ?_
    obtain ⟨was, _, pid⟩ := markExited_records s.table tid status i used
    exact ⟨was, pid⟩
  spawned _ a fresh unique := unique.spawned (fresh rfl) a
  released _ i _ unique := unique.released i
  started p tid unique := by
    refine unique.of_records (by rw [started_nextPid]; exact unique.next) fun i used => ?_
    obtain ⟨was, _, pid⟩ := started_records p tid i used
    exact ⟨was, pid⟩

theorem admits_of_fresh {e : PreemptibleEvent} (fresh : TakesFreshPid s e) :
    Admits (fun s r => r = .spawns → FreshPid s) s e := by
  unfold Admits
  split
  · exact fun reserves _ => fresh reserves
  · exact fun reserves _ => fresh reserves
  · next e noSpawn noRedirect =>
    rintro r risk rfl
    rcases spawns_of_risk risk with ⟨a, rfl⟩ | ⟨a, stdinFd, stdoutFd, rfl⟩
    · exact absurd rfl (noSpawn a)
    · exact absurd rfl (noRedirect a stdinFd stdoutFd)
  · trivial

theorem preemptible_wellFormed (wf : WellFormed s.kernel) {e : PreemptibleEvent}
    (h : s.stepPreemptible e = some t) : WellFormed t.kernel := by
  cases e with
  | whole e => exact sysStep_wellFormed wf h
  | spawnBegin req =>
    obtain ⟨_, rfl⟩ := call_eq_some.mp h
    exact wf.moveTo _ trivial
  | spawnStep block stack =>
    simp only [System.stepPreemptible] at h
    split at h
    · next req phase place =>
      cases h
      have onOther := wf.spawns s.cur
      rw [place] at onOther
      have stepped := wf.spawnStep req block stack phase onOther
      cases phase <;> exact stepped
    · cases h

/-- While `reserve_process` hands out pids that no record has, a pid names one
process, however often the counter has wrapped. -/
theorem pids_name_one (block : Nat → Thread) (stack : GuardedStack)
    (kernelSpace pipesAddress : Word) (es : List PreemptibleEvent) (s : System)
    (fresh : Meets System.stepPreemptible TakesFreshPid
      (System.boot block stack kernelSpace pipesAddress) es)
    (ran : run System.stepPreemptible (System.boot block stack kernelSpace pipesAddress) es =
      some s) : PidsName s.table := by
  have kept (s : System) (e : PreemptibleEvent) (t : System)
      (inv : WellFormed s.kernel ∧ UniquePids s.table) (ok : TakesFreshPid s e)
      (h : s.stepPreemptible e = some t) : WellFormed t.kernel ∧ UniquePids t.table :=
    ⟨preemptible_wellFormed inv.1 h,
      step_keeps_table uniquePids_rules inv.1 h (admits_of_fresh ok) inv.2⟩
  have unused (i : Fin processMax) :
      ((System.boot block stack kernelSpace pipesAddress).table.processes i).state = .unused := rfl
  have start : UniquePids (System.boot block stack kernelSpace pipesAddress).table :=
    ⟨⟨Int.le_refl 1, show (1 : Int) ≤ 2147483647 by decide⟩,
      fun i used => absurd (unused i) used, fun i _ used _ _ => absurd (unused i) used⟩
  exact (Lib.Machine.run_invariant kept ⟨boot_wellFormed block stack kernelSpace, start⟩ fresh
    ran).2.pidsName

theorem pids_name_one_reused :
    ∃ s, run System.stepPreemptible firstSystem spawnAndReap = some s ∧ PidsName s.table := by
  have runs : (run System.stepPreemptible firstSystem spawnAndReap).isSome := by decide +kernel
  obtain ⟨s, ran⟩ := Option.isSome_iff_exists.mp runs
  exact ⟨s, ran, pids_name_one (blockOfUid 0) someStack 0x1000 0x300000 spawnAndReap s
    (by decide +kernel) ran⟩

/-! ## A pid handed out twice -/

/-- A spawn for which the file and the heap are there, but no stack. -/
def noStackAnswers : SpawnAnswers :=
  { loaded := true, request := schedSpawn 0x8000, block := none, stack := none }

/-- Process 1 lives on in record 0, all other records are free, and there is a
free thread slot. -/
structure OneProcess (s : System) : Prop where
  inCode : s.kernel.place s.cur = .code ∧ s.activity s.cur = .none
  first : (s.table.processes 0).state ≠ .unused ∧ (s.table.processes 0).pid = 1
  others : ∀ i, i ≠ 0 → (s.table.processes i).state = .unused
  slot : (findUnused s.threads).isSome

theorem reserve_free (free : ∃ i, (s.table.processes i).state = .unused) :
    ∃ i, (s.table.processes i).state = .unused ∧
      reserveProcess s.table s.cur = some (s.table.nextPid, startingTable s i) := by
  cases reserves : reserveProcess s.table s.cur with
  | none =>
    obtain ⟨i, unused⟩ := free
    unfold reserveProcess at reserves
    split at reserves
    · next full => exact absurd unused (of_decide_eq_false (findRecord_none full i))
    · cases reserves
  | some made =>
    obtain ⟨i, unused, pid, table⟩ := reserveProcess_some reserves
    exact ⟨i, unused, by rw [← show made = (s.table.nextPid, startingTable s i) from
      Prod.ext pid table]⟩

/-- A spawn that fails for want of a stack leaves nothing but the next pid. -/
theorem OneProcess.spin (one : OneProcess s) (past : 2 ≤ s.table.nextPid) :
    ∃ t, s.stepPreemptible (.whole (.spawn noStackAnswers)) = some t ∧ OneProcess t ∧
      t.table.nextPid = advancePid s.table.nextPid := by
  have fresh : FreshPid s := by
    intro i used
    cases Decidable.em (i = 0) with
    | inl same =>
      rw [same, one.first.2]
      omega
    | inr other => exact absurd (one.others i other) used
  obtain ⟨i, free, reserves⟩ := reserve_free ⟨1, one.others 1 (by decide)⟩
  obtain ⟨slot, found⟩ := Option.isSome_iff_exists.mp one.slot
  have other : i ≠ 0 := by
    intro same
    rw [same] at free
    exact one.first.1 free
  have fails : spawnElfRequest noStackAnswers s =
      (none, { s.reserved (startingTable s i) with
        table := setRecord (startingTable s i) i unusedProcess }) := by
    have refused : startThread noStackAnswers.request none none
        ⟨some s.history.pids, s.table.nextPid⟩ (s.reserved (startingTable s i)) =
          (none, s.reserved (startingTable s i)) := by
      have search : findUnused (s.reserved (startingTable s i)).threads = some slot := found
      simp only [startThread, schedSpawnPrioWithContext, search]
      rfl
    rw [System.reserved] at refused
    simp only [spawnElfRequest, noStackAnswers, reserves, reduceCtorEq, if_false] at refused ⊢
    simp only [refused, releaseProcess, findProcess_starting fresh i]
    rfl
  refine ⟨_, call_eq_some.mpr ⟨one.inCode, rfl⟩, ?_, ?_⟩
  · rw [fails]
    refine ⟨one.inCode, ?_, fun j hj => ?_, one.slot⟩
    · change ((setRecord (startingTable s i) i unusedProcess).processes 0).state ≠ _ ∧
        ((setRecord (startingTable s i) i unusedProcess).processes 0).pid = _
      rw [startingTable_other s _ (Ne.symm other)]
      exact one.first
    · change ((setRecord (startingTable s i) i unusedProcess).processes j).state = _
      rw [setRecord_apply]
      split
      · rfl
      · next elsewhere =>
        rw [startingTable, setRecord_other _ _ _ _ elsewhere]
        exact one.others j hj
  · rw [fails]
    rfl

/-- As many of them as there are pids left bring the counter back to 1. -/
theorem OneProcess.spins (one : OneProcess s) (n : Nat) (past : 2 ≤ s.table.nextPid)
    (left : s.table.nextPid + n = 2147483648) :
    ∃ t, run System.stepPreemptible s (List.replicate n (.whole (.spawn noStackAnswers))) =
        some t ∧ OneProcess t ∧ (0 < n → t.table.nextPid = 1) := by
  induction n generalizing s with
  | zero => exact ⟨s, rfl, one, fun h => absurd h (Nat.lt_irrefl 0)⟩
  | succ n ih =>
    obtain ⟨u, stepped, one', next⟩ := one.spin past
    rw [List.replicate_succ]
    cases n with
    | zero =>
      refine ⟨u, Lib.Machine.run_cons.mpr ⟨u, stepped, rfl⟩, one', fun _ => ?_⟩
      have last : s.table.nextPid = 2147483647 := by omega
      rw [next, last]
      rfl
    | succ n =>
      have advanced : u.table.nextPid = s.table.nextPid + 1 := by
        rw [next, advancePid, if_neg (by omega)]
        exact if_neg (by omega)
      obtain ⟨t, ran, one'', wrapped⟩ := ih one' (by omega) (by omega)
      exact ⟨t, Lib.Machine.run_cons.mpr ⟨u, stepped, ran⟩, one'',
        fun _ => wrapped (Nat.succ_pos n)⟩

theorem setProcessTid_records (p : ProcessTable) (pid : Int) (tid : Nat) (j : Fin processMax) :
    ((setProcessTid p pid tid).processes j).state = (p.processes j).state ∧
      ((setProcessTid p pid tid).processes j).pid = (p.processes j).pid := by
  unfold setProcessTid
  split
  · rw [setRecord_apply]
    split
    · next same =>
      rw [same]
      exact ⟨rfl, rfl⟩
    · exact ⟨rfl, rfl⟩
  · exact ⟨rfl, rfl⟩

/-- The next process gets the pid of the one that lives on. -/
theorem OneProcess.twice (one : OneProcess s) (wrapped : s.table.nextPid = 1) :
    ∃ t, s.stepPreemptible (.whole (.spawn goodAnswers)) = some t ∧ ¬ DistinctPids t.table := by
  obtain ⟨i, free, reserves⟩ := reserve_free ⟨1, one.others 1 (by decide)⟩
  obtain ⟨slot, found⟩ := Option.isSome_iff_exists.mp one.slot
  have other : i ≠ 0 := by
    intro same
    rw [same] at free
    exact one.first.1 free
  refine ⟨_, call_eq_some.mpr ⟨one.inCode, rfl⟩, fun distinct => ?_⟩
  have table : (spawnElfRequest goodAnswers s).2.table =
      setProcessTid (startingTable s i) s.table.nextPid slot := by
    have seats : ∃ u, startThread goodAnswers.request none (some someStack)
        ⟨some s.history.pids, s.table.nextPid⟩ (s.reserved (startingTable s i)) = (some slot, u) ∧
          u.table = startingTable s i := by
      have search : findUnused (s.reserved (startingTable s i)).threads = some slot := found
      simp only [startThread, schedSpawnPrioWithContext, search]
      exact ⟨_, rfl, rfl⟩
    obtain ⟨u, starts, same⟩ := seats
    rw [System.reserved] at starts
    simp only [spawnElfRequest, goodAnswers, reserves, reduceCtorEq, if_false] at starts ⊢
    simp only [starts, System.note]
    rw [same]
  rw [table] at distinct
  have old := setProcessTid_records (startingTable s i) s.table.nextPid slot 0
  have new := setProcessTid_records (startingTable s i) s.table.nextPid slot i
  have kept : (startingTable s i).processes 0 = s.table.processes 0 :=
    setRecord_other _ _ _ _ (Ne.symm other)
  have filled : (startingTable s i).processes i = startingProcess s := setRecord_same ..
  rw [kept] at old
  rw [filled] at new
  apply other
  apply distinct i 0
  · rw [new.1]
    intro unused
    cases unused
  · rw [old.1]
    exact one.first.1
  · rw [new.2, old.2, one.first.2]
    exact wrapped

/-- Process 1 stays, and the counter comes round to its pid. -/
def wrapAround : List PreemptibleEvent :=
  .whole (.spawn goodAnswers) ::
    (List.replicate 2147483646 (.whole (.spawn noStackAnswers)) ++ [.whole (.spawn goodAnswers)])

theorem pid_handed_out_twice :
    ¬ ∀ block stack kernelSpace pipesAddress es s,
      run System.stepPreemptible (.boot block stack kernelSpace pipesAddress) es = some s →
      PidsName s.table := by
  intro claim
  have runs : (firstSystem.stepPreemptible (.whole (.spawn goodAnswers))).isSome := by
    decide +kernel
  obtain ⟨s, first⟩ := Option.isSome_iff_exists.mp runs
  have facts : ∀ s ∈ firstSystem.stepPreemptible (.whole (.spawn goodAnswers)),
      (s.kernel.place s.cur = .code ∧ s.activity s.cur = .none) ∧
      ((s.table.processes 0).state ≠ .unused ∧ (s.table.processes 0).pid = 1) ∧
      (∀ i, i ≠ 0 → (s.table.processes i).state = .unused) ∧ (findUnused s.threads).isSome ∧
      s.table.nextPid = 2 := by decide +kernel
  obtain ⟨inCode, record, others, slot, next⟩ := facts s first
  have one : OneProcess s := ⟨inCode, record, others, slot⟩
  obtain ⟨t, spun, one', wrapped⟩ := one.spins 2147483646 (by omega) (by omega)
  obtain ⟨u, last, twice⟩ := one'.twice (wrapped (by omega))
  have ran : run System.stepPreemptible firstSystem wrapAround = some u :=
    Lib.Machine.run_cons.mpr ⟨s, first, Lib.Machine.run_append.mpr ⟨t, spun,
      Lib.Machine.run_cons.mpr ⟨u, last, rfl⟩⟩⟩
  exact twice (claim _ _ _ _ _ u ran).distinct

end MiniKernel.Proc
