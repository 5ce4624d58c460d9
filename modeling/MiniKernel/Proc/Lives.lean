import MiniKernel.Proc.Table
import MiniKernel.Proc.System

/-!
# The life of a pid

Source: kernel/core/process.c. What happened under a pid, read off the log, and
what the table says of it: it was never given to a process, or a record has it
and nobody has collected its status yet, or its status was collected once.
-/
namespace MiniKernel.Proc

/-- Who spawned the processes of this pid. -/
def spawners (log : List Happening) (pid : Int) : List Int :=
  log.filterMap fun
    | .spawned p parent => if p = pid then some parent else none
    | _ => none

/-- The statuses of the exits and kills that ended them. -/
def endings (log : List Happening) (pid : Int) : List (BitVec 32) :=
  log.filterMap fun
    | .ended p status => if p = pid then some status else none
    | _ => none

/-- The waits for the pid that returned 0: the caller and the status it got. -/
def collections (log : List Happening) (pid : Int) : List (Int × BitVec 32) :=
  log.filterMap fun
    | .waited p caller (some status) => if p = pid then some (caller, status) else none
    | _ => none

/-- No record has the pid. -/
def Unlisted (p : ProcessTable) (pid : Int) : Prop :=
  ∀ i, (p.processes i).state ≠ .unused → (p.processes i).pid ≠ pid

/-- Nothing happened under the pid. -/
structure Untold (log : List Happening) (pid : Int) : Prop where
  spawners : spawners log pid = []
  endings : endings log pid = []
  collections : collections log pid = []

/-- The record speaks of a process whose status nobody has collected. -/
structure Awaited (log : List Happening) (r : Process) : Prop where
  used : r.state ≠ .unused
  spawners : spawners log r.pid = [r.parentPid]
  endings : endings log r.pid = if r.state = .exited then [r.exitStatus] else []
  collections : collections log r.pid = []

/-- The status of the one process of this pid was collected, by its spawner. -/
def Collected (log : List Happening) (pid : Int) : Prop :=
  ∃ parent status, spawners log pid = [parent] ∧ endings log pid = [status] ∧
    collections log pid = [(parent, status)]

def Life (p : ProcessTable) (log : List Happening) (pid : Int) : Prop :=
  (Unlisted p pid ∧ (Untold log pid ∨ Collected log pid)) ∨
    ∃ i, (p.processes i).pid = pid ∧ Awaited log (p.processes i)

variable {p q : ProcessTable} {log : List Happening} {pid other : Int} {i : Fin processMax}

section

variable {parent caller : Int} {status : BitVec 32} {answer : Option (BitVec 32)}

@[simp] theorem spawners_spawned :
    spawners (.spawned other parent :: log) pid =
      if other = pid then parent :: spawners log pid else spawners log pid := by
  simp only [spawners, List.filterMap_cons]
  split <;> simp_all

@[simp] theorem spawners_ended :
    spawners (.ended other status :: log) pid = spawners log pid := rfl

@[simp] theorem spawners_waited :
    spawners (.waited other caller answer :: log) pid = spawners log pid := rfl

@[simp] theorem endings_spawned :
    endings (.spawned other parent :: log) pid = endings log pid := rfl

@[simp] theorem endings_ended :
    endings (.ended other status :: log) pid =
      if other = pid then status :: endings log pid else endings log pid := by
  simp only [endings, List.filterMap_cons]
  split <;> simp_all

@[simp] theorem endings_waited :
    endings (.waited other caller answer :: log) pid = endings log pid := rfl

@[simp] theorem collections_spawned :
    collections (.spawned other parent :: log) pid = collections log pid := rfl

@[simp] theorem collections_ended :
    collections (.ended other status :: log) pid = collections log pid := rfl

@[simp] theorem collections_refused :
    collections (.waited other caller none :: log) pid = collections log pid := rfl

@[simp] theorem collections_waited :
    collections (.waited other caller (some status) :: log) pid =
      if other = pid then (caller, status) :: collections log pid else collections log pid := by
  simp only [collections, List.filterMap_cons]
  split <;> simp_all

end

/-- The records in use are the same ones. -/
def SameRecords (p q : ProcessTable) (pid : Int) : Prop :=
  ∀ i, ((p.processes i).state ≠ .unused ∧ (p.processes i).pid = pid) ∨
    ((q.processes i).state ≠ .unused ∧ (q.processes i).pid = pid) → q.processes i = p.processes i

/-- The log tells the same of the pid. -/
structure SameLog (log after : List Happening) (pid : Int) : Prop where
  spawners : spawners after pid = spawners log pid
  endings : endings after pid = endings log pid
  collections : collections after pid = collections log pid

theorem SameLog.refl (log : List Happening) (pid : Int) : SameLog log log pid := ⟨rfl, rfl, rfl⟩

theorem Untold.same {after : List Happening} (untold : Untold log pid)
    (same : SameLog log after pid) : Untold after pid :=
  ⟨same.spawners.trans untold.spawners, same.endings.trans untold.endings,
    same.collections.trans untold.collections⟩

theorem Unlisted.same (unlisted : Unlisted p pid) (same : SameRecords p q pid) :
    Unlisted q pid := by
  intro i used is
  have kept := same i (Or.inr ⟨used, is⟩)
  rw [kept] at used is
  exact unlisted i used is

/-- What happens under other pids changes nothing. -/
theorem Life.same {after : List Happening} (life : Life p log pid)
    (records : SameRecords p q pid) (logs : SameLog log after pid) : Life q after pid := by
  rcases life with ⟨unlisted, told⟩ | ⟨i, isPid, awaited⟩
  · refine Or.inl ⟨unlisted.same records, ?_⟩
    rcases told with untold | ⟨parent, status, spawned, ended, collected⟩
    · exact Or.inl (untold.same logs)
    · exact Or.inr ⟨parent, status, logs.spawners.trans spawned, logs.endings.trans ended,
        logs.collections.trans collected⟩
  · subst isPid
    have kept := records i (Or.inl ⟨awaited.used, rfl⟩)
    refine Or.inr ⟨i, by rw [kept], ?_⟩
    rw [kept]
    exact ⟨awaited.used, logs.spawners.trans awaited.spawners, logs.endings.trans awaited.endings,
      logs.collections.trans awaited.collections⟩

/-- A record in use that has the pid is the awaited one. -/
theorem Life.awaited (life : Life p log pid) (distinct : DistinctPids p)
    (used : (p.processes i).state ≠ .unused) (is : (p.processes i).pid = pid) :
    Awaited log (p.processes i) := by
  rcases life with ⟨unlisted, _⟩ | ⟨j, isPid, awaited⟩
  · exact absurd is (unlisted i used)
  · rw [distinct i j used awaited.used (is.trans isPid.symm)]
    exact awaited

/-- One record changes, which has the pid before or after. -/
theorem sameRecords_setRecord (r : Process) (elsewhere : other ≠ pid)
    (before : (p.processes i).state = .unused ∨ (p.processes i).pid = other)
    (after : r.state = .unused ∨ r.pid = other) : SameRecords p (setRecord p i r) pid := by
  intro j either
  cases Decidable.em (j = i) with
  | inr apart => exact setRecord_other _ _ _ _ apart
  | inl same =>
    rw [same, setRecord_same] at either
    rcases either with ⟨used, is⟩ | ⟨used, is⟩
    · rcases before with unused | named
      · exact absurd unused used
      · exact absurd (named.symm.trans is) elsewhere
    · rcases after with unused | named
      · exact absurd unused used
      · exact absurd (named.symm.trans is) elsewhere

end MiniKernel.Proc
