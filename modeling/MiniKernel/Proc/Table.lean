import MiniKernel.Sched.Thread

/-!
# The process table

Source: kernel/core/process.c. A record names its thread by slot number; -1, for
no thread yet, is `none`. The record's address space is written and never read,
so it is left out.
-/
namespace MiniKernel.Proc

def processMax : Nat := 64

instance : NeZero processMax := ⟨by decide⟩

inductive ProcessState where
  | unused | starting | running | exited
  deriving DecidableEq, Repr

structure Process where
  pid : Int
  tid : Option Nat
  parentPid : Int
  exitStatus : BitVec 32
  state : ProcessState
  deriving DecidableEq, Repr

/-- `processes` and `next_pid`. -/
structure ProcessTable where
  processes : Fin processMax → Process
  nextPid : Int

def unusedProcess : Process :=
  { pid := 0, tid := none, parentPid := 0, exitStatus := 0, state := .unused }

/-- The first record that passes the test. -/
def findRecord (p : ProcessTable) (wanted : Process → Bool) : Option (Fin processMax) :=
  (List.finRange processMax).find? fun i => wanted (p.processes i)

def findProcess (p : ProcessTable) (pid : Int) : Option (Fin processMax) :=
  findRecord p fun r => r.state ≠ .unused ∧ r.pid = pid

def findProcessByTid (p : ProcessTable) (tid : Nat) : Option (Fin processMax) :=
  findRecord p fun r => r.state ≠ .unused ∧ r.tid = some tid

/-- `current_pid`; kernel threads belong to pid 0. -/
def currentPid (p : ProcessTable) (tid : Nat) : Int :=
  match findProcessByTid p tid with
  | some i => (p.processes i).pid
  | none => 0

def setRecord (p : ProcessTable) (i : Fin processMax) (r : Process) : ProcessTable :=
  { p with processes := Function.update p.processes i r }

/-- `next_pid++` on an `int`, and the reset to 1. -/
def advancePid (next : Int) : Int :=
  let next := if next = 2147483647 then -2147483648 else next + 1
  if next ≤ 0 then 1 else next

/-- `reserve_process`, called by the thread in slot `tid`. -/
def reserveProcess (p : ProcessTable) (tid : Nat) : Option (Int × ProcessTable) :=
  match findRecord p fun r => r.state = .unused with
  | none => none
  | some i =>
    let pid := p.nextPid
    let p := { p with nextPid := advancePid p.nextPid }
    -- the slot still counts as unused when `current_pid` looks for the caller
    some (pid, setRecord p i
      { pid := pid, tid := none, parentPid := currentPid p tid, exitStatus := -1,
        state := .starting })

def releaseProcess (p : ProcessTable) (pid : Int) : ProcessTable :=
  match findProcess p pid with
  | some i => setRecord p i unusedProcess
  | none => p

/-- `find_process(pid)->tid = tid`. -/
def setProcessTid (p : ProcessTable) (pid : Int) (tid : Nat) : ProcessTable :=
  match findProcess p pid with
  | some i => setRecord p i { p.processes i with tid := some tid }
  | none => p

/-- `process_mark_exited`, without its wakeup. -/
def processMarkExited (p : ProcessTable) (tid : Nat) (status : BitVec 32) : ProcessTable :=
  match findProcessByTid p tid with
  | some i => setRecord p i { p.processes i with exitStatus := status, state := .exited }
  | none => p

/-- The pid whose waiters `process_mark_exited` wakes. -/
def exitingPid (p : ProcessTable) (tid : Nat) : Option Int :=
  (findProcessByTid p tid).map fun i => (p.processes i).pid

/-- `process_get_tid`, and the lookup at the start of `process_kill`. -/
def processGetTid (p : ProcessTable) (pid : Int) : Option Nat :=
  match findProcess p pid with
  | some i => if (p.processes i).state ≠ .exited then (p.processes i).tid else none
  | none => none

/-- `process->state = PROCESS_RUNNING` in `elf_process_trampoline`. -/
def processStarted (p : ProcessTable) (tid : Nat) : ProcessTable :=
  match findProcessByTid p tid with
  | some i => setRecord p i { p.processes i with state := .running }
  | none => p

/-! ## Looking records up -/

variable {p : ProcessTable} {pid : Int} {tid : Nat} {i j : Fin processMax}

theorem findRecord_some {wanted : Process → Bool} (h : findRecord p wanted = some i) :
    wanted (p.processes i) = true := by
  have passed := List.find?_some h
  exact passed

theorem findRecord_none {wanted : Process → Bool} (h : findRecord p wanted = none)
    (i : Fin processMax) : wanted (p.processes i) = false := by
  have refused := List.find?_eq_none.mp h i (List.mem_finRange i)
  simpa using refused

theorem findProcess_some (h : findProcess p pid = some i) :
    (p.processes i).state ≠ .unused ∧ (p.processes i).pid = pid :=
  of_decide_eq_true (findRecord_some h)

theorem findProcess_none (h : findProcess p pid = none) (i : Fin processMax)
    (used : (p.processes i).state ≠ .unused) : (p.processes i).pid ≠ pid := by
  have refused := of_decide_eq_false (findRecord_none h i)
  exact fun same => refused ⟨used, same⟩

theorem findProcessByTid_some (h : findProcessByTid p tid = some i) :
    (p.processes i).state ≠ .unused ∧ (p.processes i).tid = some tid :=
  of_decide_eq_true (findRecord_some h)

theorem findProcessByTid_none (h : findProcessByTid p tid = none) (i : Fin processMax)
    (used : (p.processes i).state ≠ .unused) : (p.processes i).tid ≠ some tid := by
  have refused := of_decide_eq_false (findRecord_none h i)
  exact fun same => refused ⟨used, same⟩

@[simp] theorem setRecord_same (p : ProcessTable) (i : Fin processMax) (r : Process) :
    (setRecord p i r).processes i = r := Function.update_self ..

@[simp] theorem setRecord_other (p : ProcessTable) (i j : Fin processMax) (r : Process)
    (h : j ≠ i) : (setRecord p i r).processes j = p.processes j := Function.update_of_ne h ..

@[simp] theorem setRecord_nextPid (p : ProcessTable) (i : Fin processMax) (r : Process) :
    (setRecord p i r).nextPid = p.nextPid := rfl

theorem setRecord_apply (p : ProcessTable) (i j : Fin processMax) (r : Process) :
    (setRecord p i r).processes j = if j = i then r else p.processes j :=
  Function.update_apply ..

/-- A record that was found by its pid is the only one with it, if pids differ. -/
def DistinctPids (p : ProcessTable) : Prop :=
  ∀ i j, (p.processes i).state ≠ .unused → (p.processes j).state ≠ .unused →
    (p.processes i).pid = (p.processes j).pid → i = j

theorem findProcess_of_distinct (distinct : DistinctPids p)
    (used : (p.processes i).state ≠ .unused) (same : (p.processes i).pid = pid) :
    findProcess p pid = some i := by
  cases found : findProcess p pid with
  | none => exact absurd same (findProcess_none found i used)
  | some j =>
    have there := findProcess_some found
    rw [distinct i j used there.1 (same.trans there.2.symm)]

/-- The record that gets a thread is the one its pid finds, before and after. -/
theorem findProcess_setProcessTid (p : ProcessTable) (pid : Int) (tid : Nat) :
    findProcess (setProcessTid p pid tid) pid = findProcess p pid := by
  cases found : findProcess p pid with
  | none =>
    rw [setProcessTid, found]
    exact found
  | some i =>
    have same : (fun j => decide (((setProcessTid p pid tid).processes j).state ≠ .unused ∧
        ((setProcessTid p pid tid).processes j).pid = pid)) =
          fun j => decide ((p.processes j).state ≠ .unused ∧ (p.processes j).pid = pid) := by
      funext j
      rw [setProcessTid, found]
      simp only [setRecord_apply]
      split
      · next here => rw [here]
      · rfl
    rw [← found]
    exact congrArg (fun wanted => (List.finRange processMax).find? wanted) same

theorem setProcessTid_found (found : findProcess p pid = some i) :
    ((setProcessTid p pid tid).processes i).tid = some tid := by
  rw [setProcessTid, found]
  simp

theorem reserveProcess_some {made : Int × ProcessTable}
    (h : reserveProcess p tid = some made) :
    ∃ i, (p.processes i).state = .unused ∧ made.1 = p.nextPid ∧
      made.2 = setRecord { p with nextPid := advancePid p.nextPid } i
        { pid := p.nextPid, tid := none, parentPid := currentPid p tid, exitStatus := -1,
          state := .starting } := by
  unfold reserveProcess at h
  cases found : findRecord p fun r => r.state = .unused with
  | none =>
    rw [found] at h
    cases h
  | some i =>
    rw [found] at h
    cases h
    exact ⟨i, of_decide_eq_true (findRecord_some found), rfl, rfl⟩

end MiniKernel.Proc
