import MiniKernel.Proc.OwnThreads
import MiniKernel.Proc.Waits

/-!
# What `process_wait` promises

Source: kernel/core/process.c. In every run that hands out fewer than 2^31 pids,
a process is waited for successfully once at most, by its spawner, which gets
the status of the one exit or kill that ended it; all other waits return -1, and
no waiter sleeps on after the end.
-/
namespace MiniKernel.Proc
open Memory.Paging (Word)
open Sched
open Ipc
open Lib.Machine (run)

variable {ok : System → Risk → Prop} {s t : System}

theorem Accounted.exits (acc : Accounted s) (inCode : s.kernel.place s.cur = .code) :
    exitingPid s.table s.cur =
      if (s.history.occupant s.cur).process = none then none else some s.caller := by
  cases found : findProcessByTid s.table s.cur with
  | none =>
    have kernel : (s.history.occupant s.cur).process = none := by
      by_contra process
      obtain ⟨i, used, record⟩ := acc.listed s.cur acc.wf.current acc.wf.inUse process
        (running_not_gone inCode)
      exact findProcessByTid_none found i used record
    rw [if_pos kernel, exitingPid, found]
    rfl
  | some i =>
    obtain ⟨used, record⟩ := findProcessByTid_some found
    have process : (s.history.occupant s.cur).process ≠ none := by
      rw [(acc.linked.slot i s.cur used record).2.2]
      exact Option.some_ne_none _
    rw [if_neg process, exitingPid, found, System.caller, acc.ownPid i s.cur used record]
    rfl

theorem Accounted.part (acc : Accounted s) (part : Part ok s t)
    (bound : t.history.pids < 2147483648) : Accounted t := by
  have wf := part.wellFormed acc.wf
  cases part with
  | scheduled moved => exact acc.quiet (quiet_scheduled moved) wf
  | fellAsleep _ reason => exact acc.fellAsleep reason wf
  | loopEnded => exact acc.quiet (quiet_loopEnded s) wf
  | transferred =>
    exact acc.quiet (((quiet_pipes s _).trans (quiet_loopEnded _)).trans (quiet_wake _ _)) wf
  | died inCode => exact acc.died _ inCode wf
  | killed other _ _ used running record => exact acc.killed _ other used running record wf
  | threadSpawned => exact acc.threadSpawned _ _ _
  | processSpawned inCode => exact acc.processSpawned _ inCode bound
  | closed => exact acc.quiet (quiet_closed _ _ s) wf
  | collected inCode found own exited => exact acc.collected inCode found own exited wf
  | refused => exact acc.refused _
  | redirected => exact acc.quiet ((quiet_pipes s _).trans (quiet_setFd _ _ _ _)) wf
  | @piped i r w =>
    have reading := (quiet_pipes s (Function.update s.pipes i (s.pipes i).opened)).trans
      (quiet_setFd _ s.cur r ⟨.pipeRead, i.val, 0⟩)
    exact acc.quiet (reading.trans (quiet_setFd _ s.cur w ⟨.pipeWrite, i.val, 0⟩)) wf
  | pipeFailed => exact acc.quiet ((quiet_pipes s _).trans (quiet_withFds _ _ _)) wf
  | opened => exact acc.quiet (quiet_setFd _ _ _ _) wf
  | started inCode => exact acc.started inCode

/-- No part takes a pid back. -/
theorem Part.pids_le (part : Part ok s t) : s.history.pids ≤ t.history.pids := by
  cases part with
  | died => rw [(die_parts _ s).2.2.2.2.2.2]
  | killed => rw [(killOther_parts _ _ s).2.2.2.2.2.2]
  | @threadSpawned req block stack =>
    obtain ⟨grown, _, fails | ⟨slot, st, _, _, starts⟩⟩ :=
      startThread_cases req block stack kernelThread s
    · rw [fails]
      exact Nat.le_refl _
    · rw [starts]
      exact Nat.le_refl _
  | @processSpawned answers =>
    rcases spawnElfRequest_cases answers s with
      same | ⟨pid, table, _, grown, _, fails | ⟨slot, st, _, _, spawns⟩⟩
    · rw [same]
    · rw [fails]
      exact Nat.le_succ _
    · simp only at spawns
      rw [spawns]
      exact Nat.le_succ _
  | @closed tid i =>
    change s.history.pids ≤ (releaseSlot _ s).history.pids
    rw [(releaseSlot_keeps _ s).2.1]
  | @collected pid i _ found =>
    rw [collect_eq pid i s found]
  | scheduled => exact Nat.le_refl _
  | fellAsleep => exact Nat.le_refl _
  | loopEnded => exact Nat.le_refl _
  | transferred => exact Nat.le_refl _
  | refused => exact Nat.le_refl _
  | redirected => exact Nat.le_refl _
  | piped => exact Nat.le_refl _
  | pipeFailed => exact Nat.le_refl _
  | opened => exact Nat.le_refl _
  | started => exact Nat.le_refl _

/-- The accounts, while there are fewer than 2^31 processes. -/
structure Tracked (s : System) : Prop where
  wf : WellFormed s.kernel
  accounted : s.history.pids < 2147483648 → Accounted s

theorem Tracked.part (tracked : Tracked s) (part : Part ok s t) : Tracked t :=
  ⟨part.wellFormed tracked.wf, fun bound =>
    (tracked.accounted (Nat.lt_of_le_of_lt part.pids_le bound)).part part bound⟩

end MiniKernel.Proc
