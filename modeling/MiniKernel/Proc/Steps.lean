import MiniKernel.Proc.Parts

/-!
# Every step is a chain of parts

One lemma for each operation of the machine, then the step.
-/
namespace MiniKernel.Proc
open Memory.Paging (Word)
open Sched
open Ipc

/-- The thread in this loop would go to sleep now. -/
def WouldSleep (s : System) : Activity → Prop
  | .reading idx len => (pipeRead s.pipes idx len).1 = .sleep
  | .writing idx src => (pipeWrite s.pipes idx src).1 = .sleep
  | _ => True

/-- The pipe that `fd_read` or `fd_write` works on. -/
def pipeOf (s : System) (kind : FdKind) (fd : Int) : Option Int :=
  (schedFdGet s.threads fd).bind fun i =>
    if ((s.threads.threads s.cur).fds i).kind = kind then
      some ((s.threads.threads s.cur).fds i).handle
    else none

/-- The risks of an event. -/
def Risks (s : System) : SysEvent → Risk → Prop
  | .exit _, r => r = .ends s.cur
  | .kill pid _, r => ∃ tid, processGetTid s.table pid = some tid ∧ r = .ends tid
  | .spawn _, r => r = .spawns
  | .spawnRedirect _ _ _, r => r = .spawns
  | .sleep _, r => r = .sleeps .none
  | .wait pid, r => r = .sleeps (.waiting pid)
  | .read fd len, r => ∃ idx, pipeOf s .pipeRead fd = some idx ∧
      WouldSleep s (.reading idx len) ∧ r = .sleeps (.reading idx len)
  | .write fd src, r => ∃ idx, pipeOf s .pipeWrite fd = some idx ∧
      WouldSleep s (.writing idx src) ∧ r = .sleeps (.writing idx src)
  | .resume, r => WouldSleep s (s.activity s.cur) ∧ r = .sleeps (s.activity s.cur)
  | _, _ => False

variable {ok : System → Risk → Prop} {s t : System}

theorem spawns_of_risk {e : SysEvent} (h : Risks s e .spawns) :
    (∃ a, e = .spawn a) ∨ ∃ a stdinFd stdoutFd, e = .spawnRedirect a stdinFd stdoutFd := by
  cases e <;> simp [Risks] at h ⊢

theorem call_eq_some {result : System} :
    s.call result = some t ↔
      (s.kernel.place s.cur = .code ∧ s.activity s.cur = .none) ∧ result = t := by
  unfold System.call
  split
  · next h => simp [h]
  · next h => simp [h]

theorem scheduled_eq_some {e : Event} :
    s.scheduled e = some t ↔ ∃ k, Sched.step s.kernel e = some k ∧ { s with kernel := k } = t := by
  simp [System.scheduled, Option.map_eq_some_iff]

theorem doing_same (s : System) (idle : s.activity s.cur = .none) : s.doing .none = s := by
  have activity : Function.update s.activity s.cur .none = s.activity := by
    rw [← idle, Function.update_eq_self]
  rw [System.doing, activity]

/-! ## The operations -/

theorem wake_part (wf : WellFormed s.kernel) (channel : Word) : Part ok s (s.wake channel) :=
  .scheduled (wakeup_reschedules s.kernel channel) (wf.wakeup channel)

theorem sleepIn_parts (wf : WellFormed s.kernel) {a : Activity} {channel : Word}
    (inCode : s.kernel.place s.cur = .code) (reason : SleepsOn s channel a)
    (risk : ok s (.sleeps a)) : Parts ok s (sleepIn a channel s) := by
  have asleep := @Part.fellAsleep ok _ _ _ inCode reason risk
  have moved : Part ok _ (sleepIn a channel s) :=
    .scheduled (s := { s.doing a with kernel := fallAsleep channel s.kernel })
      (sleep_reschedules wf channel inCode) (wf.schedSleep channel)
  exact (Relation.ReflTransGen.single asleep).tail moved

/-- The three outcomes of a turn, as parts. -/
theorem takeTurn_parts (wf : WellFormed s.kernel) (a : Activity) (idx : Int)
    (turn : Turn × Pipes) (inCode : s.kernel.place s.cur = .code)
    (moved : ∀ bytes, turn.1 = .moved bytes → ∃ (i : Fin pipeMax) (p : Pipe), idx = i.val ∧
      turn.2 = Function.update s.pipes i p ∧ p.inUse = (s.pipes i).inUse ∧
      p.readers = (s.pipes i).readers ∧ p.writers = (s.pipes i).writers)
    (sleeps : turn.1 = .sleep → SleepsOn s (s.pipeChannel idx) a ∧ ok s (.sleeps a)) :
    Parts ok s (takeTurn a idx turn s) := by
  unfold takeTurn
  cases outcome : turn.1 with
  | answer n => exact .single .loopEnded
  | moved bytes =>
    obtain ⟨i, p, rfl, pipes, inUse, readers, writers⟩ := moved bytes outcome
    simp only [pipes]
    exact .single (.transferred inUse readers writers)
  | sleep =>
    have reason := sleeps outcome
    exact sleepIn_parts wf inCode reason.1 reason.2

theorem readTurn_parts (wf : WellFormed s.kernel) (idx : Int) (len : Nat)
    (inCode : s.kernel.place s.cur = .code)
    (risk : WouldSleep s (.reading idx len) → ok s (.sleeps (.reading idx len))) :
    Parts ok s (readTurn idx len s) := by
  refine takeTurn_parts wf _ idx _ inCode (fun bytes outcome => ?_) (fun outcome => ?_)
  · simp only [pipeRead, turnAt] at outcome ⊢
    cases at_ : pipeIndex idx with
    | none => simp [at_] at outcome
    | some i =>
      simp only [at_] at outcome ⊢
      refine ⟨i, ((s.pipes i).readTurn len).2, pipeIndex_some.mp at_, rfl, ?_⟩
      rcases (s.pipes i).readTurn_cases len with ⟨n, _, _, _, _, turn⟩ | ⟨_, turn⟩ <;>
        simp [turn]
  · refine ⟨?_, risk outcome⟩
    simp only [pipeRead, turnAt] at outcome
    cases at_ : pipeIndex idx with
    | none => simp [at_] at outcome
    | some i =>
      simp only [at_] at outcome
      refine ⟨i, pipeIndex_some.mp at_, rfl, ?_⟩
      rcases (s.pipes i).readTurn_cases len with ⟨n, _, _, _, _, turn⟩ | ⟨empty, turn⟩
      · simp [turn] at outcome
      · rw [turn] at outcome
        cases used : (s.pipes i).inUse with
        | false => simp [used] at outcome
        | true =>
          refine ⟨rfl, empty used, ?_⟩
          by_contra nobody
          simp [used, Int.not_lt.mp nobody] at outcome

theorem writeTurn_parts (wf : WellFormed s.kernel) (idx : Int) (src : List UInt8)
    (inCode : s.kernel.place s.cur = .code)
    (risk : WouldSleep s (.writing idx src) → ok s (.sleeps (.writing idx src))) :
    Parts ok s (writeTurn idx src s) := by
  refine takeTurn_parts wf _ idx _ inCode (fun bytes outcome => ?_) (fun outcome => ?_)
  · simp only [pipeWrite, turnAt] at outcome ⊢
    cases at_ : pipeIndex idx with
    | none => simp [at_] at outcome
    | some i =>
      simp only [at_] at outcome ⊢
      refine ⟨i, ((s.pipes i).writeTurn src).2, pipeIndex_some.mp at_, rfl, ?_⟩
      rcases (s.pipes i).writeTurn_cases src with ⟨n, _, _, _, _, _, turn⟩ | ⟨_, turn⟩ <;>
        simp [turn]
  · refine ⟨?_, risk outcome⟩
    simp only [pipeWrite, turnAt] at outcome
    cases at_ : pipeIndex idx with
    | none => simp [at_] at outcome
    | some i =>
      simp only [at_] at outcome
      refine ⟨i, pipeIndex_some.mp at_, rfl, ?_⟩
      rcases (s.pipes i).writeTurn_cases src with ⟨n, _, _, _, _, _, turn⟩ | ⟨full, turn⟩
      · simp [turn] at outcome
      · rw [turn] at outcome
        cases used : (s.pipes i).inUse with
        | false => simp [used] at outcome
        | true =>
          have read : 0 < (s.pipes i).readers := by
            by_contra nobody
            simp [used, Int.not_lt.mp nobody] at outcome
          exact ⟨rfl, full used read, read⟩

theorem exitStatus_parts (wf : WellFormed s.kernel) (status : BitVec 32)
    (inCode : s.kernel.place s.cur = .code) (idle : s.activity s.cur = .none)
    (risk : ok s (.ends s.cur)) : Parts ok s (exitStatus status s) := by
  let channel := (exitingPid s.table s.cur).map pidChannel
  have died : Part ok s (die status s) := .died inCode idle risk
  have kernel : (die status s).kernel = dead channel s.kernel := by
    simp only [die]
    split <;> rfl
  have ends : exitStatus status s =
      { die status s with kernel := schedExitStatus channel s.kernel } := by
    simp only [exitStatus, die, channel]
    cases exitingPid s.table s.cur <;> rfl
  rw [ends]
  refine (Relation.ReflTransGen.single died).tail (.scheduled ?_ (wf.schedExitStatus channel))
  rw [kernel]
  exact exit_reschedules wf channel

theorem processKill_parts (wf : WellFormed s.kernel) (pid : Int) (sig : BitVec 32)
    (inCode : s.kernel.place s.cur = .code) (idle : s.activity s.cur = .none)
    (risk : ∀ tid, processGetTid s.table pid = some tid → ok s (.ends tid)) :
    Parts ok s (processKill pid sig s) := by
  unfold processKill
  split
  · exact .refl
  · next tid target =>
    have target' := target
    unfold processGetTid at target'
    split
    · exact .refl
    · next inTable =>
      split
      · next self =>
        exact exitStatus_parts wf _ inCode idle (self ▸ risk tid target)
      · next other =>
        split
        · exact .refl
        · next alive =>
          cases found : findProcess s.table pid with
          | none => simp [found] at target'
          | some i =>
            simp only [found] at target'
            split at target'
            · next running =>
              have living := not_or.mp alive
              exact .single (.killed other (Nat.lt_of_not_le inTable) living
                (findProcess_some found).1 running target' (risk tid target))
            · cases target'

theorem closeFdOf_capacity (tid : Nat) (i : Fin threadMaxFds) (s : System) :
    (closeFdOf tid i s).threads.threadCapacity = s.threads.threadCapacity := by
  change (releaseSlot _ s).threads.threadCapacity = _
  exact (releaseSlot_reschedules _ s).1.capacity

theorem closeFds_parts (tid : Nat) (fds : List (Fin threadMaxFds))
    (inTable : tid < s.threads.threadCapacity) : Parts ok s (closeFds tid fds s) := by
  induction fds generalizing s with
  | nil => exact .refl
  | cons i fds ih =>
    have first : Part ok s (closeFdOf tid i s) := .closed inTable
    exact .head first (ih (by rw [closeFdOf_capacity]; exact inTable))

theorem releaseSlot_keeps (slot : FdSlot) (s : System) :
    (releaseSlot slot s).table = s.table ∧ (releaseSlot slot s).history = s.history ∧
      (releaseSlot slot s).activity = s.activity ∧
      (releaseSlot slot s).kernel.place = s.kernel.place := by
  rcases releaseSlot_cases slot s with ⟨i, lower, _, _, _, releases⟩ | ⟨_, nothing⟩
  · rw [releases]
    exact ⟨rfl, rfl, rfl, rfl⟩
  · rw [nothing]
    exact ⟨rfl, rfl, rfl, rfl⟩

/-- Closing descriptors leaves the processes alone. -/
theorem closeFds_keeps (tid : Nat) (fds : List (Fin threadMaxFds)) (s : System) :
    (closeFds tid fds s).table = s.table ∧ (closeFds tid fds s).history = s.history ∧
      (closeFds tid fds s).activity = s.activity ∧
      (closeFds tid fds s).kernel.place = s.kernel.place := by
  induction fds generalizing s with
  | nil => exact ⟨rfl, rfl, rfl, rfl⟩
  | cons i fds ih =>
    obtain ⟨table, history, activity, place⟩ := releaseSlot_keeps ((s.threads.threads tid).fds i) s
    obtain ⟨table', history', activity', place'⟩ := ih (closeFdOf tid i s)
    exact ⟨table'.trans table, history'.trans history, activity'.trans activity,
      place'.trans place⟩

/-- A zombie whose descriptors are closed is still a zombie, with none open. -/
theorem closeFds_reapable (tid : Nat) (s : System) (reapable : Reapable s.threads tid) :
      let c := closeFds tid (List.finRange threadMaxFds) s
    c.cur = s.cur ∧ Reapable c.threads tid ∧
      ∀ fd, (c.threads.threads tid).fds fd = resetFdSlot := by
  intro c
  obtain ⟨moved, cur⟩ := fdCleanupThread_reschedules tid s
  have all : c = (fdCleanupThread tid s).withFds tid fun _ => resetFdSlot := closeFds_all tid s
  have dead := moved.zombie reapable.2.1 reapable.2.2
  rw [all]
  refine ⟨cur, ⟨moved.capacity ▸ reapable.1, dead.2, ?_⟩, fun fd => ?_⟩
  · rw [withFds_self]
    exact dead.1
  · rw [withFds_self]

/-- The end of `process_wait` is to close the descriptors of the dead thread, if
it can be reaped, and to collect it. -/
theorem collect_parts (pid : Int) (i : Fin processMax) (inCode : s.kernel.place s.cur = .code)
    (found : findProcess s.table pid = some i)
    (own : (s.table.processes i).parentPid = currentPid s.table s.cur)
    (exited : (s.table.processes i).state = .exited) :
    let reaped := match (s.table.processes i).tid with
      | some tid => schedReapThread tid s
      | none => s
    Parts ok s (({ reaped with table := releaseProcess reaped.table pid }.doing .none).note
      (.waited pid s.caller (some (s.table.processes i).exitStatus))) := by
  cases record : (s.table.processes i).tid with
  | none =>
    have collects : Part ok s (collect pid i s) := by
      refine .collected inCode found own exited fun tid h => ?_
      rw [record] at h
      cases h
    simp only [collect, record] at collects
    exact .single collects
  | some tid =>
    cases Decidable.em (Reapable s.threads tid) with
    | inr kept =>
      have collects : Part ok s (collect pid i s) := by
        refine .collected inCode found own exited fun tid' h reapable => ?_
        rw [record] at h
        cases h
        exact absurd reapable kept
      simp only [collect, record, bury, if_neg kept] at collects
      simp only [schedReapThread, if_neg kept]
      exact .single collects
    | inl reapable =>
      let c := closeFds tid (List.finRange threadMaxFds) s
      obtain ⟨cur, still, cleared⟩ := closeFds_reapable tid s reapable
      obtain ⟨table, history, activity, place⟩ :=
        closeFds_keeps tid (List.finRange threadMaxFds) s
      have collects : Part ok c (collect pid i c) := by
        refine .collected ?_ ?_ ?_ ?_ fun tid' h _ => ?_
        · rw [cur, place]
          exact inCode
        · rw [table]
          exact found
        · rw [table, cur]
          exact own
        · rw [table]
          exact exited
        · rw [table, record] at h
          cases h
          exact cleared
      have record' : (c.table.processes i).tid = some tid := by
        rw [table]
        exact record
      have caller : c.caller = s.caller := by
        simp only [System.caller, cur, c, history]
      have buried : bury tid c =
          c.withThreads (updThread c.threads tid (reapedSlot (c.threads.threads tid))) :=
        if_pos still
      simp only [collect, record', buried, caller] at collects
      simp only [schedReapThread_eq tid s reapable]
      rw [← table]
      exact (closeFds_parts tid _ reapable.1).tail collects

theorem processWait_parts (wf : WellFormed s.kernel) (pid : Int)
    (inCode : s.kernel.place s.cur = .code) (risk : ok s (.sleeps (.waiting pid))) :
    Parts ok s (processWait pid s) := by
  unfold processWait
  cases found : findProcess s.table pid with
  | none =>
    refine .single (.refused inCode fun i h => ?_)
    rw [found] at h
    cases h
  | some i =>
    simp only
    split
    · next stranger =>
      refine .single (.refused inCode fun j h => ?_)
      rw [found] at h
      cases h
      exact stranger
    · next own =>
      rw [not_not] at own
      split
      · next exited => exact collect_parts pid i inCode found own exited
      · next running =>
        exact sleepIn_parts wf inCode ⟨rfl, i, found, running⟩ risk

/-! ## Spawns and descriptors -/

/-- The thread that a redirection finds is the one just created: on the console,
and not the running one. -/
theorem spawned_thread (wf : WellFormed s.kernel) (a : SpawnAnswers) {pid : Int}
    (made : (spawnElfRequest a s).1 = some pid) {tid : Nat}
    (linked : ((findProcess (spawnElfRequest a s).2.table pid).bind fun i =>
      ((spawnElfRequest a s).2.table.processes i).tid) = some tid) :
    tid < (spawnElfRequest a s).2.threads.threadCapacity ∧ tid ≠ (spawnElfRequest a s).2.cur ∧
      (spawnElfRequest a s).2.kernel.stateOf tid ≠ .unused ∧
      ((spawnElfRequest a s).2.threads.threads tid).fds = initialFds := by
  rcases spawnElfRequest_cases a s with
    same | ⟨pid', table, _, grown, grows, fails | ⟨slot, st, inTable, unused, spawns⟩⟩
  · rw [same] at made
    cases made
  · rw [fails] at made
    cases made
  · simp only at spawns
    rw [spawns] at made linked ⊢
    cases made
    have slot' : tid = slot := by
      simp only [System.note, findProcess_setProcessTid] at linked
      cases found : findProcess table pid with
      | none => simp [found] at linked
      | some i =>
        rw [found, Option.bind_some, setProcessTid_found found] at linked
        exact (Option.some.inj linked).symm
    rw [slot']
    have self := @startSlot_self a.request st
      s.kernel.kernelSpace slot grown
    refine ⟨inTable, ?_, ?_, self.2⟩
    · intro same
      have cur : slot = s.kernel.cur := same.trans grows.current
      rw [cur, grows.stateOf wf.current] at unused
      exact wf.inUse unused
    · change ((startSlot a.request st s.kernel.kernelSpace slot grown).threads slot).state ≠ _
      rw [self.1]
      nofun

/-- A redirection of a thread on the console, if the caller's descriptor is one
of that end of a pipe. -/
theorem redirect_parts {kind : FdKind} {raise : Pipe → Pipe} {tid : Nat}
    {target : Fin threadMaxFds} (fd : Int)
    (ends : kind = .pipeRead ∧ raise = Pipe.addReader ∨ kind = .pipeWrite ∧ raise = Pipe.addWriter)
    (inTable : tid < s.threads.threadCapacity) (other : tid ≠ s.cur)
    (used : s.kernel.stateOf tid ≠ .unused)
    (console : ((s.threads.threads tid).fds target).kind = .console) :
    Parts ok s (redirect kind (addEnd raise) fd tid target s) := by
  unfold redirect
  cases schedFdGet s.threads fd with
  | none => exact .refl
  | some i =>
    simp only
    split
    · next source =>
      rw [schedFdSet, if_pos inTable]
      exact .single (.redirected ends source inTable other used console)
    · exact .refl

/-- What a redirection leaves alone. -/
theorem redirect_keeps {kind : FdKind} {add : Pipes → Int → Int × Pipes} {tid : Nat}
    {target : Fin threadMaxFds} (fd : Int) (s : System)
    (inTable : tid < s.threads.threadCapacity) :
    let t := redirect kind add fd tid target s
    t.threads.threadCapacity = s.threads.threadCapacity ∧ t.cur = s.cur ∧
      t.kernel.stateOf tid = s.kernel.stateOf tid ∧
      ∀ j, j ≠ target → (t.threads.threads tid).fds j = (s.threads.threads tid).fds j := by
  intro t
  simp only [t, redirect]
  cases schedFdGet s.threads fd with
  | none => exact ⟨rfl, rfl, rfl, fun _ _ => rfl⟩
  | some i =>
    simp only
    split
    · rw [schedFdSet, if_pos inTable]
      refine ⟨rfl, rfl, ?_, fun j other => ?_⟩
      · change ((updThread s.threads tid _).threads tid).state = _
        rw [updThread_same]
        rfl
      · change ((updThread s.threads tid _).threads tid).fds j = _
        rw [updThread_same]
        exact Function.update_of_ne other ..
    · exact ⟨rfl, rfl, rfl, fun _ _ => rfl⟩

theorem spawnFromFileRedirect_parts (wf : WellFormed s.kernel) (a : SpawnAnswers)
    (stdinFd stdoutFd : Int) (inCode : s.kernel.place s.cur = .code) (risk : ok s .spawns) :
    Parts ok s (spawnFromFileRedirect a stdinFd stdoutFd s) := by
  have spawned : Part ok s (spawnElfRequest a s).2 := .processSpawned inCode risk
  unfold spawnFromFileRedirect
  cases result : spawnElfRequest a s with
  | mk pid child =>
    rw [result] at spawned
    cases pid with
    | none => exact .single spawned
    | some pid =>
      simp only
      cases linked : (findProcess child.table pid).bind fun i => (child.table.processes i).tid with
      | none => exact .single spawned
      | some tid =>
        have thread := @spawned_thread _ wf a pid (by rw [result]) tid
          (by rw [result]; exact linked)
        rw [result] at thread
        obtain ⟨inTable, other, used, console⟩ := thread
        simp only
        generalize redirected : (if stdinFd ≥ 0 then
          redirect .pipeRead pipeAddReader stdinFd tid 0 child else child) = mid
        have first : Parts ok child mid := by
          rw [← redirected]
          split
          · exact redirect_parts stdinFd (Or.inl ⟨rfl, rfl⟩) inTable other used
              (by rw [console]; rfl)
          · exact .refl
        have keeps : mid.threads.threadCapacity = child.threads.threadCapacity ∧
            mid.cur = child.cur ∧ mid.kernel.stateOf tid = child.kernel.stateOf tid ∧
            (mid.threads.threads tid).fds 1 = (child.threads.threads tid).fds 1 := by
          rw [← redirected]
          split
          · obtain ⟨capacity, cur, state, fds⟩ := @redirect_keeps .pipeRead
              pipeAddReader _ 0 stdinFd child inTable
            exact ⟨capacity, cur, state, fds 1 (by decide)⟩
          · exact ⟨rfl, rfl, rfl, rfl⟩
        obtain ⟨capacity, cur, state, fds⟩ := keeps
        refine (Relation.ReflTransGen.head spawned first).trans ?_
        split
        · refine redirect_parts stdoutFd (Or.inr ⟨rfl, rfl⟩) ?_ ?_ ?_ ?_
          · rw [capacity]
            exact inTable
          · rw [cur]
            exact other
          · rw [state]
            exact used
          · rw [fds, console]
            rfl
        · exact .refl

theorem schedFdOpen_cases (kind : FdKind) (handle : Int) (s : ThreadTable) :
    (∃ i : Fin threadMaxFds, 2 ≤ i.val ∧ ((s.threads s.currentThread).fds i).kind = .unused ∧
      schedFdOpen kind handle s = (some i, setFd s s.currentThread i ⟨kind, handle, 0⟩)) ∨
    ((∀ i : Fin threadMaxFds, 2 ≤ i.val → ((s.threads s.currentThread).fds i).kind ≠ .unused) ∧
      schedFdOpen kind handle s = (none, s)) := by
  unfold schedFdOpen
  cases found : (List.finRange threadMaxFds).find? fun i =>
      2 ≤ i.val ∧ ((s.threads s.currentThread).fds i).kind = .unused with
  | some i =>
    have passed := List.find?_some found
    exact Or.inl ⟨i, (of_decide_eq_true passed).1, (of_decide_eq_true passed).2, rfl⟩
  | none =>
    refine Or.inr ⟨fun i low unused => ?_, rfl⟩
    have refused := List.find?_eq_none.mp found i (List.mem_finRange i)
    exact refused (decide_eq_true ⟨low, unused⟩)

theorem release_reader (s : System) (i : Fin pipeMax) (used : (s.pipes i).inUse = true) :
    releaseSlot ⟨.pipeRead, i.val, 0⟩ s =
      ({ s with pipes := Function.update s.pipes i (s.pipes i).closeReader } : System).wake
        (s.pipeChannel i.val) := by
  simp only [releaseSlot, pipeCloseReader, closeEnd, pipeIndex_val, used, if_true]
  rfl

theorem release_writer (s : System) (i : Fin pipeMax) (used : (s.pipes i).inUse = true) :
    releaseSlot ⟨.pipeWrite, i.val, 0⟩ s =
      ({ s with pipes := Function.update s.pipes i (s.pipes i).closeWriter } : System).wake
        (s.pipeChannel i.val) := by
  simp only [releaseSlot, pipeCloseWriter, closeEnd, pipeIndex_val, used, if_true]
  rfl

/-- The end of a failing SYS_PIPE: the new pipe is free again, and the
descriptors that were handed out are unused again. -/
theorem pipeFailed_parts (wf : WellFormed s.kernel) (i : Fin pipeMax)
    (fds : Fin threadMaxFds → FdSlot) (free : (s.pipes i).inUse = false)
    (same : ∀ fd, fds fd = (s.threads.threads s.cur).fds fd ∨
      ((fds fd).kind = .unused ∧ ((s.threads.threads s.cur).fds fd).kind = .unused)) :
    Parts ok s (releaseSlot ⟨.pipeWrite, i.val, 0⟩ (releaseSlot ⟨.pipeRead, i.val, 0⟩
      ({ s with pipes := Function.update s.pipes i (s.pipes i).opened }.withFds s.cur fds))) := by
  let p := (s.pipes i).opened.closeReader.closeWriter
  let failed := { s with pipes := Function.update s.pipes i p }.withFds s.cur fds
  have closed : p.inUse = false := by
    simp [p, Pipe.opened, Pipe.closeReader, Pipe.closeWriter, Pipe.maybeFree]
  have half : (s.pipes i).opened.closeReader.inUse = true := by
    simp [Pipe.opened, Pipe.closeReader, Pipe.maybeFree]
  have first : Part ok s failed := .pipeFailed free closed same
  have wf' := first.wellFormed wf
  have woken := @wake_part ok _ wf' (s.pipeChannel i.val)
  have again := @wake_part ok _ (woken.wellFormed wf') (s.pipeChannel i.val)
  have ends : releaseSlot ⟨.pipeWrite, i.val, 0⟩ (releaseSlot ⟨.pipeRead, i.val, 0⟩
      ({ s with pipes := Function.update s.pipes i (s.pipes i).opened }.withFds s.cur fds)) =
        (failed.wake (s.pipeChannel i.val)).wake (s.pipeChannel i.val) := by
    have used : (Function.update s.pipes i (s.pipes i).opened i).inUse = true := by
      rw [Function.update_self]
      rfl
    rw [release_reader _ i used, release_writer]
    · simp only [System.withFds, System.withThreads, System.wake, System.pipeChannel,
        Function.update_self, Function.update_idem]
      rfl
    · change (Function.update (Function.update s.pipes i _) i _ i).inUse = true
      rw [Function.update_self]
      change (Function.update s.pipes i _ i).closeReader.inUse = true
      rw [Function.update_self]
      exact half
  rw [ends]
  exact ((Relation.ReflTransGen.single first).tail woken).tail again

theorem setFd_fds (s : ThreadTable) (tid : Nat) (i : Fin threadMaxFds) (slot : FdSlot) :
    ((setFd s tid i slot).threads tid).fds = Function.update (s.threads tid).fds i slot := by
  rw [setFd, updThread_same]

theorem sysPipe_parts (wf : WellFormed s.kernel) : Parts ok s (sysPipe s) := by
  rcases pipeCreate_cases s.pipes with ⟨i, free, creates⟩ | ⟨_, full⟩
  · have positive : ¬ ((i.val : Int) < 0) := by omega
    simp only [sysPipe, creates, if_neg positive]
    rcases schedFdOpen_cases .pipeRead i.val s.threads with
      ⟨r, _, unusedRead, opensRead⟩ | ⟨noRead, failsRead⟩
    · let reading := setFd s.threads s.threads.currentThread r ⟨.pipeRead, i.val, 0⟩
      have fds : (reading.threads reading.currentThread).fds =
          Function.update (s.threads.threads s.cur).fds r ⟨.pipeRead, i.val, 0⟩ :=
        setFd_fds s.threads s.cur r ⟨.pipeRead, i.val, 0⟩
      rcases schedFdOpen_cases .pipeWrite i.val reading with
        ⟨w, _, unusedWrite, opensWrite⟩ | ⟨noWrite, failsWrite⟩
      · have distinct : w ≠ r := by
          intro same
          rw [fds, same, Function.update_self] at unusedWrite
          cases unusedWrite
        rw [fds, Function.update_of_ne distinct] at unusedWrite
        simp only [opensRead]
        rw [opensWrite]
        exact .single (.piped free unusedRead unusedWrite distinct)
      · simp only [opensRead]
        rw [failsWrite]
        have failed := @pipeFailed_parts ok _ wf i
          (Function.update (s.threads.threads s.cur).fds r resetFdSlot) free fun fd => by
            cases Decidable.em (fd = r) with
            | inl same =>
              rw [same, Function.update_self]
              exact Or.inr ⟨rfl, unusedRead⟩
            | inr other => exact Or.inl (Function.update_of_ne other ..)
        have given_up : schedFdClose r reading =
            (s.withFds s.cur
              (Function.update (s.threads.threads s.cur).fds r resetFdSlot)).threads := by
          change setFd (setFd s.threads s.cur r _) s.cur r resetFdSlot = updThread _ _ _
          rw [setFd, setFd_fds, Function.update_idem]
          simp only [setFd, updThread, Function.update_self, Function.update_idem]
        simp only [Option.elim]
        rw [given_up]
        exact failed
    · have again : schedFdOpen .pipeWrite i.val s.threads = (none, s.threads) := by
        rcases schedFdOpen_cases .pipeWrite i.val s.threads with ⟨w, low, unused, _⟩ | ⟨_, fails⟩
        · exact absurd unused (noRead w low)
        · exact fails
      simp only [failsRead, again, Option.elim]
      have failed := @pipeFailed_parts ok _ wf i (s.threads.threads s.cur).fds free
        (fun _ => Or.inl rfl)
      have same := withFds_same { s with pipes := Function.update s.pipes i (s.pipes i).opened } s.cur
      rw [show (s.threads.threads s.cur).fds = (({ s with
        pipes := Function.update s.pipes i (s.pipes i).opened } : System).threads.threads
          s.cur).fds from rfl, same] at failed
      exact failed
  · simp only [sysPipe, full]
    exact .refl

theorem fdClose_parts (wf : WellFormed s.kernel) (fd : Int) : Parts ok s (fdClose fd s) := by
  unfold fdClose
  cases schedFdGet s.threads fd with
  | none => exact .refl
  | some i =>
    have cur := (releaseSlot_reschedules ((s.threads.threads s.cur).fds i) s).2
    have closes : (releaseSlot ((s.threads.threads s.cur).fds i) s).withThreads
        (schedFdClose i (releaseSlot ((s.threads.threads s.cur).fds i) s).threads) =
          closeFdOf s.cur i s := by
      change System.withThreads _ (setFd _ (releaseSlot _ s).cur i resetFdSlot) = _
      rw [cur]
      rfl
    simp only
    rw [closes]
    exact .single (.closed wf.current)

/-! ## The step -/

theorem scheduled_parts (wf : WellFormed s.kernel) {e : Event}
    (h : s.scheduled e = some t)
    (moves : ∀ k, Sched.step s.kernel e = some k → Reschedules s.kernel k) : Parts ok s t := by
  obtain ⟨k, stepped, rfl⟩ := scheduled_eq_some.mp h
  exact .single (.scheduled (moves k stepped) (step_wellFormed wf stepped))

theorem onPipe_parts (kind : FdKind) (turn : Int → System → System) (fd : Int)
    (turns : ∀ idx, pipeOf s kind fd = some idx → Parts ok s (turn idx s)) :
    Parts ok s (onPipe kind turn fd s) := by
  unfold onPipe
  cases found : schedFdGet s.threads fd with
  | none => exact .refl
  | some i =>
    simp only
    split
    · next isPipe =>
      refine turns _ ?_
      rw [pipeOf, found, Option.bind_some, if_pos isPipe]
    · exact .refl

/-- A step is a chain of parts, if its risks are admitted. -/
theorem step_parts (wf : WellFormed s.kernel) {e : SysEvent} (h : s.step e = some t)
    (risks : ∀ r, Risks s e r → ok s r) : Parts ok s t := by
  cases e with
  | timer =>
    refine scheduled_parts wf h fun k stepped => ?_
    obtain ⟨_, rfl⟩ := interrupt_eq_some.mp stepped
    exact tick_reschedules wf
  | keyboard channel =>
    refine scheduled_parts wf h fun k stepped => ?_
    obtain ⟨_, rfl⟩ := interrupt_eq_some.mp stepped
    exact wakeup_reschedules _ channel
  | setIf on =>
    refine scheduled_parts wf h fun k stepped => ?_
    obtain ⟨_, rfl⟩ := Sched.call_eq_some.mp stepped
    exact ⟨rfl, fun _ => rfl, fun _ => Or.inl ⟨rfl, rfl⟩, fun _ => Iff.rfl, Or.inl rfl⟩
  | idleCheck =>
    refine scheduled_parts wf h fun k stepped => ?_
    obtain ⟨flags, idles, _, rfl⟩ := idleCheck_eq_some.mp stepped
    exact leaveIdle_reschedules wf flags idles
  | yield =>
    obtain ⟨_, rfl⟩ := call_eq_some.mp h
    exact .single (.scheduled (yield_reschedules wf _) (wf.schedYield _))
  | sleep channel =>
    obtain ⟨⟨inCode, idle⟩, rfl⟩ := call_eq_some.mp h
    have parts := @sleepIn_parts _ _ wf .none channel inCode trivial
      (risks _ rfl)
    rw [sleepIn, doing_same s idle] at parts
    exact parts
  | wakeup channel =>
    obtain ⟨_, rfl⟩ := call_eq_some.mp h
    exact .single (wake_part wf channel)
  | spawnThread req block stack =>
    obtain ⟨_, rfl⟩ := call_eq_some.mp h
    exact .single .threadSpawned
  | spawn answers =>
    obtain ⟨⟨inCode, _⟩, rfl⟩ := call_eq_some.mp h
    exact .single (.processSpawned inCode (risks _ rfl))
  | spawnRedirect answers stdinFd stdoutFd =>
    obtain ⟨⟨inCode, _⟩, rfl⟩ := call_eq_some.mp h
    exact spawnFromFileRedirect_parts wf answers stdinFd stdoutFd inCode (risks _ rfl)
  | started =>
    obtain ⟨⟨inCode, _⟩, rfl⟩ := call_eq_some.mp h
    exact .single (.started inCode)
  | exit status =>
    obtain ⟨⟨inCode, idle⟩, rfl⟩ := call_eq_some.mp h
    exact exitStatus_parts wf status inCode idle (risks _ rfl)
  | kill pid sig =>
    obtain ⟨⟨inCode, idle⟩, rfl⟩ := call_eq_some.mp h
    exact processKill_parts wf pid sig inCode idle fun tid target => risks _ ⟨tid, target, rfl⟩
  | wait pid =>
    obtain ⟨⟨inCode, _⟩, rfl⟩ := call_eq_some.mp h
    exact processWait_parts wf pid inCode (risks _ rfl)
  | pipe =>
    obtain ⟨_, rfl⟩ := call_eq_some.mp h
    exact sysPipe_parts wf
  | openFile kind handle =>
    simp only [System.step] at h
    split at h
    · cases h
    · next other =>
      obtain ⟨_, rfl⟩ := call_eq_some.mp h
      rcases schedFdOpen_cases kind handle s.threads with ⟨i, _, unused, opens⟩ | ⟨_, fails⟩
      · rw [opens]
        exact .single (.opened unused (not_or.mp other))
      · rw [fails]
        exact .refl
  | close fd =>
    obtain ⟨_, rfl⟩ := call_eq_some.mp h
    exact fdClose_parts wf fd
  | read fd len =>
    obtain ⟨⟨inCode, _⟩, rfl⟩ := call_eq_some.mp h
    refine onPipe_parts _ _ fd fun idx isPipe => ?_
    exact readTurn_parts wf idx len inCode fun sleeps => risks _ ⟨idx, isPipe, sleeps, rfl⟩
  | write fd src =>
    obtain ⟨⟨inCode, _⟩, rfl⟩ := call_eq_some.mp h
    refine onPipe_parts _ _ fd fun idx isPipe => ?_
    exact writeTurn_parts wf idx src inCode fun sleeps => risks _ ⟨idx, isPipe, sleeps, rfl⟩
  | resume =>
    simp only [System.step] at h
    split at h
    · next inCode =>
      have risk : WouldSleep s (s.activity s.cur) → ok s (.sleeps (s.activity s.cur)) :=
        fun sleeps => risks _ ⟨sleeps, rfl⟩
      cases loop : s.activity s.cur with
      | none =>
        rw [loop] at h
        cases h
      | reading idx len =>
        rw [loop] at h risk
        cases h
        exact readTurn_parts wf idx len inCode risk
      | writing idx src =>
        rw [loop] at h risk
        cases h
        exact writeTurn_parts wf idx src inCode risk
      | waiting pid =>
        rw [loop] at h risk
        cases h
        exact processWait_parts wf pid inCode (risk trivial)
    · cases h

theorem sysStep_wellFormed (wf : WellFormed s.kernel) {e : SysEvent} (h : s.step e = some t) :
    WellFormed t.kernel :=
  parts_invariant (fun _ _ => True) (I := fun s => WellFormed s.kernel)
    (fun _ _ wf part => part.wellFormed wf) wf (step_parts wf h fun _ _ => trivial)

end MiniKernel.Proc
