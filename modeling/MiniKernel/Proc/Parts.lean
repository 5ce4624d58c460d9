import MiniKernel.Proc.Spawning

/-!
# What a step can do

A step of the machine is a chain of parts. Each part changes little, and what an
invariant has to survive is the parts. Two parts can do harm to others: the end
of a thread and a thread falling asleep in a loop; and a spawn takes the next
pid. `ok` says which of these the run admits.
-/
namespace MiniKernel.Proc
open Memory.Paging (Word)
open Sched
open Ipc

inductive Risk where
  | ends (tid : Nat)
  | sleeps (a : Activity)
  | spawns

/-- Why a thread goes to sleep in its loop, and on which channel. -/
def SleepsOn (s : System) (channel : Word) : Activity → Prop
  | .none => True
  | .reading idx _ => ∃ i : Fin pipeMax, idx = i.val ∧ channel = s.pipeChannel idx ∧
      (s.pipes i).inUse = true ∧ (s.pipes i).count = 0 ∧ 0 < (s.pipes i).writers
  | .writing idx _ => ∃ i : Fin pipeMax, idx = i.val ∧ channel = s.pipeChannel idx ∧
      (s.pipes i).inUse = true ∧ pipeBufSize ≤ (s.pipes i).count ∧ 0 < (s.pipes i).readers
  | .waiting pid => channel = pidChannel pid ∧
      ∃ i, findProcess s.table pid = some i ∧ (s.table.processes i).state ≠ .exited

/-- `sched_exit_status` up to `process_mark_exited`. -/
def die (status : BitVec 32) (s : System) : System :=
  let died := { s with
    kernel := dead ((exitingPid s.table s.cur).map pidChannel) s.kernel
    table := processMarkExited s.table s.cur status }
  match exitingPid s.table s.cur with
  | some pid => died.note (.ended pid status)
  | none => died

/-- `sched_kill` of another thread. -/
def killOther (tid : Nat) (status : BitVec 32) (s : System) : System :=
  markProcessExited tid status
    (s.withThreads (updThread s.threads tid
      { s.threads.threads tid with state := .zombie, waitChannel := 0 }))

/-- The zombie's slot is given back, if it can be. -/
def bury (tid : Nat) (s : System) : System :=
  if Reapable s.threads tid then
    s.withThreads (updThread s.threads tid (reapedSlot (s.threads.threads tid)))
  else s

/-- The end of `process_wait` for the exited process in record `i`, when the
descriptors of its thread are closed. -/
def collect (pid : Int) (i : Fin processMax) (s : System) : System :=
  let buried := match (s.table.processes i).tid with
    | some tid => bury tid s
    | none => s
  ({ buried with table := releaseProcess s.table pid }.doing .none).note
    (.waited pid s.caller (some (s.table.processes i).exitStatus))

/-- `process_wait` returns -1. -/
def refuse (pid : Int) (s : System) : System :=
  (s.doing .none).note (.waited pid s.caller none)

variable (ok : System → Risk → Prop)

inductive Part (s : System) : System → Prop
  | scheduled {k : Kernel} (moved : Reschedules s.kernel k) (wf : WellFormed k) :
      Part s { s with kernel := k }
  | fellAsleep {a : Activity} {channel : Word} (inCode : s.kernel.place s.cur = .code)
      (reason : SleepsOn s channel a) (risk : ok s (.sleeps a)) :
      Part s { s.doing a with kernel := fallAsleep channel s.kernel }
  | loopEnded : Part s (s.doing .none)
  | transferred {i : Fin pipeMax} {p : Pipe} (inUse : p.inUse = (s.pipes i).inUse)
      (readers : p.readers = (s.pipes i).readers) (writers : p.writers = (s.pipes i).writers) :
      Part s (({ s with pipes := Function.update s.pipes i p }.doing .none).wake
        (s.pipeChannel i.val))
  | died {status : BitVec 32} (inCode : s.kernel.place s.cur = .code)
      (idle : s.activity s.cur = .none) (risk : ok s (.ends s.cur)) : Part s (die status s)
  | killed {tid : Nat} {status : BitVec 32} {i : Fin processMax} (other : tid ≠ s.cur)
      (inTable : tid < s.threads.threadCapacity)
      (alive : s.kernel.stateOf tid ≠ .unused ∧ s.kernel.stateOf tid ≠ .zombie)
      (used : (s.table.processes i).state ≠ .unused)
      (running : (s.table.processes i).state ≠ .exited)
      (record : (s.table.processes i).tid = some tid)
      (risk : ok s (.ends tid)) : Part s (killOther tid status s)
  | threadSpawned {req : SpawnRequest} {block : Option (Nat → Thread)}
      {stack : Option GuardedStack} : Part s (startThread req block stack kernelThread s).2
  | processSpawned {answers : SpawnAnswers} (inCode : s.kernel.place s.cur = .code)
      (risk : ok s .spawns) : Part s (spawnElfRequest answers s).2
  | closed {tid : Nat} {i : Fin threadMaxFds} (inTable : tid < s.threads.threadCapacity) :
      Part s (closeFdOf tid i s)
  | collected {pid : Int} {i : Fin processMax} (inCode : s.kernel.place s.cur = .code)
      (found : findProcess s.table pid = some i)
      (own : (s.table.processes i).parentPid = currentPid s.table s.cur)
      (exited : (s.table.processes i).state = .exited)
      (cleared : ∀ tid, (s.table.processes i).tid = some tid → Reapable s.threads tid →
        ∀ fd, (s.threads.threads tid).fds fd = resetFdSlot) : Part s (collect pid i s)
  | refused {pid : Int} (inCode : s.kernel.place s.cur = .code)
      (stranger : ∀ i, findProcess s.table pid = some i →
        (s.table.processes i).parentPid ≠ currentPid s.table s.cur) : Part s (refuse pid s)
  | redirected {kind : FdKind} {raise : Pipe → Pipe} {tid : Nat} {fd target : Fin threadMaxFds}
      (ends : kind = .pipeRead ∧ raise = Pipe.addReader ∨
        kind = .pipeWrite ∧ raise = Pipe.addWriter)
      (source : ((s.threads.threads s.cur).fds fd).kind = kind)
      (inTable : tid < s.threads.threadCapacity) (other : tid ≠ s.cur)
      (used : s.kernel.stateOf tid ≠ .unused)
      (console : ((s.threads.threads tid).fds target).kind = .console) :
      Part s ({ s with
          pipes := (addEnd raise s.pipes ((s.threads.threads s.cur).fds fd).handle).2 }.withThreads
        (setFd s.threads tid target ⟨kind, ((s.threads.threads s.cur).fds fd).handle, 0⟩))
  | piped {i : Fin pipeMax} {r w : Fin threadMaxFds} (free : (s.pipes i).inUse = false)
      (unusedRead : ((s.threads.threads s.cur).fds r).kind = .unused)
      (unusedWrite : ((s.threads.threads s.cur).fds w).kind = .unused) (distinct : w ≠ r) :
      Part s ({ s with pipes := Function.update s.pipes i (s.pipes i).opened }.withThreads
        (setFd (setFd s.threads s.cur r ⟨.pipeRead, i.val, 0⟩) s.cur w ⟨.pipeWrite, i.val, 0⟩))
  | pipeFailed {i : Fin pipeMax} {p : Pipe} {fds : Fin threadMaxFds → FdSlot}
      (free : (s.pipes i).inUse = false) (closed : p.inUse = false)
      (same : ∀ fd, fds fd = (s.threads.threads s.cur).fds fd ∨
        ((fds fd).kind = .unused ∧ ((s.threads.threads s.cur).fds fd).kind = .unused)) :
      Part s ({ s with pipes := Function.update s.pipes i p }.withFds s.cur fds)
  | opened {fd : Fin threadMaxFds} {slot : FdSlot}
      (unused : ((s.threads.threads s.cur).fds fd).kind = .unused)
      (other : slot.kind ≠ .pipeRead ∧ slot.kind ≠ .pipeWrite) :
      Part s (s.withThreads (setFd s.threads s.cur fd slot))
  | started (inCode : s.kernel.place s.cur = .code) :
      Part s { s with table := processStarted s.table s.cur }

abbrev Parts : System → System → Prop := Relation.ReflTransGen (Part ok)

/-- What every part keeps, a chain of parts keeps. -/
theorem parts_invariant {I : System → Prop} (kept : ∀ s t, I s → Part ok s t → I t)
    {s t : System} (start : I s) (parts : Parts ok s t) : I t := by
  induction parts with
  | refl => exact start
  | tail _ part ih => exact kept _ _ ih part

/-! ## The running thread stays in its slot -/

variable {ok} {s t : System}

/-- A table in which the running thread is still there. -/
theorem wellFormed_threads {k : Kernel} (wf : WellFormed k) (table : ThreadTable)
    (current : table.currentThread = k.cur) (capacity : k.table.threadCapacity ≤ table.threadCapacity)
    (inUse : (table.threads k.cur).state ≠ .unused) : WellFormed { k with table := table } := by
  refine ⟨?_, ?_, wf.spawns⟩
  · change table.currentThread < table.threadCapacity
    rw [current]
    exact Nat.lt_of_lt_of_le wf.current capacity
  · change (table.threads table.currentThread).state ≠ .unused
    rw [current]
    exact inUse

theorem wellFormed_setFd (wf : WellFormed s.kernel) (tid : Nat) (i : Fin threadMaxFds)
    (slot : FdSlot) : WellFormed (s.withThreads (setFd s.threads tid i slot)).kernel := by
  refine wellFormed_threads wf _ rfl (Nat.le_refl _) ?_
  change ((updThread s.threads tid _).threads s.kernel.cur).state ≠ .unused
  cases Decidable.em (s.kernel.cur = tid) with
  | inl same =>
    rw [same, updThread_same]
    exact same ▸ wf.inUse
  | inr other =>
    rw [updThread_other _ _ _ _ other]
    exact wf.inUse

theorem wellFormed_grown (wf : WellFormed s.kernel) {grown : ThreadTable}
    (grows : Grows s.threads grown) : WellFormed (s.withThreads grown).kernel := by
  refine wellFormed_threads wf _ grows.current grows.capacity ?_
  rw [grows.stateOf wf.current]
  exact wf.inUse

theorem wellFormed_seat (wf : WellFormed s.kernel) {grown : ThreadTable}
    (grows : Grows s.threads grown) {slot : Nat} (unused : (grown.threads slot).state = .unused)
    (owner : Occupant) (req : SpawnRequest) (st : GuardedStack) :
    WellFormed (s.seat slot owner (startSlot req st s.kernel.kernelSpace slot grown)).kernel := by
  have used : (grown.threads s.kernel.cur).state ≠ .unused := by
    rw [grows.stateOf wf.current]
    exact wf.inUse
  have other : s.kernel.cur ≠ slot := by
    intro same
    rw [same] at used
    exact used unused
  have placed : ∀ i, PlaceOk i (Function.update s.kernel.place slot .code i) := by
    intro i
    rw [Function.update_apply]
    split
    · trivial
    · exact wf.spawns i
  refine ⟨?_, ?_, placed⟩
  · change grown.currentThread < grown.threadCapacity
    rw [grows.current]
    exact Nat.lt_of_lt_of_le wf.current grows.capacity
  · change ((startSlot req st s.kernel.kernelSpace slot grown).threads grown.currentThread).state ≠ _
    rw [grows.current]
    change ((startSlot req st s.kernel.kernelSpace slot grown).threads s.kernel.cur).state ≠ _
    rw [startSlot_other other]
    exact used

theorem wellFormed_startThread (wf : WellFormed s.kernel) (req : SpawnRequest)
    (block : Option (Nat → Thread)) (stack : Option GuardedStack) (owner : Occupant) :
    WellFormed (startThread req block stack owner s).2.kernel := by
  obtain ⟨grown, grows, spawned⟩ := startThread_cases req block stack owner s
  rcases spawned with fails | ⟨slot, st, _, unused, starts⟩
  · rw [fails]
    exact wellFormed_grown wf grows
  · rw [starts]
    exact wellFormed_seat wf grows unused owner req st

theorem wellFormed_spawn (wf : WellFormed s.kernel) (a : SpawnAnswers) :
    WellFormed (spawnElfRequest a s).2.kernel := by
  unfold spawnElfRequest
  split
  · exact wf
  · split
    · exact wf
    · next pid table _ =>
      have started := wellFormed_startThread (s := s.reserved table) wf a.request a.block a.stack
        ⟨some s.history.pids, pid⟩
      rw [System.reserved] at started
      simp only
      split
      · next spawned =>
        rw [spawned] at started
        exact started
      · next spawned =>
        rw [spawned] at started
        exact started

theorem wellFormed_release (wf : WellFormed s.kernel) (slot : FdSlot) :
    WellFormed (releaseSlot slot s).kernel := by
  rcases releaseSlot_cases slot s with ⟨i, lower, _, _, _, releases⟩ | ⟨_, nothing⟩
  · rw [releases]
    exact wf.wakeup _
  · rw [nothing]
    exact wf

theorem wellFormed_dead (wf : WellFormed s.kernel) (pid : Option Word) :
    WellFormed (dead pid s.kernel) := by
  refine ⟨?_, ?_, wf.moved _ trivial⟩
  · change (markExited _ pid).currentThread < (markExited _ pid).threadCapacity
    rw [markExited_current, markExited_capacity]
    exact wf.current
  · change ((markExited (setState s.kernel.table s.kernel.cur .zombie) pid).threads
      (markExited (setState s.kernel.table s.kernel.cur .zombie) pid).currentThread).state ≠ _
    rw [markExited_current]
    rcases markExited_state (setState s.kernel.table s.kernel.cur .zombie) pid s.kernel.cur with
      same | ⟨_, ready⟩
    · change ((markExited (setState s.kernel.table s.kernel.cur .zombie) pid).threads
        s.kernel.cur).state ≠ _
      rw [same, setState_state, if_pos rfl]
      nofun
    · change ((markExited (setState s.kernel.table s.kernel.cur .zombie) pid).threads
        s.kernel.cur).state ≠ _
      rw [ready]
      nofun

theorem wellFormed_bury (wf : WellFormed s.kernel) (tid : Nat) :
    WellFormed (bury tid s).kernel := by
  unfold bury
  split
  · next reapable =>
    have reaped := wf.reap tid
    rw [reapZombie, if_pos (show Reapable s.kernel.table tid from reapable)] at reaped
    exact reaped
  · exact wf

/-- Every part leaves the running thread in use. -/
theorem Part.wellFormed (wf : WellFormed s.kernel) (part : Part ok s t) :
    WellFormed t.kernel := by
  cases part with
  | scheduled moved wf => exact wf
  | fellAsleep inCode reason risk =>
    refine wellFormed_threads wf _ rfl (Nat.le_refl _) ?_
    rw [updThread_same]
    nofun
  | loopEnded => exact wf
  | transferred => exact wf.wakeup _
  | died =>
    unfold die
    simp only
    split <;> exact wellFormed_dead wf _
  | @killed tid _ _ other =>
    let slain : Thread := { s.threads.threads tid with state := .zombie, waitChannel := 0 }
    have zombie : WellFormed { s.kernel with table := updThread s.threads tid slain } := by
      refine wellFormed_threads wf _ rfl (Nat.le_refl _) ?_
      rw [updThread_other _ _ _ _ (show s.kernel.cur ≠ tid from Ne.symm other)]
      exact wf.inUse
    unfold killOther markProcessExited
    simp only
    split
    · exact zombie.wakeup _
    · exact zombie
  | threadSpawned => exact wellFormed_startThread wf _ _ _ _
  | processSpawned => exact wellFormed_spawn wf _
  | closed => exact wellFormed_setFd (wellFormed_release wf _) _ _ _
  | collected =>
    unfold collect
    simp only
    split
    · exact wellFormed_bury wf _
    · exact wf
  | refused => exact wf
  | redirected => exact wellFormed_setFd (s := { s with pipes := _ }) wf _ _ _
  | @piped i r w =>
    have first := wellFormed_setFd wf s.cur r ⟨.pipeRead, i.val, 0⟩
    exact wellFormed_setFd first s.cur w ⟨.pipeWrite, i.val, 0⟩
  | pipeFailed =>
    refine wellFormed_threads wf _ rfl (Nat.le_refl _) ?_
    change ((updThread s.threads s.kernel.cur _).threads s.kernel.cur).state ≠ _
    rw [updThread_same]
    exact wf.inUse
  | opened => exact wellFormed_setFd wf _ _ _
  | started => exact wf

end MiniKernel.Proc
