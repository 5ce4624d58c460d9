import MiniKernel.Proc.OwnThreads

/-!
# The counts of a pipe and the descriptors that refer to it

Source: kernel/core/pipe.c (`pipe_create`, `pipe_add_reader`, `pipe_close_reader`
and the writers' like), kernel/core/fd.c (`release_slot`, `fd_cleanup_thread`,
`fd_close`), kernel/core/syscall.c (SYS_PIPE), kernel/core/process.c
(`process_spawn_from_file_redirect`). Each count is the number of descriptor
slots of its kind, whatever the state of the threads that have them.
-/
namespace MiniKernel.Proc
open Memory.Paging (Word)
open Sched
open Ipc

inductive PipeEnd where
  | read | write
  deriving DecidableEq, Repr

namespace PipeEnd

def kind : PipeEnd → FdKind
  | read => .pipeRead
  | write => .pipeWrite

/-- The count of the end. -/
def holders (p : Pipe) : PipeEnd → Int
  | read => p.readers
  | write => p.writers

/-- `pipe_add_reader` and `pipe_add_writer` on a pipe in use. -/
def raise : PipeEnd → Pipe → Pipe
  | read => Pipe.addReader
  | write => Pipe.addWriter

/-- `pipe_close_reader` and `pipe_close_writer` on a pipe in use. -/
def lower : PipeEnd → Pipe → Pipe
  | read => Pipe.closeReader
  | write => Pipe.closeWriter

end PipeEnd

/-- The slot is a descriptor of this end of pipe `i`. -/
def Refers (slot : FdSlot) (e : PipeEnd) (i : Fin pipeMax) : Prop :=
  slot.kind = e.kind ∧ slot.handle = i.val

instance (slot : FdSlot) (e : PipeEnd) (i : Fin pipeMax) : Decidable (Refers slot e i) :=
  inferInstanceAs (Decidable (_ ∧ _))

def IsEnd (slot : FdSlot) : Prop := ∃ e : PipeEnd, slot.kind = e.kind

/-- How many descriptor slots of all threads refer to this end of pipe `i`. -/
def endCount (t : ThreadTable) (e : PipeEnd) (i : Fin pipeMax) : Nat :=
  ((Finset.range t.threadCapacity ×ˢ Finset.univ).filter fun x =>
    Refers ((t.threads x.1).fds x.2) e i).card

variable {ok : System → Risk → Prop} {s t : System}

/-! ## Counting -/

/-- Membership changes at one point. -/
theorem card_filter_change {α : Type*} [DecidableEq α] (all : Finset α) (before after : α → Prop)
    [DecidablePred before] [DecidablePred after] {a : α} (mem : a ∈ all)
    (same : ∀ b ∈ all, b ≠ a → (before b ↔ after b)) :
    (all.filter after).card + (if before a then 1 else 0) =
      (all.filter before).card + (if after a then 1 else 0) := by
  rw [Finset.card_filter, Finset.card_filter, ← Finset.add_sum_erase _ _ mem,
    ← Finset.add_sum_erase _ _ mem]
  have rest : ∑ b ∈ all.erase a, (if after b then 1 else 0) =
      ∑ b ∈ all.erase a, (if before b then 1 else 0) := by
    refine Finset.sum_congr rfl fun b member => ?_
    obtain ⟨other, inAll⟩ := Finset.mem_erase.mp member
    simp only [same b inAll other]
  rw [rest]
  omega

theorem refers_isEnd {slot : FdSlot} {e : PipeEnd} {i : Fin pipeMax} (h : Refers slot e i) :
    IsEnd slot := ⟨e, h.1⟩

theorem endCount_pos {t : ThreadTable} {e : PipeEnd} {i : Fin pipeMax} {tid : Nat}
    {fd : Fin threadMaxFds} (inTable : tid < t.threadCapacity)
    (refers : Refers ((t.threads tid).fds fd) e i) : 0 < endCount t e i := by
  refine Finset.card_pos.mpr ⟨(tid, fd), ?_⟩
  simp only [Finset.mem_filter, Finset.mem_product, Finset.mem_range, Finset.mem_univ, and_true]
  exact ⟨inTable, refers⟩

theorem endCount_exists {t : ThreadTable} {e : PipeEnd} {i : Fin pipeMax}
    (positive : 0 < endCount t e i) :
    ∃ tid < t.threadCapacity, ∃ fd, Refers ((t.threads tid).fds fd) e i := by
  obtain ⟨⟨tid, fd⟩, member⟩ := Finset.card_pos.mp positive
  simp only [Finset.mem_filter, Finset.mem_product, Finset.mem_range, Finset.mem_univ,
    and_true] at member
  exact ⟨tid, member.1, fd, member.2⟩

theorem endCount_setFd (t : ThreadTable) {tid : Nat} (inTable : tid < t.threadCapacity)
    (fd : Fin threadMaxFds) (slot : FdSlot) (e : PipeEnd) (i : Fin pipeMax) :
    endCount (setFd t tid fd slot) e i + (if Refers ((t.threads tid).fds fd) e i then 1 else 0) =
      endCount t e i + (if Refers slot e i then 1 else 0) := by
  have self : ((setFd t tid fd slot).threads tid).fds fd = slot := by
    rw [setFd_fds, Function.update_self]
  have member : ((tid, fd) : Nat × Fin threadMaxFds) ∈
      Finset.range t.threadCapacity ×ˢ Finset.univ := by
    simp [inTable]
  have change := card_filter_change (Finset.range t.threadCapacity ×ˢ Finset.univ)
    (fun x : Nat × Fin threadMaxFds => Refers ((t.threads x.1).fds x.2) e i)
    (fun x => Refers (((setFd t tid fd slot).threads x.1).fds x.2) e i) member
    fun ⟨u, f⟩ _ other => ?_
  · rw [self] at change
    exact change
  · rcases Decidable.em (u = tid) with same | apart
    · have differs : f ≠ fd := fun here => other (by rw [same, here])
      simp only [same]
      rw [setFd_fds, Function.update_of_ne differs]
    · simp only [setFd, updThread_other _ _ _ _ apart]

/-- Slots may appear and change, but no end of a pipe comes or goes. -/
structure SameEnds (s t : ThreadTable) : Prop where
  capacity : s.threadCapacity ≤ t.threadCapacity
  kept : ∀ tid < s.threadCapacity, ∀ fd,
    (t.threads tid).fds fd = (s.threads tid).fds fd ∨
      (¬ IsEnd ((t.threads tid).fds fd) ∧ ¬ IsEnd ((s.threads tid).fds fd))
  fresh : ∀ tid, s.threadCapacity ≤ tid → tid < t.threadCapacity → ∀ fd,
    ¬ IsEnd ((t.threads tid).fds fd)

theorem SameEnds.endCount {s t : ThreadTable} (same : SameEnds s t) (e : PipeEnd)
    (i : Fin pipeMax) : endCount t e i = endCount s e i := by
  have slots (tid : Nat) (fd : Fin threadMaxFds) :
      (tid < t.threadCapacity ∧ Refers ((t.threads tid).fds fd) e i) ↔
        (tid < s.threadCapacity ∧ Refers ((s.threads tid).fds fd) e i) := by
    rcases Nat.lt_or_ge tid s.threadCapacity with low | high
    · have low' := Nat.lt_of_lt_of_le low same.capacity
      rcases same.kept tid low fd with kept | ⟨gone, absent⟩
      · rw [kept]
        exact ⟨fun h => ⟨low, h.2⟩, fun h => ⟨low', h.2⟩⟩
      · exact ⟨fun h => absurd (refers_isEnd h.2) gone, fun h => absurd (refers_isEnd h.2) absent⟩
    · constructor
      · exact fun h => absurd (refers_isEnd h.2) (same.fresh tid high h.1 fd)
      · exact fun h => absurd h.1 (Nat.not_lt.mpr high)
  refine congrArg Finset.card (Finset.ext fun ⟨tid, fd⟩ => ?_)
  simp only [Finset.mem_filter, Finset.mem_product, Finset.mem_range, Finset.mem_univ, and_true]
  exact slots tid fd

theorem sameEnds_of_fds {s t : ThreadTable} (capacity : t.threadCapacity = s.threadCapacity)
    (fds : ∀ tid < s.threadCapacity, (t.threads tid).fds = (s.threads tid).fds) :
    SameEnds s t :=
  ⟨Nat.le_of_eq capacity.symm, fun tid low fd => Or.inl (by rw [fds tid low]),
    fun tid high low => by omega⟩

/-! ## One pipe -/

theorem lower_holders (e other : PipeEnd) (p : Pipe) (held : 0 < e.holders p) :
    other.holders (e.lower p) = other.holders p - (if other = e then 1 else 0) := by
  have freed (p : Pipe) : other.holders p.maybeFree = other.holders p := by
    unfold Pipe.maybeFree
    split <;> cases other <;> rfl
  cases e with
  | read =>
    have positive : p.readers > 0 := held
    change other.holders (Pipe.maybeFree _) = _
    rw [freed, if_pos positive]
    cases other with
    | read => rfl
    | write => exact (Int.sub_zero _).symm
  | write =>
    have positive : p.writers > 0 := held
    change other.holders (Pipe.maybeFree _) = _
    rw [freed, if_pos positive]
    cases other with
    | read => exact (Int.sub_zero _).symm
    | write => rfl

theorem maybeFree_inUse (p : Pipe) :
    p.maybeFree.inUse = true ↔ p.inUse = true ∧ ∃ e : PipeEnd, 0 < e.holders p.maybeFree := by
  unfold Pipe.maybeFree
  split
  · next idle =>
    constructor
    · nofun
    · rintro ⟨_, e, held⟩
      cases e with
      | read => exact absurd held (Int.not_lt.mpr idle.1)
      | write => exact absurd held (Int.not_lt.mpr idle.2)
  · next held =>
    refine ⟨fun used => ⟨used, ?_⟩, fun h => h.1⟩
    rcases not_and_or.mp held with read | write
    · exact ⟨.read, Int.not_le.mp read⟩
    · exact ⟨.write, Int.not_le.mp write⟩

theorem lower_inUse (e : PipeEnd) (p : Pipe) :
    (e.lower p).inUse = true ↔ p.inUse = true ∧ ∃ other : PipeEnd, 0 < other.holders (e.lower p) := by
  cases e <;> exact maybeFree_inUse _

theorem raise_holders (e other : PipeEnd) (p : Pipe) :
    other.holders (e.raise p) = other.holders p + (if other = e then 1 else 0) := by
  cases e <;> cases other <;> simp [PipeEnd.holders, PipeEnd.raise, Pipe.addReader, Pipe.addWriter]

theorem raise_inUse (e : PipeEnd) (p : Pipe) : (e.raise p).inUse = p.inUse := by
  cases e <;> rfl

/-! ## The invariant -/

structure Counted (s : System) : Prop where
  wf : WellFormed s.kernel
  counts : ∀ i, (s.pipes i).inUse = true → ∀ e : PipeEnd,
    e.holders (s.pipes i) = endCount s.threads e i
  free : ∀ i, (s.pipes i).inUse = false → ∀ e, endCount s.threads e i = 0
  held : ∀ i, (s.pipes i).inUse = true → ∃ e : PipeEnd, 0 < e.holders (s.pipes i)
  valid : ∀ tid < s.threads.threadCapacity, ∀ fd, IsEnd ((s.threads.threads tid).fds fd) →
    ∃ i : Fin pipeMax, ((s.threads.threads tid).fds fd).handle = i.val
  clear : ∀ tid < s.threads.threadCapacity, s.kernel.stateOf tid = .unused →
    ∀ fd, ¬ IsEnd ((s.threads.threads tid).fds fd)

/-- A descriptor of a pipe names a pipe in use. -/
theorem Counted.refers (counted : Counted s) {tid : Nat} {fd : Fin threadMaxFds} {e : PipeEnd}
    (inTable : tid < s.threads.threadCapacity)
    (isEnd : ((s.threads.threads tid).fds fd).kind = e.kind) :
    ∃ i, Refers ((s.threads.threads tid).fds fd) e i ∧ (s.pipes i).inUse = true := by
  obtain ⟨i, named⟩ := counted.valid tid inTable fd ⟨e, isEnd⟩
  refine ⟨i, ⟨isEnd, named⟩, ?_⟩
  cases used : (s.pipes i).inUse with
  | true => rfl
  | false =>
    have nobody := counted.free i used e
    have somebody : 0 < endCount s.threads e i := endCount_pos inTable ⟨isEnd, named⟩
    omega

theorem Counted.same (counted : Counted s) (ends : SameEnds s.threads t.threads)
    (wf : WellFormed t.kernel)
    (pipes : ∀ i, (t.pipes i).inUse = (s.pipes i).inUse ∧
      ((s.pipes i).inUse = true → ∀ e : PipeEnd, e.holders (t.pipes i) = e.holders (s.pipes i)))
    (unused : ∀ tid < s.threads.threadCapacity, t.kernel.stateOf tid = .unused →
      s.kernel.stateOf tid = .unused ∨ ∀ fd, ¬ IsEnd ((t.threads.threads tid).fds fd)) :
    Counted t := by
  constructor
  · exact wf
  · intro i used e
    rw [(pipes i).1] at used
    rw [(pipes i).2 used, ends.endCount]
    exact counted.counts i used e
  · intro i unused e
    rw [(pipes i).1] at unused
    rw [ends.endCount]
    exact counted.free i unused e
  · intro i used
    rw [(pipes i).1] at used
    obtain ⟨e, held⟩ := counted.held i used
    exact ⟨e, by rw [(pipes i).2 used]; exact held⟩
  · intro tid inTable fd isEnd
    rcases Nat.lt_or_ge tid s.threads.threadCapacity with low | high
    · rcases ends.kept tid low fd with kept | ⟨gone, _⟩
      · rw [kept] at isEnd ⊢
        exact counted.valid tid low fd isEnd
      · exact absurd isEnd gone
    · exact absurd isEnd (ends.fresh tid high inTable fd)
  · intro tid inTable free fd
    rcases Nat.lt_or_ge tid s.threads.threadCapacity with low | high
    · rcases unused tid low free with was | cleared
      · rcases ends.kept tid low fd with kept | ⟨gone, _⟩
        · rw [kept]
          exact counted.clear tid low was fd
        · exact gone
      · exact cleared fd
    · exact ends.fresh tid high inTable fd

/-- Pipes and descriptors stay, and no slot is given back. -/
theorem Counted.quiet (counted : Counted s) (quiet : Quiet s t) (wf : WellFormed t.kernel)
    (ends : SameEnds s.threads t.threads)
    (pipes : ∀ i, (t.pipes i).inUse = (s.pipes i).inUse ∧
      ((s.pipes i).inUse = true → ∀ e : PipeEnd, e.holders (t.pipes i) = e.holders (s.pipes i))) :
    Counted t :=
  counted.same ends wf pipes fun tid _ unused => Or.inl ((quiet.unused tid).mp unused)

theorem SameEnds.refl (s : ThreadTable) : SameEnds s s := sameEnds_of_fds rfl fun _ _ => rfl

theorem not_isEnd_unused {slot : FdSlot} (h : slot.kind = .unused) : ¬ IsEnd slot := by
  rintro ⟨e, isEnd⟩
  rw [h] at isEnd
  cases e <;> cases isEnd

theorem not_isEnd_initial (fd : Fin threadMaxFds) : ¬ IsEnd (initialFds fd) := by
  rintro ⟨e, isEnd⟩
  unfold initialFds at isEnd
  split at isEnd <;> cases e <;> cases isEnd

theorem setState_fds (t : ThreadTable) (tid : Nat) (state : ThreadState) (u : Nat) :
    ((setState t tid state).threads u).fds = (t.threads u).fds := by
  rw [setState]
  rcases Decidable.em (u = tid) with same | other
  · rw [same, updThread_same]
  · rw [updThread_other _ _ _ _ other]

/-! ## Parts that move no end -/

theorem sameEnds_grown {s grown : ThreadTable} (grows : Grows s grown) : SameEnds s grown := by
  refine ⟨grows.capacity, fun tid low fd => Or.inl (by rw [grows.fds low]),
    fun tid high low fd => not_isEnd_unused ?_⟩
  rw [(grows.fresh tid high low).2]
  rfl

/-- A slot that is given away held no end, and starts on the console. -/
theorem Counted.sameEnds_seat (counted : Counted s) {grown : ThreadTable}
    (grows : Grows s.threads grown) {slot : Nat} (unused : (grown.threads slot).state = .unused)
    (req : SpawnRequest) (st : GuardedStack) (kernelSpace : Word) :
    SameEnds s.threads (startSlot req st kernelSpace slot grown) := by
  have grownEnds := sameEnds_grown grows
  have started (fd : Fin threadMaxFds) :
      ¬ IsEnd (((startSlot req st kernelSpace slot grown).threads slot).fds fd) := by
    rw [startSlot_self.2]
    exact not_isEnd_initial fd
  refine ⟨grows.capacity, fun tid low fd => ?_, fun tid high low fd => ?_⟩
  · rcases Decidable.em (tid = slot) with same | other
    · rw [same] at low ⊢
      have free : s.kernel.stateOf slot = .unused := (grows.stateOf low).symm.trans unused
      exact Or.inr ⟨started fd, counted.clear slot low free fd⟩
    · rw [startSlot_other other]
      exact grownEnds.kept tid low fd
  · rcases Decidable.em (tid = slot) with same | other
    · rw [same]
      exact started fd
    · rw [startSlot_other other]
      exact grownEnds.fresh tid high low fd

theorem Counted.grown (counted : Counted s) {grown : ThreadTable} (grows : Grows s.threads grown)
    (wf : WellFormed t.kernel) (threads : t.threads = grown) (pipes : t.pipes = s.pipes) :
    Counted t := by
  subst threads
  refine counted.same (sameEnds_grown grows) wf (fun i => by rw [pipes]; exact ⟨rfl, fun _ _ => rfl⟩)
    fun tid low unused => Or.inl ?_
  exact (grows.stateOf low).symm.trans unused

theorem Counted.seated (counted : Counted s) {grown : ThreadTable}
    (grows : Grows s.threads grown) {slot : Nat} (unused : (grown.threads slot).state = .unused)
    {req : SpawnRequest} {st : GuardedStack} {kernelSpace : Word} (wf : WellFormed t.kernel)
    (threads : t.threads = startSlot req st kernelSpace slot grown) (pipes : t.pipes = s.pipes) :
    Counted t := by
  have ends := counted.sameEnds_seat grows unused req st kernelSpace
  rw [← threads] at ends
  refine counted.same ends wf (fun i => by rw [pipes]; exact ⟨rfl, fun _ _ => rfl⟩)
    fun tid low free => Or.inl ?_
  change (t.threads.threads tid).state = _ at free
  rw [threads] at free
  rcases Decidable.em (tid = slot) with same | other
  · rw [same, startSlot_self.1] at free
    cases free
  · rw [startSlot_other other] at free
    exact (grows.stateOf low).symm.trans free

theorem Counted.threadSpawned (counted : Counted s) (req : SpawnRequest)
    (block : Option (Nat → Thread)) (stack : Option GuardedStack) (owner : Occupant) :
    Counted (startThread req block stack owner s).2 := by
  have wf := wellFormed_startThread counted.wf req block stack owner
  obtain ⟨grown, grows, fails | ⟨slot, st, _, unused, starts⟩⟩ :=
    startThread_cases req block stack owner s
  · rw [fails] at wf ⊢
    exact counted.grown grows wf rfl rfl
  · rw [starts] at wf ⊢
    exact counted.seated grows unused wf rfl rfl

theorem Counted.processSpawned (counted : Counted s) (a : SpawnAnswers) :
    Counted (spawnElfRequest a s).2 := by
  have wf := wellFormed_spawn counted.wf a
  rcases spawnElfRequest_cases a s with
    same | ⟨pid, table, _, grown, grows, fails | ⟨slot, st, _, unused, spawns⟩⟩
  · rw [same]
    exact counted
  · rw [fails] at wf ⊢
    exact counted.grown grows wf rfl rfl
  · simp only at spawns
    rw [spawns] at wf ⊢
    exact counted.seated grows unused wf rfl rfl

theorem Counted.died (counted : Counted s) (status : BitVec 32)
    (wf : WellFormed (die status s).kernel) : Counted (die status s) := by
  obtain ⟨kernel, _, _, pipes, _⟩ := die_parts status s
  have moved : Reschedules (dying s.kernel) (die status s).kernel := by
    rw [kernel]
    exact dead_reschedules _ s.kernel
  have ends : SameEnds s.threads (die status s).threads := sameEnds_of_fds moved.capacity
    fun tid _ => (moved.fds tid).trans (setState_fds s.threads s.cur .zombie tid)
  refine counted.same ends wf (fun i => by rw [pipes]; exact ⟨rfl, fun _ _ => rfl⟩)
    fun tid _ unused => Or.inl ?_
  have was := (moved.unused tid).mp unused
  change ((setState s.threads s.cur .zombie).threads tid).state = _ at was
  rw [setState_state] at was
  split at was
  · cases was
  · exact was

theorem Counted.killed (counted : Counted s) (tid : Nat) (status : BitVec 32)
    (wf : WellFormed (killOther tid status s).kernel) : Counted (killOther tid status s) := by
  obtain ⟨kernel, _, _, pipes, _⟩ := killOther_parts tid status s
  have moved : Reschedules (slain tid s.kernel) (killOther tid status s).kernel := by
    rw [kernel]
    exact markExited_reschedules (slain tid s.kernel) _
  have ends : SameEnds s.threads (killOther tid status s).threads := by
    refine sameEnds_of_fds moved.capacity fun u _ => (moved.fds u).trans ?_
    change ((updThread s.threads tid _).threads u).fds = _
    rcases Decidable.em (u = tid) with same | other
    · rw [same, updThread_same]
      rfl
    · rw [updThread_other _ _ _ _ other]
  refine counted.same ends wf (fun i => by rw [pipes]; exact ⟨rfl, fun _ _ => rfl⟩)
    fun u _ unused => Or.inl ?_
  have was := (moved.unused u).mp unused
  rw [slain_stateOf] at was
  split at was
  · cases was
  · exact was

theorem Counted.fellAsleep (counted : Counted s) {a : Activity} {channel : Word}
    (wf : WellFormed (fallAsleep channel s.kernel)) :
    Counted { s.doing a with kernel := fallAsleep channel s.kernel } := by
  have slot (u : Nat) : ((fallAsleep channel s.kernel).table.threads u).fds =
      (s.threads.threads u).fds ∧ ((fallAsleep channel s.kernel).stateOf u = .unused →
        s.kernel.stateOf u = .unused) := by
    rcases Decidable.em (u = s.kernel.cur) with same | other
    · rw [same, Kernel.stateOf, fallAsleep, updThread_same]
      refine ⟨rfl, fun blocked => ?_⟩
      cases blocked
    · rw [Kernel.stateOf, fallAsleep, updThread_other _ _ _ _ other]
      exact ⟨rfl, id⟩
  exact counted.same (sameEnds_of_fds rfl fun u _ => (slot u).1) wf
    (fun i => ⟨rfl, fun _ _ => rfl⟩) fun u _ unused => Or.inl ((slot u).2 unused)

/-- The reaped slot held no end, as its descriptors are closed. -/
theorem Counted.collected (counted : Counted s) {pid : Int} {i : Fin processMax}
    (found : findProcess s.table pid = some i)
    (cleared : ∀ tid, (s.table.processes i).tid = some tid → Reapable s.threads tid →
      ∀ fd, (s.threads.threads tid).fds fd = resetFdSlot)
    (wf : WellFormed (collect pid i s).kernel) : Counted (collect pid i s) := by
  rw [collect_eq pid i s found] at wf ⊢
  have ends : SameEnds s.threads (buried i s).threads := by
    refine sameEnds_of_fds (buried_keeps s i).1 fun u _ => ?_
    rcases buried_slot s i u with same | ⟨record, reapable, reaped⟩
    · rw [same]
    · rw [reaped]
      funext fd
      exact (cleared u record reapable fd).symm
  refine counted.same (t := { buried i s with table := _, activity := _, history := _ }) ends wf
    (fun j => ?_) fun u _ unused => ?_
  · have pipes : (buried i s).pipes = s.pipes := by
      unfold buried bury
      split
      · split <;> rfl
      · rfl
    change ((buried i s).pipes j).inUse = _ ∧ _
    rw [pipes]
    exact ⟨rfl, fun _ _ => rfl⟩
  · change ((buried i s).threads.threads u).state = _ at unused
    rcases buried_slot s i u with same | ⟨_, _, reaped⟩
    · rw [same] at unused
      exact Or.inl unused
    · right
      intro fd
      change ¬ IsEnd (((buried i s).threads.threads u).fds fd)
      rw [reaped]
      exact not_isEnd_unused rfl

theorem sameEnds_wake (s : System) (channel : Word) :
    SameEnds s.threads (s.wake channel).threads :=
  sameEnds_of_fds rfl fun tid _ => wake_fds s channel tid

theorem Counted.transferred (counted : Counted s) {i : Fin pipeMax} {p : Pipe}
    (inUse : p.inUse = (s.pipes i).inUse) (readers : p.readers = (s.pipes i).readers)
    (writers : p.writers = (s.pipes i).writers) (channel : Word) :
    Counted (({ s with pipes := Function.update s.pipes i p }.doing .none).wake channel) := by
  refine counted.quiet (((quiet_pipes s _).trans (quiet_loopEnded _)).trans (quiet_wake _ _))
    (counted.wf.wakeup channel) (sameEnds_wake _ channel) fun j => ?_
  change (Function.update s.pipes i p j).inUse = _ ∧ (_ → ∀ e : PipeEnd,
    e.holders (Function.update s.pipes i p j) = _)
  rcases Decidable.em (j = i) with same | other
  · rw [same, Function.update_self]
    refine ⟨inUse, fun _ e => ?_⟩
    cases e with
    | read => exact readers
    | write => exact writers
  · rw [Function.update_of_ne other]
    exact ⟨rfl, fun _ _ => rfl⟩

/-- The slots of the running thread that change held no end and hold none. -/
theorem sameEnds_withFds (s : System) (fds : Fin threadMaxFds → FdSlot)
    (same : ∀ fd, fds fd = (s.threads.threads s.cur).fds fd ∨
      ((fds fd).kind = .unused ∧ ((s.threads.threads s.cur).fds fd).kind = .unused)) :
    SameEnds s.threads (s.withFds s.cur fds).threads := by
  refine ⟨Nat.le_refl _, fun tid _ fd => ?_, fun tid high low => absurd high (Nat.not_le.mpr low)⟩
  rcases Decidable.em (tid = s.cur) with here | other
  · rw [here, withFds_self]
    rcases same fd with kept | ⟨unused, was⟩
    · exact Or.inl kept
    · exact Or.inr ⟨not_isEnd_unused unused, not_isEnd_unused was⟩
  · change ((updThread s.threads s.cur _).threads tid).fds fd = _ ∨ _
    rw [updThread_other _ _ _ _ other]
    exact Or.inl rfl

theorem Counted.pipeFailed (counted : Counted s) {i : Fin pipeMax} {p : Pipe}
    {fds : Fin threadMaxFds → FdSlot} (free : (s.pipes i).inUse = false)
    (closed : p.inUse = false)
    (same : ∀ fd, fds fd = (s.threads.threads s.cur).fds fd ∨
      ((fds fd).kind = .unused ∧ ((s.threads.threads s.cur).fds fd).kind = .unused))
    (wf : WellFormed ({ s with pipes := Function.update s.pipes i p }.withFds s.cur fds).kernel) :
    Counted ({ s with pipes := Function.update s.pipes i p }.withFds s.cur fds) := by
  refine counted.quiet ((quiet_pipes s _).trans (quiet_withFds _ _ _)) wf
    (sameEnds_withFds s fds same) fun j => ?_
  change (Function.update s.pipes i p j).inUse = _ ∧ (_ → ∀ e : PipeEnd,
    e.holders (Function.update s.pipes i p j) = _)
  rcases Decidable.em (j = i) with here | other
  · rw [here, Function.update_self, closed, free]
    exact ⟨rfl, nofun⟩
  · rw [Function.update_of_ne other]
    exact ⟨rfl, fun _ _ => rfl⟩

theorem Counted.opened (counted : Counted s) {fd : Fin threadMaxFds} {slot : FdSlot}
    (unused : ((s.threads.threads s.cur).fds fd).kind = .unused)
    (other : slot.kind ≠ .pipeRead ∧ slot.kind ≠ .pipeWrite) :
    Counted (s.withThreads (setFd s.threads s.cur fd slot)) := by
  have plain : ¬ IsEnd slot := by
    rintro ⟨e, isEnd⟩
    cases e with
    | read => exact other.1 isEnd
    | write => exact other.2 isEnd
  refine counted.quiet (quiet_setFd s s.cur fd slot) (wellFormed_setFd counted.wf s.cur fd slot) ?_
    fun i => ⟨rfl, fun _ _ => rfl⟩
  refine ⟨Nat.le_refl _, fun tid _ f => ?_, fun tid high low => absurd high (Nat.not_le.mpr low)⟩
  change ((setFd s.threads s.cur fd slot).threads tid).fds f = _ ∨ _ ∧ _
  rcases Decidable.em (tid = s.cur) with here | elsewhere
  · rw [here, setFd_fds]
    rcases Decidable.em (f = fd) with same | apart
    · rw [same, Function.update_self]
      refine Or.inr ⟨?_, not_isEnd_unused unused⟩
      rw [withThreads_threads, setFd_fds, Function.update_self]
      exact plain
    · rw [Function.update_of_ne apart]
      exact Or.inl rfl
  · exact Or.inl (by rw [setFd, updThread_other _ _ _ _ elsewhere])

/-! ## Parts that move an end -/

/-- One descriptor slot and at most one pipe change, the counts together. -/
theorem Counted.moved (counted : Counted s) {tid : Nat} {fd : Fin threadMaxFds} {slot : FdSlot}
    (quiet : Quiet s t) (wf : WellFormed t.kernel)
    (ends : SameEnds (setFd s.threads tid fd slot) t.threads)
    (inTable : tid < s.threads.threadCapacity) (used : s.kernel.stateOf tid ≠ .unused ∨ ¬ IsEnd slot)
    (valid : IsEnd slot → ∃ i : Fin pipeMax, slot.handle = i.val)
    (counts : ∀ i, (t.pipes i).inUse = true → ∀ e : PipeEnd,
      e.holders (t.pipes i) + (if Refers ((s.threads.threads tid).fds fd) e i then 1 else 0) =
        endCount s.threads e i + (if Refers slot e i then 1 else 0))
    (free : ∀ i, (t.pipes i).inUse = false → ∀ e,
      endCount s.threads e i + (if Refers slot e i then 1 else 0) =
        (if Refers ((s.threads.threads tid).fds fd) e i then 1 else 0))
    (held : ∀ i, (t.pipes i).inUse = true → ∃ e : PipeEnd, 0 < e.holders (t.pipes i)) :
    Counted t := by
  have change_ (e : PipeEnd) (i : Fin pipeMax) := endCount_setFd s.threads inTable fd slot e i
  have slots (u : Nat) (f : Fin threadMaxFds) : ((setFd s.threads tid fd slot).threads u).fds f =
      if u = tid ∧ f = fd then slot else (s.threads.threads u).fds f := by
    rcases Decidable.em (u = tid) with same | other
    · rw [same, setFd_fds, Function.update_apply]
      simp
    · rw [setFd, updThread_other _ _ _ _ other, if_neg fun h => other h.1]
  have cap : (setFd s.threads tid fd slot).threadCapacity = s.threads.threadCapacity := rfl
  refine ⟨wf, fun i inUse e => ?_, fun i unused e => ?_, held, fun u low f isEnd => ?_,
    fun u low unused f isEnd => ?_⟩
  · have one := counts i inUse e
    have two := change_ e i
    rw [ends.endCount]
    split_ifs at one two <;> omega
  · have one := free i unused e
    have two := change_ e i
    rw [ends.endCount]
    omega
  · rw [quiet.capacity] at low
    rcases ends.kept u low f with kept | ⟨gone, _⟩
    · rw [kept, slots] at isEnd ⊢
      split at isEnd
      · next here =>
        rw [if_pos here]
        exact valid isEnd
      · next apart =>
        rw [if_neg apart]
        exact counted.valid u low f isEnd
    · exact absurd isEnd gone
  · rw [quiet.capacity] at low
    rw [quiet.unused] at unused
    rcases ends.kept u low f with kept | ⟨gone, _⟩
    · rw [kept, slots] at isEnd
      split at isEnd
      · next here =>
        rw [here.1] at unused
        rcases used with live | plain
        · exact live unused
        · exact plain isEnd
      · exact counted.clear u low unused f isEnd
    · exact gone isEnd

theorem refers_unique {slot : FdSlot} {e other : PipeEnd} {i j : Fin pipeMax}
    (h : Refers slot e i) : Refers slot other j ↔ other = e ∧ j = i := by
  constructor
  · intro h'
    refine ⟨?_, Fin.ext (by have := h.2; have := h'.2; omega)⟩
    have kinds := h'.1.symm.trans h.1
    cases other <;> cases e <;> first | rfl | cases kinds
  · rintro ⟨rfl, rfl⟩
    exact h

theorem not_refers_of_plain {slot : FdSlot} (plain : ¬ IsEnd slot) (e : PipeEnd) (i : Fin pipeMax) :
    ¬ Refers slot e i := fun h => plain (refers_isEnd h)

theorem setFd_wake_sameEnds (s : System) (tid : Nat) (fd : Fin threadMaxFds) (slot : FdSlot)
    (channel : Word) :
    SameEnds (setFd s.threads tid fd slot) (setFd (s.wake channel).threads tid fd slot) := by
  refine sameEnds_of_fds rfl fun u _ => ?_
  rcases Decidable.em (u = tid) with same | other
  · rw [same, setFd_fds, setFd_fds, wake_fds]
  · rw [setFd, setFd, updThread_other _ _ _ _ other, updThread_other _ _ _ _ other, wake_fds]

theorem Counted.closed (counted : Counted s) (tid : Nat) (fd : Fin threadMaxFds)
    (inTable : tid < s.threads.threadCapacity) : Counted (closeFdOf tid fd s) := by
  have quiet := quiet_closed tid fd s
  have wf : WellFormed (closeFdOf tid fd s).kernel := wellFormed_setFd
    (wellFormed_release counted.wf ((s.threads.threads tid).fds fd)) tid fd resetFdSlot
  have plain : ¬ IsEnd resetFdSlot := not_isEnd_unused rfl
  have gone (e : PipeEnd) (i : Fin pipeMax) : ¬ Refers resetFdSlot e i :=
    not_refers_of_plain plain e i
  rcases releaseSlot_cases ((s.threads.threads tid).fds fd) s with
    ⟨i, lower, inUse, named, isEnd, releases⟩ | ⟨noPipe, nothing⟩
  · obtain ⟨e, kind, rfl⟩ : ∃ e : PipeEnd,
        ((s.threads.threads tid).fds fd).kind = e.kind ∧ lower = e.lower := by
      rcases isEnd with ⟨kind, lower⟩ | ⟨kind, lower⟩
      · exact ⟨.read, kind, lower⟩
      · exact ⟨.write, kind, lower⟩
    have refers : Refers ((s.threads.threads tid).fds fd) e i := ⟨kind, named⟩
    have positive : 0 < e.holders (s.pipes i) := by
      have := counted.counts i inUse e
      have := endCount_pos inTable refers
      omega
    have lowered := fun other => lower_holders e other (s.pipes i) positive
    have pipes : (closeFdOf tid fd s).pipes =
        Function.update s.pipes i (e.lower (s.pipes i)) := by
      simp only [closeFdOf, releases]
      rfl
    have ends : SameEnds (setFd s.threads tid fd resetFdSlot) (closeFdOf tid fd s).threads := by
      simp only [closeFdOf, releases]
      exact setFd_wake_sameEnds { s with pipes := _ } tid fd resetFdSlot _
    refine counted.moved quiet wf ends inTable (Or.inr plain) (fun isEnd => absurd isEnd plain)
      (fun j used other => ?_) (fun j unused other => ?_) fun j used => ?_
    · rw [if_neg (gone other j)]
      rw [pipes] at used ⊢
      rcases Decidable.em (j = i) with here | apart
      · rw [here] at used ⊢
        rw [Function.update_self, lowered, counted.counts i inUse]
        simp only [refers_unique refers, and_true]
        split_ifs <;> omega
      · rw [Function.update_of_ne apart] at used ⊢
        rw [counted.counts j used, if_neg fun h => apart ((refers_unique refers).mp h).2]
    · rw [if_neg (gone other j)]
      rw [pipes] at unused
      rcases Decidable.em (j = i) with here | apart
      · rw [here] at unused ⊢
        rw [Function.update_self] at unused
        have empty : ¬ 0 < other.holders (e.lower (s.pipes i)) := by
          intro held
          have inUse' := (lower_inUse e (s.pipes i)).mpr ⟨inUse, other, held⟩
          rw [unused] at inUse'
          cases inUse'
        have count := counted.counts i inUse other
        rw [lowered, count] at empty
        simp only [refers_unique refers, and_true]
        split_ifs at empty ⊢ with same
        · have := endCount_pos inTable (same ▸ refers)
          omega
        · omega
      · rw [Function.update_of_ne apart] at unused
        rw [counted.free j unused, if_neg fun h => apart ((refers_unique refers).mp h).2]
    · rw [pipes] at used ⊢
      rcases Decidable.em (j = i) with here | apart
      · rw [here, Function.update_self] at used ⊢
        exact ((lower_inUse e (s.pipes i)).mp used).2
      · rw [Function.update_of_ne apart] at used ⊢
        exact counted.held j used
  · have notEnd : ¬ IsEnd ((s.threads.threads tid).fds fd) := by
      rintro ⟨e, kind⟩
      obtain ⟨i, refers, inUse⟩ := counted.refers inTable kind
      have free := noPipe (by cases e <;> simp [kind, PipeEnd.kind]) i refers.2
      rw [inUse] at free
      cases free
    have same : closeFdOf tid fd s = s.withThreads (setFd s.threads tid fd resetFdSlot) := by
      simp only [closeFdOf, nothing]
    rw [same] at quiet wf ⊢
    refine counted.moved quiet wf (.refl _) inTable (Or.inr plain)
      (fun isEnd => absurd isEnd plain) (fun j used other => ?_) (fun j unused other => ?_)
      counted.held
    · rw [if_neg (gone other j), if_neg (not_refers_of_plain notEnd other j)]
      change other.holders (s.pipes j) + _ = _
      simpa using counted.counts j used other
    · rw [if_neg (gone other j), if_neg (not_refers_of_plain notEnd other j)]
      simpa using counted.free j unused other

theorem Counted.redirected (counted : Counted s) {kind : FdKind} {raise : Pipe → Pipe} {tid : Nat}
    {fd target : Fin threadMaxFds}
    (ends : kind = .pipeRead ∧ raise = Pipe.addReader ∨ kind = .pipeWrite ∧ raise = Pipe.addWriter)
    (source : ((s.threads.threads s.cur).fds fd).kind = kind)
    (inTable : tid < s.threads.threadCapacity) (used : s.kernel.stateOf tid ≠ .unused)
    (console : ((s.threads.threads tid).fds target).kind = .console) :
    Counted ({ s with
        pipes := (addEnd raise s.pipes ((s.threads.threads s.cur).fds fd).handle).2 }.withThreads
      (setFd s.threads tid target ⟨kind, ((s.threads.threads s.cur).fds fd).handle, 0⟩)) := by
  obtain ⟨e, rfl, rfl⟩ : ∃ e : PipeEnd, kind = e.kind ∧ raise = e.raise := by
    rcases ends with ⟨kind, raise⟩ | ⟨kind, raise⟩
    · exact ⟨.read, kind, raise⟩
    · exact ⟨.write, kind, raise⟩
  obtain ⟨i, ⟨_, named⟩, inUse⟩ : ∃ i, Refers ((s.threads.threads s.cur).fds fd) e i ∧
      (s.pipes i).inUse = true := counted.refers counted.wf.current source
  have added : (addEnd e.raise s.pipes ((s.threads.threads s.cur).fds fd).handle).2 =
      Function.update s.pipes i (e.raise (s.pipes i)) := by
    simp only [addEnd, pipeIndex_some.mpr named, inUse, if_true]
  have notEnd : ¬ IsEnd ((s.threads.threads tid).fds target) := by
    rintro ⟨other, isEnd⟩
    rw [console] at isEnd
    cases other <;> cases isEnd
  have refers : Refers ⟨e.kind, ((s.threads.threads s.cur).fds fd).handle, 0⟩ e i := ⟨rfl, named⟩
  rw [added]
  refine counted.moved ((quiet_pipes s _).trans (quiet_setFd _ tid target _))
    (wellFormed_setFd (s := { s with pipes := _ }) counted.wf tid target _) (.refl _) inTable
    (Or.inl used) (fun _ => ⟨i, named⟩) (fun j inUse' other => ?_) (fun j unused other => ?_)
    fun j inUse' => ?_
  · change other.holders (Function.update s.pipes i (e.raise (s.pipes i)) j) + _ = _
    change (Function.update s.pipes i (e.raise (s.pipes i)) j).inUse = true at inUse'
    rw [if_neg (not_refers_of_plain notEnd other j)]
    rcases Decidable.em (j = i) with here | apart
    · rw [here, Function.update_self, raise_holders, counted.counts i inUse]
      simp only [refers_unique refers, and_true]
      split_ifs <;> omega
    · rw [Function.update_of_ne apart] at inUse' ⊢
      rw [counted.counts j inUse', if_neg fun h => apart ((refers_unique refers).mp h).2]
  · change (Function.update s.pipes i (e.raise (s.pipes i)) j).inUse = false at unused
    rw [if_neg (not_refers_of_plain notEnd other j)]
    rcases Decidable.em (j = i) with here | apart
    · rw [here, Function.update_self, raise_inUse, inUse] at unused
      cases unused
    · rw [Function.update_of_ne apart] at unused
      rw [counted.free j unused, if_neg fun h => apart ((refers_unique refers).mp h).2]
  · change ∃ other : PipeEnd, 0 < other.holders (Function.update s.pipes i _ j)
    change (Function.update s.pipes i (e.raise (s.pipes i)) j).inUse = true at inUse'
    rcases Decidable.em (j = i) with here | apart
    · obtain ⟨other, held⟩ := counted.held i inUse
      refine ⟨other, ?_⟩
      rw [here, Function.update_self, raise_holders]
      split <;> omega
    · rw [Function.update_of_ne apart] at inUse' ⊢
      exact counted.held j inUse'

theorem Counted.piped (counted : Counted s) {i : Fin pipeMax} {r w : Fin threadMaxFds}
    (free : (s.pipes i).inUse = false)
    (unusedRead : ((s.threads.threads s.cur).fds r).kind = .unused)
    (unusedWrite : ((s.threads.threads s.cur).fds w).kind = .unused) (distinct : w ≠ r)
    (wf : WellFormed ({ s with pipes := Function.update s.pipes i (s.pipes i).opened }.withThreads
      (setFd (setFd s.threads s.cur r ⟨.pipeRead, i.val, 0⟩) s.cur w
        ⟨.pipeWrite, i.val, 0⟩)).kernel) :
    Counted ({ s with pipes := Function.update s.pipes i (s.pipes i).opened }.withThreads
      (setFd (setFd s.threads s.cur r ⟨.pipeRead, i.val, 0⟩) s.cur w ⟨.pipeWrite, i.val, 0⟩)) := by
  let reading := setFd s.threads s.cur r ⟨.pipeRead, i.val, 0⟩
  let both := setFd reading s.cur w ⟨.pipeWrite, i.val, 0⟩
  have quiet := (quiet_pipes s (Function.update s.pipes i (s.pipes i).opened)).trans
    (quiet_setFd _ s.cur r ⟨.pipeRead, i.val, 0⟩)
  have quiet := quiet.trans (quiet_setFd _ s.cur w ⟨.pipeWrite, i.val, 0⟩)
  have readRefers : Refers ⟨.pipeRead, i.val, 0⟩ .read i := ⟨rfl, rfl⟩
  have writeRefers : Refers ⟨.pipeWrite, i.val, 0⟩ .write i := ⟨rfl, rfl⟩
  have fds : (both.threads s.cur).fds = Function.update
      (Function.update (s.threads.threads s.cur).fds r ⟨.pipeRead, i.val, 0⟩) w
      ⟨.pipeWrite, i.val, 0⟩ := by
    rw [setFd_fds, setFd_fds]
  have others (u : Nat) (other : u ≠ s.cur) : both.threads u = s.threads.threads u := by
    simp only [both, reading, setFd, updThread_other _ _ _ _ other]
  have low : s.cur < s.threads.threadCapacity := counted.wf.current
  have total (e : PipeEnd) (j : Fin pipeMax) :
      endCount both e j = endCount s.threads e j + if j = i then 1 else 0 := by
    have one := endCount_setFd s.threads low r ⟨.pipeRead, i.val, 0⟩ e j
    have two := endCount_setFd reading low w ⟨.pipeWrite, i.val, 0⟩ e j
    have unread := not_refers_of_plain (not_isEnd_unused unusedRead) e j
    have unwritten : ¬ Refers ((reading.threads s.cur).fds w) e j := by
      rw [setFd_fds, Function.update_of_ne distinct]
      exact not_refers_of_plain (not_isEnd_unused unusedWrite) e j
    rw [if_neg unread] at one
    rw [if_neg unwritten] at two
    simp only [refers_unique readRefers] at one
    simp only [refers_unique writeRefers] at two
    change endCount both e j + 0 = endCount reading e j + _ at two
    change endCount reading e j + 0 = _ at one
    cases e <;> simp at one two <;> omega
  refine ⟨wf, fun j used e => ?_, fun j unused e => ?_, fun j used => ?_,
    fun u low fd isEnd => ?_, fun u low unused fd isEnd => ?_⟩
  · change e.holders (Function.update s.pipes i (s.pipes i).opened j) = endCount both e j
    change (Function.update s.pipes i (s.pipes i).opened j).inUse = true at used
    rw [total]
    rcases Decidable.em (j = i) with here | apart
    · rw [here, Function.update_self, counted.free i free]
      cases e <;> simp [PipeEnd.holders, Pipe.opened]
    · rw [Function.update_of_ne apart] at used ⊢
      rw [if_neg apart]
      exact counted.counts j used e
  · change endCount both e j = 0
    change (Function.update s.pipes i (s.pipes i).opened j).inUse = false at unused
    rw [total]
    rcases Decidable.em (j = i) with here | apart
    · rw [here, Function.update_self] at unused
      cases unused
    · rw [Function.update_of_ne apart] at unused
      rw [if_neg apart]
      exact counted.free j unused e
  · change ∃ e : PipeEnd, 0 < e.holders (Function.update s.pipes i (s.pipes i).opened j)
    change (Function.update s.pipes i (s.pipes i).opened j).inUse = true at used
    rcases Decidable.em (j = i) with here | apart
    · rw [here, Function.update_self]
      exact ⟨.read, Int.one_pos⟩
    · rw [Function.update_of_ne apart] at used ⊢
      exact counted.held j used
  · change IsEnd ((both.threads u).fds fd) at isEnd
    change ∃ j : Fin pipeMax, ((both.threads u).fds fd).handle = j.val
    rcases Decidable.em (u = s.cur) with here | other
    · rw [here, fds] at isEnd ⊢
      rcases Decidable.em (fd = w) with atWrite | notWrite
      · exact ⟨i, by rw [atWrite, Function.update_self]⟩
      · rw [Function.update_of_ne notWrite] at isEnd ⊢
        rcases Decidable.em (fd = r) with atRead | notRead
        · exact ⟨i, by rw [atRead, Function.update_self]⟩
        · rw [Function.update_of_ne notRead] at isEnd ⊢
          exact counted.valid s.cur counted.wf.current fd isEnd
    · rw [others u other] at isEnd ⊢
      exact counted.valid u low fd isEnd
  · have was : s.kernel.stateOf u = .unused := (quiet.unused u).mp unused
    change IsEnd ((both.threads u).fds fd) at isEnd
    have other : u ≠ s.cur := by
      rintro rfl
      exact counted.wf.inUse was
    rw [others u other] at isEnd
    exact counted.clear u low was fd isEnd

/-! ## Steps and runs -/

theorem Counted.part (counted : Counted s) (part : Part ok s t) : Counted t := by
  have wf := part.wellFormed counted.wf
  cases part with
  | scheduled moved =>
    exact counted.quiet (quiet_scheduled moved) wf
      (sameEnds_of_fds moved.capacity fun u _ => moved.fds u) fun _ => ⟨rfl, fun _ _ => rfl⟩
  | fellAsleep => exact counted.fellAsleep wf
  | loopEnded =>
    exact counted.quiet (quiet_loopEnded s) wf (.refl _) fun _ => ⟨rfl, fun _ _ => rfl⟩
  | transferred inUse readers writers => exact counted.transferred inUse readers writers _
  | died => exact counted.died _ wf
  | killed => exact counted.killed _ _ wf
  | threadSpawned => exact counted.threadSpawned _ _ _ _
  | processSpawned => exact counted.processSpawned _
  | closed inTable => exact counted.closed _ _ inTable
  | collected _ found _ _ cleared => exact counted.collected found cleared wf
  | refused =>
    exact counted.same (.refl _) wf (fun _ => ⟨rfl, fun _ _ => rfl⟩) fun _ _ unused => Or.inl unused
  | redirected ends source inTable _ used console =>
    exact counted.redirected ends source inTable used console
  | piped free unusedRead unusedWrite distinct =>
    exact counted.piped free unusedRead unusedWrite distinct wf
  | pipeFailed free closed same => exact counted.pipeFailed free closed same wf
  | opened unused other => exact counted.opened unused other
  | started =>
    exact counted.same (.refl _) wf (fun _ => ⟨rfl, fun _ _ => rfl⟩) fun _ _ unused => Or.inl unused

theorem counted_step (s : System) (e : SysEvent) (t : System) (counted : Counted s) (_ : True)
    (h : s.step e = some t) : Counted t :=
  parts_invariant (fun _ _ => True) (fun _ _ counted part => counted.part part) counted
    (step_parts counted.wf h fun _ _ => trivial)

theorem boot_counted (block : Nat → Thread) (stack : GuardedStack)
    (kernelSpace pipesAddress : Word) :
    Counted (System.boot block stack kernelSpace pipesAddress) := by
  let booted := System.boot block stack kernelSpace pipesAddress
  have plain (u : Nat) (low : u < booted.threads.threadCapacity) (fd : Fin threadMaxFds) :
      ¬ IsEnd ((booted.threads.threads u).fds fd) := by
    rcases Decidable.em (u = 0) with first | other
    · have fds : (booted.threads.threads u).fds = initialFds := by
        rw [first]
        rfl
      rw [fds]
      exact not_isEnd_initial fd
    · have kept : (booted.threads.threads u).fds =
          ((installTable block 4 ⟨block, 0, 0, 0, kernelSpace⟩).threads u).fds :=
        congrArg Thread.fds (Function.update_of_ne other ..)
      have fresh : ((installTable block 4 ⟨block, 0, 0, 0, kernelSpace⟩).threads u).fds =
          fun _ => resetFdSlot := by
        simp only [installTable]
        rw [if_neg (Nat.not_lt_zero u), if_pos (show u < 4 from low)]
        rfl
      rw [kept, fresh]
      exact not_isEnd_unused rfl
  have closed (i : Fin pipeMax) : (booted.pipes i).inUse ≠ true := Bool.false_ne_true
  refine ⟨boot_wellFormed block stack kernelSpace, fun i used => absurd used (closed i),
    fun i _ e => ?_, fun i used => absurd used (closed i),
    fun u low fd isEnd => absurd isEnd (plain u low fd), fun u low _ => plain u low⟩
  rcases Nat.eq_zero_or_pos (endCount booted.threads e i) with none | some
  · exact none
  · obtain ⟨u, low, fd, refers⟩ := endCount_exists some
    exact absurd (refers_isEnd refers) (plain u low fd)

/-- What the counts of the pipes say of the descriptors. -/
structure PipesCounted (s : System) : Prop where
  readers : ∀ i, (s.pipes i).inUse = true → (s.pipes i).readers = endCount s.threads .read i
  writers : ∀ i, (s.pipes i).inUse = true → (s.pipes i).writers = endCount s.threads .write i
  inUse : ∀ i, (s.pipes i).inUse = true ↔
    ∃ tid < s.threads.threadCapacity, ∃ fd e, Refers ((s.threads.threads tid).fds fd) e i
  created : ∀ i : Fin pipeMax, (pipeCreate s.pipes).1 = i.val →
    ∀ tid < s.threads.threadCapacity, ∀ fd e, ¬ Refers ((s.threads.threads tid).fds fd) e i

theorem Counted.used_iff (counted : Counted s) (i : Fin pipeMax) :
    (s.pipes i).inUse = true ↔
      ∃ tid < s.threads.threadCapacity, ∃ fd e, Refers ((s.threads.threads tid).fds fd) e i := by
  constructor
  · intro used
    obtain ⟨e, held⟩ := counted.held i used
    have count := counted.counts i used e
    obtain ⟨tid, low, fd, refers⟩ := endCount_exists (t := s.threads) (e := e) (i := i) (by omega)
    exact ⟨tid, low, fd, e, refers⟩
  · rintro ⟨tid, low, fd, e, refers⟩
    obtain ⟨j, refers', used⟩ := counted.refers low refers.1
    rw [((refers_unique refers').mp refers).2]
    exact used

theorem Counted.pipesCounted (counted : Counted s) : PipesCounted s where
  readers := fun i used => counted.counts i used .read
  writers := fun i used => counted.counts i used .write
  inUse := counted.used_iff
  created := fun i created tid low fd e refers => by
    have used := (counted.used_iff i).mpr ⟨tid, low, fd, e, refers⟩
    rcases pipeCreate_cases s.pipes with ⟨j, free, opens⟩ | ⟨_, full⟩
    · rw [opens] at created
      have same : j = i := Fin.ext (by omega)
      rw [same, used] at free
      cases free
    · rw [full] at created
      have positive : (0 : Int) ≤ i.val := Int.natCast_nonneg _
      omega

/-- In every state of every run the counts are the numbers of the descriptors. -/
theorem pipes_counted (block : Nat → Thread) (stack : GuardedStack)
    (kernelSpace pipesAddress : Word) (es : List SysEvent) (s : System)
    (ran : Lib.Machine.run System.step (System.boot block stack kernelSpace pipesAddress) es =
      some s) : PipesCounted s :=
  (Lib.Machine.run_invariant counted_step (boot_counted block stack kernelSpace pipesAddress)
    (Lib.Machine.meets_always _ es) ran).pipesCounted

/-- A pipe whose reader is a child that was killed and not yet reaped. -/
theorem pipes_counted_zombie :
    ∃ s, Lib.Machine.run System.step firstSystem
      [.pipe, .spawnRedirect goodAnswers 2 (-1), .close 2, .kill 1 9] = some s ∧
      PipesCounted s := by
  have runs : (Lib.Machine.run System.step firstSystem
      [.pipe, .spawnRedirect goodAnswers 2 (-1), .close 2, .kill 1 9]).isSome := by
    decide +kernel
  obtain ⟨s, ran⟩ := Option.isSome_iff_exists.mp runs
  exact ⟨s, ran, pipes_counted _ _ _ _ _ s ran⟩

end MiniKernel.Proc
