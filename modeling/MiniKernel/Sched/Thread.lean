import MiniKernel.Memory.Paging

/-!
# The thread table and its scheduler operations

Source: kernel/sched/thread.c, kernel/include/kernel/thread.h. The operations
here are the sections thread.c runs with interrupts off, as functions on the
table; `Sched.Machine` says when they run. `sched_init` has been executed, so
`current_thread` is a slot number. Tables outgrow `threads` only through
`grow_thread_table`, whose new block holds whatever the heap left in it.
-/
namespace MiniKernel.Sched
open Memory.Paging (Word)

inductive ThreadState where
  | unused | ready | running | blocked | zombie
  deriving DecidableEq, Repr

inductive ThreadPriority where
  | low | normal | high
  deriving DecidableEq, Repr

def quantumTicks : ThreadPriority → Int
  | .low => 2
  | .normal => 4
  | .high => 8

inductive FdKind where
  | unused | console | memfs | ufs | pipeRead | pipeWrite
  deriving DecidableEq, Repr

structure FdSlot where
  kind : FdKind
  handle : Int
  cursor : Nat
  deriving DecidableEq, Repr

def threadMaxFds : Nat := 8

structure Thread where
  rsp : Word
  state : ThreadState
  stackLow : Word
  guardPage : Word
  priority : ThreadPriority
  ticksRemaining : Int
  addressSpace : Word
  waitChannel : Word
  context : Word
  fds : Fin threadMaxFds → FdSlot
  uid : BitVec 32

/-- The statics of thread.c, and what `activate` loads: the stack of the TSS
and CR3. -/
structure ThreadTable where
  threads : Nat → Thread
  threadCapacity : Nat
  currentThread : Nat
  rsp0 : Word
  cr3 : Word

def initialThreadCapacity : Nat := 4
def threadStackSize : Word := 2 * 4096

def resetFdSlot : FdSlot := { kind := .unused, handle := -1, cursor := 0 }
def consoleFdSlot : FdSlot := { kind := .console, handle := 0, cursor := 0 }

/-- `init_thread_slot`; the uid field is not written. -/
def initThreadSlot (t : Thread) : Thread :=
  { t with
    state := .unused
    stackLow := 0
    guardPage := 0
    rsp := 0
    priority := .normal
    ticksRemaining := quantumTicks .normal
    addressSpace := 0
    waitChannel := 0
    context := 0
    fds := fun _ => resetFdSlot }

/-- `copy_thread_slot`, field by field as the source lists them. -/
def copyThreadSlot (dst src : Thread) : Thread :=
  { dst with
    rsp := src.rsp
    state := src.state
    stackLow := src.stackLow
    guardPage := src.guardPage
    priority := src.priority
    ticksRemaining := src.ticksRemaining
    addressSpace := src.addressSpace
    waitChannel := src.waitChannel
    context := src.context
    fds := fun i =>
      { kind := (src.fds i).kind, handle := (src.fds i).handle, cursor := (src.fds i).cursor } }

def grownCapacity (capacity : Nat) : Nat :=
  if capacity = 0 then initialThreadCapacity else capacity * 2

/-- The section of `grow_thread_table` under `irq_save`: `block` is what the
heap block holds, `newCapacity` what was computed before. -/
def installTable (block : Nat → Thread) (newCapacity : Nat) (s : ThreadTable) : ThreadTable :=
  { s with
    threads := fun i =>
      if i < s.threadCapacity then copyThreadSlot (block i) (s.threads i)
      else if i < newCapacity then initThreadSlot (block i)
      else block i
    threadCapacity := newCapacity }

/-- `grow_thread_table`; `block` is `kmalloc`'s answer. -/
def growThreadTable (block : Option (Nat → Thread)) (s : ThreadTable) : Option ThreadTable :=
  block.map fun b => installTable b (grownCapacity s.threadCapacity) s

def updThread (s : ThreadTable) (tid : Nat) (t : Thread) : ThreadTable :=
  { s with threads := Function.update s.threads tid t }

/-- What `reap_zombie` leaves in the slot; the uid field is not written. -/
def reapedSlot (t : Thread) : Thread :=
  { t with
    state := .unused
    stackLow := 0
    guardPage := 0
    rsp := 0
    addressSpace := 0
    waitChannel := 0
    context := 0
    fds := fun _ => resetFdSlot }

/-- `reap_zombie`'s guard. -/
def Reapable (s : ThreadTable) (tid : Nat) : Prop :=
  tid < s.threadCapacity ∧ tid ≠ s.currentThread ∧ (s.threads tid).state = .zombie

instance (s : ThreadTable) (tid : Nat) : Decidable (Reapable s tid) :=
  inferInstanceAs (Decidable (_ ∧ _ ∧ _))

/-- `reap_zombie`, as far as the table goes. -/
def reapZombie (s : ThreadTable) (tid : Nat) : ThreadTable :=
  if Reapable s tid then updThread s tid (reapedSlot (s.threads tid)) else s

def Runnable (t : Thread) : Prop := t.state = .ready ∨ t.state = .running

instance (t : Thread) : Decidable (Runnable t) := inferInstanceAs (Decidable (_ ∨ _))

/-- The loop of `find_next_runnable` with `n` of its turns left. -/
def findNextRunnableLoop (s : ThreadTable) : Nat → Nat → Nat
  | 0, next => next
  | n + 1, next =>
    let next := (next + 1) % s.threadCapacity
    if Runnable (s.threads next) then next else findNextRunnableLoop s n next

def findNextRunnable (s : ThreadTable) (fromTid : Nat) : Nat :=
  findNextRunnableLoop s s.threadCapacity fromTid

def activate (s : ThreadTable) (tid : Nat) : ThreadTable :=
  { s with
    rsp0 := (s.threads tid).stackLow + threadStackSize
    cr3 := (s.threads tid).addressSpace }

/-- `threads[next].state = THREAD_RUNNING; current_thread = next; activate(next)`. -/
def dispatch (s : ThreadTable) (next : Nat) : ThreadTable :=
  let s := updThread s next { s.threads next with state := .running }
  activate { s with currentThread := next } next

/-- The same with a fresh quantum, as `sched_yield` and `sched_sleep` do it. -/
def dispatchFresh (s : ThreadTable) (next : Nat) : ThreadTable :=
  let t := s.threads next
  let s := updThread s next
    { t with state := .running, ticksRemaining := quantumTicks t.priority }
  activate { s with currentThread := next } next

def setState (s : ThreadTable) (tid : Nat) (state : ThreadState) : ThreadTable :=
  updThread s tid { s.threads tid with state := state }

/-- `sched_wakeup`. -/
def schedWakeup (s : ThreadTable) (channel : Word) : ThreadTable :=
  { s with
    threads := fun i =>
      let t := s.threads i
      if i < s.threadCapacity ∧ t.state = .blocked ∧ t.waitChannel = channel then
        { t with state := .ready, waitChannel := 0 }
      else t }

/-- `(const void *)(unsigned long long)tid`. -/
def tidChannel (tid : Nat) : Word := BitVec.ofNat 64 tid

/-- `process_mark_exited`'s wakeup, on the pid of the process that owned the
thread; a kernel thread has none. -/
def markExited (s : ThreadTable) : Option Word → ThreadTable
  | some pid => schedWakeup s pid
  | none => s

/-- `sched_set_address_space`. -/
def schedSetAddressSpace (s : ThreadTable) (tid : Nat) (space : Word) : ThreadTable :=
  if tid < s.threadCapacity then
    let s := updThread s tid { s.threads tid with addressSpace := space }
    if tid = s.currentThread then { s with cr3 := space } else s
  else s

/-- `sched_set_uid`. -/
def schedSetUid (s : ThreadTable) (tid : Nat) (uid : BitVec 32) : Int × ThreadTable :=
  if tid < s.threadCapacity then (0, updThread s tid { s.threads tid with uid := uid })
  else (-1, s)

/-! ## Reading the table after an operation -/

@[simp] theorem updThread_same (s : ThreadTable) (tid : Nat) (t : Thread) :
    (updThread s tid t).threads tid = t := Function.update_self ..

@[simp] theorem updThread_other (s : ThreadTable) (tid i : Nat) (t : Thread) (h : i ≠ tid) :
    (updThread s tid t).threads i = s.threads i := Function.update_of_ne h ..

@[simp] theorem updThread_capacity (s : ThreadTable) (tid : Nat) (t : Thread) :
    (updThread s tid t).threadCapacity = s.threadCapacity := rfl

@[simp] theorem updThread_current (s : ThreadTable) (tid : Nat) (t : Thread) :
    (updThread s tid t).currentThread = s.currentThread := rfl

@[simp] theorem installTable_capacity (block : Nat → Thread) (newCapacity : Nat)
    (s : ThreadTable) : (installTable block newCapacity s).threadCapacity = newCapacity := rfl

@[simp] theorem installTable_current (block : Nat → Thread) (newCapacity : Nat)
    (s : ThreadTable) : (installTable block newCapacity s).currentThread = s.currentThread := rfl

@[simp] theorem schedWakeup_capacity (s : ThreadTable) (channel : Word) :
    (schedWakeup s channel).threadCapacity = s.threadCapacity := rfl

@[simp] theorem schedWakeup_current (s : ThreadTable) (channel : Word) :
    (schedWakeup s channel).currentThread = s.currentThread := rfl

@[simp] theorem markExited_capacity (s : ThreadTable) (pid : Option Word) :
    (markExited s pid).threadCapacity = s.threadCapacity := by cases pid <;> rfl

@[simp] theorem markExited_current (s : ThreadTable) (pid : Option Word) :
    (markExited s pid).currentThread = s.currentThread := by cases pid <;> rfl

@[simp] theorem dispatch_capacity (s : ThreadTable) (next : Nat) :
    (dispatch s next).threadCapacity = s.threadCapacity := rfl

@[simp] theorem dispatch_current (s : ThreadTable) (next : Nat) :
    (dispatch s next).currentThread = next := rfl

@[simp] theorem dispatchFresh_capacity (s : ThreadTable) (next : Nat) :
    (dispatchFresh s next).threadCapacity = s.threadCapacity := rfl

@[simp] theorem dispatchFresh_current (s : ThreadTable) (next : Nat) :
    (dispatchFresh s next).currentThread = next := rfl

/-- A wakeup makes blocked threads ready and changes no other state. -/
theorem schedWakeup_state (s : ThreadTable) (channel : Word) (i : Nat) :
    ((schedWakeup s channel).threads i).state = (s.threads i).state ∨
      ((s.threads i).state = .blocked ∧
        ((schedWakeup s channel).threads i).state = .ready) := by
  simp only [schedWakeup]
  split
  · next woken => exact Or.inr ⟨woken.2.1, rfl⟩
  · exact Or.inl rfl

theorem markExited_state (s : ThreadTable) (pid : Option Word) (i : Nat) :
    ((markExited s pid).threads i).state = (s.threads i).state ∨
      ((s.threads i).state = .blocked ∧ ((markExited s pid).threads i).state = .ready) := by
  cases pid with
  | none => exact Or.inl rfl
  | some pid => exact schedWakeup_state s pid i

theorem dispatch_state (s : ThreadTable) (next i : Nat) :
    ((dispatch s next).threads i).state = if i = next then .running else (s.threads i).state := by
  change ((updThread s next _).threads i).state = _
  split
  · next same => rw [same, updThread_same]
  · next other => rw [updThread_other _ _ _ _ other]

theorem dispatchFresh_state (s : ThreadTable) (next i : Nat) :
    ((dispatchFresh s next).threads i).state =
      if i = next then .running else (s.threads i).state := by
  change ((updThread s next _).threads i).state = _
  split
  · next same => rw [same, updThread_same]
  · next other => rw [updThread_other _ _ _ _ other]

theorem setState_state (s : ThreadTable) (tid i : Nat) (state : ThreadState) :
    ((setState s tid state).threads i).state =
      if i = tid then state else (s.threads i).state := by
  unfold setState
  split
  · next same => rw [same, updThread_same]
  · next other => rw [updThread_other _ _ _ _ other]

/-! ## `find_next_runnable` -/

/-- The answer is the `k`-th slot after the start: the slots before it are not
runnable, and it is, unless the turns ran out. -/
theorem findNextRunnableLoop_spec (s : ThreadTable) (n start : Nat) (hn : 0 < n) :
    ∃ k, 0 < k ∧ k ≤ n ∧ findNextRunnableLoop s n start = (start + k) % s.threadCapacity ∧
      (∀ j < k, 0 < j → ¬ Runnable (s.threads ((start + j) % s.threadCapacity))) ∧
      (k < n → Runnable (s.threads ((start + k) % s.threadCapacity))) := by
  induction n generalizing start with
  | zero => omega
  | succ n ih =>
    by_cases first : Runnable (s.threads ((start + 1) % s.threadCapacity))
    · exact ⟨1, by omega, by omega, if_pos first, fun j hj hpos => by omega, fun _ => first⟩
    have next : findNextRunnableLoop s (n + 1) start =
        findNextRunnableLoop s n ((start + 1) % s.threadCapacity) := if_neg first
    have shift (j : Nat) : ((start + 1) % s.threadCapacity + j) % s.threadCapacity =
        (start + (j + 1)) % s.threadCapacity := by
      rw [Nat.mod_add_mod, Nat.add_assoc, Nat.add_comm 1 j]
    cases n with
    | zero => exact ⟨1, by omega, by omega, next, fun j hj hpos => by omega, fun h => by omega⟩
    | succ n =>
      obtain ⟨k, kpos, hk, hat, skipped, found⟩ :=
        ih ((start + 1) % s.threadCapacity) (Nat.succ_pos n)
      rw [shift] at hat found
      refine ⟨k + 1, by omega, by omega, next.trans hat, ?_, fun h => found (by omega)⟩
      intro j hj hpos
      cases j with
      | zero => omega
      | succ j =>
        cases j with
        | zero => exact first
        | succ j =>
          have before := skipped (j + 1) (by omega) (Nat.succ_pos j)
          rwa [shift] at before

/-- Every slot of the table is one of the `capacity` slots after `start`. -/
theorem exists_turn (capacity start i : Nat) (hstart : start < capacity) (hi : i < capacity) :
    ∃ j, 0 < j ∧ j ≤ capacity ∧ (start + j) % capacity = i := by
  cases Nat.lt_or_ge start i with
  | inl after =>
    refine ⟨i - start, by omega, by omega, ?_⟩
    rw [Nat.add_sub_cancel' (Nat.le_of_lt after), Nat.mod_eq_of_lt hi]
  | inr upto =>
    refine ⟨capacity - start + i, by omega, by omega, ?_⟩
    rw [← Nat.add_assoc, Nat.add_sub_cancel' (Nat.le_of_lt hstart), Nat.add_mod_left,
      Nat.mod_eq_of_lt hi]

/-- One full turn comes back to the start, no shorter one does. -/
theorem full_turn (capacity cur k : Nat) (hcur : cur < capacity) (hpos : 0 < k)
    (hle : k ≤ capacity) (back : (cur + k) % capacity = cur) : k = capacity := by
  rcases Nat.lt_or_ge (cur + k) capacity with low | high
  · rw [Nat.mod_eq_of_lt low] at back
    omega
  · rw [Nat.mod_eq_sub_mod high, Nat.mod_eq_of_lt (by omega)] at back
    omega

/-- `find_next_runnable` answers a slot of the table; it is runnable unless it
is the starting slot itself. -/
theorem findNextRunnable_spec (s : ThreadTable) (cur : Nat) (hcur : cur < s.threadCapacity) :
    findNextRunnable s cur < s.threadCapacity ∧
      (findNextRunnable s cur ≠ cur → Runnable (s.threads (findNextRunnable s cur))) := by
  have hpos : 0 < s.threadCapacity := Nat.zero_lt_of_lt hcur
  obtain ⟨k, kpos, hk, hat, skipped, found⟩ :=
    findNextRunnableLoop_spec s s.threadCapacity cur hpos
  rw [findNextRunnable, hat]
  refine ⟨Nat.mod_lt _ hpos, fun moved => found ?_⟩
  by_contra short
  have full : k = s.threadCapacity := by omega
  rw [full, Nat.add_mod_right, Nat.mod_eq_of_lt hcur] at moved
  exact moved rfl

/-- When the answer is the starting slot, no other slot is runnable. -/
theorem findNextRunnable_self (s : ThreadTable) (cur : Nat) (hcur : cur < s.threadCapacity)
    (stay : findNextRunnable s cur = cur) :
    ∀ i < s.threadCapacity, i ≠ cur → ¬ Runnable (s.threads i) := by
  intro i hi other
  obtain ⟨k, kpos, hk, hat, skipped, found⟩ :=
    findNextRunnableLoop_spec s s.threadCapacity cur (Nat.zero_lt_of_lt hcur)
  have full := full_turn s.threadCapacity cur k hcur kpos hk (hat.symm.trans stay)
  obtain ⟨j, hj, hle, hturn⟩ := exists_turn s.threadCapacity cur i hcur hi
  have short : j < k := by
    rcases Nat.lt_or_ge j k with lt | ge
    · exact lt
    · have : j = s.threadCapacity := by omega
      rw [this, Nat.add_mod_right, Nat.mod_eq_of_lt hcur] at hturn
      omega
  rw [← hturn]
  exact skipped j short hj

end MiniKernel.Sched
