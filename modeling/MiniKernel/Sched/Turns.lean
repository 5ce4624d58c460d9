import MiniKernel.Sched.HaltLoop
import MiniKernel.Sched.Running

/-!
# Taking turns

Source: kernel/sched/thread.c:162-171 (`find_next_runnable`) and its three
callers. The scan starts behind the running thread, so the CPU goes to a slot
between the running thread and the first one that is ready, in the cyclic order
of the slots. While a thread stays ready, the slots ahead of it only get fewer,
whatever is spawned, freed or woken meanwhile and however large the table
becomes.
-/
namespace MiniKernel.Sched
open Memory.Paging (Word)
open Lib.Machine (run Meets)

variable {k t : Kernel} {e : Event} {i : Nat}

/-! ## The cyclic order of the slots -/

/-- Going up from behind `start` and around, slot `j` comes no later than `last`. -/
def Upto (start last j : Nat) : Prop :=
  if start < last then start < j ∧ j ≤ last else start < j ∨ j ≤ last

theorem upto_around (start j : Nat) : Upto start start j := by
  unfold Upto
  rw [if_neg (Nat.lt_irrefl start)]
  omega

/-- Behind a slot on the way there are fewer left, and not that slot. -/
theorem Upto.shrinks {start last next j : Nat} (passed : Upto start last next)
    (before : next ≠ last) (later : Upto next last j) : Upto start last j ∧ j ≠ next := by
  unfold Upto at *
  split at passed <;> split at later <;> split <;> omega

theorem upto_antisymm {start i j : Nat} (first : Upto start i j) (second : Upto start j i) :
    j = i := by
  unfold Upto at *
  split at first <;> split at second <;> omega

/-- The `a`-th slot behind the start comes no later than the `b`-th. -/
theorem upto_of_turns {start capacity a b : Nat} (hstart : start < capacity) (ha : 0 < a)
    (hab : a ≤ b) (hb : b ≤ capacity) :
    Upto start ((start + b) % capacity) ((start + a) % capacity) := by
  have turn (n : Nat) (hn : n ≤ capacity) : (start + n) % capacity =
      if start + n < capacity then start + n else start + n - capacity := by
    split
    · next low => exact Nat.mod_eq_of_lt low
    · next high => rw [Nat.mod_eq_sub_mod (Nat.le_of_not_lt high), Nat.mod_eq_of_lt (by omega)]
  rw [turn a (Nat.le_trans hab hb), turn b hb]
  unfold Upto
  split <;> split <;> split <;> omega

/-- `find_next_runnable` does not go past a runnable slot. -/
theorem findNextRunnable_upto (s : ThreadTable) (cur : Nat) (hcur : cur < s.threadCapacity)
    (hi : i < s.threadCapacity) (runnable : i ≠ cur → Runnable (s.threads i)) :
    Upto cur i (findNextRunnable s cur) := by
  cases Decidable.em (i = cur) with
  | inl same =>
    rw [same]
    exact upto_around cur _
  | inr other =>
    obtain ⟨a, apos, ha, hat, skipped, _⟩ :=
      findNextRunnableLoop_spec s s.threadCapacity cur (Nat.zero_lt_of_lt hcur)
    obtain ⟨b, bpos, hb, hturn⟩ := exists_turn s.threadCapacity cur i hcur hi
    have hab : a ≤ b := by
      by_contra late
      have missed := skipped b (by omega) bpos
      rw [hturn] at missed
      exact missed (runnable other)
    rw [findNextRunnable, hat, ← hturn]
    exact upto_of_turns hcur apos hab hb

/-! ## Who is switched in -/

/-- The four operations that hand the CPU to another thread. -/
theorem step_switching (h : step k e = some t) (moved : t.cur ≠ k.cur) :
    (e = .timer ∧ schedTick k = t) ∨ (e = .yield ∧ schedYield k.interrupts k = t) ∨
    (∃ channel, e = .sleep channel ∧ schedSleep channel k = t) ∨
    (∃ pid, (e = .exit pid ∨ e = .kill k.cur pid) ∧ schedExitStatus pid k = t) := by
  cases e with
  | timer => exact Or.inl ⟨rfl, (interrupt_eq_some.mp h).2⟩
  | keyboard channel =>
    obtain ⟨_, rfl⟩ := interrupt_eq_some.mp h
    exact absurd rfl moved
  | yield => exact Or.inr (Or.inl ⟨rfl, (call_eq_some.mp h).2⟩)
  | sleep channel => exact Or.inr (Or.inr (Or.inl ⟨channel, rfl, (call_eq_some.mp h).2⟩))
  | exit pid => exact Or.inr (Or.inr (Or.inr ⟨pid, Or.inl rfl, (call_eq_some.mp h).2⟩))
  | kill tid pid =>
    obtain ⟨_, killed⟩ := call_eq_some.mp h
    unfold schedKill at killed
    split at killed
    · exact absurd (congrArg Kernel.cur killed).symm moved
    · split at killed
      · next self => exact Or.inr (Or.inr (Or.inr ⟨pid, Or.inr (by rw [self]), killed⟩))
      · split at killed <;> exact absurd (congrArg Kernel.cur killed).symm moved
  | reap tid =>
    obtain ⟨_, rfl⟩ := call_eq_some.mp h
    refine absurd ?_ moved
    change (reapZombie k.table tid).currentThread = k.table.currentThread
    unfold reapZombie
    split <;> rfl
  | spawnStep block stack =>
    obtain ⟨req, phase, _, rfl⟩ := spawnStep_eq_some.mp h
    exact absurd (spawnStep_cur req block stack phase) moved
  | idleCheck =>
    obtain ⟨flags, _, _, rfl⟩ := idleCheck_eq_some.mp h
    exact absurd rfl moved
  | setIf on | wakeup channel | spawn req =>
    obtain ⟨_, rfl⟩ := call_eq_some.mp h
    exact absurd rfl moved

/-- The thread is in the table and waits for the CPU. -/
def Ready (k : Kernel) (i : Nat) : Prop := i < k.table.threadCapacity ∧ k.stateOf i = .ready

instance (k : Kernel) (i : Nat) : Decidable (Ready k i) := inferInstanceAs (Decidable (_ ∧ _))

/-- The CPU went to a running slot that comes no later than slot `i`. -/
def HandedUpto (k : Kernel) (i : Nat) (t : Kernel) : Prop :=
  Upto k.cur i t.cur ∧ t.stateOf t.cur = .running

theorem schedYield_upto (wf : WellFormed k) (resumeIf : Bool) (ready : Ready k i)
    (moved : (schedYield resumeIf k).cur ≠ k.cur) : HandedUpto k i (schedYield resumeIf k) := by
  by_cases stay : findNextRunnable k.table k.cur = k.cur
  · rw [schedYield, if_pos stay] at moved
    exact absurd rfl moved
  · rw [schedYield, if_neg stay]
    exact ⟨findNextRunnable_upto k.table k.cur wf.current ready.1 (fun _ => Or.inl ready.2),
      dispatchFresh_running _ _⟩

theorem schedTick_upto (wf : WellFormed k) (ready : Ready k i)
    (moved : (schedTick k).cur ≠ k.cur) : HandedUpto k i (schedTick k) := by
  rcases schedTick_cases k with ⟨_, counts⟩ | ⟨_, yields⟩
  · rw [counts] at moved
    exact absurd rfl moved
  · rw [yields] at moved ⊢
    have still : Ready (countTick k) i := ⟨ready.1, (countTick_state k i).trans ready.2⟩
    exact schedYield_upto wf.countTick true still moved

theorem schedSleep_upto (wf : WellFormed k) (channel : Word) (ready : Ready k i)
    (moved : (schedSleep channel k).cur ≠ k.cur) : HandedUpto k i (schedSleep channel k) := by
  let table := updThread k.table k.cur
    { k.table.threads k.cur with waitChannel := channel, state := .blocked }
  by_cases stay : findNextRunnable table k.cur = k.cur
  · rw [schedSleep, if_pos stay] at moved
    exact absurd rfl moved
  · rw [schedSleep, if_neg stay]
    refine ⟨findNextRunnable_upto table k.cur wf.current ready.1 ?_, dispatchFresh_running _ _⟩
    intro other
    rw [updThread_other _ _ _ _ other]
    exact Or.inl ready.2

theorem schedExitStatus_upto (wf : WellFormed k) (pid : Option Word) (ready : Ready k i)
    (moved : (schedExitStatus pid k).cur ≠ k.cur) : HandedUpto k i (schedExitStatus pid k) := by
  have hcap := exitTable_capacity pid k
  by_cases stay : findNextRunnable (exitTable pid k) k.cur = k.cur
  · rw [schedExitStatus, if_pos stay] at moved
    exact absurd (exitTable_current pid k) moved
  · rw [schedExitStatus, if_neg stay]
    constructor
    · exact findNextRunnable_upto (exitTable pid k) k.cur (by rw [hcap]; exact wf.current)
        (by rw [hcap]; exact ready.1)
        (fun other => exitTable_runnable pid i other (Or.inl ready.2))
    · change ((dispatch _ _).threads _).state = _
      rw [dispatch_state]
      exact if_pos rfl

/-- No switch goes past a ready thread. -/
theorem step_upto (wf : WellFormed k) (h : step k e = some t) (ready : Ready k i)
    (moved : t.cur ≠ k.cur) : HandedUpto k i t := by
  rcases step_switching h moved with
    ⟨_, rfl⟩ | ⟨_, rfl⟩ | ⟨channel, _, rfl⟩ | ⟨pid, _, rfl⟩
  · exact schedTick_upto wf ready moved
  · exact schedYield_upto wf _ ready moved
  · exact schedSleep_upto wf channel ready moved
  · exact schedExitStatus_upto wf pid ready moved

/-! ## Runs -/

/-- The slots switched in along the run, in order. -/
def switchIns : Kernel → List Event → List Nat
  | _, [] => []
  | k, e :: es =>
    match step k e with
    | none => []
    | some t => if t.cur = k.cur then switchIns t es else t.cur :: switchIns t es

/-- While a thread stays ready, the slots switched in lie ahead of it, each once. -/
theorem switchIns_upto (wf : WellFormed k) (es : List Event)
    (ready : Meets step (fun s _ => Ready s i) k es) :
    (switchIns k es).Nodup ∧ ∀ j ∈ switchIns k es, Upto k.cur i j := by
  induction es generalizing k with
  | nil => simp [switchIns]
  | cons e es ih =>
    rcases h : step k e with _ | t
    · simp [switchIns, h]
    have later := ih (step_wellFormed wf h) (ready.2 t h)
    simp only [switchIns, h]
    split
    · next stayed =>
      rw [stayed] at later
      exact later
    · next moved =>
      obtain ⟨first, running⟩ := step_upto wf h ready.1 moved
      -- the thread itself runs now, so the interval has no step left, or another one runs
      have rest : ∀ j ∈ switchIns t es, Upto k.cur i j ∧ j ≠ t.cur := by
        intro j hj
        cases es with
        | nil => simp [switchIns] at hj
        | cons f fs =>
          have waiting := (ready.2 t h).1.2
          have before : t.cur ≠ i := by
            intro same
            rw [← same, running] at waiting
            cases waiting
          exact first.shrinks before (later.2 j hj)
      constructor
      · exact List.nodup_cons.mpr ⟨fun again => (rest _ again).2 rfl, later.1⟩
      · intro j hj
        rcases List.mem_cons.mp hj with rfl | tail
        · exact first
        · exact (rest j tail).1

/-- While a thread is ready, no slot is switched in twice. -/
theorem ready_overtaken_once (reachable : Reachable k) (i : Nat) (es : List Event)
    (ready : Meets step (fun s _ => Ready s i) k es) : (switchIns k es).Nodup :=
  (switchIns_upto (reachable_wellFormed reachable) es ready).1

/-- Thread 3 waits while the threads 1 and 2 get the CPU. -/
def twoOvertake : List Event := [.yield, .yield]

theorem ready_overtaken_once_twice :
    ∃ k, run step firstBoot (.setIf true :: fillTable) = some k ∧
      switchIns k twoOvertake = [1, 2] ∧ (switchIns k twoOvertake).Nodup := by
  have ran : (run step firstBoot (.setIf true :: fillTable)).isSome := by decide +kernel
  obtain ⟨k, hk⟩ := Option.isSome_iff_exists.mp ran
  have turns : ∀ k ∈ run step firstBoot (.setIf true :: fillTable),
      Meets step (fun s _ => Ready s 3) k twoOvertake ∧ switchIns k twoOvertake = [1, 2] := by
    decide +kernel
  obtain ⟨ready, order⟩ := turns k hk
  exact ⟨k, hk, order,
    ready_overtaken_once ⟨blockOfUid 0, someStack, 0x1000, _, hk⟩ 3 twoOvertake ready⟩

end MiniKernel.Sched
