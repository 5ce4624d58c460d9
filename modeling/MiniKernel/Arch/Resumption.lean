import MiniKernel.Arch.UserMode

/-!
# An interrupted program goes on where it was

Source: kernel/arch/x86_64/{isr.asm,irq_stubs.asm,context_switch.asm},
kernel/core/syscall.c (`regs->rax`), kernel/sched/thread.c.

From the interrupt on, whatever the kernel and the other threads do, the caller's
registers wait at the bottom of the thread's contexts, and only a system call changes one
of them. They leave in two ways: the handler returns to the program, or the thread ends.
-/
namespace MiniKernel.Arch
open Lib (Buffer)
open Lib.Stack (Word)

variable {image : Image} {a : Threads} {p u : Threads × State} {tid : Nat} {v : Vector}
  {c : Cpu} {cs : List Context}

/-- The registers are those of the interrupted program, up to the result of a system
call. -/
def Continues (v : Vector) (c after : Cpu) : Prop :=
  ∃ rax, after = { c with reg := Function.update c.reg .rax rax } ∧
    (v ≠ .syscall → rax = c.reg .rax)

/-- The thread is in the kernel, with the program to go back to. -/
def InKernel (tid : Nat) (v : Vector) (c : Cpu) (a : Threads) : Prop :=
  ∃ cs i, a.saved tid = some (cs ++ [.trap i]) ∧ i.vector = v ∧ Continues v c i.cpu

/-- The thread gives up its contexts. -/
inductive Ends (tid : Nat) (a : Threads) : Event → Prop
  | left (next : Nat) (discard back : Word) (own : a.table.current = tid) :
      Ends tid a (.leave next discard back)
  | reaped : Ends tid a (.reap tid)

/-- The handler returns to the program. -/
def Returns (tid : Nat) (v : Vector) (c : Cpu) (a : Threads) (e : Event) : Prop :=
  e = .handled ∧ a.table.current = tid ∧ ∃ i, a.own = some [.trap i] ∧ Continues v c i.cpu

theorem Continues.refl (v : Vector) (c : Cpu) : Continues v c c :=
  ⟨c.reg .rax, by rw [Function.update_eq_self], fun _ => rfl⟩

theorem Continues.setRax {after : Cpu} (continues : Continues v c after) (isCall : v = .syscall)
    (rax : Word) : Continues v c { after with reg := Function.update after.reg .rax rax } := by
  obtain ⟨old, rfl, -⟩ := continues
  refine ⟨rax, ?_, fun other => absurd isCall other⟩
  dsimp only
  rw [Function.update_idem]

theorem InKernel.of_saved {b : Threads} (inKernel : InKernel tid v c a)
    (same : b.saved tid = a.saved tid) : InKernel tid v c b := by
  obtain ⟨cs, i, found, vector, continues⟩ := inKernel
  exact ⟨cs, i, same.trans found, vector, continues⟩

/-- Switching to another thread, or to this one, takes up a call of `switch_context`. -/
theorem InKernel.resume (inKernel : InKernel tid v c a) (next : Nat) :
    InKernel tid v c (a.resume next) := by
  obtain ⟨cs, i, found, vector, continues⟩ := inKernel
  unfold Threads.resume
  split
  · next s rest there =>
    by_cases same : tid = next
    · subst same
      rw [found] at there
      cases cs with
      | nil => cases there
      | cons d ds =>
        cases there
        exact ⟨ds, i, Function.update_self .., vector, continues⟩
    · exact ⟨cs, i, (Function.update_of_ne same ..).trans found, vector, continues⟩
  · exact ⟨cs, i, found, vector, continues⟩

theorem inKernel_push {d : Context} (own : a.own = some cs) (current : tid = a.table.current)
    (inKernel : InKernel tid v c a) :
    InKernel tid v c (a.put a.table.current (some (d :: cs))) := by
  obtain ⟨ds, i, found, vector, continues⟩ := inKernel
  subst current
  cases own.symm.trans found
  exact ⟨d :: ds, i, Function.update_self .., vector, continues⟩

theorem InKernel.step (inKernel : InKernel tid v c a) (image : Image) (sound : Sound a) {mem : Buffer} {e : Event}
    (allowed : a.Allowed mem e) :
    InKernel tid v c (a.step image e) ∨ Returns tid v c a e ∨ Ends tid a e := by
  obtain ⟨own, mine⟩ := sound.exists_own
  by_cases current : tid = a.table.current
  · cases e with
    | work cpu mem' => exact Or.inl (inKernel.of_saved rfl)
    | trap w error =>
      rw [Threads.step, mine]
      exact Or.inl ((inKernel_push mine current inKernel).of_saved rfl)
    | result regs r =>
      obtain ⟨-, j, rest, there, isCall, -⟩ := allowed
      obtain ⟨ds, i, found, vector, continues⟩ := inKernel
      rw [Threads.step, there]
      subst current
      have split := there.symm.trans found
      left
      cases ds with
      | nil =>
        cases split
        exact ⟨[], j.setRax r, Function.update_self .., vector,
          continues.setRax (vector.symm.trans isCall) r⟩
      | cons d ds =>
        cases split
        exact ⟨.trap (j.setRax r) :: ds, i, Function.update_self .., vector, continues⟩
    | handled =>
      obtain ⟨j, rest, there, -⟩ := allowed
      obtain ⟨ds, i, found, vector, continues⟩ := inKernel
      rw [Threads.step, there]
      subst current
      have split := there.symm.trans found
      cases ds with
      | nil =>
        cases split
        exact Or.inr (Or.inl ⟨rfl, rfl, j, there, continues⟩)
      | cons d ds =>
        cases split
        exact Or.inl ⟨ds, i, Function.update_self .., vector, continues⟩
    | enterUsermode => exact Or.inl (inKernel.of_saved rfl)
    | switch next back =>
      rw [Threads.step, mine]
      refine Or.inl (InKernel.resume ?_ next)
      exact (inKernel_push mine current inKernel).of_saved rfl
    | leave next discard back => exact Or.inr (Or.inr (.left next discard back current.symm))
    | spawn t stackLow entry =>
      refine Or.inl (inKernel.of_saved (Function.update_of_ne ?_ ..))
      rintro rfl
      exact allowed.2.1 (current ▸ sound.live)
    | reap t =>
      refine Or.inl (inKernel.of_saved (Function.update_of_ne ?_ ..))
      rintro rfl
      exact allowed.1 current
    | grow slot mem' => exact Or.inl (inKernel.of_saved rfl)
  · have away (ds : Option (List Context)) : InKernel tid v c (a.put a.table.current ds) :=
      inKernel.of_saved (Function.update_of_ne current ..)
    cases e with
    | work cpu mem' => exact Or.inl (inKernel.of_saved rfl)
    | trap w error => exact Or.inl ((away _).of_saved rfl)
    | result regs r =>
      obtain ⟨-, j, rest, there, -⟩ := allowed
      rw [Threads.step, there]
      exact Or.inl (away _)
    | handled =>
      obtain ⟨j, rest, there, -⟩ := allowed
      rw [Threads.step, there]
      exact Or.inl ((away _).of_saved rfl)
    | enterUsermode => exact Or.inl (inKernel.of_saved rfl)
    | switch next back =>
      refine Or.inl (InKernel.resume ?_ next)
      exact (away _).of_saved rfl
    | leave next discard back =>
      refine Or.inl (InKernel.resume ?_ next)
      exact (away _).of_saved rfl
    | spawn t stackLow entry =>
      refine Or.inl (inKernel.of_saved (Function.update_of_ne ?_ ..))
      rintro rfl
      obtain ⟨ds, i, found, -⟩ := inKernel
      exact allowed.2.1 (Saved.live_of_some found)
    | reap t =>
      by_cases same : tid = t
      · subst same
        exact Or.inr (Or.inr .reaped)
      · exact Or.inl (inKernel.of_saved (Function.update_of_ne same ..))
    | grow slot mem' => exact Or.inl (inKernel.of_saved rfl)

theorem Represents.returns {s : State} (rep : Represents image a s) (sound : Sound a)
    (allowed : a.Allowed s.machine.mem .handled) {i : Interrupted}
    (own : a.own = some [.trap i]) : (s.step image .handled).machine.cpu = i.cpu := by
  obtain ⟨j, rest, there, sp⟩ := allowed
  cases own.symm.trans there
  rw [(rep.handled sound own sp).cpu, Threads.step, own]

end MiniKernel.Arch
