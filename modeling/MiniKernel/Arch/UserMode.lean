import MiniKernel.Arch.Preemption

/-!
# Ring 3 can always be interrupted

Source: kernel/arch/x86_64/{usermode.asm,isr.asm,irq_stubs.asm,context_switch.asm}.

The only ways into ring 3 are `enter_usermode` and an `iretq` to code that was interrupted
there, and both load the user selectors and a set interrupt flag.
-/
namespace MiniKernel.Arch
open Lib (Buffer)
open Lib.Stack (Word)

variable {image : Image} {a : Threads} {c : Cpu}

/-- In ring 3 the selectors are the user ones and the timer can interrupt. -/
def Preemptible (c : Cpu) : Prop :=
  c.User → c.cs = 0x1B ∧ c.ss = 0x23 ∧ c.rflags.interrupts = true

structure AllPreemptible (a : Threads) : Prop where
  running : Preemptible a.cpu
  saved : ∀ tid cs i, a.saved tid = some cs → .trap i ∈ cs → Preemptible i.cpu

theorem userEntry_preemptible (c : Cpu) : Preemptible (userEntry c) := fun _ => by
  refine ⟨?_, ?_, ?_⟩
  · change userCodeSel.setWidth 16 = 0x1B
    decide
  · change userDataSel.setWidth 16 = 0x23
    decide
  · change (Flags.load 0x202).interrupts = true
    decide

theorem AllPreemptible.put (all : AllPreemptible a) (cpu : Cpu) (running : Preemptible cpu)
    (tid : Nat) {cs : List Context} (contexts : ∀ i, .trap i ∈ cs → Preemptible i.cpu) :
    AllPreemptible { a.put tid (some cs) with cpu := cpu } := by
  refine ⟨running, fun t ds i found member => ?_⟩
  rcases Saved.live_add (Saved.live_of_some found) with rfl | ⟨-, other⟩
  · cases (Function.update_self ..).symm.trans found
    exact contexts i member
  · exact all.saved t ds i ((Function.update_of_ne other ..).symm.trans found) member

theorem AllPreemptible.drop (all : AllPreemptible a) (tid : Nat) :
    AllPreemptible (a.put tid none) := by
  refine ⟨all.running, fun t ds i found member => ?_⟩
  have other := (Saved.live_of_drop (Saved.live_of_some found)).2
  exact all.saved t ds i ((Function.update_of_ne other ..).symm.trans found) member

theorem AllPreemptible.passing (all : AllPreemptible a) (oldRsp newRsp : Word) :
    AllPreemptible (a.passing oldRsp newRsp) := ⟨all.running, all.saved⟩

/-- A thread that is switched in goes on in the kernel. -/
theorem AllPreemptible.resume (all : AllPreemptible a) (kernel : ¬ a.cpu.User) (tid : Nat) :
    AllPreemptible (a.resume tid) := by
  unfold Threads.resume
  split
  · next s rest found =>
    have put : AllPreemptible { a.put tid (some rest) with cpu := a.cpu } :=
      all.put a.cpu all.running tid fun i member =>
        all.saved tid _ i found (List.mem_cons_of_mem _ member)
    exact ⟨fun user => absurd user kernel, put.saved⟩
  · exact all

theorem AllPreemptible.step (all : AllPreemptible a) (sound : Sound a) {mem : Buffer} {e : Event}
    (allowed : a.Allowed mem e) : AllPreemptible (a.step image e) := by
  obtain ⟨cs, own⟩ := sound.exists_own
  have mine (i : Interrupted) (member : .trap i ∈ cs) : Preemptible i.cpu :=
    all.saved _ cs i own member
  cases e with
  | work cpu mem' =>
    refine ⟨fun user => ?_, all.saved⟩
    have stays := allowed.1
    unfold Threads.Stays at stays
    by_cases before : a.cpu.User
    · rw [if_pos before] at stays
      change cpu.cs = _ ∧ cpu.ss = _ ∧ cpu.rflags.interrupts = _
      rw [stays.1, stays.2.1, stays.2.2]
      exact all.running before
    · rw [if_neg before] at stays
      exact absurd user stays.1
  | trap v error =>
    rw [Threads.step, own]
    refine all.put _ (fun user => absurd user (Interrupted.entered_kernel image _)) _ ?_
    rintro i (_ | ⟨_, member⟩)
    · exact all.running
    · exact mine i member
  | result regs v =>
    obtain ⟨-, i, rest, own', -⟩ := allowed
    cases own.symm.trans own'
    rw [Threads.step, own]
    refine all.put a.cpu all.running _ ?_
    rintro j (_ | ⟨_, member⟩)
    · exact mine i List.mem_cons_self
    · exact mine j (List.mem_cons_of_mem _ member)
  | handled =>
    obtain ⟨i, rest, own', -⟩ := allowed
    cases own.symm.trans own'
    rw [Threads.step, own]
    exact all.put i.cpu (mine i List.mem_cons_self) _ fun j member =>
      mine j (List.mem_cons_of_mem _ member)
  | enterUsermode => exact ⟨userEntry_preemptible a.cpu, all.saved⟩
  | switch next back =>
    let before := a.passing (a.table.slot a.table.current) (a.table.slot next)
    have left : AllPreemptible (before.put a.table.current
        (some (.call (before.cpu.suspended back) :: cs))) := by
      refine (all.passing _ _).put before.cpu all.running _ ?_
      rintro i (_ | ⟨_, member⟩)
      exact mine i member
    rw [Threads.step, own]
    exact left.resume allowed.1 next
  | leave next discard back => exact ((all.passing _ _).drop _).resume allowed.1 next
  | spawn tid stackLow entry =>
    refine ⟨all.running, (all.put a.cpu all.running tid ?_).saved⟩
    intro i member
    cases List.mem_singleton.mp member
  | reap tid => exact all.drop tid
  | grow slot mem' => exact ⟨all.running, all.saved⟩

theorem ring3_preemptible (image : Image) (cpu : Cpu) (table : Table) (stack : Set Nat)
    (mem : Buffer) (kernel : ¬ cpu.User)
    (outside : ∀ b, InSlot table.slot table.current b → b ∉ stack) (es : List Event)
    (allowed : Lib.Machine.Meets (bothStep image) BothAllowed
      (bootThreads cpu table stack, bootState cpu table mem) es) :
    ∀ p, Lib.Machine.run (bothStep image) (bootThreads cpu table stack, bootState cpu table mem)
      es = some p → Preemptible p.2.machine.cpu := by
  intro p run
  have start : AllPreemptible (bootThreads cpu table stack) := by
    refine ⟨fun user => absurd user kernel, fun t cs i found member => ?_⟩
    rw [(boot_saved found).2] at member
    cases member
  have both : Agree image p ∧ AllPreemptible p.1 := by
    refine Lib.Machine.run_invariant (I := fun p => Agree image p ∧ AllPreemptible p.1) ?_
      ⟨boot_agree image table mem kernel outside, start⟩ allowed run
    rintro q e t ⟨agree, all⟩ ok stepped
    refine ⟨agree.step ok stepped, ?_⟩
    cases stepped
    exact all.step agree.sound ok
  rw [both.1.represents.cpu]
  exact both.2.running

theorem ring3_preemptible_wait : ∃ p,
    Lib.Machine.run (bothStep someImage)
      (bootThreads bootCpu bootTable bootStack, bootState bootCpu bootTable fun _ => 0)
      callAndWait = some p ∧ Preemptible p.2.machine.cpu :=
  ⟨_, rfl, ring3_preemptible someImage bootCpu bootTable bootStack (fun _ => 0) (by decide)
    bootStack_outside callAndWait callAndWait_allowed _ rfl⟩

end MiniKernel.Arch
