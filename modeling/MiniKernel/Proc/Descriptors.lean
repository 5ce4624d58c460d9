import MiniKernel.Ipc.PipeStream
import MiniKernel.Proc.System
import MiniKernel.Proc.Reschedule

/-!
# Releasing descriptors

Source: kernel/core/fd.c (`release_slot`, `fd_cleanup_thread`, `fd_close`),
kernel/sched/thread.c (`reap_zombie`). A reaped thread's descriptors are released
one after the other and reset at the end; the outcome is that of closing each.
-/
namespace MiniKernel.Proc
open Memory.Paging (Word)
open Sched
open Ipc

/-- Release a descriptor and reset its slot. -/
def closeFdOf (tid : Nat) (i : Fin threadMaxFds) (s : System) : System :=
  let released := releaseSlot ((s.threads.threads tid).fds i) s
  released.withThreads (setFd released.threads tid i resetFdSlot)

def closeFds (tid : Nat) (fds : List (Fin threadMaxFds)) (s : System) : System :=
  fds.foldl (fun s i => closeFdOf tid i s) s

/-- The state with other descriptors in slot `tid`. -/
def System.withFds (s : System) (tid : Nat) (fds : Fin threadMaxFds → FdSlot) : System :=
  s.withThreads (updThread s.threads tid { s.threads.threads tid with fds := fds })

variable {s t : System} {tid : Nat} {i : Fin threadMaxFds}

@[simp] theorem withThreads_threads (s : System) (t : ThreadTable) :
    (s.withThreads t).threads = t := rfl

@[simp] theorem wake_capacity (s : System) (channel : Word) :
    (s.wake channel).threads.threadCapacity = s.threads.threadCapacity := rfl

@[simp] theorem wake_cur (s : System) (channel : Word) : (s.wake channel).cur = s.cur := rfl

theorem wake_fds (s : System) (channel : Word) (j : Nat) :
    ((s.wake channel).threads.threads j).fds = (s.threads.threads j).fds :=
  (wakeup_reschedules s.kernel channel).fds j

@[simp] theorem withFds_self (s : System) (tid : Nat) (fds : Fin threadMaxFds → FdSlot) :
    (s.withFds tid fds).threads.threads tid = { s.threads.threads tid with fds := fds } := by
  rw [System.withFds, withThreads_threads, updThread_same]

theorem withFds_setFd (s : System) (tid : Nat) (fds : Fin threadMaxFds → FdSlot)
    (i : Fin threadMaxFds) (slot : FdSlot) :
    (s.withFds tid fds).withThreads (setFd (s.withFds tid fds).threads tid i slot) =
      s.withFds tid (Function.update fds i slot) := by
  have threads : setFd (s.withFds tid fds).threads tid i slot =
      (s.withFds tid (Function.update fds i slot)).threads := by
    rw [setFd, withFds_self]
    simp only [System.withFds, withThreads_threads, updThread, Function.update_idem]
  rw [threads]
  rfl

theorem withFds_same (s : System) (tid : Nat) :
    s.withFds tid (s.threads.threads tid).fds = s := by
  have threads : updThread s.threads tid (s.threads.threads tid) = s.threads := by
    simp [updThread, Function.update_eq_self]
  change s.withThreads (updThread s.threads tid (s.threads.threads tid)) = s
  rw [threads]
  rfl

/-- A wakeup does not look at descriptors. -/
theorem wake_withFds (s : System) (tid : Nat) (fds : Fin threadMaxFds → FdSlot)
    (channel : Word) : (s.withFds tid fds).wake channel = (s.wake channel).withFds tid fds := by
  have threads : schedWakeup (s.withFds tid fds).threads channel =
      updThread (s.wake channel).threads tid
        { (s.wake channel).threads.threads tid with fds := fds } := by
    simp only [System.withFds, System.wake, withThreads_threads, schedWakeup, updThread]
    congr 1
    funext j
    simp only [Function.update_apply]
    split
    · next same =>
      rw [same]
      split <;> rfl
    · rfl
  rw [System.wake, threads]
  rfl

/-- Releasing a slot lowers one end's count of the pipe it names, and wakes the
pipe's sleepers; with no such pipe in use it does nothing. -/
theorem releaseSlot_cases (slot : FdSlot) (s : System) :
    (∃ (i : Fin pipeMax) (lower : Pipe → Pipe), (s.pipes i).inUse = true ∧ slot.handle = i.val ∧
      (slot.kind = .pipeRead ∧ lower = Pipe.closeReader ∨
        slot.kind = .pipeWrite ∧ lower = Pipe.closeWriter) ∧
      releaseSlot slot s =
        ({ s with pipes := Function.update s.pipes i (lower (s.pipes i)) } : System).wake
          (s.pipeChannel i.val)) ∨
    ((slot.kind = .pipeRead ∨ slot.kind = .pipeWrite →
        ∀ i : Fin pipeMax, slot.handle = i.val → (s.pipes i).inUse = false) ∧
      releaseSlot slot s = s) := by
  have ends (lower : Pipe → Pipe) :
      (∃ i : Fin pipeMax, (s.pipes i).inUse = true ∧ slot.handle = i.val ∧
        closeEnd lower s.pipes slot.handle =
          (some i, Function.update s.pipes i (lower (s.pipes i)))) ∨
      ((∀ i : Fin pipeMax, slot.handle = i.val → (s.pipes i).inUse = false) ∧
        closeEnd lower s.pipes slot.handle = (none, s.pipes)) := by
    unfold closeEnd
    cases found : pipeIndex slot.handle with
    | none =>
      refine Or.inr ⟨fun i same => ?_, rfl⟩
      rw [pipeIndex_some.mpr same] at found
      cases found
    | some i =>
      have handle := pipeIndex_some.mp found
      cases used : (s.pipes i).inUse with
      | true => exact Or.inl ⟨i, used, handle, by simp [used]⟩
      | false =>
        refine Or.inr ⟨fun j same => ?_, by simp [used]⟩
        have : j = i := Fin.ext (by omega)
        rw [this, used]
  unfold releaseSlot
  cases kind : slot.kind with
  | pipeRead =>
    rcases ends Pipe.closeReader with ⟨i, used, handle, closes⟩ | ⟨free, closes⟩
    · exact Or.inl ⟨i, _, used, handle, Or.inl ⟨rfl, rfl⟩, by simp only [pipeCloseReader, closes]; rfl⟩
    · exact Or.inr ⟨fun _ => free, by simp only [pipeCloseReader, closes]⟩
  | pipeWrite =>
    rcases ends Pipe.closeWriter with ⟨i, used, handle, closes⟩ | ⟨free, closes⟩
    · exact Or.inl ⟨i, _, used, handle, Or.inr ⟨rfl, rfl⟩, by simp only [pipeCloseWriter, closes]; rfl⟩
    · exact Or.inr ⟨fun _ => free, by simp only [pipeCloseWriter, closes]⟩
  | unused => exact Or.inr ⟨by simp, rfl⟩
  | console => exact Or.inr ⟨by simp, rfl⟩
  | memfs => exact Or.inr ⟨by simp, rfl⟩
  | ufs => exact Or.inr ⟨by simp, rfl⟩

theorem releaseSlot_withFds (slot : FdSlot) (s : System) (tid : Nat)
    (fds : Fin threadMaxFds → FdSlot) :
    releaseSlot slot (s.withFds tid fds) = (releaseSlot slot s).withFds tid fds := by
  unfold releaseSlot
  cases slot.kind with
  | pipeRead =>
    cases closed : pipeCloseReader s.pipes slot.handle with
    | mk woken pipes =>
      have here : pipeCloseReader (s.withFds tid fds).pipes slot.handle = (woken, pipes) := closed
      cases woken with
      | none => simp only [here]; rfl
      | some i =>
        simp only [here]
        exact wake_withFds { s with pipes := pipes } tid fds _
  | pipeWrite =>
    cases closed : pipeCloseWriter s.pipes slot.handle with
    | mk woken pipes =>
      have here : pipeCloseWriter (s.withFds tid fds).pipes slot.handle = (woken, pipes) := closed
      cases woken with
      | none => simp only [here]; rfl
      | some i =>
        simp only [here]
        exact wake_withFds { s with pipes := pipes } tid fds _
  | unused => rfl
  | console => rfl
  | memfs => rfl
  | ufs => rfl

theorem releaseSlot_fds (slot : FdSlot) (s : System) (j : Nat) :
    ((releaseSlot slot s).threads.threads j).fds = (s.threads.threads j).fds := by
  rcases releaseSlot_cases slot s with ⟨i, lower, _, _, _, releases⟩ | ⟨_, nothing⟩
  · rw [releases]
    exact wake_fds _ _ j
  · rw [nothing]

/-- Releasing wakes sleepers and does nothing else to the threads. -/
theorem releaseSlot_reschedules (slot : FdSlot) (s : System) :
    Reschedules s.kernel (releaseSlot slot s).kernel ∧ (releaseSlot slot s).cur = s.cur := by
  rcases releaseSlot_cases slot s with ⟨i, lower, _, _, _, releases⟩ | ⟨_, nothing⟩
  · rw [releases]
    exact ⟨wakeup_reschedules s.kernel (s.pipeChannel i.val), rfl⟩
  · rw [nothing]
    exact ⟨Reschedules.refl _, rfl⟩

theorem fdCleanupThread_reschedules (tid : Nat) (s : System) :
    Reschedules s.kernel (fdCleanupThread tid s).kernel ∧ (fdCleanupThread tid s).cur = s.cur := by
  suffices folded : ∀ (fds : List (Fin threadMaxFds)) (s : System),
      let cleaned := fds.foldl (fun s i => releaseSlot ((s.threads.threads tid).fds i) s) s
      Reschedules s.kernel cleaned.kernel ∧ cleaned.cur = s.cur from folded _ s
  intro fds
  induction fds with
  | nil => exact fun s => ⟨Reschedules.refl _, rfl⟩
  | cons i fds ih =>
    intro s
    have first := releaseSlot_reschedules ((s.threads.threads tid).fds i) s
    have rest := ih (releaseSlot ((s.threads.threads tid).fds i) s)
    exact ⟨first.1.trans rest.1 first.2, rest.2.trans first.2⟩

/-- Closing one descriptor after the other is releasing them all and resetting
their slots at the end. -/
theorem closeFds_withFds (fds : List (Fin threadMaxFds)) (nodup : fds.Nodup) (s : System)
    (f : Fin threadMaxFds → FdSlot) (own : ∀ i ∈ fds, f i = (s.threads.threads tid).fds i) :
    closeFds tid fds (s.withFds tid f) =
      (fds.foldl (fun s i => releaseSlot ((s.threads.threads tid).fds i) s) s).withFds tid
        (fun i => if i ∈ fds then resetFdSlot else f i) := by
  induction fds generalizing s f with
  | nil => simp [closeFds]
  | cons i fds ih =>
    obtain ⟨absent, nodup⟩ := List.nodup_cons.mp nodup
    let released := releaseSlot ((s.threads.threads tid).fds i) s
    have first : closeFdOf tid i (s.withFds tid f) =
        released.withFds tid (Function.update f i resetFdSlot) := by
      have slot : ((s.withFds tid f).threads.threads tid).fds i =
          (s.threads.threads tid).fds i := by
        rw [withFds_self]
        exact own i List.mem_cons_self
      simp only [closeFdOf, slot, releaseSlot_withFds]
      exact withFds_setFd released tid f i resetFdSlot
    have still : ∀ j ∈ fds, Function.update f i resetFdSlot j =
        (released.threads.threads tid).fds j := by
      intro j member
      have other : j ≠ i := fun same => absent (same ▸ member)
      rw [Function.update_of_ne other, releaseSlot_fds]
      exact own j (List.mem_cons_of_mem i member)
    have rest := ih nodup released (Function.update f i resetFdSlot) still
    rw [closeFds, List.foldl_cons, first]
    change closeFds tid fds _ = _
    rw [rest, List.foldl_cons]
    congr 1
    funext j
    cases Decidable.em (j = i) with
    | inl same => simp [same]
    | inr other => simp [other]

theorem closeFds_all (tid : Nat) (s : System) :
    closeFds tid (List.finRange threadMaxFds) s =
      (fdCleanupThread tid s).withFds tid fun _ => resetFdSlot := by
  have closes := @closeFds_withFds tid (List.finRange threadMaxFds)
    (List.nodup_finRange _) s (s.threads.threads tid).fds (fun _ _ => rfl)
  rw [withFds_same] at closes
  simp only [List.mem_finRange, if_true] at closes
  exact closes

/-- What reaping a thread does, descriptor by descriptor. -/
theorem schedReapThread_eq (tid : Nat) (s : System) (reapable : Reapable s.threads tid) :
    schedReapThread tid s =
      (closeFds tid (List.finRange threadMaxFds) s).withThreads
        (updThread (closeFds tid (List.finRange threadMaxFds) s).threads tid
          (reapedSlot ((closeFds tid (List.finRange threadMaxFds) s).threads.threads tid))) := by
  let cleaned := fdCleanupThread tid s
  obtain ⟨moved, cur⟩ := fdCleanupThread_reschedules tid s
  obtain ⟨inTable, other, zombie⟩ := reapable
  have dead := moved.zombie other zombie
  have still : Reapable cleaned.threads tid := ⟨moved.capacity ▸ inTable, dead.2, dead.1⟩
  have threads : updThread (cleaned.withFds tid fun _ => resetFdSlot).threads tid
      (reapedSlot ((cleaned.withFds tid fun _ => resetFdSlot).threads.threads tid)) =
        updThread cleaned.threads tid (reapedSlot (cleaned.threads.threads tid)) := by
    rw [withFds_self]
    simp only [System.withFds, withThreads_threads, updThread, Function.update_idem]
    rfl
  rw [closeFds_all, threads, schedReapThread, if_pos ⟨inTable, other, zombie⟩]
  change cleaned.withThreads (reapZombie cleaned.threads tid) = _
  rw [reapZombie, if_pos still]
  rfl

end MiniKernel.Proc
