import MiniKernel.Lib.Machine
import MiniKernel.Arch.StackLayout

/-!
# Every context is taken up as it was left

Source: kernel/arch/x86_64/{context_switch.asm,isr.asm,irq_stubs.asm,usermode.asm},
kernel/sched/thread.c.

However interrupts, system calls, context switches, spawns and exits interleave, the
processor does what `Threads` says: an interrupted program goes on with the registers it
had, up to the result of a system call, and a thread that called `switch_context` returns
from it with its callee-saved registers, flags and stack.
-/
namespace MiniKernel.Arch
open Lib (Buffer)
open Lib.Stack
open Sched (threadStackSize)

variable {image : Image} {a : Threads} {s : State} {saved : Saved} {slot : Nat → Word}
  {mem mem' : Buffer} {tid : Nat} {c : Context} {cs : List Context}

/-! ## Contexts in memory -/

theorem Stored.congr (stored : Stored image saved mem)
    (same : ∀ b, saved.Held b → mem' b = mem b) : Stored image saved mem' := by
  intro t cs c found member
  rw [← stored t cs c found member]
  exact loadAll_congr fun b low high => same b ⟨t, cs, c, found, member, low, high⟩

theorem Stored.put (stored : Stored image saved mem) (tid : Nat) (cs : List Context)
    (there : ∀ c ∈ cs, loadAll mem c.bottom.toNat c.size = c.words image) :
    Stored image (Function.update saved tid (some cs)) mem := by
  intro t ds c found member
  rcases Saved.live_add (Saved.live_of_some found) with rfl | ⟨-, other⟩
  · cases (Function.update_self ..).symm.trans found
    exact there c member
  · exact stored t ds c ((Function.update_of_ne other ..).symm.trans found) member

theorem Stored.drop (stored : Stored image saved mem) (tid : Nat) :
    Stored image (Function.update saved tid none) mem := by
  intro t ds c found member
  have other := (Saved.live_of_drop (Saved.live_of_some found)).2
  exact stored t ds c ((Function.update_of_ne other ..).symm.trans found) member

theorem ParkedAt.congr (parked : ParkedAt saved slot mem tid)
    (same : ∀ b, InSlot slot tid b → mem' b = mem b) : ParkedAt saved slot mem' tid := by
  intro c rest found
  rw [← parked c rest found]
  exact load_congr fun b low high => same b ⟨low, high⟩

theorem ParkedAt.put {t : Nat} (parked : ParkedAt saved slot mem tid) (other : tid ≠ t)
    (cs : Option (List Context)) : ParkedAt (Function.update saved t cs) slot mem tid := by
  intro c rest found
  exact parked c rest ((Function.update_of_ne other ..).symm.trans found)

/-- What is pushed below the stack pointer changes nothing that anybody relies on. -/
theorem Sound.pushAll_keeps (sound : Sound a) {sp : Word} (vs : List Word)
    (room : a.HasRoom sp vs.length) (under : ∀ cs ∈ a.own, Under sp cs) (mem : Buffer) :
    (∀ b, a.saved.Held b → (pushAll vs ⟨mem, sp⟩).mem b = mem b) ∧
      ∀ t, a.saved.Live t → ∀ b, InSlot a.table.slot t b →
        (pushAll vs ⟨mem, sp⟩).mem b = mem b := by
  have outside (b : Nat) (free : ¬ Below sp vs.length b) :
      (pushAll vs ⟨mem, sp⟩).mem b = mem b := by
    refine pushAll_outside (s := ⟨mem, sp⟩) room.1 ?_
    change b + 8 * vs.length < sp.toNat ∨ sp.toNat ≤ b
    unfold Below at free
    omega
  constructor
  · intro b held
    exact outside b fun below => (sound.below_free room under below).1 held
  · intro t live b inSlot
    exact outside b fun below => (sound.below_free room under below).2 t live inSlot

/-! ## One event -/

theorem Represents.work (rep : Represents image a s) {cpu : Cpu}
    (allowed : a.Allowed s.machine.mem (.work cpu mem)) :
    Represents image (a.step image (.work cpu mem)) (s.step image (.work cpu mem)) where
  cpu := rfl
  table := rep.table
  rsp0 := rep.rsp0
  stored := rep.stored.congr allowed.2.1
  parked := by
    intro t other c rest found
    exact (rep.parked t other).congr (allowed.2.2 t (Saved.live_of_some found) other) c rest found

theorem Represents.trap (rep : Represents image a s) (sound : Sound a) (v : Vector) (error : Word)
    (room : a.HasRoom (interruptStack a.cpu a.rsp0) 23) :
    Represents image (a.step image (.trap v error)) (s.step image (.trap v error)) := by
  obtain ⟨cs, own⟩ := sound.exists_own
  let i := a.cpu.interrupted a.rsp0 v error
  have under := sound.under_interrupt
  have keeps := sound.pushAll_keeps (i.pushed image) room under s.machine.mem
  have sp : (pushAll (i.pushed image) ⟨s.machine.mem, interruptStack a.cpu a.rsp0⟩).sp =
      i.bottom := by
    rw [pushAll_sp_eq]
    change interruptStack a.cpu a.rsp0 - 184 = interruptStack a.cpu a.rsp0 - 176 - 8
    bv_omega
  have there := loadAll_pushAll (s := ⟨s.machine.mem, interruptStack a.cpu a.rsp0⟩)
    (i.pushed image) room.1
  rw [sp, Interrupted.reverse_pushed] at there
  have after : s.step image (.trap v error) = { s with machine := {
      cpu := i.entered image
      mem := (pushAll (i.pushed image) ⟨s.machine.mem, interruptStack a.cpu a.rsp0⟩).mem
      rsp0 := a.rsp0 } } := by
    rw [State.step, trap_eq, rep.cpu, rep.rsp0]
  have left : a.step image (.trap v error) =
      { a.put a.table.current (some (.trap i :: cs)) with cpu := i.entered image } := by
    rw [Threads.step, own]
    rfl
  rw [after, left]
  refine ⟨rfl, rep.table, rfl, (rep.stored.congr keeps.1).put _ _ ?_, ?_⟩
  · rintro d (_ | ⟨_, member⟩)
    · exact there
    · exact rep.stored.congr keeps.1 _ cs d own member
  · intro t other c rest found
    have still := (Function.update_of_ne other ..).symm.trans found
    exact (rep.parked t other).congr (keeps.2 t (Saved.live_of_some still)) c rest still

theorem Represents.result (rep : Represents image a s) (sound : Sound a) (v : Word)
    {i : Interrupted} (own : a.own = some (.trap i :: cs)) :
    Represents image (a.step image (.result i.frame v)) (s.step image (.result i.frame v)) := by
  have order := sound.laid.ordered _ _ own
  have inside := sound.laid.inside _ _ (.trap i) own List.mem_cons_self
  have fits : i.bottom.toNat + 8 * 23 < 2 ^ 64 := inside.fits
  have rax : i.frame.toNat + raxOffset = i.bottom.toNat + 8 * 15 := by
    have up : i.bottom.toNat + 8 = i.frame.toNat := by
      unfold Interrupted.bottom at fits ⊢
      bv_omega
    unfold raxOffset
    omega
  have left : a.step image (.result i.frame v) =
      a.put a.table.current (some (.trap (i.setRax v) :: cs)) := by
    rw [Threads.step, own]
  have changed (b : Nat) (free : ¬ (Context.trap i).Covers b) :
      store s.machine.mem (i.frame.toNat + raxOffset) v b = s.machine.mem b := by
    refine store_outside _ v ?_
    change ¬ (i.bottom.toNat ≤ b ∧ b < i.bottom.toNat + 8 * 23) at free
    omega
  have others : ∀ b, Saved.Held (Function.update a.saved a.table.current (some cs)) b →
      ¬ (Context.trap i).Covers b := by
    rintro b ⟨t, ds, d, found, member, covers⟩ covered
    rcases Saved.live_add (Saved.live_of_some found) with rfl | ⟨live, other⟩
    · cases (Function.update_self ..).symm.trans found
      have above := order.1 d member
      have low := covers.1
      have high := covered.2
      omega
    · have there := (Function.update_of_ne other ..).symm.trans found
      exact Set.disjoint_left.mp (sound.laid.apart t _ live sound.live other)
        ((sound.laid.inside t ds d there member).covered b covers) (inside.covered b covered)
  have rest : Stored image (Function.update a.saved a.table.current (some cs))
      (store s.machine.mem (i.frame.toNat + raxOffset) v) := by
    refine (rep.stored.put _ _ fun d member => ?_).congr fun b held => changed b (others b held)
    exact rep.stored _ _ d own (List.mem_cons_of_mem _ member)
  have head : loadAll (store s.machine.mem (i.frame.toNat + raxOffset) v) i.bottom.toNat 23 =
      (i.setRax v).words image := by
    have old : loadAll s.machine.mem i.bottom.toNat 23 = i.words image :=
      rep.stored _ _ (.trap i) own List.mem_cons_self
    rw [rax, loadAll_store, old, Interrupted.set_words]
  rw [left]
  refine ⟨rep.cpu, rep.table, rep.rsp0, ?_, ?_⟩
  · have all := rest.put a.table.current (.trap (i.setRax v) :: cs) (by
      rintro d (_ | ⟨_, member⟩)
      · exact head
      · exact rest _ cs d (Function.update_self ..) member)
    rw [Function.update_idem] at all
    exact all
  · intro t other c ds found
    have still := (Function.update_of_ne other ..).symm.trans found
    refine ((rep.parked t other).congr fun b inSlot => changed b fun covered => ?_) c ds still
    exact sound.laid.placed.outside t _ (Saved.live_of_some still) sound.live b inSlot
      (inside.covered b covered)

theorem Represents.handled (rep : Represents image a s) (sound : Sound a) {i : Interrupted}
    (own : a.own = some (.trap i :: cs)) (sp : a.cpu.rsp = i.bottom) :
    Represents image (a.step image .handled) (s.step image .handled) := by
  have inside := sound.laid.inside _ _ (.trap i) own List.mem_cons_self
  have there : loadAll s.machine.mem i.bottom.toNat 23 = i.words image :=
    rep.stored _ _ (.trap i) own List.mem_cons_self
  have bottom : s.machine.cpu.rsp = i.bottom := by rw [rep.cpu, sp]
  have returned := handlerReturn_eq s.machine i (by rw [bottom]; exact inside.fits)
    (by rw [bottom]; exact there)
  have left : a.step image .handled = { a.put a.table.current (some cs) with cpu := i.cpu } := by
    rw [Threads.step, own]
  have after : s.step image .handled = { s with machine := { s.machine with cpu := i.cpu } } := by
    rw [State.step, returned]
  rw [left, after]
  refine ⟨rfl, rep.table, rep.rsp0, rep.stored.put _ _ fun d member => ?_, fun t other => ?_⟩
  · exact rep.stored _ _ d own (List.mem_cons_of_mem _ member)
  · exact (rep.parked t other).put other _

theorem Represents.enterUsermode (rep : Represents image a s) (sound : Sound a)
    (own : a.own = some []) (room : a.HasRoom a.cpu.rsp 5) :
    Represents image (a.step image .enterUsermode) (s.step image .enterUsermode) := by
  have under : ∀ cs ∈ a.own, Under a.cpu.rsp cs := by
    intro cs mine c member
    cases own.symm.trans mine
    cases member
  have keeps := sound.pushAll_keeps (userFrame (a.cpu.reg .rdi) (a.cpu.reg .rsi)) room under
    s.machine.mem
  have entered := execAll_enterUsermode s.machine (by
    unfold Room Machine.stack
    rw [rep.cpu]
    exact room.1)
  have stack : s.machine.stack = ⟨s.machine.mem, a.cpu.rsp⟩ := by rw [Machine.stack, rep.cpu]
  rw [stack, rep.cpu] at entered
  have after : s.step image .enterUsermode = { s with machine := { s.machine with
      mem := (pushAll (userFrame (a.cpu.reg .rdi) (a.cpu.reg .rsi)) ⟨s.machine.mem, a.cpu.rsp⟩).mem
      cpu := userEntry a.cpu } } := by
    rw [State.step, entered]
  rw [after]
  refine ⟨rfl, rep.table, rep.rsp0, rep.stored.congr keeps.1, fun t other c ds found => ?_⟩
  exact (rep.parked t other).congr (keeps.2 t (Saved.live_of_some found)) c ds found

/-- If what the running thread leaves is in memory, the other thread is taken up. -/
theorem Represents.switched (rep : Represents image a s) (sound : Sound a) {oldRsp back : Word}
    {next : Nat} {left : Option (List Context)} (other : next ≠ a.table.current)
    (live : a.saved.Live next)
    (stored : Stored image (Function.update a.saved a.table.current left)
      (switchMemory (a.passing oldRsp (a.table.slot next)).cpu oldRsp back s.machine.mem))
    (parked : ∀ t, ParkedAt (Function.update a.saved a.table.current left) a.table.slot
      (switchMemory (a.passing oldRsp (a.table.slot next)).cpu oldRsp back s.machine.mem) t) :
    Represents image (((a.passing oldRsp (a.table.slot next)).put a.table.current left).resume next)
      (s.switchTo image oldRsp next back) := by
  let c := (a.passing oldRsp (a.table.slot next)).cpu
  obtain ⟨cs, found⟩ := Saved.exists_of_live live
  obtain ⟨n, rest, rfl⟩ := sound.waiting next cs found other
  have still : Function.update a.saved a.table.current left next = some (.call n :: rest) :=
    (Function.update_of_ne other ..).trans found
  have fits : n.bottom.toNat + 64 < 2 ^ 64 :=
    (sound.laid.inside next _ (.call n) found List.mem_cons_self).fits
  have found' : load (switchMemory c oldRsp back s.machine.mem) (a.table.slot next).toNat =
      n.bottom := parked next _ rest still
  have stored' : loadAll (switchMemory c oldRsp back s.machine.mem) n.bottom.toNat 8 = n.words :=
    stored next _ (.call n) still List.mem_cons_self
  have taken := execAll_switch ⟨c, s.machine.mem, a.table.top next⟩ n image.switchContext back
    oldRsp (a.table.slot next) rfl rfl found' fits stored'
  have after : s.switchTo image oldRsp next back = {
      machine := {
        cpu := n.resume c
        mem := switchMemory c oldRsp back s.machine.mem
        rsp0 := a.table.top next }
      table := { a.table with current := next } } := by
    rw [State.switchTo, Machine.setReg, Machine.setReg, rep.cpu, rep.table]
    exact congrArg (fun m => State.mk m { a.table with current := next }) taken
  have threads : ((a.passing oldRsp (a.table.slot next)).put a.table.current left).resume next =
      { (a.put a.table.current left).put next (some rest) with
        cpu := n.resume c
        table := { a.table with current := next } } := by
    have waits : ((a.passing oldRsp (a.table.slot next)).put a.table.current left).saved next =
      some (.call n :: rest) := still
    rw [Threads.resume, waits]
    rfl
  rw [after, threads]
  refine ⟨rfl, rfl, rfl, stored.put _ _ fun d member => ?_, fun t away => ?_⟩
  · exact stored next _ d still (List.mem_cons_of_mem _ member)
  · exact (parked t).put away _

/-- A word stored outside all contexts. -/
theorem Stored.store (stored : Stored image saved mem) {at_ : Nat} {v : Word}
    (free : ∀ b, saved.Held b → b < at_ ∨ at_ + 8 ≤ b) :
    Stored image saved (Lib.Stack.store mem at_ v) :=
  stored.congr fun b held => store_outside mem v (free b held)

theorem ParkedAt.store (parked : ParkedAt saved slot mem tid) {at_ : Nat} {v : Word}
    (free : ∀ b, InSlot slot tid b → b < at_ ∨ at_ + 8 ≤ b) :
    ParkedAt saved slot (Lib.Stack.store mem at_ v) tid :=
  parked.congr fun b inSlot => store_outside mem v (free b inSlot)

/-- No context lies in a `rsp` field. -/
theorem Laid.slot_free {stack : Nat → Set Nat} (laid : Laid saved stack slot)
    (live : saved.Live tid) (b : Nat) (held : saved.Held b) :
    b < (slot tid).toNat ∨ (slot tid).toNat + 8 ≤ b := by
  obtain ⟨t, cs, c, found, member, covers⟩ := held
  by_contra inside
  refine laid.placed.outside tid t live (Saved.live_of_some found) b ?_
    ((laid.inside t cs c found member).covered b covers)
  unfold InSlot
  omega

/-- The `rsp` fields do not overlap. -/
theorem Laid.slots_apart {stack : Nat → Set Nat} (laid : Laid saved stack slot) {t : Nat}
    (live : saved.Live tid) (tlive : saved.Live t) (different : t ≠ tid) (b : Nat)
    (inSlot : InSlot slot t b) : b < (slot tid).toNat ∨ (slot tid).toNat + 8 ≤ b := by
  have apart := laid.placed.apart t tid tlive live different b inSlot
  unfold InSlot at apart
  omega

theorem Represents.switch (rep : Represents image a s) (sound : Sound a) {next : Nat} (back : Word)
    (kernel : ¬ a.cpu.User) (other : next ≠ a.table.current) (live : a.saved.Live next)
    (room : a.HasRoom a.cpu.rsp 8) :
    Represents image (a.step image (.switch next back)) (s.step image (.switch next back)) := by
  obtain ⟨cs, own⟩ := sound.exists_own
  let oldRsp := a.table.slot a.table.current
  let c := (a.passing oldRsp (a.table.slot next)).cpu
  have under := sound.under kernel
  have keeps := sound.pushAll_keeps (c.suspended back).pushed room under s.machine.mem
  have there := loadAll_pushAll (s := ⟨s.machine.mem, a.cpu.rsp⟩)
    (c.suspended back).pushed room.1
  have sp : (pushAll (c.suspended back).pushed ⟨s.machine.mem, a.cpu.rsp⟩).sp =
      (c.suspended back).bottom := pushAll_sp_eq ..
  rw [sp, Suspended.reverse_pushed] at there
  have laid := sound.push (c := .call (c.suspended back)) own room (under cs own)
    (Suspended.bottom_eq c back room.1) (fun _ => under cs own) False.elim
  have stored : Stored image
      (Function.update a.saved a.table.current (some (.call (c.suspended back) :: cs)))
      (switchMemory c oldRsp back s.machine.mem) := by
    refine ((rep.stored.congr keeps.1).put _ _ ?_).store
      (laid.slot_free ((Saved.live_put sound.live _ _).mpr sound.live))
    rintro d (_ | ⟨_, member⟩)
    · exact there
    · exact rep.stored.congr keeps.1 _ cs d own member
  have left : a.step image (.switch next back) =
      ((a.passing oldRsp (a.table.slot next)).put a.table.current
        (some (.call (c.suspended back) :: cs))).resume next := by
    rw [Threads.step, own]
    rfl
  have after : s.step image (.switch next back) = s.switchTo image oldRsp next back := by
    rw [State.step, rep.table]
  rw [left, after]
  refine rep.switched sound other live stored fun t => ?_
  by_cases same : t = a.table.current
  · intro d rest found
    rw [same, Function.update_self] at found
    cases found
    rw [same]
    exact load_store ..
  · refine ParkedAt.put ?_ same _
    intro d rest found
    have tlive := Saved.live_of_some found
    exact ((rep.parked t same).congr (keeps.2 t tlive)).store
      (sound.laid.slots_apart sound.live tlive same) d rest found

theorem Represents.leave (rep : Represents image a s) (sound : Sound a) {next : Nat}
    (discard back : Word) (kernel : ¬ a.cpu.User) (other : next ≠ a.table.current)
    (live : a.saved.Live next) (room : a.HasRoom a.cpu.rsp 8)
    (own : ∀ b, discard.toNat ≤ b → b < discard.toNat + 8 → b ∈ a.stack a.table.current) :
    Represents image (a.step image (.leave next discard back))
      (s.step image (.leave next discard back)) := by
  let c := (a.passing discard (a.table.slot next)).cpu
  have keeps := sound.pushAll_keeps (c.suspended back).pushed room (sound.under kernel)
    s.machine.mem
  have stored : Stored image (Function.update a.saved a.table.current none)
      (switchMemory c discard back s.machine.mem) := by
    refine ((rep.stored.congr keeps.1).drop _).store ?_
    rintro b ⟨t, cs, d, found, member, covers⟩
    obtain ⟨tlive, away⟩ := Saved.live_of_drop (Saved.live_of_some found)
    have still := (Function.update_of_ne away ..).symm.trans found
    have there := (sound.laid.inside t cs d still member).covered b covers
    have free := Set.disjoint_left.mp (sound.laid.apart t _ tlive sound.live away) there
    by_contra inside
    exact free (own b (by omega) (by omega))
  refine rep.switched sound other live stored fun t => ?_
  by_cases same : t = a.table.current
  · intro d rest found
    rw [same, Function.update_self] at found
    cases found
  · refine ParkedAt.put ?_ same _
    intro d rest found
    have tlive := Saved.live_of_some found
    refine ((rep.parked t same).congr (keeps.2 t tlive)).store (fun b inSlot => ?_) d rest found
    have free := sound.laid.placed.outside t _ tlive sound.live b inSlot
    by_contra inside
    exact free (own b (by omega) (by omega))

theorem Represents.spawn (rep : Represents image a s) (sound : Sound a) {stackLow : Word}
    (entry : Word) (allowed : a.Allowed s.machine.mem (.spawn tid stackLow entry)) :
    Represents image (a.step image (.spawn tid stackLow entry))
      (s.step image (.spawn tid stackLow entry)) := by
  obtain ⟨fits, unused, others, mine⟩ := allowed
  have elsewhere : a.table.current ≠ tid := fun same => unused (same ▸ sound.live)
  have laid := (sound.spawn image entry fits unused others mine).laid
  have high : (stackLow + threadStackSize).toNat = stackLow.toNat + 8192 := by
    unfold threadStackSize
    bv_omega
  have room : Room ⟨s.machine.mem, stackLow + threadStackSize⟩ (firstFrame entry).length := by
    change 64 ≤ (stackLow + threadStackSize).toNat
    omega
  have there := loadAll_pushAll _ room
  have sp : (pushAll (firstFrame entry) ⟨s.machine.mem, stackLow + threadStackSize⟩).sp =
      (Suspended.fresh entry (stackLow + threadStackSize)).bottom := pushAll_sp_eq ..
  rw [sp, Suspended.reverse_firstFrame entry (stackLow + threadStackSize)] at there
  have outside (b : Nat) (free : b ∉ Set.Ico stackLow.toNat (stackLow.toNat + 8192)) :
      (pushAll (firstFrame entry) ⟨s.machine.mem, stackLow + threadStackSize⟩).mem b =
        s.machine.mem b := by
    refine pushAll_outside room ?_
    change b + 64 < (stackLow + threadStackSize).toNat ∨ (stackLow + threadStackSize).toNat ≤ b
    rw [Set.mem_Ico] at free
    omega
  have after : s.step image (.spawn tid stackLow entry) = {
      machine := { s.machine with
        mem := store (pushAll (firstFrame entry) ⟨s.machine.mem, stackLow + threadStackSize⟩).mem
          (a.table.slot tid).toNat (Suspended.fresh entry (stackLow + threadStackSize)).bottom }
      table := { a.table with
        top := Function.update a.table.top tid (stackLow + threadStackSize) } } := by
    rw [State.step, State.spawn, rep.table]
    dsimp only
    rw [sp]
  have stored : Stored image
      (Function.update a.saved tid (some [.call (.fresh entry (stackLow + threadStackSize))]))
      (store (pushAll (firstFrame entry) ⟨s.machine.mem, stackLow + threadStackSize⟩).mem
        (a.table.slot tid).toNat (Suspended.fresh entry (stackLow + threadStackSize)).bottom) := by
    refine ((rep.stored.congr ?_).put _ _ ?_).store
      (laid.slot_free (Saved.live_of_some (Function.update_self ..)))
    · rintro b ⟨t, cs, c, found, member, covers⟩
      exact outside b (Set.disjoint_left.mp (others t (Saved.live_of_some found)).1
        ((sound.laid.inside t cs c found member).covered b covers))
    · intro c member
      cases List.mem_singleton.mp member
      exact there
  rw [after]
  refine ⟨rep.cpu, rfl, ?_, stored, fun t other => ?_⟩
  · exact rep.rsp0.trans (Function.update_of_ne elsewhere ..).symm
  · intro c rest found
    rcases Saved.live_add (Saved.live_of_some found) with rfl | ⟨tlive, away⟩
    · cases (Function.update_self ..).symm.trans found
      exact load_store ..
    · have still := (Function.update_of_ne away ..).symm.trans found
      refine ((rep.parked t other).congr fun b inSlot => ?_).store (fun b inSlot => ?_) c rest still
      · exact outside b ((others t tlive).2 b inSlot).1
      · have free := ((others t tlive).2 b inSlot).2
        unfold InSlot at free
        omega

theorem Represents.reap (rep : Represents image a s) (sound : Sound a) (live : a.saved.Live tid) :
    Represents image (a.step image (.reap tid)) (s.step image (.reap tid)) := by
  have after : s.step image (.reap tid) = { s with
      machine := { s.machine with mem := store s.machine.mem (a.table.slot tid).toNat 0 } } := by
    rw [State.step, rep.table]
  rw [after]
  refine ⟨rep.cpu, rep.table, rep.rsp0, ?_, fun t away => ?_⟩
  · exact (rep.stored.store (sound.laid.slot_free live)).drop tid
  · intro c rest found
    obtain ⟨tlive, apart⟩ := Saved.live_of_drop (Saved.live_of_some found)
    have still := (Function.update_of_ne apart ..).symm.trans found
    exact (rep.parked t away).store (sound.laid.slots_apart live tlive apart) c rest still

theorem Represents.grow (rep : Represents image a s)
    (allowed : a.Allowed s.machine.mem (.grow slot mem)) :
    Represents image (a.step image (.grow slot mem)) (s.step image (.grow slot mem)) where
  cpu := rep.cpu
  table := congrArg (fun table : Table => { table with slot := slot }) rep.table
  rsp0 := rep.rsp0
  stored := rep.stored.congr allowed.2.1
  parked := by
    intro t other c rest found
    rw [← rep.parked t other c rest found]
    exact allowed.2.2 t (Saved.live_of_some found)

theorem Represents.step (rep : Represents image a s) (sound : Sound a) {e : Event}
    (allowed : a.Allowed s.machine.mem e) : Represents image (a.step image e) (s.step image e) := by
  cases e with
  | work cpu mem' => exact rep.work allowed
  | trap v error => exact rep.trap sound v error allowed
  | result regs v =>
    obtain ⟨-, i, rest, own, -, rfl⟩ := allowed
    exact rep.result sound v own
  | handled =>
    obtain ⟨i, rest, own, sp⟩ := allowed
    exact rep.handled sound own sp
  | enterUsermode => exact rep.enterUsermode sound allowed.2.1 allowed.2.2
  | switch next back =>
    exact rep.switch sound back allowed.1 allowed.2.1 allowed.2.2.1 allowed.2.2.2
  | leave next discard back =>
    obtain ⟨kernel, other, live, room, own⟩ := allowed
    exact rep.leave sound discard back kernel other live room own
  | spawn tid stackLow entry => exact rep.spawn sound entry allowed
  | reap tid => exact rep.reap sound allowed.2
  | grow slot mem' => exact rep.grow allowed

/-! ## Whole runs -/

/-- The threads and the processor side by side. -/
def bothStep (image : Image) (p : Threads × State) (e : Event) : Option (Threads × State) :=
  some (p.1.step image e, p.2.step image e)

def BothAllowed (p : Threads × State) (e : Event) : Prop := p.1.Allowed p.2.machine.mem e

/-- After `sched_init`: one thread, in the kernel, with nothing to go back to. -/
def bootThreads (cpu : Cpu) (table : Table) (stack : Set Nat) : Threads where
  cpu := cpu
  table := table
  saved := Function.update (fun _ => none) table.current (some [])
  stack := fun _ => stack

def bootState (cpu : Cpu) (table : Table) (mem : Buffer) : State where
  machine := { cpu := cpu, mem := mem, rsp0 := table.top table.current }
  table := table

theorem boot_saved {cpu : Cpu} {table : Table} {stack : Set Nat} {t : Nat}
    (found : (bootThreads cpu table stack).saved t = some cs) : t = table.current ∧ cs = [] := by
  change Function.update (fun _ => none) table.current (some []) t = some cs at found
  by_cases same : t = table.current
  · rw [same, Function.update_self] at found
    exact ⟨same, (Option.some.inj found).symm⟩
  · rw [Function.update_of_ne same] at found
    cases found

theorem boot_live {cpu : Cpu} {table : Table} {stack : Set Nat} {t : Nat}
    (live : (bootThreads cpu table stack).saved.Live t) : t = table.current := by
  obtain ⟨cs, found⟩ := Saved.exists_of_live live
  exact (boot_saved found).1

theorem boot_own (cpu : Cpu) (table : Table) (stack : Set Nat) :
    (bootThreads cpu table stack).own = some [] := by
  change Function.update (fun _ => none) table.current (some []) table.current = some []
  exact Function.update_self ..

theorem boot_sound {cpu : Cpu} (table : Table) {stack : Set Nat} (kernel : ¬ cpu.User)
    (outside : ∀ b, InSlot table.slot table.current b → b ∉ stack) :
    Sound (bootThreads cpu table stack) where
  laid :=
    { ordered := by
        intro t cs found
        rw [(boot_saved found).2]
        exact trivial
      inside := by
        intro t cs c found member
        rw [(boot_saved found).2] at member
        cases member
      apart := by
        intro t u ht hu different
        exact absurd ((boot_live ht).trans (boot_live hu).symm) different
      placed :=
        { apart := by
            intro t u ht hu different
            exact absurd ((boot_live ht).trans (boot_live hu).symm) different
          outside := by
            intro t u ht _ b inSlot
            rw [boot_live ht] at inSlot
            exact outside b inSlot } }
  live := Saved.live_of_some (boot_own cpu table stack)
  user := fun user => absurd user kernel
  under := by
    intro _ cs own c member
    cases (boot_own cpu table stack).symm.trans own
    cases member
  waiting := by
    intro t cs found other
    exact absurd (boot_saved found).1 other

theorem boot_represents (image : Image) (cpu : Cpu) (table : Table) (stack : Set Nat)
    (mem : Buffer) :
    Represents image (bootThreads cpu table stack) (bootState cpu table mem) where
  cpu := rfl
  table := rfl
  rsp0 := rfl
  stored := by
    intro t cs c found member
    rw [(boot_saved found).2] at member
    cases member
  parked := by
    intro t other c rest found
    exact absurd (boot_saved found).1 other

/-- The invariant of a run. -/
structure Agree (image : Image) (p : Threads × State) : Prop where
  sound : Sound p.1
  represents : Represents image p.1 p.2

theorem Agree.step {p q : Threads × State} {e : Event} (agree : Agree image p)
    (ok : BothAllowed p e) (stepped : bothStep image p e = some q) : Agree image q := by
  cases stepped
  exact ⟨agree.sound.step image ok, agree.represents.step agree.sound ok⟩

theorem agree_run {p q : Threads × State} {es : List Event} (agree : Agree image p)
    (allowed : Lib.Machine.Meets (bothStep image) BothAllowed p es)
    (run : Lib.Machine.run (bothStep image) p es = some q) : Agree image q :=
  Lib.Machine.run_invariant (fun _ _ _ agree ok stepped => agree.step ok stepped) agree allowed run

theorem boot_agree (image : Image) {cpu : Cpu} (table : Table) {stack : Set Nat} (mem : Buffer)
    (kernel : ¬ cpu.User) (outside : ∀ b, InSlot table.slot table.current b → b ∉ stack) :
    Agree image (bootThreads cpu table stack, bootState cpu table mem) :=
  ⟨boot_sound table kernel outside, boot_represents image cpu table stack mem⟩

theorem contexts_taken_up (image : Image) (cpu : Cpu) (table : Table) (stack : Set Nat)
    (mem : Buffer) (kernel : ¬ cpu.User)
    (outside : ∀ b, InSlot table.slot table.current b → b ∉ stack) (es : List Event)
    (allowed : Lib.Machine.Meets (bothStep image) BothAllowed
      (bootThreads cpu table stack, bootState cpu table mem) es) :
    ∀ p, Lib.Machine.run (bothStep image) (bootThreads cpu table stack, bootState cpu table mem)
      es = some p → Represents image p.1 p.2 := by
  intro p run
  exact (agree_run (boot_agree image table mem kernel outside) allowed run).represents

/-- Two `rsp` fields in a table of the heap, and the boot stack below 0x90000. -/
def twoSlots (tid : Nat) : Word := if tid = 0 then 0x300000 else 0x300070

def bootTable : Table := { current := 0, slot := twoSlots, top := fun _ => 0x202000 }

def bootCpu : Cpu where
  reg := fun _ => 0
  rsp := 0x8FF00
  rip := 0x10000
  rflags := .load 2
  cs := 8
  ss := 0x10

def bootStack : Set Nat := Set.Ico 0x80000 0x90000

def someImage : Image where
  switchContext := 0x11000
  stub := fun _ => 0x12000
  isrHandler := 0x13000
  irqHandler := 0x14000
  syscallHandler := 0x15000
  isrBack := 0x12100
  irqBack := 0x12200
  syscallBack := 0x12300

/-- A thread is spawned, enters its program, makes a system call that puts it aside, and
goes on with the result. -/
def callAndWait : List Event :=
  [.spawn 1 0x400000 0x16000, .switch 1 0x17000, .enterUsermode, .trap .syscall 0,
    .switch 0 0x17100, .switch 1 0x17200, .result 0x401F50 42, .handled]

theorem spawn_allowed (mem : Buffer) : (bootThreads bootCpu bootTable bootStack).Allowed mem
    (.spawn 1 0x400000 0x16000) := by
  refine ⟨by decide, fun live => ?_, ?_, ?_⟩
  · exact absurd (boot_live live) (by decide)
  · intro t live
    cases boot_live live
    refine ⟨Set.disjoint_left.mpr fun b low high => ?_,
      fun b inSlot => ⟨fun high => ?_, fun also => ?_⟩⟩
    · have : b < 0x90000 := low.2
      have : 0x400000 ≤ b := high.1
      omega
    · have : b < 0x300000 + 8 := inSlot.2
      have : 0x400000 ≤ b := high.1
      omega
    · have : b < 0x300000 + 8 := inSlot.2
      have : 0x300070 ≤ b := also.1
      omega
  · intro b inSlot
    have low : 0x300070 ≤ b := inSlot.1
    have high : b < 0x300070 + 8 := inSlot.2
    refine ⟨fun inside => ?_, fun t live inside => ?_⟩
    · have : 0x400000 ≤ b := inside.1
      omega
    · have : b < 0x90000 := inside.2
      omega

theorem room_of_Ico {a : Threads} {sp : Word} {n low high : Nat}
    (stack : a.stack a.table.current = Set.Ico low high)
    (above : low + 8 * n ≤ sp.toNat) (below : sp.toNat ≤ high) : a.HasRoom sp n := by
  refine ⟨by omega, fun b inside => ?_⟩
  rw [stack]
  exact ⟨by have := inside.1; omega, by have := inside.2; omega⟩

theorem bootStack_outside :
    ∀ b, InSlot bootTable.slot bootTable.current b → b ∉ bootStack := by
  intro b inSlot inside
  have low : 0x300000 ≤ b := inSlot.1
  have high : b < 0x90000 := inside.2
  omega

theorem callAndWait_allowed : Lib.Machine.Meets (bothStep someImage) BothAllowed
    (bootThreads bootCpu bootTable bootStack, bootState bootCpu bootTable fun _ => 0)
    callAndWait := by
  refine ⟨spawn_allowed _, ?_⟩
  rintro p ⟨⟩
  refine ⟨⟨by decide, by decide, Saved.live_of_some rfl,
    room_of_Ico rfl (by decide) (by decide)⟩, ?_⟩
  rintro p ⟨⟩
  refine ⟨⟨by decide, rfl, room_of_Ico rfl (by decide) (by decide)⟩, ?_⟩
  rintro p ⟨⟩
  refine ⟨room_of_Ico rfl (by decide) (by decide), ?_⟩
  rintro p ⟨⟩
  refine ⟨⟨by decide, by decide, Saved.live_of_some rfl,
    room_of_Ico rfl (by decide) (by decide)⟩, ?_⟩
  rintro p ⟨⟩
  refine ⟨⟨by decide, by decide, Saved.live_of_some rfl,
    room_of_Ico rfl (by decide) (by decide)⟩, ?_⟩
  rintro p ⟨⟩
  refine ⟨⟨by decide, _, _, rfl, rfl, by decide⟩, ?_⟩
  rintro p ⟨⟩
  exact ⟨⟨_, _, rfl, by decide⟩, fun _ _ => trivial⟩

theorem contexts_taken_up_wait : ∃ p,
    Lib.Machine.run (bothStep someImage)
      (bootThreads bootCpu bootTable bootStack, bootState bootCpu bootTable fun _ => 0)
      callAndWait = some p ∧ Represents someImage p.1 p.2 :=
  ⟨_, rfl, contexts_taken_up someImage bootCpu bootTable bootStack (fun _ => 0) (by decide)
    bootStack_outside callAndWait callAndWait_allowed _ rfl⟩

end MiniKernel.Arch
