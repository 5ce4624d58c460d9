import MiniKernel.Arch.Contexts

/-!
# Where the contexts lie

The contexts of one thread lie one above the other on its own stack, and the running
code's stack pointer is below them: this is what every event keeps, and what makes room
for the next context without touching those there are.
-/
namespace MiniKernel.Arch
open Lib (Buffer)
open Lib.Stack
open Sched (threadStackSize)

variable {image : Image} {a : Threads} {saved : Saved} {stack : Nat → Set Nat}
  {slot : Nat → Word} {tid : Nat} {c d : Context} {cs : List Context}

/-- One context of a thread above the next one, and all above the stack pointer the code
of the first goes on with; a program interrupted in ring 3 is the only one. -/
def Ordered : List Context → Prop
  | [] => True
  | c :: rest =>
    (∀ d ∈ rest, c.bottom.toNat + 8 * c.size ≤ d.bottom.toNat) ∧
      (¬ c.User → Under c.rsp rest) ∧ (c.User → rest = []) ∧ Ordered rest

structure Inside (stack : Set Nat) (c : Context) : Prop where
  fits : c.bottom.toNat + 8 * c.size < 2 ^ 64
  covered : ∀ b, c.Covers b → b ∈ stack

structure Laid (saved : Saved) (stack : Nat → Set Nat) (slot : Nat → Word) : Prop where
  ordered : ∀ tid cs, saved tid = some cs → Ordered cs
  inside : ∀ tid cs c, saved tid = some cs → c ∈ cs → Inside (stack tid) c
  apart : ∀ t u, saved.Live t → saved.Live u → t ≠ u → Disjoint (stack t) (stack u)
  placed : Placed saved stack slot

structure Sound (a : Threads) : Prop where
  laid : Laid a.saved a.stack a.table.slot
  live : a.saved.Live a.table.current
  user : a.cpu.User → a.own = some []
  under : ¬ a.cpu.User → ∀ cs ∈ a.own, Under a.cpu.rsp cs
  waiting : ∀ tid cs, a.saved tid = some cs → tid ≠ a.table.current →
    ∃ s rest, cs = .call s :: rest

/-! ## Putting contexts on and off -/

theorem Saved.live_of_some (found : saved tid = some cs) : saved.Live tid := by
  rw [Saved.Live, found]
  exact Option.some_ne_none cs

theorem Saved.exists_of_live (live : saved.Live tid) : ∃ cs, saved tid = some cs :=
  Option.ne_none_iff_exists'.mp live

theorem Saved.live_put (live : saved.Live tid) (cs : List Context) (t : Nat) :
    Saved.Live (Function.update saved tid (some cs)) t ↔ saved.Live t := by
  unfold Saved.Live
  by_cases same : t = tid
  · rw [same, Function.update_self]
    exact ⟨fun _ => live, fun _ => Option.some_ne_none cs⟩
  · rw [Function.update_of_ne same]

theorem Saved.live_of_drop {t : Nat} (live : Saved.Live (Function.update saved tid none) t) :
    saved.Live t ∧ t ≠ tid := by
  unfold Saved.Live at live
  by_cases same : t = tid
  · rw [same, Function.update_self] at live
    exact absurd rfl live
  · rw [Function.update_of_ne same] at live
    exact ⟨live, same⟩

theorem Laid.put (laid : Laid saved stack slot) (live : saved.Live tid) (cs : List Context)
    (ordered : Ordered cs)
    (inside : ∀ c ∈ cs, Inside (stack tid) c) :
    Laid (Function.update saved tid (some cs)) stack slot where
  ordered := by
    intro t ds found
    by_cases same : t = tid
    · rw [same, Function.update_self] at found
      cases found
      exact ordered
    · rw [Function.update_of_ne same] at found
      exact laid.ordered t ds found
  inside := by
    intro t ds c found member
    by_cases same : t = tid
    · rw [same, Function.update_self] at found
      cases found
      rw [same]
      exact inside c member
    · rw [Function.update_of_ne same] at found
      exact laid.inside t ds c found member
  apart := fun t u ht hu => laid.apart t u ((Saved.live_put live cs t).mp ht)
    ((Saved.live_put live cs u).mp hu)
  placed :=
    { apart := fun t u ht hu => laid.placed.apart t u ((Saved.live_put live cs t).mp ht)
        ((Saved.live_put live cs u).mp hu)
      outside := fun t u ht hu => laid.placed.outside t u ((Saved.live_put live cs t).mp ht)
        ((Saved.live_put live cs u).mp hu) }

theorem Laid.drop (laid : Laid saved stack slot) (tid : Nat) :
    Laid (Function.update saved tid none) stack slot where
  ordered := by
    intro t ds found
    have other := (Saved.live_of_drop (Saved.live_of_some found)).2
    rw [Function.update_of_ne other] at found
    exact laid.ordered t ds found
  inside := by
    intro t ds c found member
    have other := (Saved.live_of_drop (Saved.live_of_some found)).2
    rw [Function.update_of_ne other] at found
    exact laid.inside t ds c found member
  apart := fun t u ht hu => laid.apart t u (Saved.live_of_drop ht).1 (Saved.live_of_drop hu).1
  placed :=
    { apart := fun t u ht hu =>
        laid.placed.apart t u (Saved.live_of_drop ht).1 (Saved.live_of_drop hu).1
      outside := fun t u ht hu =>
        laid.placed.outside t u (Saved.live_of_drop ht).1 (Saved.live_of_drop hu).1 }

theorem Laid.pop (laid : Laid saved stack slot) (found : saved tid = some (c :: cs)) :
    Laid (Function.update saved tid (some cs)) stack slot :=
  laid.put (Saved.live_of_some found) cs (laid.ordered tid _ found).2.2.2
    fun d member => laid.inside tid _ d found (List.mem_cons_of_mem c member)

/-- The words below the stack pointer are in nobody's way. -/
theorem Sound.below_free (sound : Sound a) {sp : Word} {n : Nat} (room : a.HasRoom sp n)
    (under : ∀ cs ∈ a.own, Under sp cs) {b : Nat} (below : Below sp n b) :
    ¬ a.saved.Held b ∧ ∀ t, a.saved.Live t → ¬ InSlot a.table.slot t b := by
  have own := room.2 b below
  constructor
  · rintro ⟨t, cs, c, found, member, covers⟩
    by_cases same : t = a.table.current
    · subst same
      have high := under cs found c member
      have low := covers.1
      have less := below.2
      omega
    · have there := (sound.laid.inside t cs c found member).covered b covers
      exact Set.disjoint_left.mp
        (sound.laid.apart t a.table.current (Saved.live_of_some found) sound.live same) there own
  · intro t live inSlot
    exact sound.laid.placed.outside t a.table.current live sound.live b inSlot own

/-! ## One event -/

theorem interruptStack_le (c : Cpu) (rsp0 : Word) (kernel : ¬ c.User) :
    (interruptStack c rsp0).toNat ≤ c.rsp.toNat := by
  rw [interruptStack, if_neg kernel, BitVec.toNat_and]
  exact Nat.and_le_left

/-- An interrupt is taken below all contexts of the thread. -/
theorem Sound.under_interrupt (sound : Sound a) :
    ∀ cs ∈ a.own, Under (interruptStack a.cpu a.rsp0) cs := by
  intro cs own c member
  by_cases user : a.cpu.User
  · have none := sound.user user
    rw [none] at own
    cases own
    cases member
  · exact Nat.le_trans (interruptStack_le a.cpu a.rsp0 user) (sound.under user cs own c member)

theorem Sound.exists_own (sound : Sound a) : ∃ cs, a.own = some cs :=
  Saved.exists_of_live sound.live

/-- The running thread leaves a context in the words below `sp`. -/
theorem Sound.push (sound : Sound a) (own : a.own = some cs) {sp : Word}
    (room : a.HasRoom sp c.size) (under : Under sp cs)
    (bottom : c.bottom.toNat + 8 * c.size = sp.toNat) (kernel : ¬ c.User → Under c.rsp cs)
    (user : c.User → cs = []) :
    Laid (Function.update a.saved a.table.current (some (c :: cs))) a.stack a.table.slot := by
  refine sound.laid.put sound.live (c :: cs) ⟨?_, kernel, user, sound.laid.ordered _ cs own⟩ ?_
  · intro d member
    rw [bottom]
    exact under d member
  · rintro d (_ | ⟨_, member⟩)
    · refine ⟨?_, fun b covers => room.2 b ⟨?_, ?_⟩⟩
      · rw [bottom]
        exact sp.isLt
      · have low := covers.1
        omega
      · have high := covers.2
        omega
    · exact sound.laid.inside _ cs d own member

/-- It is the lowest of all. -/
theorem under_push {sp : Word} (under : Under sp cs) (bottom : c.bottom.toNat ≤ sp.toNat) :
    Under c.bottom (c :: cs) := by
  rintro d (_ | ⟨_, member⟩)
  · exact Nat.le_refl _
  · exact Nat.le_trans bottom (under d member)

theorem waiting_put (sound : Sound a) (cs : Option (List Context)) (t : Nat) (ds : List Context)
    (found : Function.update a.saved a.table.current cs t = some ds)
    (other : t ≠ a.table.current) : ∃ s rest, ds = .call s :: rest := by
  rw [Function.update_of_ne other] at found
  exact sound.waiting t ds found other

theorem Sound.work (sound : Sound a) {cpu : Cpu} (stays : a.Stays cpu) :
    Sound { a with cpu := cpu } := by
  unfold Threads.Stays at stays
  by_cases user : a.cpu.User
  · rw [if_pos user] at stays
    have still : cpu.User := by
      unfold Cpu.User at user ⊢
      rw [stays.1]
      exact user
    exact ⟨sound.laid, sound.live, fun _ => sound.user user, fun kernel => absurd still kernel,
      sound.waiting⟩
  · rw [if_neg user] at stays
    exact ⟨sound.laid, sound.live, fun now => absurd now stays.1, fun _ => stays.2, sound.waiting⟩

theorem Interrupted.entered_kernel (image : Image) (i : Interrupted) : ¬ (i.entered image).User := by
  change ¬ ((8 : BitVec 16) &&& 3 = 3)
  decide

theorem userEntry_user (c : Cpu) : (userEntry c).User := by
  change userCodeSel.setWidth 16 &&& 3 = 3
  decide

theorem Interrupted.bottom_eq (c : Cpu) (rsp0 : Word) (v : Vector) (error : Word)
    (room : 8 * 23 ≤ (interruptStack c rsp0).toNat) :
    (c.interrupted rsp0 v error).bottom.toNat + 184 = (interruptStack c rsp0).toNat := by
  change (interruptStack c rsp0 - 176 - 8).toNat + 184 = _
  bv_omega

theorem Sound.trap (sound : Sound a) (image : Image) (v : Vector) (error : Word)
    (room : a.HasRoom (interruptStack a.cpu a.rsp0) 23) :
    Sound (a.step image (.trap v error)) := by
  obtain ⟨cs, own⟩ := sound.exists_own
  have bottom := Interrupted.bottom_eq a.cpu a.rsp0 v error room.1
  have under := sound.under_interrupt cs own
  have laid := sound.push (c := .trap (a.cpu.interrupted a.rsp0 v error)) own room under bottom
    (fun kernel => sound.under kernel cs own)
    (fun user => Option.some.inj (own.symm.trans (sound.user user)))
  have after : a.step image (.trap v error) =
      { a.put a.table.current (some (.trap (a.cpu.interrupted a.rsp0 v error) :: cs)) with
        cpu := (a.cpu.interrupted a.rsp0 v error).entered image } := by
    rw [Threads.step, own]
    rfl
  have found : Function.update a.saved a.table.current
      (some (.trap (a.cpu.interrupted a.rsp0 v error) :: cs)) a.table.current =
      some (.trap (a.cpu.interrupted a.rsp0 v error) :: cs) := Function.update_self ..
  rw [after]
  refine ⟨laid, Saved.live_of_some found, fun user => absurd user (Interrupted.entered_kernel image _), ?_,
    waiting_put sound _⟩
  intro _ ds own'
  cases found.symm.trans own'
  exact under_push under (Nat.le.intro bottom)

theorem Sound.handled (sound : Sound a) (image : Image) {i : Interrupted}
    (own : a.own = some (.trap i :: cs)) : Sound (a.step image .handled) := by
  have order := sound.laid.ordered _ _ own
  have after : a.step image .handled =
      { a.put a.table.current (some cs) with cpu := i.cpu } := by
    rw [Threads.step, own]
  have found : Function.update a.saved a.table.current (some cs) a.table.current = some cs :=
    Function.update_self ..
  rw [after]
  refine ⟨sound.laid.pop own, Saved.live_of_some found, ?_, ?_, waiting_put sound _⟩
  · intro user
    have alone := order.2.2.1 user
    exact found.trans (congrArg some alone)
  · intro kernel ds own'
    cases found.symm.trans own'
    exact order.2.1 kernel

theorem Sound.result (sound : Sound a) (image : Image) (regs v : Word) {i : Interrupted}
    (own : a.own = some (.trap i :: cs)) : Sound (a.step image (.result regs v)) := by
  have order := sound.laid.ordered _ _ own
  have inside := sound.laid.inside _ _ (.trap i) own List.mem_cons_self
  have after : a.step image (.result regs v) =
      a.put a.table.current (some (.trap (i.setRax v) :: cs)) := by
    rw [Threads.step, own]
  have found : Function.update a.saved a.table.current (some (.trap (i.setRax v) :: cs))
      a.table.current = some (.trap (i.setRax v) :: cs) := Function.update_self ..
  -- only a value in the frame changes, neither its place nor the level it returns to
  have laid := sound.laid.put sound.live (.trap (i.setRax v) :: cs)
    ⟨order.1, order.2.1, order.2.2.1, order.2.2.2⟩ (by
      rintro d (_ | ⟨_, member⟩)
      · exact ⟨inside.fits, inside.covered⟩
      · exact sound.laid.inside _ _ d own (List.mem_cons_of_mem _ member))
  rw [after]
  refine ⟨laid, Saved.live_of_some found, ?_, ?_, waiting_put sound _⟩
  · intro user
    cases own.symm.trans (sound.user user)
  · intro kernel ds own'
    cases found.symm.trans own'
    have under := sound.under kernel _ own
    rintro d (_ | ⟨_, member⟩)
    · exact under (.trap i) List.mem_cons_self
    · exact under d (List.mem_cons_of_mem _ member)

theorem Sound.enterUsermode (sound : Sound a) (image : Image) (own : a.own = some []) :
    Sound (a.step image .enterUsermode) :=
  ⟨sound.laid, sound.live, fun _ => own, fun kernel => absurd (userEntry_user a.cpu) kernel,
    sound.waiting⟩

/-- Switching to a thread among others that all wait in `switch_context`. -/
theorem sound_resume (laid : Laid a.saved a.stack a.table.slot)
    (waiting : ∀ t cs, a.saved t = some cs → ∃ s rest, cs = .call s :: rest)
    (live : a.saved.Live tid) (kernel : ¬ a.cpu.User) : Sound (a.resume tid) := by
  obtain ⟨cs, found⟩ := Saved.exists_of_live live
  obtain ⟨s, rest, rfl⟩ := waiting tid cs found
  have after : a.resume tid =
      { a.put tid (some rest) with
        cpu := s.resume a.cpu
        table := { a.table with current := tid } } := by
    rw [Threads.resume, found]
  have own : Function.update a.saved tid (some rest) tid = some rest := Function.update_self ..
  rw [after]
  refine ⟨laid.pop found, Saved.live_of_some own, fun user => absurd user kernel, ?_, ?_⟩
  · intro _ ds own'
    cases own.symm.trans own'
    exact (laid.ordered tid _ found).2.1 not_false
  · intro t ds found' other
    change Function.update a.saved tid (some rest) t = some ds at found'
    rw [Function.update_of_ne other] at found'
    exact waiting t ds found'

theorem Suspended.bottom_eq (c : Cpu) (back : Word) (room : 8 * 8 ≤ c.rsp.toNat) :
    (c.suspended back).bottom.toNat + 64 = c.rsp.toNat := by
  change (c.rsp - 64).toNat + 64 = _
  bv_omega

theorem Sound.switch (sound : Sound a) (image : Image) {next : Nat} (back : Word)
    (kernel : ¬ a.cpu.User) (live : a.saved.Live next)
    (room : a.HasRoom a.cpu.rsp 8) : Sound (a.step image (.switch next back)) := by
  obtain ⟨cs, own⟩ := sound.exists_own
  let c := (a.passing (a.table.slot a.table.current) (a.table.slot next)).cpu
  have under := sound.under kernel cs own
  have laid := sound.push (c := .call (c.suspended back)) own room under
    (Suspended.bottom_eq c back room.1) (fun _ => under) False.elim
  have after : a.step image (.switch next back) =
      ((a.passing (a.table.slot a.table.current) (a.table.slot next)).put a.table.current
        (some (.call (c.suspended back) :: cs))).resume next := by
    rw [Threads.step, own]
    rfl
  rw [after]
  refine sound_resume laid ?_ ((Saved.live_put sound.live _ next).mpr live) kernel
  intro t ds found
  by_cases same : t = a.table.current
  · change Function.update a.saved a.table.current _ t = some ds at found
    rw [same, Function.update_self] at found
    cases found
    exact ⟨_, _, rfl⟩
  · exact waiting_put sound _ t ds found same

theorem Sound.leave (sound : Sound a) (image : Image) {next : Nat} (discard back : Word)
    (kernel : ¬ a.cpu.User) (other : next ≠ a.table.current) (live : a.saved.Live next) :
    Sound (a.step image (.leave next discard back)) := by
  refine sound_resume (a := (a.passing discard (a.table.slot next)).put a.table.current none)
    (sound.laid.drop _) ?_ ?_ kernel
  · intro t ds found
    exact waiting_put sound none t ds found (Saved.live_of_drop (Saved.live_of_some found)).2
  · change Function.update a.saved a.table.current none next ≠ none
    rw [Function.update_of_ne other]
    exact live

theorem Sound.reap (sound : Sound a) (image : Image) (other : tid ≠ a.table.current) :
    Sound (a.step image (.reap tid)) := by
  have still : Function.update a.saved tid none a.table.current = a.own :=
    Function.update_of_ne other.symm ..
  refine ⟨sound.laid.drop tid, ?_, ?_, ?_, ?_⟩
  · change Function.update a.saved tid none a.table.current ≠ none
    rw [still]
    exact sound.live
  · intro user
    exact still.trans (sound.user user)
  · intro kernel cs own
    exact sound.under kernel cs (still.symm.trans own)
  · intro t ds found away
    have elsewhere := (Saved.live_of_drop (Saved.live_of_some found)).2
    change Function.update a.saved tid none t = some ds at found
    rw [Function.update_of_ne elsewhere] at found
    exact sound.waiting t ds found away

theorem Suspended.fresh_bottom (entry : Word) {stackLow : Word}
    (fits : stackLow.toNat + 8192 < 2 ^ 64) :
    (Suspended.fresh entry (stackLow + threadStackSize)).bottom.toNat = stackLow.toNat + 8128 := by
  change (stackLow + 8192 - 64).toNat = _
  bv_omega

theorem Saved.live_add {cs : List Context} {t : Nat}
    (live : Saved.Live (Function.update saved tid (some cs)) t) :
    t = tid ∨ (saved.Live t ∧ t ≠ tid) := by
  by_cases same : t = tid
  · exact Or.inl same
  · rw [Saved.Live, Function.update_of_ne same] at live
    exact Or.inr ⟨live, same⟩

/-- A new thread comes with a stack and a `rsp` field that are nobody else's. -/
theorem Laid.add (laid : Laid saved stack slot) (unused : ¬ saved.Live tid) {region : Set Nat}
    (cs : List Context)
    (ordered : Ordered cs) (inside : ∀ c ∈ cs, Inside region c)
    (others : ∀ t, saved.Live t → Disjoint (stack t) region ∧
      ∀ b, InSlot slot t b → b ∉ region ∧ ¬ InSlot slot tid b)
    (own : ∀ b, InSlot slot tid b → b ∉ region ∧ ∀ t, saved.Live t → b ∉ stack t) :
    Laid (Function.update saved tid (some cs)) (Function.update stack tid region) slot where
  ordered := by
    intro t ds found
    rcases Saved.live_add (Saved.live_of_some found) with rfl | ⟨-, other⟩
    · cases (Function.update_self ..).symm.trans found
      exact ordered
    · exact laid.ordered t ds ((Function.update_of_ne other ..).symm.trans found)
  inside := by
    intro t ds c found member
    rcases Saved.live_add (Saved.live_of_some found) with rfl | ⟨-, other⟩
    · cases (Function.update_self ..).symm.trans found
      rw [Function.update_self]
      exact inside c member
    · rw [Function.update_of_ne other]
      exact laid.inside t ds c ((Function.update_of_ne other ..).symm.trans found) member
  apart := by
    intro t u ht hu different
    rcases Saved.live_add ht with rfl | ⟨tlive, tother⟩
    · rcases Saved.live_add hu with rfl | ⟨ulive, uother⟩
      · exact absurd rfl different
      · rw [Function.update_self, Function.update_of_ne uother]
        exact (others u ulive).1.symm
    · rw [Function.update_of_ne tother]
      rcases Saved.live_add hu with rfl | ⟨ulive, uother⟩
      · rw [Function.update_self]
        exact (others t tlive).1
      · rw [Function.update_of_ne uother]
        exact laid.apart t u tlive ulive different
  placed :=
    { apart := by
        intro t u ht hu different b inT inU
        rcases Saved.live_add ht with rfl | ⟨tlive, -⟩
        · rcases Saved.live_add hu with rfl | ⟨ulive, -⟩
          · exact different rfl
          · exact ((others u ulive).2 b inU).2 inT
        · rcases Saved.live_add hu with rfl | ⟨ulive, -⟩
          · exact ((others t tlive).2 b inT).2 inU
          · exact laid.placed.apart t u tlive ulive different b inT inU
      outside := by
        intro t u ht hu b inT
        rcases Saved.live_add hu with rfl | ⟨ulive, uother⟩
        · rw [Function.update_self]
          rcases Saved.live_add ht with rfl | ⟨tlive, -⟩
          · exact (own b inT).1
          · exact ((others t tlive).2 b inT).1
        · rw [Function.update_of_ne uother]
          rcases Saved.live_add ht with rfl | ⟨tlive, -⟩
          · exact (own b inT).2 u ulive
          · exact laid.placed.outside t u tlive ulive b inT }

theorem Sound.spawn (sound : Sound a) (image : Image) {stackLow : Word} (entry : Word)
    (fits : stackLow.toNat + 8192 < 2 ^ 64) (unused : ¬ a.saved.Live tid)
    (others : ∀ t, a.saved.Live t →
      Disjoint (a.stack t) (Set.Ico stackLow.toNat (stackLow.toNat + 8192)) ∧
      ∀ b, InSlot a.table.slot t b →
        b ∉ Set.Ico stackLow.toNat (stackLow.toNat + 8192) ∧ ¬ InSlot a.table.slot tid b)
    (own : ∀ b, InSlot a.table.slot tid b →
      b ∉ Set.Ico stackLow.toNat (stackLow.toNat + 8192) ∧ ∀ t, a.saved.Live t → b ∉ a.stack t) :
    Sound (a.step image (.spawn tid stackLow entry)) := by
  have elsewhere : a.table.current ≠ tid := fun same => unused (same ▸ sound.live)
  have bottom := Suspended.fresh_bottom entry fits
  have still : (a.step image (.spawn tid stackLow entry)).own = a.own :=
    Function.update_of_ne elsewhere ..
  have laid := sound.laid.add unused [.call (.fresh entry (stackLow + threadStackSize))]
    ⟨nofun, fun _ => nofun, False.elim, trivial⟩ (by
      intro c member
      cases List.mem_singleton.mp member
      refine ⟨?_, fun b covers => ⟨?_, ?_⟩⟩
      · change (Suspended.fresh entry (stackLow + threadStackSize)).bottom.toNat + 8 * 8 < _
        omega
      · have low : (Suspended.fresh entry (stackLow + threadStackSize)).bottom.toNat ≤ b := covers.1
        omega
      · have high : b < (Suspended.fresh entry (stackLow + threadStackSize)).bottom.toNat + 8 * 8 :=
          covers.2
        omega) others own
  refine ⟨laid, fun gone => sound.live (still.symm.trans gone),
    fun user => still.trans (sound.user user), ?_, ?_⟩
  · intro kernel cs mine
    exact sound.under kernel cs (still.symm.trans mine)
  · intro t cs found away
    rcases Saved.live_add (Saved.live_of_some found) with rfl | ⟨-, other⟩
    · cases (Function.update_self ..).symm.trans found
      exact ⟨_, _, rfl⟩
    · exact sound.waiting t cs ((Function.update_of_ne other ..).symm.trans found) away

theorem Sound.grow (sound : Sound a) (image : Image) (mem : Buffer)
    (placed : Placed a.saved a.stack slot) : Sound (a.step image (.grow slot mem)) :=
  ⟨⟨sound.laid.ordered, sound.laid.inside, sound.laid.apart, placed⟩, sound.live, sound.user,
    sound.under, sound.waiting⟩

theorem Sound.step (sound : Sound a) (image : Image) {mem : Buffer} {e : Event}
    (allowed : a.Allowed mem e) : Sound (a.step image e) := by
  cases e with
  | work cpu mem' => exact sound.work allowed.1
  | trap v error => exact sound.trap image v error allowed
  | result regs v =>
    obtain ⟨-, i, rest, own, -⟩ := allowed
    exact sound.result image regs v own
  | handled =>
    obtain ⟨i, rest, own, -⟩ := allowed
    exact sound.handled image own
  | enterUsermode => exact sound.enterUsermode image allowed.2.1
  | switch next back => exact sound.switch image back allowed.1 allowed.2.2.1 allowed.2.2.2
  | leave next discard back =>
    exact sound.leave image discard back allowed.1 allowed.2.1 allowed.2.2.1
  | spawn tid stackLow entry =>
    exact sound.spawn image entry allowed.1 allowed.2.1 allowed.2.2.1 allowed.2.2.2
  | reap tid => exact sound.reap image allowed.1
  | grow slot mem' => exact sound.grow image mem' allowed.1

end MiniKernel.Arch
