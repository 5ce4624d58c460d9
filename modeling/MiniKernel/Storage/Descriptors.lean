import MiniKernel.Lib.Machine
import MiniKernel.Storage.Fd

/-!
# Which file a descriptor names

Source: kernel/core/fd.c, kernel/core/ufs.c:209-265, kernel/core/syscall.c:105-129.
A descriptor holds the number of a directory slot. A history numbers the files
in the order they are created and remembers which file each slot holds and which
file each descriptor was opened on; the kernel remembers neither. A slot that is
freed and taken again while a descriptor names it hands that descriptor a file
it was not opened on: `NoReuse` excludes just that.
-/
namespace MiniKernel.Storage
open Drivers
open Lib (Buffer)
open Sched (FdKind FdSlot threadMaxFds resetFdSlot consoleFdSlot)

/-! ## What a call does to slots and descriptors -/

/-- Directory and descriptors after a call. A descriptor is as it was, has moved
on within its file, or has just been opened. -/
structure Served (s : Files) (c : FileCall) (t : Files) : Prop where
  laid : Laid t.ufs
  capacity : ∀ slot, takesSlot s c ≠ some slot →
    entryCapacity s.ufs.directory slot ≤ entryCapacity t.ufs.directory slot
  descriptors : ∀ tid i, (t.fds tid i).kind = .ufs →
    ((s.fds tid i).kind = .ufs ∧ (t.fds tid i).handle = (s.fds tid i).handle ∧
      ((t.fds tid i).cursor = (s.fds tid i).cursor ∨ (t.fds tid i).cursor ≤
        512 * entryCapacity t.ufs.directory (t.fds tid i).handle.toNat)) ∨
    ((s.fds tid i).kind ≠ .ufs ∧ (t.fds tid i).cursor = 0 ∧
      ∃ slot < ufsMaxEntries, (t.fds tid i).handle = (slot : Int))

theorem Works.capacity_le {h : Nat} {s t : Ufs} (works : Works h s t) (i : Nat) :
    entryCapacity s.directory i ≤ entryCapacity t.directory i := by
  by_cases same : i = h
  · subst same
    exact works.capacity
  · exact Nat.le_of_eq (works.beside.sameExtent same).2.symm

/-- A call that works on one file and leaves the descriptors alone. -/
theorem Served.of_works {h : Nat} {s t : Files} {c : FileCall} (works : Works h s.ufs t.ufs)
    (fds : t.fds = s.fds) : Served s c t := by
  refine ⟨works.laid, fun slot _ => works.capacity_le slot, fun tid i kind => Or.inl ?_⟩
  rw [fds] at kind ⊢
  exact ⟨kind, rfl, Or.inl rfl⟩

theorem Served.refl {s : Files} (laid : Laid s.ufs) (c : FileCall) : Served s c s :=
  Served.of_works (Works.refl laid 0) rfl

/-- A descriptor is opened on slot `slot`. -/
theorem Served.opened {s t : Files} {c : FileCall} {slot tid : Nat} (served : Served s c t)
    (hslot : slot < ufsMaxEntries) (fds : t.fds = s.fds) :
    Served s c (schedFdOpen tid .ufs slot t).2 := by
  rcases schedFdOpen_spec tid .ufs slot t with full | ⟨j, free, opened⟩
  · rw [full]
    exact served
  · rw [opened]
    refine ⟨served.laid, served.capacity, fun u i kind => ?_⟩
    simp only [setFd_fds, setFd_ufs] at kind ⊢
    split
    · next same =>
      obtain ⟨rfl, rfl⟩ := same
      refine Or.inr ⟨fun was => ?_, rfl, slot, hslot, rfl⟩
      rw [← fds, free] at was
      cases was
    · next other =>
      rw [if_neg other] at kind
      exact served.descriptors u i kind

/-- The cursor of a descriptor moves on within its file. -/
theorem Served.advanced {h : Nat} {s t : Files} {c : FileCall} {tid : Nat}
    {i : Fin threadMaxFds} {n : Int} (works : Works h s.ufs t.ufs) (fds : t.fds = s.fds)
    (within : 0 < n → (t.fds tid i).kind = .ufs → (t.fds tid i).cursor + n.toNat ≤
      512 * entryCapacity t.ufs.directory (t.fds tid i).handle.toNat) :
    Served s c (advance tid i n t) := by
  unfold advance
  split
  swap
  · exact Served.of_works works fds
  next positive =>
  refine ⟨works.laid, fun slot _ => works.capacity_le slot, fun u j kind => Or.inl ?_⟩
  simp only [setFd_fds, setFd_ufs] at kind ⊢
  split
  · next same =>
    obtain ⟨rfl, rfl⟩ := same
    rw [if_pos ⟨rfl, rfl⟩] at kind
    refine ⟨fds ▸ kind, by rw [fds], Or.inr ?_⟩
    exact Nat.le_trans (Nat.mod_le _ _) (within positive kind)
  · next other =>
    rw [if_neg other, fds] at kind
    rw [fds]
    exact ⟨kind, rfl, Or.inl rfl⟩

/-- Cursors of open descriptors lie within what their file has allocated. -/
def CursorsOk (s : Files) : Prop := ∀ tid i, (s.fds tid i).kind = .ufs →
  (s.fds tid i).cursor ≤ 512 * entryCapacity s.ufs.directory (s.fds tid i).handle.toNat

theorem fdOpen_served {s : Files} (laid : Laid s.ufs) (tid : Nat) (src : Buffer)
    (flags : BitVec 64) (memfs : Option Nat) :
    Served s (.sysOpen tid true src flags memfs) (fdOpen tid (copiedName src) flags memfs s).2 := by
  have same := Served.refl laid (.sysOpen tid true src flags memfs)
  unfold fdOpen
  split
  swap
  · -- a memory file takes a descriptor, which is none of the persistent filesystem's
    split
    · exact same
    · next handle =>
      rcases schedFdOpen_spec tid .memfs handle s with full | ⟨j, _, opened⟩
      · rw [full]
        exact same
      · rw [opened]
        refine ⟨laid, fun slot _ => Nat.le_refl _, fun u i kind => ?_⟩
        simp only [setFd_fds, setFd_ufs] at kind ⊢
        split
        · next at_ =>
          rw [if_pos at_] at kind
          cases kind
        · next other =>
          rw [if_neg other] at kind
          exact Or.inl ⟨kind, rfl, Or.inl rfl⟩
  next persist =>
  split
  · next missing =>
    split
    · exact same
    next create =>
    simp only
    rcases ufsCreate_spec laid (copiedName src) (s.uid tid).toNat with
      refused | ⟨pos, short, _, slot, hslot, free, laid', beside, result⟩
    · rw [refused]
      exact same
    · have takes : takesSlot s (.sysOpen tid true src flags memfs) = some slot := by
        rw [takesSlot, if_pos ⟨rfl, persist, create, laid.ready, pos, short, missing⟩]
        exact free
      have served : Served s (.sysOpen tid true src flags memfs)
          { s with ufs := (ufsCreate (copiedName src) (s.uid tid).toNat s.ufs).2 } := by
        refine ⟨laid', fun other ne => ?_, fun u i kind => Or.inl ⟨kind, rfl, Or.inl rfl⟩⟩
        have ne' : other ≠ slot := fun same => ne (same ▸ takes)
        exact Nat.le_of_eq (beside.sameExtent ne').2.symm
      rcases result with failed | created
      · rw [failed]
        exact served
      · rw [created]
        exact served.opened hslot rfl
  · next handle found =>
    have hslot := (ufsFind_spec found).1
    split
    · exact same
    split
    · split
      · exact same
      · have truncated : Served s (.sysOpen tid true src flags memfs)
            { s with ufs := (ufsTruncate handle 0 s.ufs).2 } :=
          Served.of_works (ufsTruncate_works laid handle 0) rfl
        exact truncated.opened hslot rfl
    · exact same.opened hslot rfl

theorem fdRead_served {s : Files} (laid : Laid s.ufs) (c : FileCall) (tid : Nat) (fd : Int)
    (len : Nat) (answer : Int) : Served s c (fdRead tid fd len answer s).2.2 := by
  have same := Served.refl laid c
  unfold fdRead
  split
  · exact same
  next i found =>
  simp only
  split
  · exact same
  · exact same
  · next kind =>
    split
    · exact same
    · have works := ufsReadAt_works laid (s.fds tid i).handle (s.fds tid i).cursor len
      refine Served.advanced (t := { s with ufs :=
        (ufsReadAt (s.fds tid i).handle (s.fds tid i).cursor len s.ufs).2.2 }) works rfl ?_
      intro positive _
      -- what was read lies below the size
      cases valid : handleValid s.ufs (s.fds tid i).handle with
      | false =>
        rw [ufsReadAt_invalid valid] at positive
        dsimp only at positive
        omega
      | true =>
        have spec := (ufsReadAt_spec laid valid (s.fds tid i).cursor len).2
        have sized := laid.sized _ (handleValid_spec valid).1
        have grows := works.capacity
        dsimp only
        omega
  · next kind =>
    apply Served.advanced (Works.refl laid 0) rfl
    intro _ ufs
    rw [kind] at ufs
    cases ufs
  · exact same
  · exact same

/-- A write of a call's length at a cursor within the file's sectors. -/
theorem write_at_cursor {s : Ufs} {handle : Int} {offset len : Nat} (laid : Laid s)
    (valid : handleValid s handle = true)
    (within : offset ≤ 512 * entryCapacity s.directory handle.toNat) (buf : Buffer)
    (few : len ≤ 4096) :
    Works handle.toNat s (ufsWriteAt handle offset buf len s).2 ∧
      ((ufsWriteAt handle offset buf len s).1 = -1 ∨
        ((ufsWriteAt handle offset buf len s).1 = len ∧ offset + len ≤
          512 * entryCapacity (ufsWriteAt handle offset buf len s).2.directory handle.toNat)) := by
  have capacity := laid.allocated.capacity_le (handleValid_spec valid).1
  rw [← toInt32_small (by omega : len < 2 ^ 31)]
  exact ufsWriteAt_works laid (by omega) (by omega)
    fun _ _ => ⟨fun _ => within, fun _ _ => by omega⟩

theorem fdWrite_served {s : Files} (laid : Laid s.ufs) (cursors : CursorsOk s) (c : FileCall)
    (tid : Nat) (fd : Int) (buf : Buffer) {len : Nat} (few : len ≤ 4096) (answer : Int) :
    Served s c (fdWrite tid fd buf len answer s).2 := by
  have same := Served.refl laid c
  unfold fdWrite
  split
  · exact same
  next i found =>
  simp only
  split
  · exact same
  · exact same
  · next kind =>
    split
    · exact same
    cases valid : handleValid s.ufs (s.fds tid i).handle with
    | false =>
      have refused : ufsWriteAt (s.fds tid i).handle (s.fds tid i).cursor buf len s.ufs =
          (-1, s.ufs) := by
        unfold ufsWriteAt
        rw [if_pos (by simp [valid])]
      rw [refused]
      exact same
    | true =>
      obtain ⟨works, result⟩ := write_at_cursor laid valid (cursors tid i kind) buf few
      refine Served.advanced (t := { s with ufs :=
        (ufsWriteAt (s.fds tid i).handle (s.fds tid i).cursor buf len s.ufs).2 }) works rfl ?_
      intro positive _
      dsimp only at positive ⊢
      rcases result with failed | ⟨done, room⟩
      · omega
      · rw [done]
        exact room
  · next kind =>
    apply Served.advanced (Works.refl laid 0) rfl
    intro _ ufs
    rw [kind] at ufs
    cases ufs
  · exact same
  · exact same

theorem fileCall_served {s : Files} (laid : Laid s.ufs) (cursors : CursorsOk s) (c : FileCall) :
    Served s c (fileCall s c).2.2 := by
  have same := Served.refl laid c
  cases c with
  | sysOpen tid rangeOk src flags memfs =>
    simp only [fileCall]
    split
    · exact same
    · next ok =>
      obtain rfl : rangeOk = true := not_not.mp ok
      exact fdOpen_served laid tid src flags memfs
  | sysRead tid rangeOk fd len answer =>
    simp only [fileCall]
    split
    · exact same
    · exact fdRead_served laid _ tid fd len answer
  | sysWrite tid rangeOk fd buf len answer =>
    simp only [fileCall]
    split
    · exact same
    · next ok => exact fdWrite_served laid cursors _ tid fd buf (by unfold sysIoMaxLen at ok; omega) answer
  | sysClose tid fd =>
    simp only [fileCall, fdClose]
    cases schedFdGet tid fd s with
    | none => exact same
    | some j =>
      refine ⟨laid, fun slot _ => Nat.le_refl _, fun u i kind => Or.inl ?_⟩
      simp only [setFd_fds, setFd_ufs] at kind ⊢
      split
      · next closed =>
        rw [if_pos closed] at kind
        cases kind
      · next other =>
        rw [if_neg other] at kind
        exact ⟨kind, rfl, Or.inl rfl⟩
  | sysRemove tid rangeOk src =>
    simp only [fileCall]
    split
    · exact same
    split
    · exact same
    · rcases ufsDelete_works laid (copiedName src) with idle | ⟨slot, _, works⟩
      · exact Served.of_works (h := 0) (by simpa [idle] using Works.refl laid 0) rfl
      · exact Served.of_works works rfl
  | sysChmod tid rangeOk src perm =>
    simp only [fileCall]
    split
    · exact same
    split
    · exact same
    · next handle _ => exact Served.of_works (ufsChmod_works laid handle perm) rfl

/-! ## Histories -/

/-- The files, with the identity of what slots hold and descriptors were opened on. -/
structure History where
  files : Files
  fileOf : Nat → Nat
  nextFile : Nat
  opened : Nat → Fin threadMaxFds → Nat

/-- A call, and what it does to the identities: a slot that is taken gets a new
one, a descriptor that is opened the one of its slot. -/
def record (h : History) (c : FileCall) : History :=
  let files := (fileCall h.files c).2.2
  let fileOf :=
    match takesSlot h.files c with
    | some slot => Function.update h.fileOf slot h.nextFile
    | none => h.fileOf
  { files := files
    fileOf := fileOf
    nextFile := h.nextFile + 1
    opened := fun tid i =>
      if (h.files.fds tid i).kind ≠ .ufs ∧ (files.fds tid i).kind = .ufs then
        fileOf (files.fds tid i).handle.toNat
      else h.opened tid i }

def historyStep (h : History) (c : FileCall) : Option History := some (record h c)

/-- A fresh volume on a drive with these faults; threads have just been spawned. -/
def bootFiles (disk : Nat → Sector) (faults : Nat → Option Nat) (uid : Nat → BitVec 32) : Files where
  ufs := faultyVolume disk faults
  fds := fun _ i => if i.val < 2 then consoleFdSlot else resetFdSlot
  uid := uid

/-- The slots of a fresh volume are empty; they are numbered like files. -/
def bootHistory (disk : Nat → Sector) (faults : Nat → Option Nat) (uid : Nat → BitVec 32) :
    History where
  files := bootFiles disk faults uid
  fileOf := id
  nextFile := ufsMaxEntries
  opened := fun _ _ => 0

/-- Slot `slot` holds the file with this number. -/
def Holds (h : History) (slot file : Nat) : Prop :=
  slot < ufsMaxEntries ∧ entryUsed h.files.ufs.directory slot = true ∧ h.fileOf slot = file

/-- The file has not been removed. -/
def Alive (h : History) (file : Nat) : Prop := ∃ slot, Holds h slot file

/-- Reads and writes through a descriptor concern the file it was opened on, and
fail or transfer nothing once that file is removed. -/
def Isolated (h : History) (c : FileCall) : Prop :=
  let r := fileCall h.files c
  match c with
  | .sysRead tid _ fd _ _ => ∀ i, fdIndex fd = some i → (h.files.fds tid i).kind = .ufs →
      (∀ slot < ufsMaxEntries, SameFile slot h.files.ufs r.2.2.ufs) ∧
      (¬ Alive h (h.opened tid i) → r.1 ≤ 0 ∧ r.2.1 = []) ∧
      (Alive h (h.opened tid i) → ∃ slot start, Holds h slot (h.opened tid i) ∧
        ∀ k b, r.2.1[k]? = some b → start + k < entrySize h.files.ufs.directory slot ∧
          b = fileByte h.files.ufs slot (start + k))
  | .sysWrite tid _ fd _ _ _ => ∀ i, fdIndex fd = some i → (h.files.fds tid i).kind = .ufs →
      (∀ slot < ufsMaxEntries, ¬ Holds h slot (h.opened tid i) →
        SameFile slot h.files.ufs r.2.2.ufs) ∧
      (¬ Alive h (h.opened tid i) → r.1 ≤ 0)
  | _ => True

/-- No open descriptor names the slot a new file takes. -/
def NoReuse (h : History) (c : FileCall) : Prop :=
  ∀ slot, takesSlot h.files c = some slot → ∀ tid i, (h.files.fds tid i).kind = .ufs →
    (h.files.fds tid i).handle ≠ (slot : Int)

/-- Slots hold different files, and a descriptor names the slot whose last file
it was opened on. -/
structure Tracked (h : History) : Prop where
  laid : Laid h.files.ufs
  old : ∀ slot < ufsMaxEntries, h.fileOf slot < h.nextFile
  distinct : ∀ i < ufsMaxEntries, ∀ j < ufsMaxEntries, h.fileOf i = h.fileOf j → i = j
  descriptor : ∀ tid i, (h.files.fds tid i).kind = .ufs →
    ∃ slot < ufsMaxEntries, (h.files.fds tid i).handle = (slot : Int) ∧
      h.fileOf slot = h.opened tid i ∧
      (h.files.fds tid i).cursor ≤ 512 * entryCapacity h.files.ufs.directory slot

theorem Tracked.cursorsOk {h : History} (tracked : Tracked h) : CursorsOk h.files := by
  intro tid i kind
  obtain ⟨slot, _, handle, _, cursor⟩ := tracked.descriptor tid i kind
  rw [handle]
  exact cursor

/-- A file sits in the slot its descriptors name, or has been removed. -/
theorem Tracked.holds {h : History} (tracked : Tracked h) {tid : Nat} {i : Fin threadMaxFds}
    (kind : (h.files.fds tid i).kind = .ufs) :
    ∃ slot < ufsMaxEntries, (h.files.fds tid i).handle = (slot : Int) ∧
      ∀ other, Holds h other (h.opened tid i) ↔
        other = slot ∧ handleValid h.files.ufs (h.files.fds tid i).handle = true := by
  obtain ⟨slot, hslot, handle, file, _⟩ := tracked.descriptor tid i kind
  have valid : handleValid h.files.ufs (h.files.fds tid i).handle = true ↔
      entryUsed h.files.ufs.directory slot = true := by
    unfold handleValid
    rw [handle]
    simp [tracked.laid.ready, hslot]
  refine ⟨slot, hslot, handle, fun other => ?_⟩
  rw [valid]
  constructor
  · rintro ⟨hother, used, same⟩
    obtain rfl : other = slot := tracked.distinct other hother slot hslot (same.trans file.symm)
    exact ⟨rfl, used⟩
  · rintro ⟨rfl, used⟩
    exact ⟨hslot, used, file⟩

/-- The identities after a call: old ones stay, a taken slot has the new one. -/
theorem record_fileOf (h : History) (c : FileCall) (slot : Nat) :
    (record h c).fileOf slot =
      if takesSlot h.files c = some slot then h.nextFile else h.fileOf slot := by
  simp only [record]
  cases takes : takesSlot h.files c with
  | none => simp
  | some taken =>
    by_cases same : slot = taken
    · subst same
      simp
    · simp [same, Ne.symm same]

theorem Tracked.step {h : History} (tracked : Tracked h) (c : FileCall) (apart : NoReuse h c) :
    Tracked (record h c) := by
  have served := fileCall_served tracked.laid tracked.cursorsOk c
  refine ⟨served.laid, fun slot hslot => ?_, fun i hi j hj same => ?_, fun tid i kind => ?_⟩
  · have := tracked.old slot hslot
    rw [record_fileOf]
    change _ < h.nextFile + 1
    split <;> omega
  · rw [record_fileOf, record_fileOf] at same
    have oldI := tracked.old i hi
    have oldJ := tracked.old j hj
    split at same
    · next takenI =>
      split at same
      · next takenJ => exact Option.some.inj (takenI.symm.trans takenJ)
      · omega
    · split at same
      · omega
      · exact tracked.distinct i hi j hj same
  · change ((fileCall h.files c).2.2.fds tid i).kind = .ufs at kind
    rcases served.descriptors tid i kind with ⟨was, handle, cursor⟩ | ⟨wasNot, cursor, slot, hslot, handle⟩
    · -- an old descriptor: its slot was not taken
      obtain ⟨slot, hslot, named, file, within⟩ := tracked.descriptor tid i was
      have untaken : takesSlot h.files c ≠ some slot := fun takes => apart slot takes tid i was named
      have grows := served.capacity slot untaken
      refine ⟨slot, hslot, handle.trans named, ?_, ?_⟩
      · rw [record_fileOf, if_neg untaken, file]
        simp [record, was]
      · change ((fileCall h.files c).2.2.fds tid i).cursor ≤
          512 * entryCapacity (fileCall h.files c).2.2.ufs.directory slot
        rw [handle, named, Int.toNat_natCast] at cursor
        omega
    · refine ⟨slot, hslot, handle, ?_, ?_⟩
      · have opened : (record h c).opened tid i =
            (record h c).fileOf ((fileCall h.files c).2.2.fds tid i).handle.toNat :=
          if_pos ⟨wasNot, kind⟩
        rw [opened, handle, Int.toNat_natCast]
      · change ((fileCall h.files c).2.2.fds tid i).cursor ≤ _
        rw [cursor]
        exact Nat.zero_le _

theorem schedFdGet_of_ufs {s : Files} {tid : Nat} {fd : Int} {i : Fin threadMaxFds}
    (index : fdIndex fd = some i) (kind : (s.fds tid i).kind = .ufs) :
    schedFdGet tid fd s = some i := by
  rw [schedFdGet, Option.filter_eq_some_iff]
  exact ⟨index, by simp [kind]⟩

/-- `fd_read` on a file: refused, or `ufs_read_at` at the cursor. -/
theorem fdRead_ufs {s : Files} {tid : Nat} {fd : Int} {i : Fin threadMaxFds}
    (index : fdIndex fd = some i) (kind : (s.fds tid i).kind = .ufs) (len : Nat) (answer : Int) :
    fdRead tid fd len answer s = (-1, [], s) ∨
      ((fdRead tid fd len answer s).1 =
          (ufsReadAt (s.fds tid i).handle (s.fds tid i).cursor len s.ufs).1 ∧
        (fdRead tid fd len answer s).2.1 =
          (ufsReadAt (s.fds tid i).handle (s.fds tid i).cursor len s.ufs).2.1 ∧
        (fdRead tid fd len answer s).2.2.ufs =
          (ufsReadAt (s.fds tid i).handle (s.fds tid i).cursor len s.ufs).2.2) := by
  unfold fdRead
  rw [schedFdGet_of_ufs index kind]
  simp only [kind]
  split
  · exact Or.inl rfl
  · exact Or.inr ⟨rfl, rfl, advance_ufs ..⟩

theorem fdWrite_ufs {s : Files} {tid : Nat} {fd : Int} {i : Fin threadMaxFds}
    (index : fdIndex fd = some i) (kind : (s.fds tid i).kind = .ufs) (buf : Buffer) (len : Nat)
    (answer : Int) :
    fdWrite tid fd buf len answer s = (-1, s) ∨
      ((fdWrite tid fd buf len answer s).1 =
          (ufsWriteAt (s.fds tid i).handle (s.fds tid i).cursor buf len s.ufs).1 ∧
        (fdWrite tid fd buf len answer s).2.ufs =
          (ufsWriteAt (s.fds tid i).handle (s.fds tid i).cursor buf len s.ufs).2) := by
  unfold fdWrite
  rw [schedFdGet_of_ufs index kind]
  simp only [kind]
  split
  · exact Or.inl rfl
  · exact Or.inr ⟨rfl, advance_ufs ..⟩

theorem SameFile.refl (i : Nat) (s : Ufs) : SameFile i s s := ⟨rfl, rfl, fun _ _ => rfl⟩

theorem fdRead_isolated {h : History} (tracked : Tracked h) {tid : Nat} {fd : Int}
    {i : Fin threadMaxFds} (index : fdIndex fd = some i) (kind : (h.files.fds tid i).kind = .ufs)
    (len : Nat) (answer : Int) :
    let r := fdRead tid fd len answer h.files
    (∀ slot < ufsMaxEntries, SameFile slot h.files.ufs r.2.2.ufs) ∧
      (¬ Alive h (h.opened tid i) → r.1 ≤ 0 ∧ r.2.1 = []) ∧
      (Alive h (h.opened tid i) → ∃ slot start, Holds h slot (h.opened tid i) ∧
        ∀ k b, r.2.1[k]? = some b → start + k < entrySize h.files.ufs.directory slot ∧
          b = fileByte h.files.ufs slot (start + k)) := by
  intro r
  obtain ⟨slot, hslot, handle, holds⟩ := tracked.holds kind
  rcases fdRead_ufs index kind len answer with refused | ⟨result, bytes, after⟩
  · simp only [r, refused]
    refine ⟨fun slot _ => SameFile.refl slot _, fun _ => ⟨(by decide : (-1 : Int) ≤ 0), trivial⟩, ?_⟩
    rintro ⟨other, held⟩
    exact ⟨other, 0, held, fun k b stored => by simp at stored⟩
  · simp only [r, result, bytes, after]
    refine ⟨fun slot _ => ufsReadAt_sameFile tracked.laid _ _ _ slot, fun removed => ?_, ?_⟩
    · have invalid : handleValid h.files.ufs (h.files.fds tid i).handle = false := by
        by_contra valid
        exact removed ⟨slot, (holds slot).mpr ⟨rfl, by simpa using valid⟩⟩
      rw [ufsReadAt_invalid invalid]
      exact ⟨(by decide : (-1 : Int) ≤ 0), rfl⟩
    · rintro ⟨other, held⟩
      obtain ⟨rfl, valid⟩ := (holds other).mp held
      have spec := (ufsReadAt_spec tracked.laid valid (h.files.fds tid i).cursor len).1
      rw [handle, Int.toNat_natCast] at spec
      refine ⟨other, (h.files.fds tid i).cursor, held, ?_⟩
      rw [handle]
      exact spec

theorem fdWrite_isolated {h : History} (tracked : Tracked h) {tid : Nat} {fd : Int}
    {i : Fin threadMaxFds} (index : fdIndex fd = some i) (kind : (h.files.fds tid i).kind = .ufs)
    (buf : Buffer) {len : Nat} (few : len ≤ 4096) (answer : Int) :
    let r := fdWrite tid fd buf len answer h.files
    (∀ slot < ufsMaxEntries, ¬ Holds h slot (h.opened tid i) →
        SameFile slot h.files.ufs r.2.ufs) ∧
      (¬ Alive h (h.opened tid i) → r.1 ≤ 0) := by
  intro r
  obtain ⟨slot, hslot, handle, holds⟩ := tracked.holds kind
  rcases fdWrite_ufs index kind buf len answer with refused | ⟨result, after⟩
  · simp only [r, refused]
    exact ⟨fun slot _ _ => SameFile.refl slot _, fun _ => (by decide : (-1 : Int) ≤ 0)⟩
  · simp only [r, result, after]
    cases valid : handleValid h.files.ufs (h.files.fds tid i).handle with
    | false =>
      have nothing : ufsWriteAt (h.files.fds tid i).handle (h.files.fds tid i).cursor buf len
          h.files.ufs = (-1, h.files.ufs) := by
        unfold ufsWriteAt
        rw [if_pos (by simp [valid])]
      rw [nothing]
      exact ⟨fun slot _ _ => SameFile.refl slot _, fun _ => (by decide : (-1 : Int) ≤ 0)⟩
    | true =>
      obtain ⟨works, _⟩ := write_at_cursor tracked.laid valid (tracked.cursorsOk tid i kind) buf few
      rw [handle, Int.toNat_natCast] at works
      rw [handle] at valid holds ⊢
      refine ⟨fun other hother elsewhere => ?_, fun removed => ?_⟩
      · have ne : other ≠ slot := fun same => elsewhere ((holds other).mpr ⟨same, valid⟩)
        exact works.beside.sameFile tracked.laid hother ne
      · exact absurd ⟨slot, (holds slot).mpr ⟨rfl, valid⟩⟩ removed

theorem Tracked.isolated {h : History} (tracked : Tracked h) (c : FileCall) : Isolated h c := by
  cases c with
  | sysRead tid rangeOk fd len answer =>
    intro i index kind
    simp only [fileCall]
    split
    · refine ⟨fun slot _ => SameFile.refl slot _, fun _ => ⟨(by decide : (-1 : Int) ≤ 0), rfl⟩, ?_⟩
      rintro ⟨other, held⟩
      exact ⟨other, 0, held, fun k b stored => by simp at stored⟩
    · exact fdRead_isolated tracked index kind len answer
  | sysWrite tid rangeOk fd buf len answer =>
    intro i index kind
    simp only [fileCall]
    split
    · exact ⟨fun slot _ _ => SameFile.refl slot _, fun _ => (by decide : (-1 : Int) ≤ 0)⟩
    · next ok =>
      exact fdWrite_isolated tracked index kind buf (by unfold sysIoMaxLen at ok; omega) answer
  | _ => exact trivial

theorem bootFiles_noUfs (disk : Nat → Sector) (faults : Nat → Option Nat) (uid : Nat → BitVec 32)
    (tid : Nat) (i : Fin threadMaxFds) : ((bootFiles disk faults uid).fds tid i).kind ≠ .ufs := by
  change (if i.val < 2 then consoleFdSlot else resetFdSlot).kind ≠ .ufs
  split <;> decide

theorem bootHistory_tracked (disk : Nat → Sector) (faults : Nat → Option Nat)
    (uid : Nat → BitVec 32) : Tracked (bootHistory disk faults uid) :=
  ⟨faultyVolume_laid disk faults, fun _ hslot => hslot, fun _ _ _ _ same => same,
    fun tid i kind => absurd kind (bootFiles_noUfs disk faults uid tid i)⟩

/-- As long as no file is created in a slot that an open descriptor still names,
descriptors reach only the files they were opened on, whatever the drive does. -/
theorem descriptors_isolated (disk : Nat → Sector) (faults : Nat → Option Nat)
    (uid : Nat → BitVec 32) (calls : List FileCall) (h : History)
    (meets : Lib.Machine.Meets historyStep NoReuse (bootHistory disk faults uid) calls)
    (reached : Lib.Machine.run historyStep (bootHistory disk faults uid) calls = some h)
    (next : FileCall) : Isolated h next := by
  have tracked : Tracked h := Lib.Machine.run_invariant
    (fun s c t tracked apart stepped => by
      cases stepped
      exact tracked.step c apart)
    (bootHistory_tracked disk faults uid) meets reached
  exact tracked.isolated next

def textName (first : UInt8) : Buffer := fun p => if p = 0 then first else 0

/-- A file is created on a fresh volume, and read through its descriptor. -/
theorem descriptors_isolated_created :
    Isolated (record (bootHistory (fun _ _ => 0) (fun _ => none) fun _ => 0)
      (.sysOpen 0 true (textName 0x61) 3 none)) (.sysRead 0 true 2 1 0) :=
  descriptors_isolated (fun _ _ => 0) (fun _ => none) (fun _ => 0)
    [.sysOpen 0 true (textName 0x61) 3 none] _
    ⟨fun _ _ tid i kind => absurd kind (bootFiles_noUfs _ _ _ tid i), fun _ _ => trivial⟩ rfl _

/-! ## A slot taken again -/

/-- Thread 0 creates a file and removes it, thread 1 creates another and writes to it. -/
def slotTakenAgain : List FileCall :=
  [.sysOpen 0 true (textName 0x61) 3 none, .sysRemove 0 true (textName 0x61),
   .sysOpen 1 true (textName 0x62) 3 none, .sysWrite 1 true 2 (fun _ => 0x78) 1 0]

theorem run_historyStep (h : History) (calls : List FileCall) :
    Lib.Machine.run historyStep h calls = some (calls.foldl record h) := by
  induction calls generalizing h with
  | nil => rfl
  | cons c calls ih => exact ih (record h c)

/-- The removed file's descriptor reads the other file's byte. -/
theorem slotTakenAgain_reads_other : ¬ ∀ (disk : Nat → Sector) (faults : Nat → Option Nat)
    (uid : Nat → BitVec 32) (calls : List FileCall) (h : History),
    Lib.Machine.run historyStep (bootHistory disk faults uid) calls = some h →
      ∀ next, Isolated h next := by
  intro claim
  let h := slotTakenAgain.foldl record (bootHistory (fun _ _ => 0) (fun _ => none) fun _ => 0)
  let fd : Fin threadMaxFds := ⟨2, by decide⟩
  have kind : (h.files.fds 0 fd).kind = .ufs := by decide +kernel
  have removed : ¬ Alive h (h.opened 0 fd) := by
    have nowhere : ∀ slot < ufsMaxEntries, h.fileOf slot ≠ h.opened 0 fd := by decide +kernel
    rintro ⟨slot, hslot, _, file⟩
    exact nowhere slot hslot file
  have reads : (fileCall h.files (.sysRead 0 true 2 1 0)).1 = 1 := by decide +kernel
  have isolated := claim _ _ _ slotTakenAgain h (run_historyStep _ _) (.sysRead 0 true 2 1 0) fd
    (by decide) kind
  have := (isolated.2.1 removed).1
  rw [reads] at this
  exact absurd this (by decide)

end MiniKernel.Storage
