import MiniKernel.Storage.Descriptors
import MiniKernel.Storage.FileMap

/-!
# Owners and permissions

Source: kernel/core/fd.c:9-143, kernel/core/syscall.c:105-129 and 273-298. Rights
are checked against the entry that is in a slot now, whatever the descriptor was
opened on. What is protected is a file's sectors too: a file whose size reaches
beyond its sectors shows those of its neighbour.
-/
namespace MiniKernel.Storage
open Drivers
open Lib (Buffer readU32 writeU32)
open Sched (FdKind FdSlot threadMaxFds resetFdSlot consoleFdSlot)

def FileCall.tid : FileCall → Nat
  | .sysOpen tid _ _ _ _ | .sysRead tid _ _ _ _ | .sysWrite tid _ _ _ _ _ | .sysClose tid _
  | .sysRemove tid _ _ | .sysChmod tid _ _ _ => tid

/-- The file in slot `i` belongs to the thread's user. -/
def Owned (s : Files) (tid i : Nat) : Prop :=
  entryOwner s.ufs.directory i = (s.uid tid).toNat

/-- The bit is set for others. -/
def OthersMay (s : Files) (bit : UInt8) (i : Nat) : Prop :=
  entryPerm s.ufs.directory i &&& bit ≠ 0

/-- Name, owner and permission bits are as they were, and so is the file's being there. -/
structure SameHead (i : Nat) (s t : Ufs) : Prop where
  used : entryUsed t.directory i = entryUsed s.directory i
  name : nameAt t.directory i = nameAt s.directory i
  owner : entryOwner t.directory i = entryOwner s.directory i
  perm : entryPerm t.directory i = entryPerm s.directory i

/-- One call respects the files of other users. -/
structure Respects (s : Files) (c : FileCall) : Prop where
  /-- What is returned comes from a file the caller may read. -/
  returned : ∀ (k : Nat) b, (fileCall s c).2.1[k]? = some b → ∃ i < ufsMaxEntries,
    entryUsed s.ufs.directory i = true ∧ (Owned s c.tid i ∨ OthersMay s ufsPermOtherRead i) ∧
      ∃ p < entrySize s.ufs.directory i, b = fileByte s.ufs i p
  /-- A read transfers no sector of a file the caller may not read. -/
  transferred : ∀ tid rangeOk fd len answer, c = .sysRead tid rangeOk fd len answer →
    ∃ sectors, (fileCall s c).2.2.ufs.drive.reads = s.ufs.drive.reads ++ sectors ∧
      ∀ a ∈ sectors, ∀ i < ufsMaxEntries, entryUsed s.ufs.directory i = true →
        InExtent s.ufs.directory i a → Owned s tid i ∨ OthersMay s ufsPermOtherRead i
  kept : ∀ i < ufsMaxEntries, entryUsed s.ufs.directory i = true → ¬ Owned s c.tid i →
    SameHead i s.ufs (fileCall s c).2.2.ufs ∧
      (¬ OthersMay s ufsPermOtherWrite i → SameFile i s.ufs (fileCall s c).2.2.ufs)
  created : ∀ i < ufsMaxEntries, entryUsed s.ufs.directory i = false →
    entryUsed (fileCall s c).2.2.ufs.directory i = true → Owned (fileCall s c).2.2 c.tid i

/-- A write of no bytes does not move the end of a file beyond its sectors. -/
def EmptyWriteInside (s : Files) : FileCall → Prop
  | .sysWrite tid rangeOk fd _ len _ => rangeOk = true → len = 0 →
      ∀ i, schedFdGet tid fd s = some i → (s.fds tid i).kind = .ufs →
        permitted tid (s.fds tid i).handle ufsPermOtherWrite s = true →
        handleValid s.ufs (s.fds tid i).handle = true →
        (s.fds tid i).cursor ≤ 512 * entryCapacity s.ufs.directory (s.fds tid i).handle.toNat
  | _ => True

def filesStep (s : Files) (c : FileCall) : Option Files := some (fileCall s c).2.2

/-! ## Heads -/

theorem sameHead_of_bytes {i : Nat} {s t : Ufs}
    (bytes : ∀ j, j < 20 ∨ 32 ≤ j ∧ j < 40 →
      t.directory (entryAt i + j) = s.directory (entryAt i + j)) : SameHead i s t := by
  constructor
  · unfold entryUsed
    have first := bytes 0 (by omega)
    rw [Nat.add_zero] at first
    rw [first]
  · apply nameAt_congr
    intro j hj
    unfold ufsNameMax at hj
    exact bytes j (by omega)
  · apply Lib.readU32_congr
    intro j hj
    rw [Nat.add_assoc]
    exact bytes _ (by omega)
  · exact bytes 36 (by omega)

theorem SameHead.refl (i : Nat) (s : Ufs) : SameHead i s s := ⟨rfl, rfl, rfl, rfl⟩

theorem Beside.sameHead {h i : Nat} {s t : Ufs} (beside : Beside h s t) (other : i ≠ h) :
    SameHead i s t :=
  sameHead_of_bytes fun _ _ => beside.entries _ (entry_outside other (by omega) (by omega))

/-- Outside start, size and capacity the directory is as it was. -/
def HeadsKept (h : Nat) (dir dir' : Buffer) : Prop :=
  ∀ p, p < entryAt h + 20 ∨ entryAt h + 32 ≤ p → dir' p = dir p

theorem HeadsKept.sameHead {h : Nat} {s t : Ufs} (kept : HeadsKept h s.directory t.directory) :
    SameHead h s t := sameHead_of_bytes fun _ _ => kept _ (by omega)

theorem ufsTruncate_headsKept (handle : Int) (newSize : Nat) (s : Ufs) :
    HeadsKept handle.toNat s.directory (ufsTruncate handle newSize s).2.directory := by
  intro p outside
  unfold ufsTruncate
  split
  · rfl
  split
  · rfl
  · rw [(persist_frame _).1]
    exact Lib.writeU32_outside _ _ _ _ (by omega)

theorem ensureCapacity_headsKept (handle needed : Nat) (s : Ufs) :
    HeadsKept handle s.directory (ensureCapacity handle needed s).2.directory := by
  intro p outside
  unfold ensureCapacity
  simp only
  split
  · rfl
  split
  · rfl
  generalize (if entrySize s.directory handle > 0 then _ else _) = moved
  split
  · rfl
  · rw [(persist_frame _).1]
    exact movedEntry_outside _ _ _ _ _ (by omega)

theorem ufsWriteAt_headsKept (handle : Int) (offset : Nat) (buf : Buffer) (len : Nat) (s : Ufs) :
    HeadsKept handle.toNat s.directory (ufsWriteAt handle offset buf len s).2.directory := by
  intro p outside
  have grown : (if len > 0 then ensureCapacity handle.toNat (wrap32 (offset + len)) s
      else (true, s)).2.directory p = s.directory p := by
    split
    · exact ensureCapacity_headsKept _ _ s p outside
    · rfl
  unfold ufsWriteAt
  simp only
  generalize (if len > 0 then _ else _) = g at grown ⊢
  split
  · rfl
  split
  · rfl
  split
  · exact grown
  split
  · exact grown
  split
  · rw [(persist_frame _).1]
    exact (Lib.writeU32_outside _ _ _ _ (by omega)).trans grown
  · exact grown

theorem ufsCreate_directory (name : CString) (ownerUid : Nat) (s : Ufs) :
    (ufsCreate name ownerUid s).2 = s ∨ ∃ slot, firstFree s.directory = some slot ∧
      (ufsCreate name ownerUid s).2.directory = createdEntry s.directory slot name ownerUid := by
  unfold ufsCreate
  split
  · exact Or.inl rfl
  split
  · exact Or.inl rfl
  split
  · exact Or.inl rfl
  split
  · exact Or.inl rfl
  · next slot free => exact Or.inr ⟨slot, free, (persist_frame _).1⟩

/-! ## One call changes one slot -/

theorem permitted_cases {tid : Nat} {handle : Int} {bit : UInt8} {s : Files}
    (valid : handleValid s.ufs handle = true) (ok : permitted tid handle bit s = true) :
    Owned s tid handle.toNat ∨ OthersMay s bit handle.toNat := by
  unfold permitted isOwner ufsOwner ufsPerm at ok
  rw [if_pos valid, if_pos valid, Bool.or_eq_true, decide_eq_true_eq, decide_eq_true_eq] at ok
  exact ok.imp Eq.symm id

theorem owned_of_isOwner {s : Files} {tid h : Nat} (laid : Laid s.ufs) (slot : h < ufsMaxEntries)
    (used : entryUsed s.ufs.directory h = true) (own : isOwner tid h s = true) : Owned s tid h := by
  have valid : handleValid s.ufs h = true := by
    unfold handleValid
    rw [laid.ready, Int.toNat_natCast, used]
    simp [slot]
  unfold isOwner ufsOwner at own
  rw [if_pos valid, decide_eq_true_eq, Int.toNat_natCast] at own
  exact own.symm

/-- A call of thread `tid` that changes slot `h` only, and only as its user may. -/
structure Confined (s : Files) (tid h : Nat) (t : Files) : Prop where
  laid : Laid t.ufs
  uid : t.uid = s.uid
  beside : Beside h s.ufs t.ufs
  own : h < ufsMaxEntries → entryUsed s.ufs.directory h = true → ¬ Owned s tid h →
    SameHead h s.ufs t.ufs ∧ (¬ OthersMay s ufsPermOtherWrite h → SameFile h s.ufs t.ufs)
  fresh : entryUsed s.ufs.directory h = false → entryUsed t.ufs.directory h = true → Owned t tid h

theorem Confined.same {s t : Files} (laid : Laid s.ufs) (tid : Nat) (ufs : t.ufs = s.ufs)
    (uid : t.uid = s.uid) : Confined s tid 0 t := by
  refine ⟨ufs ▸ laid, uid, ufs ▸ Beside.refl 0 s.ufs, fun _ _ _ => ?_, fun unused used => ?_⟩
  · rw [ufs]
    exact ⟨SameHead.refl 0 _, fun _ => SameFile.refl 0 _⟩
  · rw [ufs, unused] at used
    cases used

/-- What happens to the descriptors does not matter. -/
theorem Confined.files {s t u : Files} {tid h : Nat} (confined : Confined s tid h t)
    (ufs : u.ufs = t.ufs) (uid : u.uid = t.uid) : Confined s tid h u := by
  refine ⟨ufs ▸ confined.laid, uid.trans confined.uid, ufs ▸ confined.beside, ?_, ?_⟩
  · rw [ufs]
    exact confined.own
  · unfold Owned
    rw [ufs, uid]
    exact confined.fresh

theorem Confined.kept {s t : Files} {tid h : Nat} (confined : Confined s tid h t)
    (laid : Laid s.ufs) {i : Nat} (hi : i < ufsMaxEntries)
    (used : entryUsed s.ufs.directory i = true) (other : ¬ Owned s tid i) :
    SameHead i s.ufs t.ufs ∧ (¬ OthersMay s ufsPermOtherWrite i → SameFile i s.ufs t.ufs) := by
  by_cases same : i = h
  · subst same
    exact confined.own hi used other
  · exact ⟨confined.beside.sameHead same, fun _ => confined.beside.sameFile laid hi same⟩

theorem Confined.created {s t : Files} {tid h : Nat} (confined : Confined s tid h t) {i : Nat}
    (unused : entryUsed s.ufs.directory i = false) (used : entryUsed t.ufs.directory i = true) :
    Owned t tid i := by
  by_cases same : i = h
  · subst same
    exact confined.fresh unused used
  · rw [confined.beside.used same, unused] at used
    cases used

/-- An operation on a file the caller may write to. -/
theorem Confined.written {s : Files} {tid : Nat} {handle : Int} {u : Ufs}
    (works : Works handle.toNat s.ufs u) (heads : HeadsKept handle.toNat s.ufs.directory u.directory)
    (valid : handleValid s.ufs handle = true)
    (may : permitted tid handle ufsPermOtherWrite s = true) :
    Confined s tid handle.toNat { s with ufs := u } := by
  refine ⟨works.laid, rfl, works.beside, fun _ _ other => ⟨heads.sameHead, fun closed => ?_⟩,
    fun unused => ?_⟩
  · rcases permitted_cases valid may with own | open_
    · exact absurd own other
    · exact absurd open_ closed
  · rw [(handleValid_spec valid).2] at unused
    cases unused

/-- An operation on a file of the caller's own. -/
theorem Confined.owned {s : Files} {tid h : Nat} {u : Ufs} (works : Works h s.ufs u)
    (used : entryUsed s.ufs.directory h = true) (own : Owned s tid h) :
    Confined s tid h { s with ufs := u } :=
  ⟨works.laid, rfl, works.beside, fun _ _ other => absurd own other, fun unused => by
    rw [used] at unused
    cases unused⟩

theorem schedFdOpen_ufs (tid : Nat) (kind : FdKind) (handle : Int) (s : Files) :
    (schedFdOpen tid kind handle s).2.ufs = s.ufs ∧ (schedFdOpen tid kind handle s).2.uid = s.uid := by
  rcases schedFdOpen_spec tid kind handle s with full | ⟨i, _, opened⟩
  · rw [full]
    exact ⟨rfl, rfl⟩
  · rw [opened]
    exact ⟨rfl, rfl⟩

theorem created_confined {s : Files} (laid : Laid s.ufs) (tid : Nat) (name : CString) :
    ∃ h, Confined s tid h { s with ufs := (ufsCreate name (s.uid tid).toNat s.ufs).2 } := by
  rcases ufsCreate_spec laid name (s.uid tid).toNat with
    refused | ⟨_, _, _, slot, _, free, laid', beside, _⟩
  · rw [refused]
    exact ⟨0, Confined.same laid tid rfl rfl⟩
  rcases ufsCreate_directory name (s.uid tid).toNat s.ufs with same | ⟨slot', free', directory⟩
  · rw [same]
    exact ⟨0, Confined.same laid tid rfl rfl⟩
  rw [free] at free'
  cases free'
  have unused := (firstFree_spec free).2
  refine ⟨slot, laid', rfl, beside, fun _ used => ?_, fun _ _ => ?_⟩
  · rw [unused] at used
    cases used
  · unfold Owned
    simp only [directory]
    exact (createdEntry_owner _ slot name _ (s.uid tid).isLt).1

theorem fdOpen_confined {s : Files} (laid : Laid s.ufs) (tid : Nat) (name : CString)
    (flags : BitVec 64) (memfs : Option Nat) :
    ∃ h, Confined s tid h (fdOpen tid name flags memfs s).2 := by
  have same : Confined s tid 0 s := Confined.same laid tid rfl rfl
  have opened {h : Nat} {t : Files} (confined : Confined s tid h t) (kind : FdKind) (handle : Int) :
      Confined s tid h (schedFdOpen tid kind handle t).2 :=
    confined.files (schedFdOpen_ufs tid kind handle t).1 (schedFdOpen_ufs tid kind handle t).2
  unfold fdOpen
  split
  swap
  · split
    · exact ⟨0, same⟩
    · exact ⟨0, opened same _ _⟩
  split
  · split
    · exact ⟨0, same⟩
    obtain ⟨h, confined⟩ := created_confined laid tid name
    simp only
    split
    · exact ⟨h, confined⟩
    · exact ⟨h, opened confined _ _⟩
  · next handle found =>
    obtain ⟨hslot, used⟩ := ufsFind_spec found
    split
    · exact ⟨0, same⟩
    split
    swap
    · exact ⟨0, opened same _ _⟩
    split
    · exact ⟨0, same⟩
    · next may =>
      have valid : handleValid s.ufs handle = true := by
        unfold handleValid
        rw [laid.ready, Int.toNat_natCast, used]
        simp [hslot]
      have confined := Confined.written (ufsTruncate_works laid handle 0)
        (ufsTruncate_headsKept handle 0 s.ufs) valid (Classical.not_not.mp may)
      exact ⟨_, opened confined _ _⟩

/-! ## Descriptors -/

/-- No file is longer than the data area, so no cursor is further on. -/
def CursorsSmall (s : Files) : Prop :=
  ∀ tid i, (s.fds tid i).kind = .ufs → (s.fds tid i).cursor ≤ 512 * 8192

theorem CursorsSmall.setFd {s : Files} (small : CursorsSmall s) (tid : Nat) (i : Fin threadMaxFds)
    {slot : FdSlot} (own : slot.kind = .ufs → slot.cursor ≤ 512 * 8192) :
    CursorsSmall (s.setFd tid i slot) := by
  intro t j kind
  rw [setFd_fds] at kind ⊢
  split
  · next here =>
    rw [if_pos here] at kind
    exact own kind
  · next elsewhere =>
    rw [if_neg elsewhere] at kind
    exact small t j kind

theorem CursorsSmall.files {s t : Files} (small : CursorsSmall s) (fds : t.fds = s.fds) :
    CursorsSmall t := by
  unfold CursorsSmall
  rw [fds]
  exact small

theorem CursorsSmall.opened {s t : Files} (small : CursorsSmall s) (fds : t.fds = s.fds) (tid : Nat)
    (kind : FdKind) (handle : Int) : CursorsSmall (schedFdOpen tid kind handle t).2 := by
  rcases schedFdOpen_spec tid kind handle t with full | ⟨i, _, opened⟩
  · rw [full]
    exact small.files fds
  · rw [opened]
    exact (small.files fds).setFd tid i fun _ => Nat.zero_le _

theorem CursorsSmall.advanced {s t : Files} (small : CursorsSmall s) (fds : t.fds = s.fds)
    {tid : Nat} {i : Fin threadMaxFds} {n : Int} (within : 0 < n → (s.fds tid i).kind = .ufs →
      (s.fds tid i).cursor + n.toNat ≤ 512 * 8192) : CursorsSmall (advance tid i n t) := by
  unfold advance
  split
  · next positive =>
    rw [fds]
    exact (small.files fds).setFd tid i fun kind =>
      Nat.le_trans (Nat.mod_le _ _) (within positive kind)
  · exact small.files fds

theorem fdOpen_small {s : Files} (small : CursorsSmall s) (tid : Nat) (name : CString)
    (flags : BitVec 64) (memfs : Option Nat) :
    CursorsSmall (fdOpen tid name flags memfs s).2 := by
  unfold fdOpen
  split
  · split
    · split
      · exact small
      simp only
      split
      · exact small.files rfl
      · exact small.opened (by rfl) _ _ _
    · split
      · exact small
      split
      · split
        · exact small
        · exact small.opened (by rfl) _ _ _
      · exact small.opened (by rfl) _ _ _
  · split
    · exact small
    · exact small.opened (by rfl) _ _ _

theorem advance_uid (tid : Nat) (i : Fin threadMaxFds) (n : Int) (s : Files) :
    (advance tid i n s).uid = s.uid := by
  unfold advance
  split <;> rfl

/-- A read through a descriptor: where it goes to the volume, the caller may read. -/
theorem fdRead_cases (tid : Nat) (fd : Int) (len : Nat) (answer : Int) (s : Files) :
    (∃ r, fdRead tid fd len answer s = (r, [], s)) ∨
      (∃ i, (s.fds tid i).kind = .memfs ∧
        fdRead tid fd len answer s = (answer, [], advance tid i answer s)) ∨
      ∃ i, (s.fds tid i).kind = .ufs ∧ permitted tid (s.fds tid i).handle ufsPermOtherRead s = true ∧
        fdRead tid fd len answer s =
          ((ufsReadAt (s.fds tid i).handle (s.fds tid i).cursor len s.ufs).1,
            (ufsReadAt (s.fds tid i).handle (s.fds tid i).cursor len s.ufs).2.1,
            advance tid i (ufsReadAt (s.fds tid i).handle (s.fds tid i).cursor len s.ufs).1
              { s with ufs :=
                (ufsReadAt (s.fds tid i).handle (s.fds tid i).cursor len s.ufs).2.2 }) := by
  unfold fdRead
  split
  · exact Or.inl ⟨_, rfl⟩
  next i found =>
  simp only
  split
  · exact Or.inl ⟨_, rfl⟩
  · exact Or.inl ⟨_, rfl⟩
  · next kind =>
    split
    · exact Or.inl ⟨_, rfl⟩
    · next may => exact Or.inr (Or.inr ⟨i, kind, Classical.not_not.mp may, rfl⟩)
  · next kind => exact Or.inr (Or.inl ⟨i, kind, rfl⟩)
  · exact Or.inl ⟨_, rfl⟩
  · exact Or.inl ⟨_, rfl⟩

theorem fdWrite_cases (tid : Nat) (fd : Int) (buf : Buffer) (len : Nat) (answer : Int) (s : Files) :
    (∃ r, fdWrite tid fd buf len answer s = (r, s)) ∨
      (∃ i, (s.fds tid i).kind = .memfs ∧
        fdWrite tid fd buf len answer s = (answer, advance tid i answer s)) ∨
      ∃ i, schedFdGet tid fd s = some i ∧ (s.fds tid i).kind = .ufs ∧
        permitted tid (s.fds tid i).handle ufsPermOtherWrite s = true ∧
        fdWrite tid fd buf len answer s =
          ((ufsWriteAt (s.fds tid i).handle (s.fds tid i).cursor buf len s.ufs).1,
            advance tid i (ufsWriteAt (s.fds tid i).handle (s.fds tid i).cursor buf len s.ufs).1
              { s with ufs :=
                (ufsWriteAt (s.fds tid i).handle (s.fds tid i).cursor buf len s.ufs).2 }) := by
  unfold fdWrite
  split
  · exact Or.inl ⟨_, rfl⟩
  next i found =>
  simp only
  split
  · exact Or.inl ⟨_, rfl⟩
  · exact Or.inl ⟨_, rfl⟩
  · next kind =>
    split
    · exact Or.inl ⟨_, rfl⟩
    · next may => exact Or.inr (Or.inr ⟨i, found, kind, Classical.not_not.mp may, rfl⟩)
  · next kind => exact Or.inr (Or.inl ⟨i, kind, rfl⟩)
  · exact Or.inl ⟨_, rfl⟩
  · exact Or.inl ⟨_, rfl⟩

/-! ## Every call -/

/-- Between calls: a sound volume, and cursors no further on than a file can be. -/
structure Guarded (s : Files) : Prop where
  laid : Laid s.ufs
  cursors : CursorsSmall s

theorem memfs_advance {s : Files} (guarded : Guarded s) {tid : Nat} {i : Fin threadMaxFds}
    (kind : (s.fds tid i).kind = .memfs) (n : Int) :
    CursorsSmall (advance tid i n s) ∧ Confined s tid 0 (advance tid i n s) := by
  refine ⟨guarded.cursors.advanced (by rfl) fun _ ufs => ?_,
    Confined.same guarded.laid tid (advance_ufs tid i n s) (advance_uid tid i n s)⟩
  rw [kind] at ufs
  cases ufs

theorem fdWrite_confined {s : Files} (guarded : Guarded s) (tid : Nat) (fd : Int) (buf : Buffer)
    {len : Nat} (few : len ≤ 4096) (answer : Int) (inside : len = 0 →
      ∀ i, schedFdGet tid fd s = some i → (s.fds tid i).kind = .ufs →
        permitted tid (s.fds tid i).handle ufsPermOtherWrite s = true →
        handleValid s.ufs (s.fds tid i).handle = true →
        (s.fds tid i).cursor ≤ 512 * entryCapacity s.ufs.directory (s.fds tid i).handle.toNat) :
    CursorsSmall (fdWrite tid fd buf len answer s).2 ∧
      ∃ h, Confined s tid h (fdWrite tid fd buf len answer s).2 := by
  have same : Confined s tid 0 s := Confined.same guarded.laid tid rfl rfl
  rcases fdWrite_cases tid fd buf len answer s with
    ⟨r, idle⟩ | ⟨i, kind, memory⟩ | ⟨i, found, kind, may, writes⟩
  · rw [idle]
    exact ⟨guarded.cursors, 0, same⟩
  · rw [memory]
    obtain ⟨small, confined⟩ := memfs_advance guarded kind answer
    exact ⟨small, 0, confined⟩
  rw [writes]
  have cursor := guarded.cursors tid i kind
  have inside_ := fun zero => inside zero i found kind may
  generalize (s.fds tid i).handle = handle at may inside_ ⊢
  generalize hcursor : (s.fds tid i).cursor = offset at cursor inside_ ⊢
  by_cases valid : handleValid s.ufs handle = true
  swap
  · have refused := ufsWriteAt_refused buf (show offset < 2 ^ 32 by omega) (show len < 2 ^ 32 by omega)
      (Or.inl (Bool.eq_false_iff.mpr valid))
    rw [refused]
    exact ⟨guarded.cursors, 0, Confined.same guarded.laid tid (advance_ufs ..) (advance_uid ..)⟩
  obtain ⟨works, result⟩ := @ufsWriteAt_works _ _ _ _ buf guarded.laid (show offset < 2 ^ 32 by omega)
    (show len < 2 ^ 32 by omega) fun _ _ => ⟨fun zero => inside_ zero valid, fun _ _ => by omega⟩
  have capacity := works.laid.allocated.capacity_le (handleValid_spec valid).1
  refine ⟨guarded.cursors.advanced (by rfl) fun positive _ => ?_, handle.toNat,
    (Confined.written works (ufsWriteAt_headsKept handle offset buf len s.ufs) valid may).files
      (advance_ufs ..) (advance_uid ..)⟩
  simp only [hcursor]
  rcases result with failed | ⟨done, room⟩
  · omega
  · rw [done, toInt32_small (by omega), Int.toNat_natCast]
    omega

theorem fdRead_confined {s : Files} (guarded : Guarded s) (tid : Nat) (fd : Int) (len : Nat)
    (answer : Int) : CursorsSmall (fdRead tid fd len answer s).2.2 ∧
      ∃ h, Confined s tid h (fdRead tid fd len answer s).2.2 := by
  have same : Confined s tid 0 s := Confined.same guarded.laid tid rfl rfl
  rcases fdRead_cases tid fd len answer s with ⟨r, idle⟩ | ⟨i, kind, memory⟩ | ⟨i, kind, _, reads⟩
  · rw [idle]
    exact ⟨guarded.cursors, 0, same⟩
  · rw [memory]
    obtain ⟨small, confined⟩ := memfs_advance guarded kind answer
    exact ⟨small, 0, confined⟩
  rw [reads]
  obtain ⟨d, touches, after⟩ := ufsReadAt_frame guarded.laid (s.fds tid i).handle
    (s.fds tid i).cursor len
  have works := ufsReadAt_works guarded.laid (s.fds tid i).handle (s.fds tid i).cursor len
  refine ⟨guarded.cursors.advanced (by rfl) fun positive _ => ?_, (s.fds tid i).handle.toNat,
    Confined.files (t := { s with ufs :=
      (ufsReadAt (s.fds tid i).handle (s.fds tid i).cursor len s.ufs).2.2 }) ⟨works.laid, rfl, works.beside, fun hi _ _ => ?_,
      fun unused used => ?_⟩ (advance_ufs ..) (advance_uid ..)⟩
  · cases valid : handleValid s.ufs (s.fds tid i).handle with
    | false =>
      rw [ufsReadAt_invalid valid] at positive
      have nothing : ¬ (0 : Int) < -1 := by decide
      exact absurd positive nothing
    | true =>
      have spec := (ufsReadAt_spec guarded.laid valid (s.fds tid i).cursor len).2
      have slot := (handleValid_spec valid).1
      have sized := guarded.laid.sized _ slot
      have capacity := guarded.laid.allocated.capacity_le slot
      omega
  · refine ⟨?_, fun _ => ufsReadAt_sameFile guarded.laid _ _ _ _⟩
    rw [after]
    exact sameHead_of_bytes fun _ _ => rfl
  · rw [after] at used
    simp only [unused] at used
    cases used

theorem fileCall_confined {s : Files} (guarded : Guarded s) (c : FileCall)
    (inside : EmptyWriteInside s c) :
    CursorsSmall (fileCall s c).2.2 ∧ ∃ h, Confined s c.tid h (fileCall s c).2.2 := by
  have idle (tid : Nat) : CursorsSmall s ∧ ∃ h, Confined s tid h s :=
    ⟨guarded.cursors, 0, Confined.same guarded.laid tid rfl rfl⟩
  cases c with
  | sysOpen tid rangeOk src flags memfs =>
    simp only [fileCall, FileCall.tid]
    split
    · exact idle tid
    · exact ⟨fdOpen_small guarded.cursors tid _ flags memfs,
        fdOpen_confined guarded.laid tid _ flags memfs⟩
  | sysRead tid rangeOk fd len answer =>
    simp only [fileCall, FileCall.tid]
    split
    · exact idle tid
    · exact fdRead_confined guarded tid fd len answer
  | sysWrite tid rangeOk fd buf len answer =>
    simp only [fileCall, FileCall.tid]
    split
    · exact idle tid
    · next ok =>
      rw [not_or, Classical.not_not] at ok
      exact fdWrite_confined guarded tid fd buf (by unfold sysIoMaxLen at ok; omega) answer
        (inside ok.2)
  | sysClose tid fd =>
    simp only [fileCall, fdClose, FileCall.tid]
    cases schedFdGet tid fd s with
    | none => exact idle tid
    | some j =>
      refine ⟨guarded.cursors.setFd tid j fun kind => ?_, 0, Confined.same guarded.laid tid rfl rfl⟩
      cases kind
  | sysRemove tid rangeOk src =>
    simp only [fileCall, FileCall.tid]
    split
    · exact idle tid
    split
    · exact idle tid
    next handle found =>
    obtain ⟨named, own⟩ := ownFile_spec found
    obtain ⟨slot, used⟩ := ufsFind_spec named
    refine ⟨guarded.cursors.files rfl, ?_⟩
    rcases ufsDelete_works guarded.laid (copiedName src) with same | ⟨h, found', works⟩
    · rw [same]
      exact ⟨0, Confined.same guarded.laid tid rfl rfl⟩
    · rw [named] at found'
      cases found'
      exact ⟨handle, Confined.owned works used (owned_of_isOwner guarded.laid slot used own)⟩
  | sysChmod tid rangeOk src perm =>
    simp only [fileCall, FileCall.tid]
    split
    · exact idle tid
    split
    · exact idle tid
    next handle found =>
    obtain ⟨named, own⟩ := ownFile_spec found
    obtain ⟨slot, used⟩ := ufsFind_spec named
    exact ⟨guarded.cursors.files rfl, handle,
      Confined.owned (ufsChmod_works guarded.laid handle perm) used
        (owned_of_isOwner guarded.laid slot used own)⟩

theorem Guarded.step {s : Files} (guarded : Guarded s) (c : FileCall)
    (inside : EmptyWriteInside s c) :
    Guarded (fileCall s c).2.2 ∧ (fileCall s c).2.2.uid = s.uid := by
  obtain ⟨small, h, confined⟩ := fileCall_confined guarded c inside
  exact ⟨⟨confined.laid, small⟩, confined.uid⟩

/-- Only a read returns bytes. -/
theorem fileCall_bytes {s : Files} {c : FileCall} (other : ∀ tid rangeOk fd len answer,
    c ≠ .sysRead tid rangeOk fd len answer) : (fileCall s c).2.1 = [] := by
  cases c with
  | sysRead tid rangeOk fd len answer => exact absurd rfl (other tid rangeOk fd len answer)
  | sysOpen | sysWrite =>
    simp only [fileCall]
    split <;> rfl
  | sysClose => rfl
  | sysRemove | sysChmod =>
    simp only [fileCall]
    split
    · rfl
    · split <;> rfl

/-- What a read through a descriptor returns and transfers. -/
structure ReadsOwn (s : Files) (tid : Nat) (bytes : List UInt8) (t : Files) : Prop where
  returned : ∀ (k : Nat) b, bytes[k]? = some b → ∃ i < ufsMaxEntries,
    entryUsed s.ufs.directory i = true ∧ (Owned s tid i ∨ OthersMay s ufsPermOtherRead i) ∧
      ∃ p < entrySize s.ufs.directory i, b = fileByte s.ufs i p
  transferred : ∃ sectors, t.ufs.drive.reads = s.ufs.drive.reads ++ sectors ∧
    ∀ a ∈ sectors, ∀ i < ufsMaxEntries, entryUsed s.ufs.directory i = true →
      InExtent s.ufs.directory i a → Owned s tid i ∨ OthersMay s ufsPermOtherRead i

theorem ReadsOwn.nothing {s t : Files} (tid : Nat) (ufs : t.ufs = s.ufs) : ReadsOwn s tid [] t := by
  refine ⟨fun k b stored => ?_, [], ?_, fun a ha => ?_⟩
  · rw [List.getElem?_nil] at stored
    cases stored
  · rw [ufs, List.append_nil]
  · cases ha

theorem fdRead_readsOwn {s : Files} (laid : Laid s.ufs) (tid : Nat) (fd : Int) (len : Nat)
    (answer : Int) :
    ReadsOwn s tid (fdRead tid fd len answer s).2.1 (fdRead tid fd len answer s).2.2 := by
  rcases fdRead_cases tid fd len answer s with ⟨r, idle⟩ | ⟨i, _, memory⟩ | ⟨i, _, may, reads⟩
  · rw [idle]
    exact ReadsOwn.nothing tid rfl
  · rw [memory]
    exact ReadsOwn.nothing tid (advance_ufs ..)
  rw [reads]
  generalize (s.fds tid i).handle = handle at may ⊢
  generalize (s.fds tid i).cursor = offset
  by_cases valid : handleValid s.ufs handle = true
  swap
  · have refused := ufsReadAt_invalid (Bool.eq_false_iff.mpr valid) offset len
    rw [refused]
    exact ReadsOwn.nothing tid (advance_ufs ..)
  obtain ⟨slot, used⟩ := handleValid_spec valid
  have right := permitted_cases valid may
  obtain ⟨d, touches, after⟩ := ufsReadAt_frame laid handle offset len
  obtain ⟨sectors, grown, own⟩ := touches.reads
  refine ⟨fun k b stored => ?_, sectors, ?_, fun a ha j hj _ inside => ?_⟩
  · obtain ⟨below, byte⟩ := (ufsReadAt_spec laid valid offset len).1 k b stored
    exact ⟨handle.toNat, slot, used, right, offset + k, below, byte⟩
  · rw [advance_ufs, after]
    exact grown
  · -- a sector lies in one extent only
    have same : j = handle.toNat := by
      by_contra other
      exact laid.allocated.apart j hj handle.toNat slot other a inside (own a ha)
    rw [same]
    exact right

theorem Guarded.respects {s : Files} (guarded : Guarded s) (c : FileCall)
    (inside : EmptyWriteInside s c) : Respects s c := by
  obtain ⟨_, h, confined⟩ := fileCall_confined guarded c inside
  have reads (tid : Nat) (rangeOk : Bool) (fd : Int) (len : Nat) (answer : Int) :
      ReadsOwn s tid (fileCall s (.sysRead tid rangeOk fd len answer)).2.1
        (fileCall s (.sysRead tid rangeOk fd len answer)).2.2 := by
    simp only [fileCall]
    split
    · exact ReadsOwn.nothing tid rfl
    · exact fdRead_readsOwn guarded.laid tid fd len answer
  refine ⟨?_, ?_, fun i hi used other => confined.kept guarded.laid hi used other,
    fun i _ unused used => confined.created unused used⟩
  · by_cases read : ∃ tid rangeOk fd len answer, c = .sysRead tid rangeOk fd len answer
    · obtain ⟨tid, rangeOk, fd, len, answer, rfl⟩ := read
      exact (reads tid rangeOk fd len answer).returned
    · intro k b stored
      rw [fileCall_bytes fun tid rangeOk fd len answer same =>
        read ⟨tid, rangeOk, fd, len, answer, same⟩, List.getElem?_nil] at stored
      cases stored
  · rintro tid rangeOk fd len answer rfl
    exact (reads tid rangeOk fd len answer).transferred

/-- On a volume in use since it was formatted, with fixed users and whatever the
drive does: as long as no empty write has moved the end of a file beyond its
sectors, every call respects the files of other users. -/
theorem files_protected (disk : Nat → Sector) (faults : Nat → Option Nat) (uid : Nat → BitVec 32)
    (calls : List FileCall) (s : Files)
    (meets : Lib.Machine.Meets filesStep EmptyWriteInside (bootFiles disk faults uid) calls)
    (reached : Lib.Machine.run filesStep (bootFiles disk faults uid) calls = some s)
    (next : FileCall) (inside : EmptyWriteInside s next) : s.uid = uid ∧ Respects s next := by
  have invariant : Guarded s ∧ s.uid = uid := Lib.Machine.run_invariant
    (I := fun s => Guarded s ∧ s.uid = uid)
    (fun s c t holds inside stepped => by
      cases stepped
      obtain ⟨guarded, same⟩ := holds.1.step c inside
      exact ⟨guarded, same.trans holds.2⟩)
    ⟨⟨faultyVolume_laid disk faults, fun tid i kind =>
      absurd kind (bootFiles_noUfs disk faults uid tid i)⟩, rfl⟩ meets reached
  exact ⟨invariant.2, invariant.1.respects next inside⟩

/-- A file is created on a fresh volume, and written to through its descriptor. -/
theorem files_protected_created :
    Respects (fileCall (bootFiles (fun _ _ => 0) (fun _ => none) fun _ => 0)
      (.sysOpen 0 true (textName 0x61) 3 none)).2.2 (.sysWrite 0 true 2 (fun _ => 0x41) 3 0) :=
  (files_protected (fun _ _ => 0) (fun _ => none) (fun _ => 0)
    [.sysOpen 0 true (textName 0x61) 3 none] _ ⟨trivial, fun _ _ => trivial⟩ rfl
    (.sysWrite 0 true 2 (fun _ => 0x41) 3 0) fun _ three => absurd three (by decide)).2

/-! ## A file beyond its sectors -/

/-- Thread 1 writes 513 bytes to a file, removes it, and creates another in its
slot; thread 2 creates a file of its own and writes to it. Then thread 1 writes
no bytes through its old descriptor. -/
def emptyWriteThroughOld : List FileCall :=
  [.sysOpen 1 true (textName 0x61) 3 none, .sysWrite 1 true 2 (fun _ => 0) 513 0,
   .sysRemove 1 true (textName 0x61),
   .sysOpen 1 true (textName 0x62) 3 none, .sysWrite 1 true 3 (fun _ => 0) 1 0,
   .sysOpen 2 true (textName 0x63) 3 none, .sysWrite 2 true 2 (fun _ => 0x78) 1 0,
   .sysWrite 1 true 2 (fun _ => 0) 0 0]

theorem run_filesStep (s : Files) (calls : List FileCall) :
    Lib.Machine.run filesStep s calls = some (calls.foldl (fun s c => (fileCall s c).2.2) s) := by
  induction calls generalizing s with
  | nil => rfl
  | cons c calls ih => exact ih _

/-- Now thread 1 reads the sector of the other user's private file. -/
theorem emptyWrite_discloses : ¬ ∀ (disk : Nat → Sector) (uid : Nat → BitVec 32)
    (calls : List FileCall) (s : Files),
    Lib.Machine.run filesStep (bootFiles disk (fun _ => none) uid) calls = some s →
      ∀ next, Respects s next := by
  intro claim
  let s := emptyWriteThroughOld.foldl (fun s c => (fileCall s c).2.2)
    (bootFiles (fun _ _ => 0) (fun _ => none) fun tid => BitVec.ofNat 32 tid)
  have respects := claim _ _ emptyWriteThroughOld s (run_filesStep _ _) (.sysRead 1 true 3 512 0)
  obtain ⟨sectors, grown, own⟩ := respects.transferred 1 true 3 512 0 rfl
  have before : s.ufs.drive.reads = [8198, 8199, 8200, 8201] := by decide +kernel
  have after : (fileCall s (.sysRead 1 true 3 512 0)).2.2.ufs.drive.reads =
      [8198, 8199, 8200, 8201] ++ [8200, 8201] := by decide +kernel
  rw [before, after, List.append_cancel_left_eq] at grown
  have used : entryUsed s.ufs.directory 1 = true := by decide +kernel
  have extent : entryStart s.ufs.directory 1 = 8201 ∧ entryCapacity s.ufs.directory 1 = 1 := by
    decide +kernel
  have private_ : entryOwner s.ufs.directory 1 = 2 ∧ entryPerm s.ufs.directory 1 = 0 := by
    decide +kernel
  have reader : (s.uid 1).toNat = 1 := by decide +kernel
  rcases own 8201 (by rw [← grown]; decide) 1 (by decide) used
    (by unfold InExtent; omega) with owned | others
  · unfold Owned at owned
    omega
  · unfold OthersMay at others
    rw [private_.2] at others
    exact others rfl

end MiniKernel.Storage
