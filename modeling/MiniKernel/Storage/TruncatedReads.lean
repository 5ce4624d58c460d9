import MiniKernel.Storage.Protection

/-!
# Reads of a file that was truncated

Source: kernel/core/ufs.c:298-312 and 366-459, kernel/core/fd.c:9-48 and 110-143.
Truncation changes the size and nothing else: the sectors keep the old contents,
and descriptors that were open keep their cursors. What is below the size has
been written since, as long as no write starts beyond the size.
-/
namespace MiniKernel.Storage
open Drivers
open Lib (Buffer readU32 writeU32)
open Lib.Machine (Meets run)
open Sched (FdKind FdSlot threadMaxFds)

/-- A call opens the file in slot `h` with `FD_TRUNC`, and may. -/
def Truncates (h : Nat) (s : Files) : FileCall → Prop
  | .sysOpen tid rangeOk src flags _ =>
    rangeOk = true ∧ flags &&& fdPersist ≠ 0 ∧ flags &&& fdTrunc ≠ 0 ∧
      ufsFind s.ufs (copiedName src) = some h ∧ permitted tid h ufsPermOtherRead s = true ∧
      permitted tid h ufsPermOtherWrite s = true
  | _ => False

/-- Descriptor `fd` of the thread is `i`, and names slot `h` of the persistent files. -/
def NamesSlot (h : Nat) (s : Files) (tid : Nat) (fd : Int) (i : Fin threadMaxFds) : Prop :=
  schedFdGet tid fd s = some i ∧ (s.fds tid i).kind = .ufs ∧ (s.fds tid i).handle = h

/-- A call writes position `p` of the file: it succeeds, or fails only after the
file has grown over the position. -/
def Stores (h p : Nat) (s : Files) (c : FileCall) : Prop :=
  match c with
  | .sysWrite tid _ fd _ len _ =>
    (∃ i, NamesSlot h s tid fd i ∧ (s.fds tid i).cursor ≤ p ∧ p < (s.fds tid i).cursor + len) ∧
      (0 ≤ (fileCall s c).1 ∨ entrySize s.ufs.directory h ≤ p ∧
        p < entrySize (fileCall s c).2.2.ufs.directory h)
  | _ => False

/-- Some call of the run writes position `p`. -/
def Written (h p : Nat) : Files → List FileCall → Prop
  | _, [] => False
  | s, c :: calls => Stores h p s c ∨ Written h p (fileCall s c).2.2 calls

/-- Whatever a read of the file returns from a position that is not `written` is zero. -/
def ReadsFresh (h : Nat) (written : Nat → Prop) (s : Files) : Prop :=
  ∀ tid rangeOk fd len answer i, NamesSlot h s tid fd i →
    ∀ (k : Nat) b, (fileCall s (.sysRead tid rangeOk fd len answer)).2.1[k]? = some b →
      ¬ written ((s.fds tid i).cursor + k) → b = 0

/-- A write of the file that passes the checks starts no further on than its end. -/
def StartsInside (h : Nat) (s : Files) : FileCall → Prop
  | .sysWrite tid rangeOk fd _ len _ => rangeOk = true → len ≤ sysIoMaxLen →
      ∀ i, NamesSlot h s tid fd i → permitted tid h ufsPermOtherWrite s = true →
        handleValid s.ufs h = true → (s.fds tid i).cursor ≤ entrySize s.ufs.directory h
  | _ => True

/-! ## Sizes -/

/-- The size field lies in bytes that the two directories share. -/
theorem entrySize_congr {dir dir' : Buffer} {i : Nat}
    (bytes : ∀ p, entryAt i + 24 ≤ p → p < entryAt i + 28 → dir' p = dir p) :
    entrySize dir' i = entrySize dir i := by
  apply Lib.readU32_congr
  intro j hj
  exact bytes _ (by omega) (by omega)

theorem HeadsKept.size {h i : Nat} {dir dir' : Buffer} (kept : HeadsKept h dir dir')
    (other : i ≠ h) : entrySize dir' i = entrySize dir i := by
  apply entrySize_congr
  intro p low high
  have outside := entry_outside other (show entryAt i ≤ p by omega) (by omega)
  exact kept p (by omega)

theorem ufsTruncate_size (handle : Int) (s : Ufs) (i : Nat) :
    entrySize (ufsTruncate handle 0 s).2.directory i ≤ entrySize s.directory i := by
  by_cases own : i = handle.toNat
  swap
  · exact Nat.le_of_eq ((ufsTruncate_headsKept handle 0 s).size own)
  subst own
  unfold ufsTruncate
  split
  · exact Nat.le_refl _
  split
  · exact Nat.le_refl _
  · rw [(persist_frame _).1, entrySize, Lib.readU32_writeU32 _ _ _ (by decide)]
    exact Nat.zero_le _

/-- Also where the directory cannot be saved. -/
theorem ufsTruncate_empty {handle : Int} {s : Ufs} (valid : handleValid s handle = true) :
    entrySize (ufsTruncate handle 0 s).2.directory handle.toNat = 0 := by
  unfold ufsTruncate
  rw [if_neg (by simp [valid]), if_neg (Nat.not_lt_zero _), (persist_frame _).1, entrySize,
    Lib.readU32_writeU32 _ _ _ (by decide)]

theorem ufsCreate_size (name : CString) (ownerUid : Nat) (s : Ufs) (i : Nat) :
    entrySize (ufsCreate name ownerUid s).2.directory i ≤ entrySize s.directory i := by
  rcases ufsCreate_directory name ownerUid s with same | ⟨slot, _, directory⟩
  · rw [same]
  rw [directory]
  by_cases own : i = slot
  · rw [own, createdEntry_size]
    exact Nat.zero_le _
  · apply Nat.le_of_eq
    apply entrySize_congr
    intro p low high
    exact createdEntry_outside _ _ _ _ _ (entry_outside own (by omega) (by omega))

/-- A byte outside the size fields does not change them. -/
theorem update_size (dir : Buffer) (h j i : Nat) (v : UInt8) (field : j < 24 ∨ 28 ≤ j ∧ j < 40) :
    entrySize (Function.update dir (entryAt h + j) v) i = entrySize dir i := by
  apply entrySize_congr
  intro p low high
  apply Function.update_of_ne
  by_cases own : i = h
  · subst own
    omega
  · have outside := entry_outside own (show entryAt i ≤ p by omega) (by omega)
    omega

theorem ufsDelete_size (name : CString) (s : Ufs) (i : Nat) :
    entrySize (ufsDelete name s).2.directory i = entrySize s.directory i := by
  unfold ufsDelete
  split
  · rfl
  split
  · rfl
  next slot _ =>
  rw [(persist_frame _).1]
  have kept := update_size s.directory slot 0 i 0 (Or.inl (by omega))
  rwa [Nat.add_zero] at kept

theorem ufsChmod_size (handle : Int) (perm : UInt8) (s : Ufs) (i : Nat) :
    entrySize (ufsChmod handle perm s).2.directory i = entrySize s.directory i := by
  unfold ufsChmod
  split
  · rfl
  · rw [(persist_frame _).1]
    exact update_size s.directory handle.toNat 36 i perm (Or.inr (by omega))

theorem ensureCapacity_size (handle needed : Nat) (s : Ufs) :
    entrySize (ensureCapacity handle needed s).2.directory handle =
      entrySize s.directory handle := by
  apply entrySize_congr
  intro p low high
  unfold ensureCapacity
  simp only
  split
  · rfl
  split
  · rfl
  generalize (if entrySize s.directory handle > 0 then _ else _) = moved
  split
  · rfl
  · rw [(persist_frame _).1]
    exact movedEntry_outside _ _ _ _ _ (by omega)

/-- A write leaves the size of its file alone, or raises it to the end of what it stores. -/
theorem ufsWriteAt_size (handle : Int) (offset : Nat) (buf : Buffer) {len : Nat}
    (few : len < 2 ^ 32) (s : Ufs) :
    entrySize (ufsWriteAt handle offset buf len s).2.directory handle.toNat =
        entrySize s.directory handle.toNat ∨
      handleValid s handle = true ∧
        entrySize (ufsWriteAt handle offset buf len s).2.directory handle.toNat = offset + len := by
  have grown : entrySize (if len > 0 then ensureCapacity handle.toNat (wrap32 (offset + len)) s
      else (true, s)).2.directory handle.toNat = entrySize s.directory handle.toNat := by
    split
    · exact ensureCapacity_size _ _ s
    · rfl
  unfold ufsWriteAt
  simp only
  generalize (if len > 0 then _ else _) = g at grown ⊢
  split
  · exact Or.inl rfl
  next valid =>
  split
  · exact Or.inl rfl
  next unwrapped =>
  have needed : wrap32 (offset + len) = offset + len := by
    unfold wrap32 at unwrapped ⊢
    omega
  split
  · exact Or.inl grown
  split
  · exact Or.inl grown
  split
  · refine Or.inr ⟨Classical.not_not.mp valid, ?_⟩
    rw [(persist_frame _).1, entrySize, needed]
    apply Lib.readU32_writeU32
    rw [← needed]
    exact Nat.mod_lt _ (by decide)
  · exact Or.inl grown

theorem ufsReadAt_directory (handle : Int) (offset len : Nat) (s : Ufs) :
    (ufsReadAt handle offset len s).2.2.directory = s.directory := by
  unfold ufsReadAt
  split
  · rfl
  simp only
  split <;> rfl

/-! ## Where a file grows, it is written -/

theorem fdOpen_size (tid : Nat) (name : CString) (flags : BitVec 64) (memfs : Option Nat)
    (s : Files) (h : Nat) : entrySize (fdOpen tid name flags memfs s).2.ufs.directory h ≤
      entrySize s.ufs.directory h := by
  unfold fdOpen
  split
  swap
  · split
    · exact Nat.le_refl _
    · rw [(schedFdOpen_ufs ..).1]
  split
  · split
    · exact Nat.le_refl _
    have created := ufsCreate_size name (s.uid tid).toNat s.ufs h
    simp only
    split
    · exact created
    · rw [(schedFdOpen_ufs ..).1]
      exact created
  · next handle _ =>
    split
    · exact Nat.le_refl _
    split
    · split
      · exact Nat.le_refl _
      · rw [(schedFdOpen_ufs ..).1]
        exact ufsTruncate_size handle s.ufs h
    · rw [(schedFdOpen_ufs ..).1]

theorem fdRead_size (tid : Nat) (fd : Int) (len : Nat) (answer : Int) (s : Files) :
    (fdRead tid fd len answer s).2.2.ufs.directory = s.ufs.directory := by
  rcases fdRead_cases tid fd len answer s with ⟨r, idle⟩ | ⟨i, _, memory⟩ | ⟨i, _, _, reads⟩
  · rw [idle]
  · rw [memory, advance_ufs]
  · rw [reads, advance_ufs]
    exact ufsReadAt_directory _ _ _ _

/-- A write that makes the file longer starts inside it, so it writes all that is new. -/
theorem fdWrite_grows {s : Files} {h tid : Nat} {fd : Int} {buf : Buffer} {len : Nat} {answer : Int}
    (few : len ≤ sysIoMaxLen) (inside : ∀ i, NamesSlot h s tid fd i →
      permitted tid h ufsPermOtherWrite s = true → handleValid s.ufs h = true →
        (s.fds tid i).cursor ≤ entrySize s.ufs.directory h) {p : Nat}
    (beyond : entrySize s.ufs.directory h ≤ p)
    (within : p < entrySize (fdWrite tid fd buf len answer s).2.ufs.directory h) :
    ∃ i, NamesSlot h s tid fd i ∧ (s.fds tid i).cursor ≤ p ∧ p < (s.fds tid i).cursor + len := by
  unfold sysIoMaxLen at few
  rcases fdWrite_cases tid fd buf len answer s with
    ⟨r, idle⟩ | ⟨i, _, memory⟩ | ⟨i, found, kind, may, writes⟩
  · rw [idle] at within
    exact absurd within (Nat.not_lt.mpr beyond)
  · rw [memory, advance_ufs] at within
    exact absurd within (Nat.not_lt.mpr beyond)
  rw [writes, advance_ufs] at within
  simp only at within
  by_cases own : h = (s.fds tid i).handle.toNat
  swap
  · rw [(ufsWriteAt_headsKept _ _ _ _ _).size own] at within
    omega
  rw [own] at within beyond
  rcases ufsWriteAt_size (s.fds tid i).handle (s.fds tid i).cursor buf
    (show len < 2 ^ 32 by omega) s.ufs with same | ⟨valid, grown⟩
  · omega
  have handle : (s.fds tid i).handle = h := by
    simp only [handleValid, Bool.and_eq_true, decide_eq_true_eq] at valid
    omega
  rw [handle] at may valid
  have start := inside i ⟨found, kind, handle⟩ may valid
  rw [own] at start
  exact ⟨i, ⟨found, kind, handle⟩, by omega, by omega⟩

theorem grown_stored {s : Files} {h : Nat} {c : FileCall} (inside : StartsInside h s c) {p : Nat}
    (beyond : entrySize s.ufs.directory h ≤ p)
    (within : p < entrySize (fileCall s c).2.2.ufs.directory h) : Stores h p s c := by
  have shrinks {t : Files} (smaller : entrySize t.ufs.directory h ≤ entrySize s.ufs.directory h)
      (longer : p < entrySize t.ufs.directory h) : False := by omega
  cases c with
  | sysWrite tid rangeOk fd buf len answer =>
    refine ⟨?_, Or.inr ⟨beyond, within⟩⟩
    simp only [fileCall] at within
    split at within
    · exact (shrinks (Nat.le_refl _) within).elim
    · next ok =>
      rw [not_or, Classical.not_not, Nat.not_lt] at ok
      exact fdWrite_grows ok.1 (inside ok.2 ok.1) beyond within
  | sysOpen tid rangeOk src flags memfs =>
    simp only [fileCall] at within
    split at within
    · exact (shrinks (Nat.le_refl _) within).elim
    · exact (shrinks (fdOpen_size ..) within).elim
  | sysRead tid rangeOk fd len answer =>
    simp only [fileCall] at within
    split at within
    · exact (shrinks (Nat.le_refl _) within).elim
    · rw [fdRead_size] at within
      omega
  | sysClose tid fd =>
    simp only [fileCall, fdClose] at within
    split at within <;> exact (shrinks (Nat.le_refl _) within).elim
  | sysRemove tid rangeOk src =>
    simp only [fileCall] at within
    split at within
    · exact (shrinks (Nat.le_refl _) within).elim
    split at within
    · exact (shrinks (Nat.le_refl _) within).elim
    · simp only [ufsDelete_size] at within
      omega
  | sysChmod tid rangeOk src perm =>
    simp only [fileCall] at within
    split at within
    · exact (shrinks (Nat.le_refl _) within).elim
    split at within
    · exact (shrinks (Nat.le_refl _) within).elim
    · simp only [ufsChmod_size] at within
      omega

/-- Over a run, every position of the file was there before or is written in it. -/
theorem run_written (h p : Nat) {s t : Files} {calls : List FileCall}
    (meets : Meets filesStep (StartsInside h) s calls) (reached : run filesStep s calls = some t)
    (within : p < entrySize t.ufs.directory h) :
    p < entrySize s.ufs.directory h ∨ Written h p s calls := by
  induction calls generalizing s with
  | nil =>
    cases reached
    exact Or.inl within
  | cons c calls ih =>
    rcases ih (meets.2 _ rfl) reached with early | later
    · rcases Nat.lt_or_ge p (entrySize s.ufs.directory h) with before | beyond
      · exact Or.inl before
      · exact Or.inr (Or.inl (grown_stored meets.1 beyond early))
    · exact Or.inr (Or.inr later)

/-! ## What reads return -/

theorem readAtLoop_length (startLba fuel cur remaining : Nat) (d : Drive) :
    (readAtLoop startLba fuel cur remaining d).2.1.length ≤ remaining := by
  induction fuel generalizing cur remaining d with
  | zero => exact Nat.zero_le _
  | succ fuel ih =>
    unfold readAtLoop
    split
    · exact Nat.zero_le _
    simp only
    split
    · exact Nat.zero_le _
    · simp only [List.length_append, List.length_map, List.length_range]
      have rest := ih (wrap32 (cur + min (sectorSize - cur % sectorSize) remaining))
        (remaining - min (sectorSize - cur % sectorSize) remaining)
        (ataReadSectors (wrap32 (startLba + cur / sectorSize)) 1 d).2.2
      omega

theorem ufsReadAt_below {handle : Int} {offset len k : Nat} {b : UInt8} {s : Ufs}
    (stored : (ufsReadAt handle offset len s).2.1[k]? = some b) :
    offset + k < entrySize s.directory handle.toNat := by
  have early := (List.getElem?_eq_some_iff.mp stored).1
  unfold ufsReadAt at early
  split at early
  · cases early
  simp only at early
  split at early
  · cases early
  · have few := readAtLoop_length (entryStart s.directory handle.toNat)
      (min len (entrySize s.directory handle.toNat - offset)) offset
      (min len (entrySize s.directory handle.toNat - offset)) s.drive
    dsimp only at early
    omega

theorem fileCall_read_below {h tid : Nat} {fd : Int} {len k : Nat} {answer : Int} {s : Files}
    {rangeOk : Bool} {i : Fin threadMaxFds} {b : UInt8} (names : NamesSlot h s tid fd i)
    (stored : (fileCall s (.sysRead tid rangeOk fd len answer)).2.1[k]? = some b) :
    (s.fds tid i).cursor + k < entrySize s.ufs.directory h := by
  obtain ⟨found, kind, handle⟩ := names
  simp only [fileCall] at stored
  split at stored
  · cases stored
  unfold fdRead at stored
  rw [found] at stored
  simp only [kind] at stored
  split at stored
  · cases stored
  · have below := ufsReadAt_below stored
    rwa [handle, Int.toNat_natCast] at below

theorem truncates_empty {h : Nat} {s : Files} {c : FileCall} (truncates : Truncates h s c) :
    entrySize (fileCall s c).2.2.ufs.directory h = 0 := by
  cases c with
  | sysOpen tid rangeOk src flags memfs =>
    obtain ⟨ok, persist_, trunc, found, read, write⟩ := truncates
    have valid : handleValid s.ufs h = true := by
      have ready : s.ufs.ready = true := by
        unfold ufsFind at found
        split at found
        · next ready => exact ready
        · cases found
      obtain ⟨slot, used⟩ := ufsFind_spec found
      unfold handleValid
      rw [ready, Int.toNat_natCast, used]
      simp [slot]
    simp only [fileCall, ok, not_true_eq_false, if_false]
    unfold fdOpen
    rw [if_pos persist_, found]
    simp only [read, write, trunc, not_true_eq_false, if_false, ne_eq, not_false_eq_true, if_true,
      (schedFdOpen_ufs _ _ _ _).1]
    exact ufsTruncate_empty valid
  | sysRead | sysWrite | sysClose | sysRemove | sysChmod => exact truncates.elim

/-- From the truncation on, whatever the drive does and whatever else is opened,
closed, removed or changed: as long as no write of the file starts beyond its
end, positions that are not written again read as zero. -/
theorem truncated_reads_fresh (h : Nat) (s : Files) (open_ : FileCall)
    (truncates : Truncates h s open_) (calls : List FileCall) (t : Files)
    (meets : Meets filesStep (StartsInside h) (fileCall s open_).2.2 calls)
    (reached : run filesStep (fileCall s open_).2.2 calls = some t) :
    ReadsFresh h (fun p => Written h p (fileCall s open_).2.2 calls) t := by
  intro tid rangeOk fd len answer i names k b stored unwritten
  have below := fileCall_read_below names stored
  rcases run_written h _ meets reached below with early | written
  · rw [truncates_empty truncates] at early
    cases early
  · exact absurd written unwritten

/-- Thread 0 creates a file and writes two bytes to it, with one descriptor. -/
def twoBytes : Files :=
  [.sysOpen 0 true (textName 0x61) 3 none, .sysWrite 0 true 2 (fun _ => 0x41) 2 0].foldl
    (fun s c => (fileCall s c).2.2) (bootFiles (fun _ _ => 0) (fun _ => none) fun _ => 0)

/-- It opens the file again, and truncates it. -/
def truncatingOpen : FileCall := .sysOpen 0 true (textName 0x61) 6 none

theorem twoBytes_truncates : Truncates 0 twoBytes truncatingOpen := by
  refine ⟨rfl, by decide, by decide, ?_, ?_, ?_⟩ <;> decide +kernel

/-- A byte is written through the new descriptor. -/
theorem truncated_reads_fresh_written : ReadsFresh 0
    (fun p => Written 0 p (fileCall twoBytes truncatingOpen).2.2
      [.sysWrite 0 true 3 (fun _ => 0x42) 1 0])
    (fileCall (fileCall twoBytes truncatingOpen).2.2
      (.sysWrite 0 true 3 (fun _ => 0x42) 1 0)).2.2 := by
  refine truncated_reads_fresh 0 twoBytes truncatingOpen twoBytes_truncates
    [.sysWrite 0 true 3 (fun _ => 0x42) 1 0] _ ⟨fun _ _ i names _ _ => ?_, fun _ _ => trivial⟩ rfl
  have third : schedFdGet 0 3 (fileCall twoBytes truncatingOpen).2.2 = some ⟨3, by decide⟩ := by
    decide +kernel
  rw [names.1] at third
  cases third
  decide +kernel

/-- The old descriptor is still behind the two bytes. A write through it brings
them back, and a read of the truncated file returns them. -/
theorem truncated_reads_old : ¬ ∀ (disk : Nat → Sector) (uid : Nat → BitVec 32)
    (before : List FileCall) (s : Files),
    run filesStep (bootFiles disk (fun _ => none) uid) before = some s →
      ∀ h open_, Truncates h s open_ → ∀ calls t,
        run filesStep (fileCall s open_).2.2 calls = some t →
          ReadsFresh h (fun p => Written h p (fileCall s open_).2.2 calls) t := by
  intro claim
  have fresh := claim (fun _ _ => 0) (fun _ => 0) _ twoBytes (run_filesStep _ _) 0 truncatingOpen
    twoBytes_truncates [.sysWrite 0 true 2 (fun _ => 0x42) 1 0] _ (run_filesStep _ _)
    0 true 3 3 0 ⟨3, by decide⟩ ⟨by decide +kernel, by decide +kernel, by decide +kernel⟩ 0 0x41
    (by decide +kernel)
  have old : (0x41 : UInt8) = 0 := by
    refine fresh fun written => ?_
    rcases written with ⟨⟨i, names, low, _⟩, _⟩ | nothing
    · have second : schedFdGet 0 2 (fileCall twoBytes truncatingOpen).2.2 =
          some ⟨2, by decide⟩ := by decide +kernel
      rw [names.1] at second
      cases second
      have cursor : ((fileCall twoBytes truncatingOpen).2.2.fds 0 ⟨2, by decide⟩).cursor = 2 := by
        decide +kernel
      have start : ((List.foldl (fun s c => (fileCall s c).2.2)
        (fileCall twoBytes truncatingOpen).2.2
        [.sysWrite 0 true 2 (fun _ => 0x42) 1 0]).fds 0 ⟨3, by decide⟩).cursor = 0 := by
          decide +kernel
      omega
    · exact nothing
  exact absurd old (by decide)

end MiniKernel.Storage
