import MiniKernel.Storage.FileMap
import MiniKernel.Storage.UfsCrash

/-!
# Mounting the volume again

Source: kernel/core/ufs.c:81-189 (`persist_*`, `count_used_entries`, `ufs_init`,
`ufs_file_count`, `ufs_entry`), 291-296 (`ufs_size`). Every operation that changes
the directory or a counter writes both back before it returns, so on a drive that
does not fail a mount finds what the running kernel has in memory. Any operation
may be in the run, also those that leave a file beyond its extent.
-/
namespace MiniKernel.Storage
open Drivers
open Lib (Buffer readU32 writeU32)

/-! ## What a caller can ask -/

/-- `ufs_dirent_t`. -/
structure UfsDirent where
  name : List UInt8
  sizeBytes : Nat
  ownerUid : Nat
  perm : UInt8

def ufsFileCount (s : Ufs) : Nat := if s.ready then s.cachedFileCount else 0

def ufsSize (s : Ufs) (handle : Int) : Nat :=
  if handleValid s handle then entrySize s.directory handle.toNat else 0

/-- The loop of `ufs_entry`, over the slots still to look at. -/
def ufsEntryLoop (dir : Buffer) (index : Nat) : List Nat → Nat → Option Nat
  | [], _ => none
  | i :: rest, seen =>
    if ¬ entryUsed dir i then ufsEntryLoop dir index rest seen
    else if seen = index then some i
    else ufsEntryLoop dir index rest (seen + 1)

def ufsEntry (s : Ufs) (index : Nat) : Option UfsDirent :=
  if ¬ s.ready then none
  else
    (ufsEntryLoop s.directory index (List.range ufsMaxEntries) 0).map fun i =>
      { name := (List.range ufsNameMax).map fun j => s.directory (entryAt i + j)
        sizeBytes := entrySize s.directory i
        ownerUid := entryOwner s.directory i
        perm := entryPerm s.directory i }

/-- The volume `t` is `s` again: the same memory, and the same answers. -/
structure Rebuilt (s t : Ufs) : Prop where
  ready : t.ready = s.ready
  directory : ∀ p < directoryBytes, t.directory p = s.directory p
  nextFreeLba : t.nextFreeLba = s.nextFreeLba
  cachedFileCount : t.cachedFileCount = s.cachedFileCount
  counted : t.cachedFileCount = countUsedEntries s.directory
  count : ufsFileCount t = ufsFileCount s
  entry : ∀ index, ufsEntry t index = ufsEntry s index
  find : ∀ name, ufsFind t name = ufsFind s name
  owner : ∀ handle, ufsOwner t handle = ufsOwner s handle
  perm : ∀ handle, ufsPerm t handle = ufsPerm s handle
  size : ∀ handle, ufsSize t handle = ufsSize s handle
  read : ∀ handle offset len, (ufsReadAt handle offset len t).1 = (ufsReadAt handle offset len s).1 ∧
    (ufsReadAt handle offset len t).2.1 = (ufsReadAt handle offset len s).2.1

/-! ## The counter and the names -/

/-- The counter counts the used entries, and their names end within 20 bytes. -/
structure Catalogued (s : Ufs) : Prop where
  counted : s.cachedFileCount = countUsedEntries s.directory
  terminated : ∀ i < ufsMaxEntries, entryUsed s.directory i = true → Terminated s.directory i

/-- A change that leaves the name fields alone. -/
def NamesKept (dir dir' : Buffer) : Prop :=
  ∀ i, ∀ j < ufsNameMax, dir' (entryAt i + j) = dir (entryAt i + j)

theorem NamesKept.used {dir dir' : Buffer} (kept : NamesKept dir dir') (i : Nat) :
    entryUsed dir' i = entryUsed dir i := by
  have first := kept i 0 (by decide)
  rw [Nat.add_zero] at first
  unfold entryUsed
  rw [first]

theorem NamesKept.trans {a b c : Buffer} (first : NamesKept a b) (second : NamesKept b c) :
    NamesKept a c :=
  fun i j hj => (second i j hj).trans (first i j hj)

theorem countUsedEntries_congr {dir dir' : Buffer}
    (same : ∀ i < ufsMaxEntries, entryUsed dir' i = entryUsed dir i) :
    countUsedEntries dir' = countUsedEntries dir := by
  unfold countUsedEntries
  apply List.countP_congr
  intro i hi
  rw [same i (List.mem_range.mp hi)]

theorem Catalogued.kept {s t : Ufs} (h : Catalogued s) (kept : NamesKept s.directory t.directory)
    (count : t.cachedFileCount = s.cachedFileCount) : Catalogued t := by
  constructor
  · rw [count, h.counted]
    exact (countUsedEntries_congr fun i _ => kept.used i).symm
  · intro i hi used
    rw [Terminated, kept i 19 (by decide)]
    exact h.terminated i hi (kept.used i ▸ used)

theorem Catalogued.drive {s : Ufs} (h : Catalogued s) (d : Drive) :
    Catalogued { s with drive := d } :=
  ⟨h.counted, h.terminated⟩

/-- One more index satisfies `q` than `p`. -/
theorem countP_range_flip {p q : Nat → Bool} {n k : Nat} (hk : k < n)
    (other : ∀ i, i ≠ k → q i = p i) (was : p k = false) (now : q k = true) :
    (List.range n).countP q = (List.range n).countP p + 1 := by
  induction n with
  | zero => omega
  | succ n ih =>
    rw [List.range_succ, List.countP_append, List.countP_append]
    by_cases last : n = k
    · subst last
      have before : (List.range n).countP q = (List.range n).countP p := by
        apply List.countP_congr
        intro i hi
        rw [other i (Nat.ne_of_lt (List.mem_range.mp hi))]
      simp [before, was, now]
    · have := ih (by omega)
      simp only [List.countP_singleton, other n last]
      omega

theorem countUsedEntries_le (dir : Buffer) : countUsedEntries dir ≤ 64 := by
  have := List.countP_le_length (p := fun i => entryUsed dir i) (l := List.range ufsMaxEntries)
  rw [List.length_range] at this
  exact this

theorem createdEntry_name_other (dir : Buffer) {slot i : Nat} (name : CString) (uid : Nat)
    (other : i ≠ slot) {j : Nat} (hj : j < ufsNameMax) :
    createdEntry dir slot name uid (entryAt i + j) = dir (entryAt i + j) := by
  unfold ufsNameMax at hj
  exact createdEntry_outside dir slot name uid _ (entry_outside other (by omega) (by omega))

theorem Catalogued.created {s t : Ufs} {slot uid : Nat} {name : CString} (h : Catalogued s)
    (hslot : slot < ufsMaxEntries) (free : entryUsed s.directory slot = false)
    (nonempty : 0 < name.bytes.length) (fits : name.bytes.length < ufsNameMax)
    (directory : t.directory = createdEntry s.directory slot name uid)
    (count : t.cachedFileCount = wrap32 (s.cachedFileCount + 1)) : Catalogued t := by
  obtain ⟨used, term, _⟩ := createdEntry_file s.directory slot name uid nonempty fits
  have others (i : Nat) (other : i ≠ slot) :
      entryUsed (createdEntry s.directory slot name uid) i = entryUsed s.directory i := by
    have first := createdEntry_name_other s.directory name uid other (j := 0) (by decide)
    rw [Nat.add_zero] at first
    unfold entryUsed
    rw [first]
  constructor
  · have more : countUsedEntries (createdEntry s.directory slot name uid) =
        countUsedEntries s.directory + 1 := countP_range_flip hslot others free used
    have few := countUsedEntries_le s.directory
    rw [directory, count, more, h.counted]
    exact Nat.mod_eq_of_lt (by omega)
  · intro i hi usedI
    rw [directory] at usedI ⊢
    by_cases own : i = slot
    · exact own ▸ term
    · rw [Terminated, createdEntry_name_other s.directory name uid own (by decide)]
      exact h.terminated i hi (others i own ▸ usedI)

theorem Catalogued.deleted {s t : Ufs} {slot : Nat} (h : Catalogued s)
    (hslot : slot < ufsMaxEntries) (used : entryUsed s.directory slot = true)
    (directory : t.directory = Function.update s.directory (entryAt slot) 0)
    (count : t.cachedFileCount = wrap32 (s.cachedFileCount + 2 ^ 32 - 1)) : Catalogued t := by
  have others (i : Nat) (other : i ≠ slot) (j : Nat) (hj : j < ufsNameMax) :
      t.directory (entryAt i + j) = s.directory (entryAt i + j) := by
    rw [directory]
    apply Function.update_of_ne
    have := entry_outside other (p := entryAt i + j) (by omega) (by unfold ufsNameMax at hj; omega)
    omega
  have free : entryUsed t.directory slot = false := by
    simp [entryUsed, directory]
  have othersUsed (i : Nat) (other : i ≠ slot) :
      entryUsed t.directory i = entryUsed s.directory i := by
    have first := others i other 0 (by decide)
    rw [Nat.add_zero] at first
    unfold entryUsed
    rw [first]
  constructor
  · have more : countUsedEntries s.directory = countUsedEntries t.directory + 1 :=
      countP_range_flip hslot (fun i other => (othersUsed i other).symm) free used
    have few := countUsedEntries_le s.directory
    rw [count, h.counted, wrap32, more]
    omega
  · intro i hi usedI
    by_cases own : i = slot
    · rw [own, free] at usedI
      cases usedI
    · rw [Terminated, others i own 19 (by decide)]
      exact h.terminated i hi (othersUsed i own ▸ usedI)

/-! ## What each operation does to them -/

theorem persist_count (s : Ufs) : (persist s).2.cachedFileCount = s.cachedFileCount := by
  unfold persist
  simp only
  split
  · rfl
  · rfl

/-- `persist` changes no memory, so what it is given is what it leaves. -/
theorem Catalogued.persisted {s : Ufs} (h : Catalogued s) : Catalogued (persist s).2 := by
  constructor
  · rw [persist_count, (persist_frame s).1]
    exact h.counted
  · rw [(persist_frame s).1]
    exact h.terminated

theorem namesKept_update {dir : Buffer} (slot : Nat) {p : Nat} (v : UInt8)
    (inside : entryAt slot + ufsNameMax ≤ p) (below : p < entryAt slot + 40) :
    NamesKept dir (Function.update dir p v) := by
  intro i j hj
  apply Function.update_of_ne
  unfold entryAt ufsEntrySize ufsNameMax at *
  omega

theorem namesKept_writeU32 {dir : Buffer} (slot : Nat) {p v : Nat}
    (inside : entryAt slot + ufsNameMax ≤ p) (below : p + 4 ≤ entryAt slot + 40) :
    NamesKept dir (writeU32 dir p v) := by
  intro i j hj
  apply Lib.writeU32_outside
  unfold entryAt ufsEntrySize ufsNameMax at *
  omega

theorem namesKept_moved (dir : Buffer) (slot start capacity : Nat) :
    NamesKept dir (movedEntry dir slot start capacity) :=
  (namesKept_writeU32 slot (by unfold ufsNameMax; omega) (by omega)).trans
    (namesKept_writeU32 slot (by unfold ufsNameMax; omega) (by omega))

theorem ensureCapacity_catalogued {s : Ufs} (h : Catalogued s) (handle needed : Nat) :
    Catalogued (ensureCapacity handle needed s).2 := by
  by_cases needs : NeedsGrowth s handle needed
  · rw [ensureCapacity_moves needs]
    split
    · exact h.drive _
    · exact Catalogued.persisted (h.kept (namesKept_moved _ handle _ _) rfl)
  · rw [(ensureCapacity_fits needs).1]
    exact h

theorem ufsWriteAt_catalogued {s : Ufs} (h : Catalogued s) (handle : Int) (offset : Nat)
    (buf : Buffer) (len : Nat) : Catalogued (ufsWriteAt handle offset buf len s).2 := by
  unfold ufsWriteAt
  split
  · exact h
  simp only
  split
  · exact h
  have grown : Catalogued (if len > 0 then
      ensureCapacity handle.toNat (wrap32 (offset + len)) s else (true, s)).2 := by
    split
    · exact ensureCapacity_catalogued h _ _
    · exact h
  revert grown
  generalize (if len > 0 then _ else (true, s)) = g
  intro grown
  split
  · exact grown
  split
  · exact grown.drive _
  split
  · exact Catalogued.persisted (grown.kept
      (namesKept_writeU32 handle.toNat (Nat.add_le_add_left (by decide) _) (by omega))
      rfl)
  · exact grown.drive _

theorem ufsCreate_catalogued {s : Ufs} (h : Catalogued s) (name : CString) (ownerUid : Nat) :
    Catalogued (ufsCreate name ownerUid s).2 := by
  unfold ufsCreate
  split
  · exact h
  split
  · exact h
  next length =>
  split
  · exact h
  split
  · exact h
  next slot free =>
  obtain ⟨hslot, unused⟩ := firstFree_spec free
  exact Catalogued.persisted (h.created hslot unused (by omega) (by omega) rfl rfl)

theorem ufsDelete_catalogued {s : Ufs} (h : Catalogued s) (name : CString) :
    Catalogued (ufsDelete name s).2 := by
  unfold ufsDelete
  split
  · exact h
  split
  · exact h
  next slot found =>
  obtain ⟨hslot, used⟩ := ufsFind_spec found
  exact Catalogued.persisted (h.deleted hslot used rfl rfl)

theorem ufsChmod_catalogued {s : Ufs} (h : Catalogued s) (handle : Int) (perm : UInt8) :
    Catalogued (ufsChmod handle perm s).2 := by
  unfold ufsChmod
  split
  · exact h
  · exact Catalogued.persisted (h.kept (namesKept_update handle.toNat perm
      (Nat.add_le_add_left (by decide) _) (by omega)) rfl)

theorem ufsTruncate_catalogued {s : Ufs} (h : Catalogued s) (handle : Int) (newSize : Nat) :
    Catalogued (ufsTruncate handle newSize s).2 := by
  unfold ufsTruncate
  split
  · exact h
  split
  · exact h
  · exact Catalogued.persisted (h.kept (namesKept_writeU32 handle.toNat
      (Nat.add_le_add_left (by decide) _) (by omega)) rfl)

theorem ufsReadAt_catalogued {s : Ufs} (h : Catalogued s) (handle : Int) (offset len : Nat) :
    Catalogued (ufsReadAt handle offset len s).2.2 := by
  unfold ufsReadAt
  split
  · exact h
  simp only
  split
  · exact h
  · exact h.drive _

theorem perform_catalogued {s : Ufs} (h : Catalogued s) (o : UfsOp) : Catalogued (perform o s) := by
  cases o with
  | create name ownerUid => exact ufsCreate_catalogued h name _
  | delete name => exact ufsDelete_catalogued h name
  | chmod handle perm => exact ufsChmod_catalogued h handle perm
  | truncate handle newSize => exact ufsTruncate_catalogued h handle _
  | writeAt handle offset buf len => exact ufsWriteAt_catalogued h handle _ buf _
  | readAt handle offset len => exact ufsReadAt_catalogued h handle _ _

theorem performAll_catalogued {s : Ufs} (h : Catalogued s) (ops : List UfsOp) :
    Catalogued (performAll ops s) := by
  induction ops generalizing s with
  | nil => exact h
  | cons o ops ih => exact ih (perform_catalogued h o)

/-! ## The mounted volume -/

/-- A mount reads the disk and changes nothing on it. -/
theorem remount_drive {disk : Nat → Sector} {count nextFree : Nat}
    (sb : SuperblockOn disk count nextFree) :
    (remount disk).drive.sectors = disk ∧ NoFaults (remount disk).drive ∧
      (remount disk).cachedFileCount = countUsedEntries (remount disk).directory := by
  let blank : Drive := { sectors := disk, log := [], commands := 0, faults := fun _ => none }
  have faultless : NoFaults blank := rfl
  obtain ⟨sbOk, sbData, sbDrive⟩ := ataReadSectors_ok ufsSbLba 1 faultless (by decide) (by decide)
  have faultless' := sbDrive.noFaults faultless
  obtain ⟨dirOk, _, dirDrive⟩ := ataReadSectors_ok ufsDirLba ufsDirSectors
    faultless' (by decide) (by decide)
  have sbAddr : lba28 ufsSbLba = ufsSbLba := by decide
  have image : (ataReadSectors ufsSbLba 1 blank).2.1 =
      [sectorOf (superblockImage count nextFree) 0] := by
    rw [sbData, sbAddr]
    simp only [List.range_one, List.map_cons, List.map_nil, Nat.add_zero]
    exact congrArg (fun s => [s]) sb
  have both := sbDrive.trans dirDrive
  unfold remount ufsInit
  simp only [blank] at *
  simp only [sbOk, image, superblock_magic, dirOk, not_true_eq_false, if_false]
  exact ⟨both.sectors, both.noFaults faultless, trivial⟩

/-- What a faultless drive stores depends on its sectors only. -/
theorem readAtLoop_congr (startLba fuel cur remaining : Nat) {d e : Drive} (hd : NoFaults d)
    (he : NoFaults e) (same : d.sectors = e.sectors) :
    (readAtLoop startLba fuel cur remaining d).1 = (readAtLoop startLba fuel cur remaining e).1 ∧
      (readAtLoop startLba fuel cur remaining d).2.1 =
        (readAtLoop startLba fuel cur remaining e).2.1 := by
  induction fuel generalizing cur remaining d e with
  | zero => exact ⟨rfl, rfl⟩
  | succ fuel ih =>
    rw [readAtLoop, readAtLoop]
    split
    · exact ⟨rfl, rfl⟩
    · obtain ⟨okD, dataD, driveD⟩ := ataReadSectors_ok (wrap32 (startLba + cur / sectorSize)) 1 hd
        (by decide) (by decide)
      obtain ⟨okE, dataE, driveE⟩ := ataReadSectors_ok (wrap32 (startLba + cur / sectorSize)) 1 he
        (by decide) (by decide)
      have data := dataD.trans (same ▸ dataE.symm)
      have sectors := driveD.sectors.trans (same.trans driveE.sectors.symm)
      obtain ⟨result, bytes⟩ := ih (wrap32 (cur + min (sectorSize - cur % sectorSize) remaining))
        (remaining - min (sectorSize - cur % sectorSize) remaining)
        (driveD.noFaults hd) (driveE.noFaults he) sectors
      simp only [okD, okE, not_true_eq_false, if_false, data]
      exact ⟨result, congrArg _ bytes⟩

theorem ufsEntryLoop_congr {a b : Buffer} (index : Nat) (slots : List Nat) (seen : Nat)
    (same : ∀ i ∈ slots, entryUsed a i = entryUsed b i) :
    ufsEntryLoop a index slots seen = ufsEntryLoop b index slots seen := by
  induction slots generalizing seen with
  | nil => rfl
  | cons i rest ih =>
    have tail := fun n => ih n fun j hj => same j (List.mem_cons_of_mem i hj)
    rw [ufsEntryLoop, ufsEntryLoop, same i List.mem_cons_self, tail, tail]

theorem ufsEntryLoop_mem {dir : Buffer} {index : Nat} {slots : List Nat} {seen i : Nat}
    (found : ufsEntryLoop dir index slots seen = some i) : i ∈ slots := by
  induction slots generalizing seen with
  | nil => cases found
  | cons j rest ih =>
    rw [ufsEntryLoop] at found
    split at found
    · exact List.mem_cons_of_mem j (ih found)
    split at found
    · cases found
      exact List.mem_cons_self
    · exact List.mem_cons_of_mem j (ih found)

/-- Volumes with the same directory, counters and disk give the same answers. -/
theorem rebuilt_of_same {s t : Ufs} (readyS : s.ready = true) (readyT : t.ready = true)
    (directory : ∀ p < directoryBytes, t.directory p = s.directory p)
    (next : t.nextFreeLba = s.nextFreeLba)
    (catalogued : Catalogued s)
    (recount : t.cachedFileCount = countUsedEntries t.directory)
    (disk : t.drive.sectors = s.drive.sectors) (faultlessS : NoFaults s.drive)
    (faultlessT : NoFaults t.drive) : Rebuilt s t := by
  have ready := readyT.trans readyS.symm
  have byte {i : Nat} (hi : i < ufsMaxEntries) (k : Nat) (hk : k < 40) :
      t.directory (entryAt i + k) = s.directory (entryAt i + k) := by
    have := entry_in_directory hi
    exact directory _ (by omega)
  have field {i : Nat} (hi : i < ufsMaxEntries) (k : Nat) (hk : k + 4 ≤ 40) :
      readU32 t.directory (entryAt i + k) = readU32 s.directory (entryAt i + k) := by
    apply Lib.readU32_congr
    intro j hj
    rw [Nat.add_assoc]
    exact byte hi _ (by omega)
  have used {i : Nat} (hi : i < ufsMaxEntries) :
      entryUsed t.directory i = entryUsed s.directory i := (entries_congr directory hi).1
  have counted : t.cachedFileCount = countUsedEntries s.directory := by
    rw [recount]
    exact countUsedEntries_congr fun i hi => used hi
  have count := counted.trans catalogued.counted.symm
  have valid (handle : Int) : handleValid t handle = handleValid s handle := by
    unfold handleValid
    by_cases inside : handle.toNat < ufsMaxEntries
    · rw [ready, used inside]
    · have beyond : ¬ handle < ufsMaxEntries := by unfold ufsMaxEntries at *; omega
      simp [beyond]
  have within {handle : Int} (h : handleValid s handle = true) := (handleValid_spec h).1
  refine ⟨ready, directory, next, count, counted, ?_, ?_, ?_, ?_, ?_, ?_, ?_⟩
  · rw [ufsFileCount, ufsFileCount, ready, count]
  · intro index
    have loop := ufsEntryLoop_congr index (List.range ufsMaxEntries) 0
      fun i hi => used (List.mem_range.mp hi)
    unfold ufsEntry
    rw [ready, loop]
    cases found : ufsEntryLoop s.directory index (List.range ufsMaxEntries) 0 with
    | none => rfl
    | some i =>
      have hi := List.mem_range.mp (ufsEntryLoop_mem found)
      have name : ((List.range ufsNameMax).map fun j => t.directory (entryAt i + j)) =
          (List.range ufsNameMax).map fun j => s.directory (entryAt i + j) := by
        apply List.map_congr_left
        intro j hj
        have short := List.mem_range.mp hj
        unfold ufsNameMax at short
        exact byte hi j (by omega)
      simp only [Option.map_some, name, entrySize, entryOwner, entryPerm, field hi 24 (by decide),
        field hi 32 (by decide), byte hi 36 (by decide)]
  · intro name
    rw [ufsFind, ufsFind, ready]
    congr 1
    apply List.find?_congr
    intro i hi
    have hi := List.mem_range.mp hi
    rw [used hi]
    cases usedS : entryUsed s.directory i with
    | false => rfl
    | true =>
      have term := catalogued.terminated i hi usedS
      have term' : Terminated t.directory i := (byte hi 19 (by decide)).trans term
      have names : nameAt t.directory i = nameAt s.directory i := nameAt_congr fun j hj =>
        byte hi j (by unfold ufsNameMax at hj; omega)
      rw [Bool.true_and, Bool.true_and, Bool.eq_iff_iff, entryNamed_iff name term,
        entryNamed_iff name term', names]
  · intro handle
    rw [ufsOwner, ufsOwner, valid]
    split
    · next h => exact field (within h) 32 (by decide)
    · rfl
  · intro handle
    rw [ufsPerm, ufsPerm, valid]
    split
    · next h => exact byte (within h) 36 (by decide)
    · rfl
  · intro handle
    rw [ufsSize, ufsSize, valid]
    split
    · next h => exact field (within h) 24 (by decide)
    · rfl
  · intro handle offset len
    unfold ufsReadAt
    rw [valid]
    split
    · exact ⟨rfl, rfl⟩
    next h =>
    have hh := @within handle (by simpa using h)
    have size : entrySize t.directory handle.toNat = entrySize s.directory handle.toNat :=
      field hh 24 (by decide)
    have start : entryStart t.directory handle.toNat = entryStart s.directory handle.toNat :=
      field hh 20 (by decide)
    simp only [size, start]
    split
    · exact ⟨rfl, rfl⟩
    · obtain ⟨result, bytes⟩ := readAtLoop_congr (entryStart s.directory handle.toNat)
        (min len (entrySize s.directory handle.toNat - offset)) offset
        (min len (entrySize s.directory handle.toNat - offset)) faultlessT faultlessS disk
      simp only [result, bytes, and_self]

/-! ## Runs -/

theorem freshVolume_catalogued (disk : Nat → Sector) : Catalogued (freshVolume disk) := by
  have unused (i : Nat) : entryUsed (freshVolume disk).directory i = false := formatted_unused i
  constructor
  · have none : countUsedEntries (freshVolume disk).directory = 0 := by
      unfold countUsedEntries
      rw [List.countP_eq_zero]
      intro i _
      rw [unused i]
      exact Bool.false_ne_true
    rw [none]
    rfl
  · intro i _ used
    rw [unused i] at used
    cases used

/-- After every operation of a run on a drive that does not fail, a mount of
the disk rebuilds the running volume. -/
theorem remount_rebuilds (disk : Nat → Sector) (ops : List UfsOp) :
    Rebuilt (performAll ops (freshVolume disk))
      (remount (performAll ops (freshVolume disk)).drive.sectors) := by
  obtain ⟨_, effect, _⟩ := performAll_effect (freshVolume_consistent disk) ops
  have cons := effect.consistent
  have catalogued := performAll_catalogued (freshVolume_catalogued disk) ops
  obtain ⟨ready, next, directory⟩ := remount_spec cons.superblock cons.directory
    cons.allocated.low cons.allocated.high
  obtain ⟨sectors, faultless, recount⟩ := remount_drive cons.superblock
  exact rebuilt_of_same cons.ready ready directory next catalogued recount sectors cons.faultless
    faultless

end MiniKernel.Storage
