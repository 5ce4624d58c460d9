import MiniKernel.Lib.Slots
import MiniKernel.Storage.MemfsMap
import MiniKernel.Storage.MfsBoot
import MiniKernel.Storage.UfsRemount

/-!
# Listing the files of all three stores

Source: kernel/core/syscall.c:392-439 (`SYS_LIST`), kernel/core/memfs.c:208-238,
kernel/core/ufs.c:169-194, kernel/core/fs.c:59-80. The caller's index has 64 bits,
the stores count in 32.
-/
namespace MiniKernel.Storage
open Drivers
open Lib (Buffer slots firstSlot countedSlot steppedSlot mem_slotsFrom slots_nodup slots_eq
  steppedSlot_eq countedSlot_slots)

def memfsFirst (s : Memfs) : Option Nat :=
  firstSlot (fun i => (s.entries i).inUse) s.entryCapacity 0

def memfsNext (s : Memfs) (handle : Nat) : Option Nat :=
  firstSlot (fun i => (s.entries i).inUse) s.entryCapacity (handle + 1)

/-- `memfs_name`; every other handle has the empty name. -/
def memfsName (s : Memfs) (handle : Nat) : Buffer :=
  if memfsValid s handle then (s.entries handle).name else fun _ => 0

def memfsFileCount (s : Memfs) : Nat :=
  wrap32 ((List.range s.entryCapacity).countP fun i => (s.entries i).inUse)

/-- `while (handle >= 0 && i < memfs_index)`, with `left` turns to go. -/
def memfsAdvance (s : Memfs) : Nat → Option Nat → Option Nat
  | left + 1, some handle => memfsAdvance s left (memfsNext s handle)
  | _, handle => handle

/-- The three stores as the kernel keeps them: `fs_init` takes at most 16 entries,
the slots of memfs have numbers of type `int`, and whoever writes a name ends it. -/
structure FileStores where
  fs : Fs
  memfs : Memfs
  ufs : Ufs
  /-- The memory behind the name in the static entry of `ufs_entry`. -/
  behind : Buffer
  few : fs.cachedFileCount ≤ fsMaxEntries
  slotsFit : memfs.entryCapacity < 2 ^ 31
  fsNamed : ∀ i < fsFileCount fs, ∃ j < 20, fs.dirSector (i * 32 + j) = 0
  memfsNamed : ∀ i, memfs.Used i → ∃ j < memfsNameMax, (memfs.entries i).name j = 0
  ufsNamed : ∀ i < ufsMaxEntries, entryUsed ufs.directory i = true →
    ∃ j < ufsNameMax, ufs.directory (entryAt i + j) = 0

/-- The name `SYS_LIST` finds for an index. -/
def listedName (st : FileStores) (index : Nat) : Option Buffer :=
  let diskCount := fsFileCount st.fs
  let memCount := memfsFileCount st.memfs
  if index < diskCount then (fsEntry st.fs (wrap32 index)).map fun e => e.1
  else if index < diskCount + memCount then
    (memfsAdvance st.memfs (index - diskCount) (memfsFirst st.memfs)).map (memfsName st.memfs)
  else
    (ufsEntry st.ufs (wrap32 (index - diskCount - memCount))).map fun e j =>
      e.name.getD j (st.behind j)

/-- The bytes stored from `dst + i` on, where `left` fit before the terminator. -/
def copyOut (name : Buffer) : Nat → Nat → List UInt8
  | 0, _ => [0]
  | left + 1, i => if name i = 0 then [0] else name i :: copyOut name left (i + 1)

/-- `SYS_LIST`: the result and the bytes stored for the caller. -/
def sysList (st : FileStores) (rangeOk : Bool) (index bufLen : Nat) : Int × List UInt8 :=
  if bufLen = 0 ∨ ¬ rangeOk then (-1, [])
  else
    match listedName st index with
    | none => (-1, [])
    | some name => (0, copyOut name (bufLen - 1) 0)

/-! ## What a listing should give -/

inductive StoredFile where
  | disk (i : Nat)
  | mem (i : Nat)
  | ufs (i : Nat)

namespace FileStores

def Holds (st : FileStores) : StoredFile → Prop
  | .disk i => i < fsFileCount st.fs
  | .mem i => st.memfs.Used i
  | .ufs i => st.ufs.ready = true ∧ i < ufsMaxEntries ∧ entryUsed st.ufs.directory i = true

/-- The bytes of a name field before its terminator. -/
def nameField (max : Nat) (field : Buffer) : List UInt8 :=
  ((List.range max).map field).takeWhile (· ≠ 0)

def nameOf (st : FileStores) : StoredFile → List UInt8
  | .disk i => nameField 20 fun j => st.fs.dirSector (i * 32 + j)
  | .mem i => nameField memfsNameMax (st.memfs.entries i).name
  | .ufs i => nameField ufsNameMax fun j => st.ufs.directory (entryAt i + j)

def memfsSlots (st : FileStores) : List Nat :=
  slots (fun i => (st.memfs.entries i).inUse) st.memfs.entryCapacity

def ufsSlots (st : FileStores) : List Nat :=
  if st.ufs.ready then slots (entryUsed st.ufs.directory) ufsMaxEntries else []

/-- All files, store by store and slot by slot. -/
def files (st : FileStores) : List StoredFile :=
  (List.range (fsFileCount st.fs)).map .disk ++ st.memfsSlots.map .mem ++ st.ufsSlots.map .ufs

/-- `SYS_LIST` at an index: the name of the file with that number, cut to the
buffer and terminated; -1 behind the last file. -/
structure Lists (st : FileStores) (index bufLen : Nat) : Prop where
  file : ∀ f, st.files[index]? = some f →
    sysList st true index bufLen = (0, (st.nameOf f).take (bufLen - 1) ++ [0])
  behind : st.files.length ≤ index → sysList st true index bufLen = (-1, [])

variable (st : FileStores)

theorem length_memfsSlots : st.memfsSlots.length = memfsFileCount st.memfs := by
  have most := List.countP_le_length (l := List.range st.memfs.entryCapacity)
    (p := fun i => (st.memfs.entries i).inUse)
  have fits := st.slotsFit
  rw [List.length_range] at most
  rw [memfsSlots, slots_eq, memfsFileCount, List.countP_eq_length_filter]
  rw [List.countP_eq_length_filter] at most
  exact (Nat.mod_eq_of_lt (by omega)).symm

theorem length_files : st.files.length =
    fsFileCount st.fs + memfsFileCount st.memfs + st.ufsSlots.length := by
  simp only [files, List.length_append, List.length_map, List.length_range, length_memfsSlots]

/-- The files are listed once each. -/
theorem files_complete : st.files.Nodup ∧ ∀ f, f ∈ st.files ↔ st.Holds f := by
  have ufsMem (i : Nat) : i ∈ st.ufsSlots ↔ st.Holds (.ufs i) := by
    unfold ufsSlots Holds
    cases st.ufs.ready with
    | false => simp
    | true => simp [slots, mem_slotsFrom]
  have ufsNodup : st.ufsSlots.Nodup := by
    unfold ufsSlots
    split
    · exact slots_nodup
    · exact List.nodup_nil
  constructor
  · have disk : ((List.range (fsFileCount st.fs)).map StoredFile.disk).Nodup :=
      List.nodup_range.map fun _ _ same => StoredFile.disk.inj same
    have mem : (st.memfsSlots.map StoredFile.mem).Nodup :=
      slots_nodup.map fun _ _ same => StoredFile.mem.inj same
    have ufs : (st.ufsSlots.map StoredFile.ufs).Nodup :=
      ufsNodup.map fun _ _ same => StoredFile.ufs.inj same
    refine (disk.append mem ?_).append ufs ?_
    · simp [List.disjoint_left]
    · simp only [List.disjoint_left, List.mem_append, List.mem_map, not_exists, not_and]
      intro f listed i _ same
      obtain ⟨_, _, other⟩ | ⟨_, _, other⟩ := listed
      · cases other.trans same.symm
      · cases other.trans same.symm
  · intro f
    cases f with
    | disk i => simp [files, Holds]
    | mem i => simp [files, Holds, memfsSlots, slots, mem_slotsFrom, Memfs.Used]
    | ufs i => simpa [files] using ufsMem i

/-- The bytes `SYS_LIST` reads as a file's name. -/
def fieldOf (st : FileStores) : StoredFile → Buffer
  | .disk i => fun p => if p < 28 then st.fs.dirSector (i * 32 + p) else st.fs.behind p
  | .mem i => (st.memfs.entries i).name
  | .ufs i => fun j =>
    ((List.range ufsNameMax).map fun j => st.ufs.directory (entryAt i + j)).getD j (st.behind j)

theorem nameField_congr {max : Nat} {a b : Buffer} (same : ∀ j < max, a j = b j) :
    nameField max a = nameField max b := by
  unfold nameField
  rw [List.map_congr_left fun j inside => same j (List.mem_range.mp inside)]

/-- The field of a file holds its name, terminated. -/
theorem fieldOf_named {f : StoredFile} (holds : st.Holds f) : ∃ max,
    nameField max (st.fieldOf f) = st.nameOf f ∧ ∃ j < max, st.fieldOf f j = 0 := by
  cases f with
  | disk i =>
    have inside (j : Nat) (hj : j < 20) : st.fieldOf (.disk i) j = st.fs.dirSector (i * 32 + j) :=
      if_pos (by omega)
    obtain ⟨j, hj, zero⟩ := st.fsNamed i holds
    exact ⟨20, nameField_congr inside, j, hj, (inside j hj).trans zero⟩
  | mem i => exact ⟨memfsNameMax, rfl, st.memfsNamed i holds⟩
  | ufs i =>
    have inside (j : Nat) (hj : j < ufsNameMax) :
        st.fieldOf (.ufs i) j = st.ufs.directory (entryAt i + j) := by
      simp [fieldOf, hj]
    obtain ⟨j, hj, zero⟩ := st.ufsNamed i holds.2.1 holds.2.2
    exact ⟨ufsNameMax, nameField_congr inside, j, hj, (inside j hj).trans zero⟩

/-! ### Where an index leads -/

theorem memfsAdvance_eq (s : Memfs) (left : Nat) (at? : Option Nat) :
    memfsAdvance s left at? =
      steppedSlot (fun i => (s.entries i).inUse) s.entryCapacity left at? := by
  induction left generalizing at? with
  | zero => cases at? <;> rfl
  | succ left ih =>
    cases at? with
    | none => rfl
    | some i => exact ih _

theorem ufsEntryLoop_eq (dir : Buffer) (index : Nat) (rest : List Nat) (seen : Nat) :
    ufsEntryLoop dir index rest seen = countedSlot (entryUsed dir) index rest seen := by
  induction rest generalizing seen with
  | nil => rfl
  | cons i rest ih => rw [ufsEntryLoop, countedSlot, ih, ih]

theorem listedName_disk {index : Nat} (inside : index < fsFileCount st.fs) :
    listedName st index = some (st.fieldOf (.disk index)) := by
  have few := st.few
  unfold fsFileCount at inside
  split at inside
  · next ready =>
    have counted : fsFileCount st.fs = st.fs.cachedFileCount := if_pos ready
    have narrow : wrap32 index = index := Nat.mod_eq_of_lt (by
      unfold fsMaxEntries at few
      omega)
    rw [listedName, counted, if_pos inside, narrow, fsEntry, if_neg (by
      simp only [ready, not_true_eq_false, false_or]
      omega)]
    rfl
  · exact absurd inside (Nat.not_lt_zero _)

theorem listedName_mem {index : Nat} (low : fsFileCount st.fs ≤ index)
    (inside : index < fsFileCount st.fs + memfsFileCount st.memfs) :
    listedName st index =
      st.memfsSlots[index - fsFileCount st.fs]?.map fun i => st.fieldOf (.mem i) := by
  rw [listedName, if_neg (by omega), if_pos inside, memfsAdvance_eq, memfsFirst, steppedSlot_eq]
  cases found : st.memfsSlots[index - fsFileCount st.fs]? with
  | none =>
    rw [memfsSlots, slots] at found
    rw [found]
    rfl
  | some i =>
    have used := mem_slotsFrom.mp (List.mem_of_getElem? found)
    rw [memfsSlots, slots] at found
    have valid : memfsValid st.memfs i = true :=
      (memfsValid_iff st.memfs i).mpr ⟨Int.natCast_nonneg i, used.2⟩
    rw [found, Option.map_some, memfsName, if_pos valid]
    rfl

theorem listedName_ufs {index : Nat}
    (behind : fsFileCount st.fs + memfsFileCount st.memfs ≤ index) :
    listedName st index =
      st.ufsSlots[wrap32 (index - (fsFileCount st.fs + memfsFileCount st.memfs))]?.map
        fun i => st.fieldOf (.ufs i) := by
  rw [listedName, if_neg (by omega), if_neg (by omega), Nat.sub_sub, ufsEntry, ufsSlots]
  cases st.ufs.ready with
  | false => rfl
  | true =>
    rw [ufsEntryLoop_eq, countedSlot_slots]
    simp only [not_true_eq_false, if_false, if_true, Option.map_map]
    rfl

end FileStores

theorem copyOut_eq {name : Buffer} {max left i : Nat}
    (ends : ∃ j, i ≤ j ∧ j < max ∧ name j = 0) :
    copyOut name left i =
      (((List.range' i (max - i)).map name).takeWhile (· ≠ 0)).take left ++ [0] := by
  induction left generalizing i with
  | zero => rfl
  | succ left ih =>
    obtain ⟨j, low, high, zero⟩ := ends
    have split : max - i = (max - (i + 1)) + 1 := by omega
    rw [copyOut, split, List.range'_succ, List.map_cons, List.takeWhile_cons]
    by_cases here : name i = 0
    · rw [if_pos here, here]
      rfl
    · have later : i + 1 ≤ j := by
        rcases Nat.lt_or_ge i j with less | more
        · exact less
        · exact absurd (Nat.le_antisymm low more ▸ zero) here
      rw [if_neg here, ih ⟨j, later, high, zero⟩]
      simp [here]

theorem copyOut_name {name : Buffer} {max : Nat} (left : Nat) (ends : ∃ j < max, name j = 0) :
    copyOut name left 0 = (FileStores.nameField max name).take left ++ [0] := by
  obtain ⟨j, high, zero⟩ := ends
  rw [copyOut_eq ⟨j, Nat.zero_le j, high, zero⟩, FileStores.nameField, Nat.sub_zero,
    List.range_eq_range']

namespace FileStores
variable (st : FileStores)

/-- Below the number of files an index leads to its file. -/
theorem listedName_file {index : Nat} {f : StoredFile} (found : st.files[index]? = some f) :
    listedName st index = some (st.fieldOf f) := by
  have disks : ((List.range (fsFileCount st.fs)).map StoredFile.disk).length =
      fsFileCount st.fs := by
    rw [List.length_map, List.length_range]
  have mems : (st.memfsSlots.map StoredFile.mem).length = memfsFileCount st.memfs := by
    rw [List.length_map, length_memfsSlots]
  rw [files, List.append_assoc] at found
  by_cases disk : index < fsFileCount st.fs
  · rw [List.getElem?_append_left (by omega), List.getElem?_map, List.getElem?_range disk] at found
    rw [listedName_disk st disk, ← Option.some.inj found]
  rw [List.getElem?_append_right (by omega), disks] at found
  by_cases mem : index < fsFileCount st.fs + memfsFileCount st.memfs
  · rw [List.getElem?_append_left (by omega), List.getElem?_map] at found
    obtain ⟨i, at?, rfl⟩ := Option.map_eq_some_iff.mp found
    rw [listedName_mem st (by omega) mem, at?]
    rfl
  · rw [List.getElem?_append_right (by omega), mems, List.getElem?_map, Nat.sub_sub] at found
    obtain ⟨i, at?, rfl⟩ := Option.map_eq_some_iff.mp found
    have few : st.ufsSlots.length ≤ ufsMaxEntries := by
      unfold ufsSlots
      split
      · rw [slots_eq]
        exact le_trans (List.length_filter_le _ _) (le_of_eq List.length_range)
      · exact Nat.zero_le _
    have below := (List.getElem?_eq_some_iff.mp at?).1
    have narrow : wrap32 (index - (fsFileCount st.fs + memfsFileCount st.memfs)) =
        index - (fsFileCount st.fs + memfsFileCount st.memfs) := Nat.mod_eq_of_lt (by
      unfold ufsMaxEntries at few
      omega)
    rw [listedName_ufs st (by omega), narrow, at?]
    rfl

end FileStores

/-- `SYS_LIST` gives each file's name at its own index. Behind the last one it answers
-1, except where the index is back at a file of ufs when its distance to the first of
them is cut to 32 bits. -/
theorem sysList_lists_iff (st : FileStores) (index bufLen : BitVec 64)
    (room : 0 < bufLen.toNat) :
    (st.files.Nodup ∧ ∀ f, f ∈ st.files ↔ st.Holds f) ∧
      (st.Lists index.toNat bufLen.toNat ↔ index.toNat < st.files.length ∨
        st.ufsSlots.length ≤
          (index.toNat - (fsFileCount st.fs + memfsFileCount st.memfs)) % 2 ^ 32) := by
  refine ⟨st.files_complete, ?_⟩
  have open' : ¬ (bufLen.toNat = 0 ∨ ¬ true = true) := by
    simp only [not_true_eq_false, or_false]
    omega
  have total := st.length_files
  constructor
  · intro lists
    by_contra outside
    simp only [not_or, not_lt, not_le] at outside
    have answer := lists.behind outside.1
    rw [sysList, if_neg open', st.listedName_ufs (by omega), wrap32,
      List.getElem?_eq_getElem outside.2] at answer
    exact absurd (congrArg Prod.fst answer) (show (0 : Int) ≠ -1 by decide)
  · intro inside
    refine ⟨fun f found => ?_, fun past => ?_⟩
    · obtain ⟨max, named, ends⟩ := st.fieldOf_named
        ((st.files_complete.2 f).mp (List.mem_of_getElem? found))
      rw [sysList, if_neg open', st.listedName_file found, ← named]
      simp only
      rw [copyOut_name _ ends]
    · have none : listedName st index.toNat = none := by
        rw [st.listedName_ufs (by omega), wrap32, List.getElem?_eq_none (by omega)]
        rfl
      rw [sysList, if_neg open', none]

/-- No files but one of ufs, named "a". -/
def oneUfsFile : FileStores :=
  let drive : Drive :=
    { sectors := fun _ _ => 0, log := [], commands := 0, faults := fun _ => none }
  { fs :=
      { dirSector := fun _ => 0, ready := false, cachedFileCount := 0, behind := fun _ => 0
        drive := drive }
    memfs := memfsStart
    ufs :=
      { directory := fun p => if p = 0 then 0x61 else 0, ready := true, cachedFileCount := 1
        nextFreeLba := ufsDataLba, drive := drive }
    behind := fun _ => 0
    few := by decide
    slotsFit := by decide
    fsNamed := fun i inside => absurd inside (Nat.not_lt_zero i)
    memfsNamed := fun i used => absurd used (memfsStart_unused i)
    ufsNamed := fun i _ _ => ⟨1, by decide, by simp⟩ }

theorem sysList_lists_first : 0 < (32 : BitVec 64).toNat ∧
    oneUfsFile.Lists (0 : BitVec 64).toNat (32 : BitVec 64).toNat :=
  ⟨by decide,
    (sysList_lists_iff oneUfsFile 0 32 (by decide)).2.mpr (Or.inl (by decide +kernel))⟩

/-- At 2^32 the one file of ufs is listed again. -/
theorem sysList_lists_twice : ¬ ∀ (st : FileStores) (index bufLen : BitVec 64),
    0 < bufLen.toNat → st.Lists index.toNat bufLen.toNat := by
  intro all
  have behind := (all oneUfsFile (2 ^ 32) 32 (by decide)).behind (by decide +kernel)
  exact absurd behind (by decide +kernel)

end MiniKernel.Storage
