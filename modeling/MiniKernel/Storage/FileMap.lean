import Mathlib.Data.List.Find
import Mathlib.Data.List.GetD
import MiniKernel.Lib.Machine
import MiniKernel.Storage.FileData
import MiniKernel.Storage.UfsBounds

/-!
# The filesystem as a map from names to files

Source: kernel/core/ufs.c:196-459, on a drive that does not fail. `mapStep` says
what the filesystem is for: a finite map from names to byte strings with an owner
and permissions. The concrete operations work on slots, so an operation on a
handle is one on the name its slot holds; whether there is room is the one thing
the map cannot know.
-/
namespace MiniKernel.Storage
open Drivers
open Lib (Buffer readU32 writeU32)

/-! ## The map -/

structure File where
  bytes : List UInt8
  owner : Nat
  perm : UInt8
  deriving DecidableEq

abbrev FileMap := List UInt8 → Option File

inductive MapOp where
  | create (name : List UInt8) (owner : Nat)
  | delete (name : List UInt8)
  | chmod (name : List UInt8) (perm : UInt8)
  | truncate (name : List UInt8) (size : Nat)
  | write (name : List UInt8) (offset : Nat) (data : List UInt8)
  | read (name : List UInt8) (offset len : Nat)

/-- The bytes of a file with `data` laid over it from `offset` on. -/
def splice (bytes : List UInt8) (offset : Nat) (data : List UInt8) : List UInt8 :=
  bytes.take offset ++ data ++ bytes.drop (offset + data.length)

/-- An operation on the map: `none` is failure, `room` whether there is space. -/
def mapStep (m : FileMap) (room : Bool) : MapOp → Option (List UInt8) × FileMap
  | .create name owner =>
    if name.length = 0 ∨ name.length ≥ ufsNameMax ∨ (m name).isSome ∨ ¬ room then (none, m)
    else (some [], Function.update m name (some { bytes := [], owner := owner, perm := 0 }))
  | .delete name =>
    if (m name).isSome then (some [], Function.update m name none) else (none, m)
  | .chmod name perm =>
    match m name with
    | none => (none, m)
    | some file => (some [], Function.update m name (some { file with perm := perm }))
  | .truncate name size =>
    match m name with
    | none => (none, m)
    | some file =>
      (some [], Function.update m name (some { file with bytes := file.bytes.take size }))
  | .write name offset data =>
    match m name with
    | none => (none, m)
    | some file =>
      if ¬ room then (none, m)
      else
        (some [], Function.update m name (some { file with bytes := splice file.bytes offset data }))
  | .read name offset len =>
    match m name with
    | none => (none, m)
    | some file => (some ((file.bytes.drop offset).take len), m)

/-! ## Names -/

/-- The name an entry holds. -/
def nameAt (dir : Buffer) (i : Nat) : List UInt8 :=
  ((List.range ufsNameMax).map fun j => dir (entryAt i + j)).takeWhile (· ≠ 0)

/-- The slot of a name. -/
def slotOf (dir : Buffer) (name : List UInt8) : Option Nat :=
  (List.range ufsMaxEntries).find? fun i => entryUsed dir i && decide (nameAt dir i = name)

/-- The file in slot `i`. -/
def fileAt (s : Ufs) (i : Nat) : File where
  bytes := (List.range (entrySize s.directory i)).map (fileByte s i)
  owner := entryOwner s.directory i
  perm := entryPerm s.directory i

/-- The abstraction: what the directory and the drive say. -/
def fileMap (s : Ufs) : FileMap := fun name => (slotOf s.directory name).map (fileAt s)

/-- Up to its first zero, a buffer is `bs` exactly if it starts with `bs` and a zero. -/
theorem takeWhile_eq_iff (f : Nat → UInt8) (n : Nat) (bs : List UInt8) (nonzero : ∀ b ∈ bs, b ≠ 0)
    (zero : ∃ k < n, f k = 0) :
    ((List.range n).map f).takeWhile (· ≠ 0) = bs ↔
      (∀ j < bs.length, f j = bs.getD j 0) ∧ f bs.length = 0 := by
  -- the first zero
  let k := Nat.find zero
  obtain ⟨hk, last⟩ : k < n ∧ f k = 0 := Nat.find_spec zero
  have before (j : Nat) (hj : j < k) : f j ≠ 0 := fun z =>
    Nat.find_min zero hj ⟨Nat.lt_trans hj hk, z⟩
  have cut : ((List.range n).map f).takeWhile (· ≠ 0) = (List.range k).map f := by
    obtain ⟨m, total⟩ := Nat.exists_eq_add_of_lt hk
    have parts : List.range n = List.range k ++ k :: (List.range m).map (fun j => k + 1 + j) := by
      rw [total, Nat.add_assoc, List.range_add, List.range_succ_eq_map]
      simp [Nat.add_assoc, Nat.add_comm 1]
    rw [parts, List.map_append, List.takeWhile_append_of_pos, List.map_cons,
      List.takeWhile_cons_of_neg (by simpa using last), List.append_nil]
    intro b hb
    obtain ⟨j, hj, rfl⟩ := List.mem_map.mp hb
    simpa using before j (List.mem_range.mp hj)
  rw [cut]
  constructor
  · rintro rfl
    rw [List.length_map, List.length_range]
    refine ⟨fun j hj => ?_, last⟩
    simp [hj]
  · rintro ⟨starts, ends⟩
    have length : bs.length = k := by
      rcases Nat.lt_trichotomy bs.length k with short | same | long
      · exact absurd ends (before _ short)
      · exact same
      · have mem : bs.getD k 0 ∈ bs := by
          rw [List.getD_eq_getElem bs 0 long]
          exact List.getElem_mem long
        exact absurd ((starts k long).symm.trans last) (nonzero _ mem)
    apply List.ext_getElem
    · simp [length]
    · intro j hj hj'
      rw [List.getElem_map, List.getElem_range, starts j hj', List.getD_eq_getElem bs 0 hj']

/-- Entry `i` ends its name within the 20 bytes. -/
def Terminated (dir : Buffer) (i : Nat) : Prop := dir (entryAt i + 19) = 0

theorem entryNamed_iff {dir : Buffer} {i : Nat} (name : CString) (term : Terminated dir i) :
    entryNamed dir i name = true ↔ nameAt dir i = name.bytes := by
  rw [nameAt, takeWhile_eq_iff (fun j => dir (entryAt i + j)) ufsNameMax name.bytes name.nonzero
    ⟨19, by decide, term⟩]
  simp [entryNamed]

theorem nameAt_nonzero (dir : Buffer) (i : Nat) : ∀ b ∈ nameAt dir i, b ≠ 0 := by
  intro b hb
  exact of_decide_eq_true (List.all_eq_true.mp List.all_takeWhile b hb)

/-- The name of an entry, as a C string. -/
def entryName (dir : Buffer) (i : Nat) : CString := ⟨nameAt dir i, nameAt_nonzero dir i⟩

theorem nameAt_congr {a b : Buffer} {i : Nat}
    (same : ∀ j < ufsNameMax, a (entryAt i + j) = b (entryAt i + j)) : nameAt a i = nameAt b i := by
  unfold nameAt
  congr 1
  apply List.map_congr_left
  intro j hj
  exact same j (List.mem_range.mp hj)

/-- Names are terminated, and no two files have the same. -/
structure Named (dir : Buffer) : Prop where
  terminated : ∀ i < ufsMaxEntries, entryUsed dir i = true → Terminated dir i
  distinct : ∀ i < ufsMaxEntries, entryUsed dir i = true → ∀ j < ufsMaxEntries,
    entryUsed dir j = true → nameAt dir i = nameAt dir j → i = j

theorem slotOf_eq_some_iff {dir : Buffer} (named : Named dir) (name : List UInt8) (i : Nat) :
    slotOf dir name = some i ↔
      i < ufsMaxEntries ∧ entryUsed dir i = true ∧ nameAt dir i = name := by
  constructor
  · intro found
    have holds := List.find?_some found
    rw [Bool.and_eq_true, decide_eq_true_eq] at holds
    exact ⟨List.mem_range.mp (List.mem_of_find?_eq_some found), holds⟩
  · rintro ⟨hi, used, name_⟩
    cases found : slotOf dir name with
    | none =>
      have none := List.find?_eq_none.mp found i (List.mem_range.mpr hi)
      simp [used, name_] at none
    | some j =>
      have holds := List.find?_some found
      rw [Bool.and_eq_true, decide_eq_true_eq] at holds
      have hj := List.mem_range.mp (List.mem_of_find?_eq_some found)
      rw [named.distinct i hi used j hj holds.1 (name_.trans holds.2.symm)]

theorem ufsFind_eq_slotOf {s : Ufs} (ready : s.ready = true) (named : Named s.directory)
    (name : CString) : ufsFind s name = slotOf s.directory name.bytes := by
  rw [ufsFind, if_pos ready, slotOf]
  apply List.find?_congr
  intro i hi
  cases used : entryUsed s.directory i with
  | false => rfl
  | true =>
    have term := named.terminated i (List.mem_range.mp hi) used
    rw [Bool.true_and, Bool.true_and, Bool.eq_iff_iff, entryNamed_iff name term, decide_eq_true_eq]

theorem fileMap_slot {s : Ufs} (named : Named s.directory) {i : Nat} (hi : i < ufsMaxEntries)
    (used : entryUsed s.directory i = true) :
    fileMap s (nameAt s.directory i) = some (fileAt s i) := by
  rw [fileMap, (slotOf_eq_some_iff named _ i).mpr ⟨hi, used, rfl⟩]
  rfl

/-! ## The operations on slots, as operations on names -/

/-- What an operation returns, and the bytes it stores for the caller. -/
def ufsResult (s : Ufs) : UfsOp → Int × List UInt8
  | .create name ownerUid =>
    match (ufsCreate name ownerUid.toNat s).1 with
    | some slot => (slot, [])
    | none => (-1, [])
  | .delete name => (if (ufsDelete name s).1 then 0 else -1, [])
  | .chmod handle perm => (if (ufsChmod handle perm s).1 then 0 else -1, [])
  | .truncate handle newSize => (if (ufsTruncate handle newSize.toNat s).1 then 0 else -1, [])
  | .writeAt handle offset buf len => ((ufsWriteAt handle offset.toNat buf len.toNat s).1, [])
  | .readAt handle offset len =>
    let r := ufsReadAt handle offset.toNat len.toNat s
    (r.1, r.2.1)

/-- The name that a handle stands for. -/
def handleName (s : Ufs) (handle : Int) : Option (List UInt8) :=
  if handleValid s handle then some (nameAt s.directory handle.toNat) else none

/-- An operation by name; a handle without a file names none. -/
def mapOp (s : Ufs) : UfsOp → Option MapOp
  | .create name ownerUid => some (.create name.bytes ownerUid.toNat)
  | .delete name => some (.delete name.bytes)
  | .chmod handle perm => (handleName s handle).map fun name => .chmod name perm
  | .truncate handle newSize => (handleName s handle).map fun name => .truncate name newSize.toNat
  | .writeAt handle offset buf len => (handleName s handle).map fun name =>
      .write name offset.toNat ((List.range len.toNat).map buf)
  | .readAt handle offset len => (handleName s handle).map fun name =>
      .read name offset.toNat len.toNat

/-- Whether the volume has a free slot for a new file, or free sectors for a
file that has to grow. -/
def room (s : Ufs) : UfsOp → Bool
  | .create _ _ => (firstFree s.directory).isSome
  | .writeAt handle offset _ len => ¬ NoRoom s handle.toNat (offset.toNat + len.toNat)
  | _ => true

/-- The result of an operation says what the map's answer says. -/
def Answers (s : Ufs) (o : UfsOp) : Option (List UInt8) → Prop
  | none => ufsResult s o = (-1, [])
  | some bytes =>
    match o with
    | .create name _ => ∃ slot, slotOf (perform o s).directory name.bytes = some slot ∧
        ufsResult s o = ((slot : Int), bytes)
    | .writeAt _ _ _ len => ufsResult s o = ((len.toNat : Int), bytes)
    | .readAt _ _ _ => ufsResult s o = ((bytes.length : Int), bytes)
    | _ => ufsResult s o = (0, bytes)

/-- A mounted volume on a drive that does not fail. -/
structure Volume (s : Ufs) : Prop where
  laid : Laid s
  faultless : NoFaults s.drive
  named : Named s.directory

/-- The operation does on the files what its image does on the map. -/
def Refines (s : Ufs) (o : UfsOp) : Prop :=
  match mapOp s o with
  | none => ufsResult s o = (-1, []) ∧ fileMap (perform o s) = fileMap s
  | some op =>
    Answers s o (mapStep (fileMap s) (room s o) op).1 ∧
      fileMap (perform o s) = (mapStep (fileMap s) (room s o) op).2

theorem fileMap_eq_some_iff {s : Ufs} (named : Named s.directory) (name : List UInt8) (f : File) :
    fileMap s name = some f ↔ ∃ i < ufsMaxEntries, entryUsed s.directory i = true ∧
      nameAt s.directory i = name ∧ fileAt s i = f := by
  rw [fileMap, Option.map_eq_some_iff]
  constructor
  · rintro ⟨i, found, same⟩
    obtain ⟨hi, used, name_⟩ := (slotOf_eq_some_iff named name i).mp found
    exact ⟨i, hi, used, name_, same⟩
  · rintro ⟨i, hi, used, name_, same⟩
    exact ⟨i, (slotOf_eq_some_iff named name i).mpr ⟨hi, used, name_⟩, same⟩

/-- Only what slot `h` holds changes. -/
theorem fileMap_changed {s t : Ufs} {h : Nat} (before : Named s.directory)
    (after : Named t.directory) (hh : h < ufsMaxEntries)
    (used : ∀ i < ufsMaxEntries, i ≠ h → entryUsed t.directory i = entryUsed s.directory i)
    (names : ∀ i < ufsMaxEntries, i ≠ h → nameAt t.directory i = nameAt s.directory i)
    (files : ∀ i < ufsMaxEntries, i ≠ h → entryUsed s.directory i = true → fileAt t i = fileAt s i)
    {name : List UInt8} {value : Option File}
    (own : ∀ f, value = some f ↔
      entryUsed t.directory h = true ∧ nameAt t.directory h = name ∧ fileAt t h = f)
    (kept : entryUsed t.directory h = true → nameAt t.directory h = name)
    (old : ∀ i < ufsMaxEntries, entryUsed s.directory i = true →
      (nameAt s.directory i = name ↔ i = h)) :
    fileMap t = Function.update (fileMap s) name value := by
  funext n
  apply Option.ext
  intro f
  rw [fileMap_eq_some_iff after]
  by_cases same : n = name
  · subst same
    rw [Function.update_self, own]
    constructor
    · rintro ⟨i, hi, usedI, nameI, fileI⟩
      by_cases self : i = h
      · subst self
        exact ⟨usedI, nameI, fileI⟩
      · rw [used i hi self] at usedI
        rw [names i hi self] at nameI
        exact absurd ((old i hi usedI).mp nameI) self
    · rintro ⟨usedH, nameH, fileH⟩
      exact ⟨h, hh, usedH, nameH, fileH⟩
  · rw [Function.update_of_ne same, fileMap_eq_some_iff before]
    constructor
    · rintro ⟨i, hi, usedI, nameI, fileI⟩
      have self : i ≠ h := fun self => same (nameI.symm.trans (self ▸ kept (self ▸ usedI)))
      rw [used i hi self] at usedI
      rw [names i hi self] at nameI
      exact ⟨i, hi, usedI, nameI, (files i hi self usedI).symm.trans fileI⟩
    · rintro ⟨i, hi, usedI, nameI, fileI⟩
      have self : i ≠ h := fun self => same (nameI.symm.trans ((old i hi usedI).mpr self))
      exact ⟨i, hi, (used i hi self).trans usedI, (names i hi self).trans nameI,
        (files i hi self usedI).trans fileI⟩

/-! ## What a slot shows of an operation on another -/

theorem Beside.names {h i : Nat} {s t : Ufs} (beside : Beside h s t) (other : i ≠ h) :
    nameAt t.directory i = nameAt s.directory i := by
  apply nameAt_congr
  intro j hj
  unfold ufsNameMax at hj
  exact beside.entries _ (entry_outside other (by omega) (by omega))

theorem Beside.terminated {h i : Nat} {s t : Ufs} (beside : Beside h s t) (other : i ≠ h) :
    Terminated t.directory i ↔ Terminated s.directory i := by
  unfold Terminated
  rw [beside.entries _ (entry_outside other (by omega) (by omega))]

theorem Beside.fileAt {h i : Nat} {s t : Ufs} (beside : Beside h s t) (laid : Laid s)
    (hi : i < ufsMaxEntries) (other : i ≠ h) : Storage.fileAt t i = Storage.fileAt s i := by
  have same := beside.sameFile laid hi other
  have owner : entryOwner t.directory i = entryOwner s.directory i := by
    apply Lib.readU32_congr
    intro j hj
    exact beside.entries _ (entry_outside other (by omega) (by omega))
  have perm : entryPerm t.directory i = entryPerm s.directory i :=
    beside.entries _ (entry_outside other (by omega) (by omega))
  unfold Storage.fileAt
  rw [owner, perm, same.size]
  congr 1
  apply List.map_congr_left
  intro p hp
  exact same.bytes p (List.mem_range.mp hp)

/-- Names after an operation on slot `h`. -/
theorem Beside.named {h : Nat} {s t : Ufs} (beside : Beside h s t) (named : Named s.directory)
    (term : entryUsed t.directory h = true → Terminated t.directory h)
    (fresh : ∀ i < ufsMaxEntries, i ≠ h → entryUsed t.directory h = true →
      entryUsed s.directory i = true → nameAt s.directory i ≠ nameAt t.directory h) :
    Named t.directory := by
  constructor
  · intro i hi used
    by_cases same : i = h
    · subst same
      exact term used
    · rw [beside.used same] at used
      exact (beside.terminated same).mpr (named.terminated i hi used)
  · intro i hi usedI j hj usedJ sameName
    by_cases sameI : i = h
    · by_cases sameJ : j = h
      · exact sameI.trans sameJ.symm
      · subst sameI
        rw [beside.used sameJ] at usedJ
        rw [beside.names sameJ] at sameName
        exact absurd sameName.symm (fresh j hj sameJ usedI usedJ)
    · rw [beside.used sameI] at usedI
      rw [beside.names sameI] at sameName
      by_cases sameJ : j = h
      · subst sameJ
        exact absurd sameName (fresh i hi sameI usedJ usedI)
      · rw [beside.used sameJ] at usedJ
        rw [beside.names sameJ] at sameName
        exact named.distinct i hi usedI j hj usedJ sameName

/-- A file is changed where it is. -/
theorem fileMap_inPlace {h : Nat} {s t : Ufs} (laid : Laid s) (named : Named s.directory)
    (beside : Beside h s t) (hh : h < ufsMaxEntries) (used : entryUsed s.directory h = true)
    (usedT : entryUsed t.directory h = true) (term : Terminated t.directory h)
    (name : nameAt t.directory h = nameAt s.directory h) :
    Named t.directory ∧
      fileMap t = Function.update (fileMap s) (nameAt s.directory h) (some (fileAt t h)) := by
  have namedT : Named t.directory := beside.named named (fun _ => term)
    fun i hi ne _ usedI same => ne (named.distinct i hi usedI h hh used (same.trans name))
  refine ⟨namedT, fileMap_changed named namedT hh (fun i _ ne => beside.used ne)
    (fun i _ ne => beside.names ne) (fun i hi ne _ => beside.fileAt laid hi ne) (fun f => ?_)
    (fun _ => name) fun i hi usedI => ?_⟩
  · rw [Option.some_inj]
    exact ⟨fun same => ⟨usedT, name, same⟩, fun all => all.2.2⟩
  · exact ⟨fun same => named.distinct i hi usedI h hh used same, fun same => same ▸ rfl⟩

theorem Rewritten.refines {h size : Nat} {byte : Nat → UInt8} {s t : Ufs}
    (rewritten : Rewritten h size byte s t) (vol : Volume s) (hh : h < ufsMaxEntries)
    (used : entryUsed s.directory h = true) :
    Volume t ∧ fileMap t = Function.update (fileMap s) (nameAt s.directory h)
      (some { fileAt s h with bytes := (List.range size).map byte }) := by
  have head (j : Nat) (hj : j < 20 ∨ 32 ≤ j) : t.directory (entryAt h + j) =
      s.directory (entryAt h + j) := rewritten.heads _ (by omega)
  have usedT : entryUsed t.directory h = true := by
    unfold entryUsed at used ⊢
    rw [← Nat.add_zero (entryAt h), head 0 (by omega)]
    exact used
  have term : Terminated t.directory h := by
    unfold Terminated
    rw [head 19 (by omega)]
    exact vol.named.terminated h hh used
  have name : nameAt t.directory h = nameAt s.directory h := by
    apply nameAt_congr
    intro j hj
    unfold ufsNameMax at hj
    exact head j (by omega)
  have owner : entryOwner t.directory h = entryOwner s.directory h := by
    apply Lib.readU32_congr
    intro j hj
    rw [Nat.add_assoc]
    exact head _ (by omega)
  have perm : entryPerm t.directory h = entryPerm s.directory h := head 36 (by omega)
  obtain ⟨named, map⟩ := fileMap_inPlace vol.laid vol.named rewritten.beside hh used usedT term name
  refine ⟨⟨rewritten.laid, rewritten.faultless, named⟩, map.trans ?_⟩
  have bytes : (List.range size).map (fileByte t h) = (List.range size).map byte :=
    List.map_congr_left fun p hp => rewritten.bytes p (List.mem_range.mp hp)
  unfold fileAt
  rw [owner, perm, rewritten.sized, bytes]

/-- A handle with a file, and what the map has for it. -/
theorem handle_file {s : Ufs} (vol : Volume s) {handle : Int}
    (valid : handleValid s handle = true) :
    handle.toNat < ufsMaxEntries ∧ entryUsed s.directory handle.toNat = true ∧
      handleName s handle = some (nameAt s.directory handle.toNat) ∧
      fileMap s (nameAt s.directory handle.toNat) = some (fileAt s handle.toNat) := by
  obtain ⟨hh, used⟩ := handleValid_spec valid
  exact ⟨hh, used, if_pos valid, fileMap_slot vol.named hh used⟩

/-! ## Each operation -/

theorem take_map_range (f : Nat → UInt8) {n size : Nat} (h : n ≤ size) :
    ((List.range size).map f).take n = (List.range n).map f := by
  rw [← List.map_take, List.take_range, Nat.min_eq_left h]

theorem truncate_refines {s : Ufs} (vol : Volume s) (handle : Int) (newSize : BitVec 32)
    (scope : handleValid s handle = true →
      newSize.toNat ≤ entrySize s.directory handle.toNat) :
    Volume (perform (.truncate handle newSize) s) ∧ Refines s (.truncate handle newSize) := by
  cases valid : handleValid s handle with
  | false =>
    have refused : ufsTruncate handle newSize.toNat s = (false, s) := by
      simp [ufsTruncate, valid]
    simp [Refines, mapOp, handleName, valid, perform, ufsResult, refused, vol]
  | true =>
    obtain ⟨hh, used, name, file⟩ := handle_file vol valid
    have below := scope valid
    have sized := vol.laid.sized _ hh
    have small := vol.laid.allocated.capacity_le hh
    have fits : ¬ newSize.toNat > wrap32 (entryCapacity s.directory handle.toNat * sectorSize) := by
      unfold wrap32 sectorSize
      omega
    have rewritten := resize_rewrites vol.laid vol.faultless hh
      (Nat.le_trans below sized) newSize.isLt
    have step : ufsTruncate handle newSize.toNat s = persist { s with
        directory := writeU32 s.directory (entryAt handle.toNat + 24) newSize.toNat } := by
      unfold ufsTruncate
      rw [if_neg (by simp [valid]), if_neg fits]
    have ok : (ufsTruncate handle newSize.toNat s).1 = true := by
      rw [step]
      exact persist_succeeds vol.faultless
    rw [← step] at rewritten
    obtain ⟨vol', map⟩ := rewritten.refines vol hh used
    refine ⟨vol', ?_⟩
    simp only [Refines, mapOp, name, Option.map_some, mapStep, file, Answers, ufsResult, ok, if_true,
      true_and]
    rw [perform, map]
    unfold fileAt
    simp only [take_map_range _ below]

theorem chmod_refines {s : Ufs} (vol : Volume s) (handle : Int) (perm : UInt8) :
    Volume (perform (.chmod handle perm) s) ∧ Refines s (.chmod handle perm) := by
  cases valid : handleValid s handle with
  | false =>
    have refused : ufsChmod handle perm s = (false, s) := by simp [ufsChmod, valid]
    simp [Refines, mapOp, handleName, valid, perform, ufsResult, refused, vol]
  | true =>
    obtain ⟨hh, used, name, file⟩ := handle_file vol valid
    have works := ufsChmod_works vol.laid handle perm
    have step : ufsChmod handle perm s = persist { s with
        directory := Function.update s.directory (entryAt handle.toNat + 36) perm } := by
      unfold ufsChmod
      rw [if_neg (by simp [valid])]
    have ok : (ufsChmod handle perm s).1 = true := by
      rw [step]
      exact persist_succeeds vol.faultless
    obtain ⟨dir, _, _, touches⟩ := persist_frame { s with
      directory := Function.update s.directory (entryAt handle.toNat + 36) perm }
    rw [← step] at dir touches
    have byte (q : Nat) (ne : q ≠ entryAt handle.toNat + 36) :
        (ufsChmod handle perm s).2.directory q = s.directory q := by
      rw [dir]
      exact Function.update_of_ne ne _ _
    have usedT : entryUsed (ufsChmod handle perm s).2.directory handle.toNat = true := by
      unfold entryUsed at used ⊢
      rw [byte _ (by omega)]
      exact used
    have term : Terminated (ufsChmod handle perm s).2.directory handle.toNat := by
      unfold Terminated
      rw [byte _ (by omega)]
      exact vol.named.terminated _ hh used
    have names : nameAt (ufsChmod handle perm s).2.directory handle.toNat =
        nameAt s.directory handle.toNat := by
      apply nameAt_congr
      intro j hj
      unfold ufsNameMax at hj
      exact byte _ (by omega)
    have size : entrySize (ufsChmod handle perm s).2.directory handle.toNat =
        entrySize s.directory handle.toNat := by
      apply Lib.readU32_congr
      intro j hj
      exact byte _ (by omega)
    have start : entryStart (ufsChmod handle perm s).2.directory handle.toNat =
        entryStart s.directory handle.toNat := by
      apply Lib.readU32_congr
      intro j hj
      exact byte _ (by omega)
    have owner : entryOwner (ufsChmod handle perm s).2.directory handle.toNat =
        entryOwner s.directory handle.toNat := by
      apply Lib.readU32_congr
      intro j hj
      exact byte _ (by omega)
    have perms : entryPerm (ufsChmod handle perm s).2.directory handle.toNat = perm := by
      unfold entryPerm
      rw [dir]
      exact Function.update_self ..
    have bytes (p : Nat) (hp : p < entrySize s.directory handle.toNat) :
        fileByte (ufsChmod handle perm s).2 handle.toNat p = fileByte s handle.toNat p := by
      have inside := vol.laid.inExtent hh hp
      have area := (vol.laid.allocated.inside _ hh _ inside).1
      unfold fileByte
      rw [start, touches.other fun metadata => by unfold Metadata at metadata; omega]
    obtain ⟨named, map⟩ := fileMap_inPlace vol.laid vol.named works.beside hh used usedT term names
    refine ⟨⟨works.laid, touches.noFaults vol.faultless, named⟩, ?_⟩
    simp only [Refines, mapOp, name, Option.map_some, mapStep, file, Answers, ufsResult, ok, if_true,
      true_and]
    rw [perform, map]
    unfold fileAt
    rw [size, owner, perms, List.map_congr_left fun p hp => bytes p (List.mem_range.mp hp)]

theorem delete_refines {s : Ufs} (vol : Volume s) (name : CString) :
    Volume (perform (.delete name) s) ∧ Refines s (.delete name) := by
  have find := ufsFind_eq_slotOf vol.laid.ready vol.named name
  cases found : slotOf s.directory name.bytes with
  | none =>
    have refused : ufsDelete name s = (false, s) := by
      unfold ufsDelete
      rw [if_neg (not_not_intro vol.laid.ready), find, found]
    have absent : fileMap s name.bytes = none := by rw [fileMap, found]; rfl
    simp [Refines, mapOp, mapStep, absent, Answers, perform, ufsResult, refused, vol]
  | some slot =>
    obtain ⟨hslot, used, names⟩ := (slotOf_eq_some_iff vol.named _ _).mp found
    have present : (fileMap s name.bytes).isSome = true := by rw [fileMap, found]; rfl
    obtain ⟨count, step⟩ : ∃ count, ufsDelete name s = persist { s with
        directory := Function.update s.directory (entryAt slot) 0
        cachedFileCount := count } := by
      unfold ufsDelete
      rw [if_neg (not_not_intro vol.laid.ready), find, found]
      exact ⟨_, rfl⟩
    have ok : (ufsDelete name s).1 = true := by
      rw [step]
      exact persist_succeeds vol.faultless
    obtain ⟨dir, _, _, touches⟩ := persist_frame { s with
      directory := Function.update s.directory (entryAt slot) 0
      cachedFileCount := count }
    have works := update_works (v := 0) count vol.laid
      (by omega : entryAt slot ≤ entryAt slot ∧ entryAt slot < entryAt slot + 40) (by omega)
    rw [← step] at dir touches works
    have unused : ¬ entryUsed (ufsDelete name s).2.directory slot = true := by
      unfold entryUsed
      rw [dir]
      simp
    have named : Named (ufsDelete name s).2.directory := works.beside.named vol.named
      (fun bad => absurd bad unused) fun _ _ _ bad => absurd bad unused
    refine ⟨⟨works.laid, touches.noFaults vol.faultless, named⟩, ?_⟩
    simp only [Refines, mapOp, mapStep, present, if_true, Answers, ufsResult, ok, true_and]
    refine fileMap_changed vol.named named hslot (fun i _ ne => works.beside.used ne)
      (fun i _ ne => works.beside.names ne) (fun i hi ne _ => works.beside.fileAt vol.laid hi ne)
      (fun f => ?_) (fun bad => absurd bad unused) fun i hi usedI => ?_
    · constructor
      · intro bad
        cases bad
      · intro all
        exact absurd all.1 unused
    · rw [← names]
      exact ⟨fun same => vol.named.distinct i hi usedI slot hslot used same, fun same => same ▸ rfl⟩

theorem overlay_eq_splice (f : Nat → UInt8) (buf : Buffer) {size offset : Nat} (len : Nat)
    (within : offset ≤ size) :
    (List.range (max size (offset + len))).map (overlay offset len buf f) =
      splice ((List.range size).map f) offset ((List.range len).map buf) := by
  unfold splice
  rw [take_map_range f within]
  apply List.ext_getElem
  · simp
    omega
  · intro p hp hp'
    rw [List.getElem_map, List.getElem_range]
    unfold overlay
    by_cases before : p < offset
    · rw [if_neg (by omega)]
      simp [before]
    · by_cases inside : p < offset + len
      · have here : p - offset < len := by omega
        rw [if_pos ⟨Nat.not_lt.mp before, inside⟩]
        simp [List.getElem_append, before, here]
      · have there : ¬ p - offset < len := by omega
        have index : offset + len + (p - offset - len) = p := by omega
        rw [if_neg (by omega)]
        simp [List.getElem_append, before, there, index]

theorem write_refines {s : Ufs} (vol : Volume s) (handle : Int) (offset : BitVec 32) (buf : Buffer)
    (len : BitVec 32) (scope : handleValid s handle = true →
      offset.toNat ≤ entrySize s.directory handle.toNat ∧ len.toNat ≤ 4096) :
    Volume (perform (.writeAt handle offset buf len) s) ∧
      Refines s (.writeAt handle offset buf len) := by
  cases valid : handleValid s handle with
  | false =>
    have refused := ufsWriteAt_refused buf offset.isLt len.isLt (Or.inl valid)
    simp [Refines, mapOp, handleName, valid, perform, ufsResult, refused, vol]
  | true =>
    obtain ⟨hh, used, name, file⟩ := handle_file vol valid
    obtain ⟨within, few⟩ := scope valid
    rcases ufsWriteAt_rewrites buf vol.laid vol.faultless valid within few with
      ⟨full, refused⟩ | ⟨fits, result, rewritten⟩
    · simp [Refines, mapOp, name, mapStep, file, room, full, Answers, perform, ufsResult, refused, vol]
    · obtain ⟨vol', map⟩ := rewritten.refines vol hh used
      refine ⟨vol', ?_⟩
      simp only [Refines, mapOp, name, Option.map_some, mapStep, file, room, fits,
        not_false_eq_true, decide_true, not_true_eq_false, if_false, Answers, ufsResult, result,
        true_and]
      rw [perform, map, overlay_eq_splice _ _ _ within]
      rfl

/-- On a drive that does not fail a read returns all there is. -/
theorem ufsReadAt_complete {s : Ufs} (vol : Volume s) {handle : Int}
    (valid : handleValid s handle = true) (offset len : Nat) :
    let bytes := (((List.range (entrySize s.directory handle.toNat)).map
      (fileByte s handle.toNat)).drop offset).take len
    (ufsReadAt handle offset len s).1 = bytes.length ∧ (ufsReadAt handle offset len s).2.1 = bytes := by
  intro bytes
  obtain ⟨hh, _⟩ := handleValid_spec valid
  have length : bytes.length = min len (entrySize s.directory handle.toNat - offset) := by
    simp [bytes]
  have contents := (ufsReadAt_spec vol.laid valid offset len).1
  have sized := vol.laid.sized _ hh
  have capacity := vol.laid.allocated.capacity_le hh
  rw [length]
  unfold ufsReadAt at contents ⊢
  rw [if_neg (by simp [valid])] at contents ⊢
  simp only at contents ⊢
  by_cases beyond : offset ≥ entrySize s.directory handle.toNat
  · rw [if_pos beyond]
    have empty : bytes = [] := List.length_eq_zero_iff.mp (by omega)
    rw [empty, Nat.sub_eq_zero_of_le beyond, Nat.min_zero]
    exact ⟨rfl, rfl⟩
  rw [if_neg beyond] at contents ⊢
  generalize hn : min len (entrySize s.directory handle.toNat - offset) = n at contents length ⊢
  obtain ⟨ok, _, full⟩ := readAtLoop_complete (entryStart s.directory handle.toNat) n offset n
    s.drive vol.faultless (Nat.le_refl _)
  rw [ok, if_pos rfl, toInt32_small (by omega)]
  refine ⟨rfl, List.ext_getElem (full.trans length.symm) fun k hk hk' => ?_⟩
  rw [(contents k _ (List.getElem?_eq_getElem hk)).2]
  simp [bytes]

theorem fileMap_drive {s : Ufs} {d : Drive} (same : d.sectors = s.drive.sectors) :
    fileMap { s with drive := d } = fileMap s := by
  unfold fileMap fileAt fileByte
  simp only [same]

theorem read_refines {s : Ufs} (vol : Volume s) (handle : Int) (offset len : BitVec 32) :
    Volume (perform (.readAt handle offset len) s) ∧ Refines s (.readAt handle offset len) := by
  obtain ⟨d, touches, after⟩ := ufsReadAt_frame vol.laid handle offset.toNat len.toNat
  have sectors : d.sectors = s.drive.sectors := funext fun a => touches.other id
  have map := fileMap_drive sectors
  have step : perform (.readAt handle offset len) s = { s with drive := d } := after
  refine ⟨?_, ?_⟩
  · rw [step]
    exact ⟨⟨vol.laid.ready, vol.laid.allocated, vol.laid.sized⟩, touches.noFaults vol.faultless,
      vol.named⟩
  cases valid : handleValid s handle with
  | false =>
    have refused := ufsReadAt_invalid valid offset.toNat len.toNat
    simp [Refines, mapOp, handleName, valid, step, map, ufsResult, refused]
  | true =>
    obtain ⟨hh, used, name, file⟩ := handle_file vol valid
    obtain ⟨result, bytes⟩ := ufsReadAt_complete vol valid offset.toNat len.toNat
    simp only [Refines, mapOp, name, Option.map_some, mapStep, file, Answers, ufsResult, result,
      bytes, step, map, and_true]
    rfl

theorem firstFree_spec {dir : Buffer} {slot : Nat} (free : firstFree dir = some slot) :
    slot < ufsMaxEntries ∧ entryUsed dir slot = false := by
  have holds := List.find?_some free
  exact ⟨List.mem_range.mp (List.mem_of_find?_eq_some free), by simpa using holds⟩

/-- The entry `ufs_create` fills, as a file. -/
theorem createdEntry_file (dir : Buffer) (slot : Nat) (name : CString) (uid : Nat)
    (nonempty : 0 < name.bytes.length) (short : name.bytes.length < ufsNameMax) :
    entryUsed (createdEntry dir slot name uid) slot = true ∧
      Terminated (createdEntry dir slot name uid) slot ∧
      nameAt (createdEntry dir slot name uid) slot = name.bytes := by
  have byte (j : Nat) (hj : j < ufsNameMax) := createdEntry_name dir slot name uid j short hj
  have zero (j : Nat) (hj : name.bytes.length ≤ j) : name.bytes.getD j 0 = 0 := by
    rw [List.getD_eq_getElem?_getD, List.getElem?_eq_none hj]
    rfl
  have term : Terminated (createdEntry dir slot name uid) slot := by
    unfold Terminated
    rw [byte 19 (by decide), zero 19 (by unfold ufsNameMax at short; omega)]
  refine ⟨?_, term, ?_⟩
  · have first := byte 0 (by decide)
    rw [Nat.add_zero, List.getD_eq_getElem _ _ nonempty] at first
    have := name.nonzero _ (List.getElem_mem nonempty)
    simp [entryUsed, first, this]
  · rw [nameAt, takeWhile_eq_iff (fun j => createdEntry dir slot name uid (entryAt slot + j))
      ufsNameMax name.bytes name.nonzero ⟨19, by decide, term⟩]
    refine ⟨fun j hj => byte j (by omega), ?_⟩
    rw [byte _ short, zero _ (Nat.le_refl _)]

theorem create_refines {s : Ufs} (vol : Volume s) (name : CString) (ownerUid : BitVec 32) :
    Volume (perform (.create name ownerUid) s) ∧ Refines s (.create name ownerUid) := by
  have find := ufsFind_eq_slotOf vol.laid.ready vol.named name
  have present : (fileMap s name.bytes).isSome = (ufsFind s name).isSome := by
    rw [find, fileMap, Option.isSome_map]
  -- what the map refuses is refused
  by_cases bad : name.bytes.length = 0 ∨ name.bytes.length ≥ ufsNameMax ∨
      (ufsFind s name).isSome = true ∨ ¬ (firstFree s.directory).isSome = true
  · have refused : ufsCreate name ownerUid.toNat s = (none, s) := by
      unfold ufsCreate
      rw [if_neg (not_not_intro vol.laid.ready)]
      by_cases length : name.bytes.length = 0 ∨ name.bytes.length ≥ ufsNameMax
      · rw [if_pos length]
      rw [if_neg length]
      by_cases there : (ufsFind s name).isSome = true
      · rw [if_pos there]
      rw [if_neg there]
      have full : firstFree s.directory = none := by
        rcases bad with empty | long | there' | full
        · exact absurd (Or.inl empty) length
        · exact absurd (Or.inr long) length
        · exact absurd there' there
        · simpa using full
      rw [full]
    rw [← present] at bad
    have map : mapStep (fileMap s) (firstFree s.directory).isSome
        (.create name.bytes ownerUid.toNat) = (none, fileMap s) := if_pos bad
    simp only [perform, refused, Refines, mapOp, room, map, Answers, ufsResult, vol, and_self]
  obtain ⟨nonempty, short, missing, hasRoom⟩ : 0 < name.bytes.length ∧
      name.bytes.length < ufsNameMax ∧ ufsFind s name = none ∧
      (firstFree s.directory).isSome = true := by
    simp only [not_or, not_not] at bad
    exact ⟨by omega, by omega, by simpa using bad.2.2.1, bad.2.2.2⟩
  obtain ⟨slot, free⟩ := Option.isSome_iff_exists.mp hasRoom
  obtain ⟨hslot, unused⟩ := firstFree_spec free
  obtain ⟨count, step⟩ : ∃ count, ufsCreate name ownerUid.toNat s =
      (if (persist { s with
        directory := createdEntry s.directory slot name ownerUid.toNat
        cachedFileCount := count }).1 then some slot else none,
      (persist { s with
        directory := createdEntry s.directory slot name ownerUid.toNat
        cachedFileCount := count }).2) := by
    unfold ufsCreate
    rw [if_neg (not_not_intro vol.laid.ready), if_neg (by omega), if_neg (by simp [missing]), free]
    exact ⟨_, rfl⟩
  rw [persist_succeeds, if_pos rfl] at step
  swap
  · exact vol.faultless
  obtain ⟨dir, _, _, touches⟩ := persist_frame { s with
    directory := createdEntry s.directory slot name ownerUid.toNat
    cachedFileCount := count }
  have result : (ufsCreate name ownerUid.toNat s).1 = some slot := by rw [step]
  have after : (ufsCreate name ownerUid.toNat s).2 = (persist { s with
    directory := createdEntry s.directory slot name ownerUid.toNat
    cachedFileCount := count }).2 := by rw [step]
  rw [← after] at dir touches
  generalize ht : (ufsCreate name ownerUid.toNat s).2 = t at dir touches after
  obtain ⟨laid, beside⟩ : Laid t ∧ Beside slot s t := by
    rcases ufsCreate_spec vol.laid name ownerUid.toNat with refused | ⟨_, _, _, slot', _, free', spec⟩
    · rw [refused] at result
      cases result
    · obtain rfl : slot' = slot := Option.some.inj (free'.symm.trans free)
      rw [ht] at spec
      exact ⟨spec.1, spec.2.1⟩
  obtain ⟨used, term, named⟩ :=
    createdEntry_file s.directory slot name ownerUid.toNat nonempty short
  obtain ⟨owner, perm⟩ := createdEntry_owner s.directory slot name ownerUid.toNat ownerUid.isLt
  have filled : t.directory = createdEntry s.directory slot name ownerUid.toNat := dir
  rw [← filled] at used term named owner perm
  have size : entrySize t.directory slot = 0 := by
    rw [filled]
    exact createdEntry_size ..
  have absent (i : Nat) (hi : i < ufsMaxEntries) (usedI : entryUsed s.directory i = true) :
      nameAt s.directory i ≠ name.bytes := by
    intro same
    rw [find, (slotOf_eq_some_iff vol.named _ i).mpr ⟨hi, usedI, same⟩] at missing
    cases missing
  have names : Named t.directory := beside.named vol.named (fun _ => term)
    fun i hi _ _ usedI same => absent i hi usedI (same.trans named)
  have file : fileAt t slot = { bytes := [], owner := ownerUid.toNat, perm := 0 } := by
    unfold fileAt
    rw [size, owner, perm]
    rfl
  have step' : perform (.create name ownerUid) s = t := ht
  refine ⟨step' ▸ ⟨laid, touches.noFaults vol.faultless, names⟩, ?_⟩
  rw [← present] at bad
  have map : mapStep (fileMap s) (firstFree s.directory).isSome
      (.create name.bytes ownerUid.toNat) = (some [], Function.update (fileMap s) name.bytes
        (some { bytes := [], owner := ownerUid.toNat, perm := 0 })) := if_neg bad
  simp only [Refines, mapOp, room, map, Answers, ufsResult, result, step']
  refine ⟨⟨slot, (slotOf_eq_some_iff names _ slot).mpr ⟨hslot, used, named⟩, rfl⟩, ?_⟩
  refine fileMap_changed vol.named names hslot (fun i _ ne => beside.used ne)
    (fun i _ ne => beside.names ne) (fun i hi ne _ => beside.fileAt vol.laid hi ne)
    (fun f => ?_) (fun _ => named) fun i hi usedI => ?_
  · rw [Option.some_inj, file]
    exact ⟨fun same => ⟨used, named, same⟩, fun all => all.2.2⟩
  · constructor
    · exact fun same => absurd same (absent i hi usedI)
    · rintro rfl
      rw [unused] at usedI
      cases usedI

/-! ## Runs -/

/-- A file is cut, not extended, and written at most 4096 bytes at a time from
its end at the furthest. -/
def InScope (s : Ufs) : UfsOp → Prop
  | .truncate handle newSize => handleValid s handle = true →
      newSize.toNat ≤ entrySize s.directory handle.toNat
  | .writeAt handle offset _ len => handleValid s handle = true →
      offset.toNat ≤ entrySize s.directory handle.toNat ∧ len.toNat ≤ 4096
  | _ => True

theorem perform_refines {s : Ufs} (vol : Volume s) (o : UfsOp) (scope : InScope s o) :
    Volume (perform o s) ∧ Refines s o := by
  cases o with
  | create name ownerUid => exact create_refines vol name ownerUid
  | delete name => exact delete_refines vol name
  | chmod handle perm => exact chmod_refines vol handle perm
  | truncate handle newSize => exact truncate_refines vol handle newSize scope
  | writeAt handle offset buf len => exact write_refines vol handle offset buf len scope
  | readAt handle offset len => exact read_refines vol handle offset len

theorem formatted_unused (i : Nat) : entryUsed (fun _ => 0) i = false := rfl

theorem formatFresh_faultless {s : Ufs} (faultless : NoFaults s.drive) :
    NoFaults (formatFresh s).drive := by
  let zeroed := { s with directory := fun _ => 0, cachedFileCount := 0, nextFreeLba := ufsDataLba }
  have first := (persistDirectory_touches zeroed).noFaults faultless
  exact (persistSuperblock_touches (persistDirectory zeroed).2).noFaults first

theorem freshVolume_volume (disk : Nat → Sector) : Volume (freshVolume disk) := by
  have laid := faultyVolume_laid disk fun _ => none
  refine ⟨⟨rfl, formatted_allocated, laid.sized⟩, formatFresh_faultless rfl, ?_⟩
  exact ⟨fun i _ used => absurd used (Bool.eq_false_iff.mp (formatted_unused i)),
    fun i _ used => absurd used (Bool.eq_false_iff.mp (formatted_unused i))⟩

theorem freshVolume_empty (disk : Nat → Sector) : fileMap (freshVolume disk) = fun _ => none := by
  funext name
  have absent : slotOf (fun _ => 0) name = none := by
    rw [slotOf, List.find?_eq_none]
    intro i _
    simp [formatted_unused]
  exact Option.map_eq_none_iff.mpr absent

/-- From an empty map on, every operation of a run does what it does on a map. -/
theorem ufs_refines_map (disk : Nat → Sector) :
    fileMap (freshVolume disk) = (fun _ => none) ∧
      ∀ (ops : List UfsOp) (s : Ufs), Lib.Machine.Meets ufsStep InScope (freshVolume disk) ops →
        Lib.Machine.run ufsStep (freshVolume disk) ops = some s →
        ∀ next, InScope s next → Refines s next := by
  refine ⟨freshVolume_empty disk, fun ops s meets reached next scope => ?_⟩
  have vol : Volume s := Lib.Machine.run_invariant
    (fun s o t vol scope stepped => by
      cases stepped
      exact (perform_refines vol o scope).1)
    (freshVolume_volume disk) meets reached
  exact (perform_refines vol next scope).2

/-- A file is created and written to. -/
theorem ufs_refines_map_append :
    Refines (perform (.create nameF 7) (freshVolume fun _ _ => 0))
      (.writeAt 0 0 (fun _ => 0x41) 3) :=
  (ufs_refines_map fun _ _ => 0).2 [.create nameF 7] _ ⟨trivial, fun _ _ => trivial⟩ rfl _
    fun _ => ⟨Nat.zero_le _, by decide⟩

end MiniKernel.Storage
