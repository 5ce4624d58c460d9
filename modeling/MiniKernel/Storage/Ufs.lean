import MiniKernel.Drivers.Ata

/-!
# The persistent filesystem

Source: kernel/core/ufs.c. `directory` is the cached directory, byte for byte;
32-bit fields are read from it and written to it as the source does. Numbers of
type `unsigned int` are natural numbers with the wrap written out.
-/
namespace MiniKernel.Storage
open Drivers
open Lib (Buffer readU32 writeU32)

def wrap32 (n : Nat) : Nat := n % 2 ^ 32

/-- The conversion of an `unsigned int` to `int`. -/
def toInt32 (n : Nat) : Int := (BitVec.ofNat 32 n).toInt

/-- A C string, without its terminator. -/
structure CString where
  bytes : List UInt8
  nonzero : ∀ b ∈ bytes, b ≠ 0

def sectorSize : Nat := 512
def ufsSbLba : Nat := 8192
def ufsDirSectors : Nat := 5
def ufsDirLba : Nat := 8193
def ufsDataLba : Nat := 8198
def ufsDataEndLba : Nat := 16390
def ufsEntrySize : Nat := 40
def ufsMaxEntries : Nat := 64
def ufsNameMax : Nat := 20

def ufsPermOtherRead : UInt8 := 1
def ufsPermOtherWrite : UInt8 := 2

structure Ufs where
  directory : Buffer
  ready : Bool
  cachedFileCount : Nat
  nextFreeLba : Nat
  drive : Drive

/-- `entry_at`, as an offset. -/
def entryAt (i : Nat) : Nat := i * ufsEntrySize

def entryUsed (dir : Buffer) (i : Nat) : Bool := dir (entryAt i) ≠ 0
def entryStart (dir : Buffer) (i : Nat) : Nat := readU32 dir (entryAt i + 20)
def entrySize (dir : Buffer) (i : Nat) : Nat := readU32 dir (entryAt i + 24)
def entryCapacity (dir : Buffer) (i : Nat) : Nat := readU32 dir (entryAt i + 28)
def entryOwner (dir : Buffer) (i : Nat) : Nat := readU32 dir (entryAt i + 32)
def entryPerm (dir : Buffer) (i : Nat) : UInt8 := dir (entryAt i + 36)

/-- `str_eq((const char *)e, name)`: it stops at the first difference or at the
end of both, so it reads at most one byte beyond the length of `name`. -/
def entryNamed (dir : Buffer) (i : Nat) (name : CString) : Bool :=
  (List.range name.bytes.length).all (fun j => dir (entryAt i + j) = name.bytes.getD j 0) &&
    dir (entryAt i + name.bytes.length) = 0

/-- `str_eq(a, name)` on any bytes. -/
def strEq (a : Buffer) (name : CString) : Bool :=
  (List.range name.bytes.length).all (fun j => a j = name.bytes.getD j 0) &&
    a name.bytes.length = 0

/-- `set_name` on the entry at offset `e`. -/
def setName (dir : Buffer) (e : Nat) (name : CString) : Buffer := fun p =>
  if e ≤ p ∧ p < e + ufsNameMax then
    if p - e < ufsNameMax - 1 then name.bytes.getD (p - e) 0 else 0
  else dir p

/-- The superblock sector as `persist_superblock` builds it. -/
def superblockImage (count nextFree : Nat) : Buffer :=
  writeU32 (writeU32 (fun p =>
    if p = 0 then 0x55 else if p = 1 then 0x46 else if p = 2 then 0x53 else if p = 3 then 0x31
    else 0) 4 count) 8 nextFree

def persistSuperblock (s : Ufs) : Bool × Ufs :=
  let r := ataWriteSectors ufsSbLba 1 (superblockImage s.cachedFileCount s.nextFreeLba) s.drive
  (r.1, { s with drive := r.2 })

def persistDirectory (s : Ufs) : Bool × Ufs :=
  let r := ataWriteSectors ufsDirLba ufsDirSectors s.directory s.drive
  (r.1, { s with drive := r.2 })

/-- `persist_directory() != 0 || persist_superblock() != 0`. -/
def persist (s : Ufs) : Bool × Ufs :=
  let r := persistDirectory s
  if r.1 then persistSuperblock r.2 else (false, r.2)

def countUsedEntries (dir : Buffer) : Nat :=
  (List.range ufsMaxEntries).countP fun i => entryUsed dir i

def formatFresh (s : Ufs) : Ufs :=
  let s := { s with directory := fun _ => 0, cachedFileCount := 0, nextFreeLba := ufsDataLba }
  let s := (persistDirectory s).2
  let s := (persistSuperblock s).2
  { s with ready := true }

def hasMagic (superblock : Buffer) : Bool :=
  superblock 0 = 0x55 ∧ superblock 1 = 0x46 ∧ superblock 2 = 0x53 ∧ superblock 3 = 0x31

/-- `ufs_init`; a read that fails leaves the filesystem unmounted. -/
def ufsInit (s : Ufs) : Ufs :=
  let s := { s with ready := false }
  let sb := ataReadSectors ufsSbLba 1 s.drive
  let s := { s with drive := sb.2.2 }
  if ¬ sb.1 then s
  else
    let superblock := bufferOf sb.2.1
    if ¬ hasMagic superblock then formatFresh s
    else
      let dir := ataReadSectors ufsDirLba ufsDirSectors s.drive
      let s := { s with drive := dir.2.2 }
      if ¬ dir.1 then s
      else
        let directory := bufferOf dir.2.1
        let next := readU32 superblock 8
        { s with
          directory := directory
          nextFreeLba := if next < ufsDataLba ∨ next > ufsDataEndLba then ufsDataLba else next
          cachedFileCount := countUsedEntries directory
          ready := true }

/-- `ufs_find`; `none` is -1. -/
def ufsFind (s : Ufs) (name : CString) : Option Nat :=
  if s.ready then
    (List.range ufsMaxEntries).find? fun i => entryUsed s.directory i && entryNamed s.directory i name
  else none

def firstFree (dir : Buffer) : Option Nat :=
  (List.range ufsMaxEntries).find? fun i => !entryUsed dir i

/-- The directory after `ufs_create` has filled the entry `slot`. -/
def createdEntry (dir : Buffer) (slot : Nat) (name : CString) (ownerUid : Nat) : Buffer :=
  let e := entryAt slot
  let dir := setName dir e name
  let dir := writeU32 dir (e + 20) 0
  let dir := writeU32 dir (e + 24) 0
  let dir := writeU32 dir (e + 28) 0
  let dir := writeU32 dir (e + 32) ownerUid
  Function.update dir (e + 36) 0

def ufsCreate (name : CString) (ownerUid : Nat) (s : Ufs) : Option Nat × Ufs :=
  if ¬ s.ready then (none, s)
  else if name.bytes.length = 0 ∨ name.bytes.length ≥ ufsNameMax then (none, s)
  else if (ufsFind s name).isSome then (none, s)
  else
    match firstFree s.directory with
    | none => (none, s)
    | some slot =>
      let r := persist
        { s with
          directory := createdEntry s.directory slot name ownerUid
          cachedFileCount := wrap32 (s.cachedFileCount + 1) }
      (if r.1 then some slot else none, r.2)

/-- `ufs_delete`; true is 0. -/
def ufsDelete (name : CString) (s : Ufs) : Bool × Ufs :=
  if ¬ s.ready then (false, s)
  else
    match ufsFind s name with
    | none => (false, s)
    | some slot =>
      persist
        { s with
          directory := Function.update s.directory (entryAt slot) 0
          cachedFileCount := wrap32 (s.cachedFileCount + 2 ^ 32 - 1) }

def handleValid (s : Ufs) (handle : Int) : Bool :=
  s.ready && decide (0 ≤ handle) && decide (handle < ufsMaxEntries) &&
    entryUsed s.directory handle.toNat

def ufsOwner (s : Ufs) (handle : Int) : Nat :=
  if handleValid s handle then entryOwner s.directory handle.toNat else 0

def ufsPerm (s : Ufs) (handle : Int) : UInt8 :=
  if handleValid s handle then entryPerm s.directory handle.toNat else 0

def ufsChmod (handle : Int) (perm : UInt8) (s : Ufs) : Bool × Ufs :=
  if ¬ handleValid s handle then (false, s)
  else
    persist { s with directory := Function.update s.directory (entryAt handle.toNat + 36) perm }

def ufsTruncate (handle : Int) (newSize : Nat) (s : Ufs) : Bool × Ufs :=
  if ¬ handleValid s handle then (false, s)
  else if newSize > wrap32 (entryCapacity s.directory handle.toNat * sectorSize) then (false, s)
  else
    persist { s with directory := writeU32 s.directory (entryAt handle.toNat + 24) newSize }

def sectorsForBytes (bytes : Nat) : Nat := wrap32 (bytes + sectorSize - 1) / sectorSize

/-- The doubling loop of `ensure_capacity`, in at most `fuel` turns. -/
def doubleUntil (needed : Nat) : Nat → Nat → Nat
  | 0, c => c
  | fuel + 1, c => if c < needed then doubleUntil needed fuel (wrap32 (c * 2)) else c

/-- 32 turns are enough: see `doubleUntil_ge`. -/
def newCapacitySectors (curCapacitySectors neededSectors : Nat) : Nat :=
  doubleUntil neededSectors 32 (if curCapacitySectors = 0 then 1 else curCapacitySectors)

/-- The copy loop of `ensure_capacity`, with `done` sectors copied and at most
`fuel` turns left; a turn copies a sector at least. -/
def moveLoop (oldStart newStart oldSectors : Nat) : Nat → Nat → Drive → Bool × Drive
  | 0, _, d => (true, d)
  | fuel + 1, done, d =>
    if done < oldSectors then
      let chunk := min (oldSectors - done) 8
      let read := ataReadSectors (wrap32 (oldStart + done)) chunk d
      if ¬ read.1 then (false, read.2.2)
      else
        let written := ataWriteSectors (wrap32 (newStart + done)) chunk (bufferOf read.2.1) read.2.2
        if ¬ written.1 then (false, written.2)
        else moveLoop oldStart newStart oldSectors fuel (done + chunk) written.2
    else (true, d)

/-- The directory `ensure_capacity` writes for a file it has moved. -/
def movedEntry (dir : Buffer) (h start capacity : Nat) : Buffer :=
  writeU32 (writeU32 dir (entryAt h + 20) start) (entryAt h + 28) capacity

def ensureCapacity (handle : Nat) (neededBytes : Nat) (s : Ufs) : Bool × Ufs :=
  let curCapacity := entryCapacity s.directory handle
  if neededBytes ≤ wrap32 (curCapacity * sectorSize) then (true, s)
  else
    let newCapacity := newCapacitySectors curCapacity (sectorsForBytes neededBytes)
    if wrap32 (s.nextFreeLba + newCapacity) > ufsDataEndLba then (false, s)
    else
      let oldSize := entrySize s.directory handle
      let oldSectors := sectorsForBytes oldSize
      let moved :=
        if oldSize > 0 then
          moveLoop (entryStart s.directory handle) s.nextFreeLba oldSectors oldSectors 0 s.drive
        else (true, s.drive)
      if ¬ moved.1 then (false, { s with drive := moved.2 })
      else
        persist
          { s with
            directory := movedEntry s.directory handle s.nextFreeLba newCapacity
            nextFreeLba := wrap32 (s.nextFreeLba + newCapacity)
            drive := moved.2 }

/-- The loop of `ufs_write_at` at file position `cur`, in at most `fuel` turns;
a turn takes a byte at least. -/
def writeAtLoop (startLba : Nat) : Nat → Nat → Nat → Buffer → Drive → Bool × Drive
  | 0, _, _, _, d => (true, d)
  | fuel + 1, cur, remaining, src, d =>
    if remaining = 0 then (true, d)
    else
      let byteInSector := cur % sectorSize
      let chunk := min (sectorSize - byteInSector) remaining
      let lba := wrap32 (startLba + cur / sectorSize)
      let read := ataReadSectors lba 1 d
      if ¬ read.1 then (false, read.2.2)
      else
        let scratch : Buffer := fun p =>
          if byteInSector ≤ p ∧ p < byteInSector + chunk then src (p - byteInSector)
          else bufferOf read.2.1 p
        let written := ataWriteSectors lba 1 scratch read.2.2
        if ¬ written.1 then (false, written.2)
        else
          writeAtLoop startLba fuel (wrap32 (cur + chunk)) (remaining - chunk)
            (fun p => src (p + chunk)) written.2

/-- `ufs_write_at`, with -1 for failure. -/
def ufsWriteAt (handle : Int) (offset : Nat) (buf : Buffer) (len : Nat) (s : Ufs) : Int × Ufs :=
  if ¬ handleValid s handle then (-1, s)
  else
    let needed := wrap32 (offset + len)
    if needed < offset then (-1, s)
    else
      let grown := if len > 0 then ensureCapacity handle.toNat needed s else (true, s)
      if ¬ grown.1 then (-1, grown.2)
      else
        let s := grown.2
        let written :=
          writeAtLoop (entryStart s.directory handle.toNat) len offset len buf s.drive
        let s := { s with drive := written.2 }
        if ¬ written.1 then (-1, s)
        else if needed > entrySize s.directory handle.toNat then
          let r := persist
            { s with directory := writeU32 s.directory (entryAt handle.toNat + 24) needed }
          (if r.1 then toInt32 len else -1, r.2)
        else (toInt32 len, s)

/-- The loop of `ufs_read_at`: the bytes stored, also where a read fails. -/
def readAtLoop (startLba : Nat) : Nat → Nat → Nat → Drive → Bool × List UInt8 × Drive
  | 0, _, _, d => (true, [], d)
  | fuel + 1, cur, remaining, d =>
    if remaining = 0 then (true, [], d)
    else
      let byteInSector := cur % sectorSize
      let chunk := min (sectorSize - byteInSector) remaining
      let read := ataReadSectors (wrap32 (startLba + cur / sectorSize)) 1 d
      if ¬ read.1 then (false, [], read.2.2)
      else
        let bytes := (List.range chunk).map fun i => bufferOf read.2.1 (byteInSector + i)
        let rest := readAtLoop startLba fuel (wrap32 (cur + chunk)) (remaining - chunk) read.2.2
        (rest.1, bytes ++ rest.2.1, rest.2.2)

/-- `ufs_read_at`: the result, the bytes stored from the start of the buffer on,
and the filesystem, whose drive has run the commands. -/
def ufsReadAt (handle : Int) (offset len : Nat) (s : Ufs) : Int × List UInt8 × Ufs :=
  if ¬ handleValid s handle then (-1, [], s)
  else
    let size := entrySize s.directory handle.toNat
    if offset ≥ size then (0, [], s)
    else
      let len := min len (size - offset)
      let r := readAtLoop (entryStart s.directory handle.toNat) len offset len s.drive
      (if r.1 then toInt32 len else -1, r.2.1, { s with drive := r.2.2 })

/-! ## The directory layout -/

/-- The allocation an entry records: its first sector and its capacity. -/
def SameExtent (dir dir' : Buffer) (i : Nat) : Prop :=
  entryStart dir' i = entryStart dir i ∧ entryCapacity dir' i = entryCapacity dir i

theorem SameExtent.refl (dir : Buffer) (i : Nat) : SameExtent dir dir i := ⟨rfl, rfl⟩

theorem SameExtent.trans {a b c : Buffer} {i : Nat} (h : SameExtent a b i)
    (h' : SameExtent b c i) : SameExtent a c i :=
  ⟨h'.1.trans h.1, h'.2.trans h.2⟩

/-- Both fields lie in bytes that the two directories share. -/
theorem sameExtent_of_bytes {dir dir' : Buffer} {i : Nat}
    (h : ∀ p, entryAt i + 20 ≤ p → p < entryAt i + 24 ∨ entryAt i + 28 ≤ p →
      p < entryAt i + 32 → dir' p = dir p) : SameExtent dir dir' i := by
  constructor
  · apply Lib.readU32_congr
    intro j hj
    exact h _ (by omega) (by omega) (by omega)
  · apply Lib.readU32_congr
    intro j hj
    exact h _ (by omega) (by omega) (by omega)

theorem entryAt_le_of_lt {i h : Nat} (lt : i < h) : entryAt i + 40 ≤ entryAt h := by
  unfold entryAt ufsEntrySize
  omega

/-- A change inside entry `h` leaves the extents of the other entries alone. -/
theorem sameExtent_other {dir dir' : Buffer} {h i : Nat} (other : i ≠ h)
    (inside : ∀ p, p < entryAt h ∨ entryAt h + 40 ≤ p → dir' p = dir p) :
    SameExtent dir dir' i := by
  apply sameExtent_of_bytes
  intro p low _ high
  apply inside
  rcases Nat.lt_or_gt_of_ne other with before | after
  · have := entryAt_le_of_lt before
    omega
  · have := entryAt_le_of_lt after
    omega

theorem update_sameExtent (dir : Buffer) (h i p : Nat) (v : UInt8)
    (inside : entryAt h ≤ p ∧ p < entryAt h + 40)
    (offField : p < entryAt h + 20 ∨ entryAt h + 32 ≤ p) :
    SameExtent dir (Function.update dir p v) i := by
  by_cases same : i = h
  · subst same
    apply sameExtent_of_bytes
    intro q _ _ _
    apply Function.update_of_ne
    omega
  · apply sameExtent_other same
    intro q outside
    apply Function.update_of_ne
    omega

theorem writeSize_sameExtent (dir : Buffer) (h i v : Nat) :
    SameExtent dir (writeU32 dir (entryAt h + 24) v) i := by
  by_cases same : i = h
  · subst same
    apply sameExtent_of_bytes
    intro q _ _ _
    apply Lib.writeU32_outside
    omega
  · apply sameExtent_other same
    intro q outside
    apply Lib.writeU32_outside
    omega

theorem createdEntry_outside (dir : Buffer) (slot : Nat) (name : CString) (uid p : Nat)
    (h : p < entryAt slot ∨ entryAt slot + 40 ≤ p) : createdEntry dir slot name uid p = dir p := by
  simp only [createdEntry]
  rw [Function.update_of_ne (by omega), Lib.writeU32_outside _ _ _ _ (by omega),
    Lib.writeU32_outside _ _ _ _ (by omega), Lib.writeU32_outside _ _ _ _ (by omega),
    Lib.writeU32_outside _ _ _ _ (by omega), setName, if_neg]
  unfold ufsNameMax
  omega

/-- `ufs_create` leaves its slot without an extent. -/
theorem createdEntry_extent (dir : Buffer) (slot : Nat) (name : CString) (uid : Nat) :
    entryStart (createdEntry dir slot name uid) slot = 0 ∧
      entryCapacity (createdEntry dir slot name uid) slot = 0 := by
  let e := entryAt slot
  let written := writeU32 (writeU32 (writeU32 (writeU32 (setName dir e name) (e + 20) 0)
    (e + 24) 0) (e + 28) 0) (e + 32) uid
  have last : SameExtent written (createdEntry dir slot name uid) slot :=
    update_sameExtent written slot slot (e + 36) 0 (by omega) (by omega)
  have start : entryStart written slot = 0 := by
    change readU32 written (e + 20) = 0
    rw [Lib.readU32_writeU32_other _ _ _ _ (by omega), Lib.readU32_writeU32_other _ _ _ _ (by omega),
      Lib.readU32_writeU32_other _ _ _ _ (by omega), Lib.readU32_writeU32 _ _ _ (by decide)]
  have capacity : entryCapacity written slot = 0 := by
    change readU32 written (e + 28) = 0
    rw [Lib.readU32_writeU32_other _ _ _ _ (by omega), Lib.readU32_writeU32 _ _ _ (by decide)]
  exact ⟨last.1.trans start, last.2.trans capacity⟩

theorem createdEntry_size (dir : Buffer) (slot : Nat) (name : CString) (uid : Nat) :
    entrySize (createdEntry dir slot name uid) slot = 0 := by
  let e := entryAt slot
  let sized := writeU32 (writeU32 (setName dir e name) (e + 20) 0) (e + 24) 0
  have last : entrySize (createdEntry dir slot name uid) slot =
      readU32 (writeU32 (writeU32 sized (e + 28) 0) (e + 32) uid) (e + 24) := by
    apply Lib.readU32_congr
    intro j hj
    exact Function.update_of_ne (by omega) _ _
  rw [last, Lib.readU32_writeU32_other _ _ _ _ (by omega),
    Lib.readU32_writeU32_other _ _ _ _ (by omega), Lib.readU32_writeU32 _ _ _ (by decide)]

/-- The name `ufs_create` writes, padded with zeros. -/
theorem createdEntry_name (dir : Buffer) (slot : Nat) (name : CString) (uid j : Nat)
    (short : name.bytes.length < ufsNameMax) (hj : j < ufsNameMax) :
    createdEntry dir slot name uid (entryAt slot + j) = name.bytes.getD j 0 := by
  unfold ufsNameMax at hj short
  simp only [createdEntry]
  rw [Function.update_of_ne (by omega), Lib.writeU32_outside _ _ _ _ (by omega),
    Lib.writeU32_outside _ _ _ _ (by omega), Lib.writeU32_outside _ _ _ _ (by omega),
    Lib.writeU32_outside _ _ _ _ (by omega), setName,
    if_pos (by unfold ufsNameMax; omega), Nat.add_sub_cancel_left]
  split
  · rfl
  · have last : j = name.bytes.length ∨ name.bytes.length < j := by
      unfold ufsNameMax at *
      omega
    rw [List.getD_eq_getElem?_getD, List.getElem?_eq_none (by omega)]
    rfl

theorem createdEntry_owner (dir : Buffer) (slot : Nat) (name : CString) (uid : Nat)
    (small : uid < 2 ^ 32) :
    entryOwner (createdEntry dir slot name uid) slot = uid ∧
      entryPerm (createdEntry dir slot name uid) slot = 0 := by
  constructor
  · let e := entryAt slot
    let filled := writeU32 (writeU32 (writeU32 (setName dir e name) (e + 20) 0) (e + 24) 0) (e + 28) 0
    have last : entryOwner (createdEntry dir slot name uid) slot =
        readU32 (writeU32 filled (e + 32) uid) (e + 32) := by
      apply Lib.readU32_congr
      intro j hj
      exact Function.update_of_ne (by omega) _ _
    rw [last, Lib.readU32_writeU32 _ _ _ small]
  · exact Function.update_self ..

theorem movedEntry_outside (dir : Buffer) (h start capacity p : Nat)
    (outside : p < entryAt h + 20 ∨ entryAt h + 32 ≤ p ∨ (entryAt h + 24 ≤ p ∧ p < entryAt h + 28)) :
    movedEntry dir h start capacity p = dir p := by
  rw [movedEntry, Lib.writeU32_outside _ _ _ _ (by omega), Lib.writeU32_outside _ _ _ _ (by omega)]

theorem movedEntry_extent (dir : Buffer) (h start capacity : Nat) (hs : start < 2 ^ 32)
    (hc : capacity < 2 ^ 32) :
    entryStart (movedEntry dir h start capacity) h = start ∧
      entryCapacity (movedEntry dir h start capacity) h = capacity := by
  constructor
  · rw [entryStart, movedEntry, Lib.readU32_writeU32_other _ _ _ _ (by omega),
      Lib.readU32_writeU32 _ _ _ hs]
  · rw [entryCapacity, movedEntry, Lib.readU32_writeU32 _ _ _ hc]

theorem movedEntry_other (dir : Buffer) (h start capacity i : Nat) (other : i ≠ h) :
    SameExtent dir (movedEntry dir h start capacity) i := by
  apply sameExtent_other other
  intro p outside
  exact movedEntry_outside dir h start capacity p (by omega)

/-! ## How much `ensure_capacity` asks for -/

theorem sectorsForBytes_lt (bytes : Nat) : sectorsForBytes bytes < 2 ^ 23 := by
  unfold sectorsForBytes wrap32 sectorSize
  omega

/-- The doubling reaches the target, and stays below twice the larger number:
nothing wraps. -/
theorem doubleUntil_spec (needed fuel c : Nat) (hc : 0 < c) (hn : needed < 2 ^ 31)
    (enough : needed ≤ c * 2 ^ fuel) :
    needed ≤ doubleUntil needed fuel c ∧ c ≤ doubleUntil needed fuel c ∧
      doubleUntil needed fuel c ≤ max c (2 * needed) := by
  induction fuel generalizing c with
  | zero =>
    simp only [doubleUntil]
    omega
  | succ fuel ih =>
    rw [doubleUntil]
    split
    · next small =>
      have noWrap : wrap32 (c * 2) = c * 2 := Nat.mod_eq_of_lt (by omega)
      rw [noWrap]
      have more : needed ≤ c * 2 * 2 ^ fuel := by
        rw [Nat.mul_assoc, ← Nat.pow_succ']
        exact enough
      have := ih (c * 2) (by omega) more
      omega
    · omega

theorem newCapacitySectors_spec (cur bytes : Nat) :
    sectorsForBytes bytes ≤ newCapacitySectors cur (sectorsForBytes bytes) ∧
      0 < newCapacitySectors cur (sectorsForBytes bytes) ∧
      cur ≤ newCapacitySectors cur (sectorsForBytes bytes) ∧
      newCapacitySectors cur (sectorsForBytes bytes) ≤ max cur (2 ^ 24) := by
  have bound := sectorsForBytes_lt bytes
  unfold newCapacitySectors
  split
  · next zero =>
    have := doubleUntil_spec (sectorsForBytes bytes) 32 1 (by decide) (by omega) (by omega)
    omega
  · next nonzero =>
    have grows : sectorsForBytes bytes ≤ cur * 2 ^ 32 := by
      have : 1 * 2 ^ 32 ≤ cur * 2 ^ 32 := Nat.mul_le_mul_right _ (Nat.pos_of_ne_zero nonzero)
      omega
    have := doubleUntil_spec (sectorsForBytes bytes) 32 cur (Nat.pos_of_ne_zero nonzero)
      (by omega) grows
    omega

end MiniKernel.Storage
