import MiniKernel.Storage.Mfs
import MiniKernel.Storage.Users

/-!
# Saving the account table

Source: kernel/core/users.c:68-135,158-184. `persist` truncates `.passwd`, writes
its sector and lets the write restore the size: between the two the disk has an
empty file. All of this writes to the five sectors of the directory, to the
superblock and to the one sector of the table.
-/
namespace MiniKernel.Storage
open Drivers
open Lib (Buffer readU32 writeU32)
open Lib.WriteLog (replay)

/-- The table in a sector. -/
def tableOf (sector : Sector) : Accounts := fun i =>
  accountOf fun p => bufferOf [sector] (i.val * recordSize + p)

/-- The table a boot from this disk loads; `none` where it seeds the defaults. -/
def bootLoads (disk : Nat → Sector) : Option Accounts :=
  let init := usersInit
    { accounts := fun _ => { username := fun _ => 0, uid := 0, passwordHash := 0 }
      ufs := remount disk }
  if init.1 then none else some init.2.accounts

/-- The slot of a name in a directory. -/
def findIn (dir : Buffer) (name : CString) : Option Nat :=
  (List.range ufsMaxEntries).find? fun i => entryUsed dir i && entryNamed dir i name

/-- The file is entry `h`, with a sector of its own in the data area. -/
structure PasswdEntry (dir : Buffer) (h : Nat) : Prop where
  slot : h < ufsMaxEntries
  found : findIn dir passwdFile = some h
  low : ufsDataLba ≤ entryStart dir h
  high : entryStart dir h < ufsDataEndLba
  room : 0 < entryCapacity dir h
  sane : entryCapacity dir h ≤ 8192

/-- The directory with another size for the file. -/
def sized (dir : Buffer) (h size : Nat) : Buffer := writeU32 dir (entryAt h + 24) size

/-- What the disk says: the size of the file and the table in its sector. -/
structure DiskHas (disk : Nat → Sector) (dir : Buffer) (h size : Nat) (table : Accounts) : Prop where
  superblock : ∃ count next, SuperblockOn disk count next ∧ ufsDataLba ≤ next ∧ next ≤ ufsDataEndLba
  directory : DirectoryOn disk (sized dir h size)
  contents : tableOf (disk (entryStart dir h)) = table

/-- The volume holds the table: what a boot would load is what memory has. -/
structure Saved (u : Users) (h : Nat) : Prop where
  ready : u.ufs.ready = true
  entry : PasswdEntry u.ufs.directory h
  size : entrySize u.ufs.directory h = 512
  next : ufsDataLba ≤ u.ufs.nextFreeLba ∧ u.ufs.nextFreeLba ≤ ufsDataEndLba
  disk : DiskHas u.ufs.drive.sectors u.ufs.directory h 512 u.accounts

/-! ## Directories that differ in the size -/

theorem sized_outside (dir : Buffer) (h size p : Nat)
    (outside : p < entryAt h + 24 ∨ entryAt h + 28 ≤ p) : sized dir h size p = dir p :=
  Lib.writeU32_outside _ _ _ _ (by omega)

theorem sized_sized (dir : Buffer) (h size size' : Nat) :
    sized (sized dir h size) h size' = sized dir h size' := by
  funext p
  unfold sized writeU32
  split <;> try rfl
  split <;> try rfl
  split <;> try rfl
  split <;> rfl

theorem sized_self {dir : Buffer} {h size : Nat} (same : entrySize dir h = size) :
    sized dir h size = dir := by
  rw [sized, ← same]
  exact Lib.writeU32_readU32 dir _

theorem entrySize_sized (dir : Buffer) (h : Nat) {size : Nat} (small : size < 2 ^ 32) :
    entrySize (sized dir h size) h = size := Lib.readU32_writeU32 _ _ _ small

theorem entryStart_sized (dir : Buffer) (h size : Nat) :
    entryStart (sized dir h size) h = entryStart dir h :=
  Lib.readU32_writeU32_other _ _ _ _ (by omega)

theorem entryCapacity_sized (dir : Buffer) (h size : Nat) :
    entryCapacity (sized dir h size) h = entryCapacity dir h :=
  Lib.readU32_writeU32_other _ _ _ _ (by omega)

/-- A search sees the first eight bytes of each entry. -/
theorem findIn_congr {a b : Buffer}
    (same : ∀ i < ufsMaxEntries, ∀ j < 8, a (entryAt i + j) = b (entryAt i + j)) :
    findIn a passwdFile = findIn b passwdFile := by
  unfold findIn
  apply List.find?_congr
  intro i hi
  have inside := List.mem_range.mp hi
  have bytes := same i inside
  have length : passwdFile.bytes.length = 7 := rfl
  have used : entryUsed a i = entryUsed b i := by
    have first : a (entryAt i) = b (entryAt i) := bytes 0 (by decide)
    unfold entryUsed
    rw [first]
  have named : entryNamed a i passwdFile = entryNamed b i passwdFile := by
    unfold entryNamed
    rw [length, bytes 7 (by decide)]
    congr 1
    rw [Bool.eq_iff_iff, List.all_eq_true, List.all_eq_true]
    refine forall₂_congr fun j hj => ?_
    rw [bytes j (by have := List.mem_range.mp hj; omega)]
  rw [used, named]

theorem findIn_sized (dir : Buffer) (h size : Nat) :
    findIn (sized dir h size) passwdFile = findIn dir passwdFile := by
  refine findIn_congr fun i hi j hj => sized_outside dir h size _ ?_
  unfold entryAt ufsEntrySize
  omega

theorem PasswdEntry.sized {dir : Buffer} {h : Nat} (entry : PasswdEntry dir h) (size : Nat) :
    PasswdEntry (sized dir h size) h := by
  have start := entryStart_sized dir h size
  have capacity := entryCapacity_sized dir h size
  refine ⟨entry.slot, ?_, ?_, ?_, ?_, ?_⟩
  · rw [findIn_sized]
    exact entry.found
  · rw [start]
    exact entry.low
  · rw [start]
    exact entry.high
  · rw [capacity]
    exact entry.room
  · rw [capacity]
    exact entry.sane

theorem findIn_some {dir : Buffer} {h : Nat} (found : findIn dir passwdFile = some h) :
    h < ufsMaxEntries ∧ entryUsed dir h = true := by
  have used := List.find?_some found
  rw [Bool.and_eq_true] at used
  exact ⟨List.mem_range.mp (List.mem_of_find?_eq_some found), used.1⟩

theorem handleValid_of_found {s : Ufs} {h : Nat} (ready : s.ready = true)
    (found : findIn s.directory passwdFile = some h) : handleValid s h = true := by
  obtain ⟨slot, used⟩ := findIn_some found
  unfold handleValid
  rw [ready, Int.toNat_natCast, used]
  simp [slot]

/-! ## Booting -/

theorem readAtLoop_zero (startLba fuel cur : Nat) (d : Drive) :
    readAtLoop startLba fuel cur 0 d = (true, [], d) := by
  cases fuel with
  | zero => rfl
  | succ fuel => rw [readAtLoop, if_pos rfl]

/-- The first turn delivers a whole sector. -/
theorem readAtLoop_sector {start fuel : Nat} {d : Drive} (some_ : 0 < fuel) (noFaults : NoFaults d)
    (low : start < 2 ^ 28) :
    (readAtLoop start fuel 0 512 d).2.1 =
      (List.range 512).map fun p => bufferOf [d.sectors start] p := by
  obtain ⟨ok, data, _⟩ := ataReadSectors_ok start 1 noFaults (by decide) (by decide)
  have address : lba28 start = start := Nat.mod_eq_of_lt low
  have first : wrap32 (start + 0 / sectorSize) = start := by
    rw [Nat.zero_div]
    exact Nat.mod_eq_of_lt (by omega)
  have image : (List.range 1).map (fun k => d.sectors (start + k)) = [d.sectors start] := rfl
  have chunk : min (sectorSize - 0) 512 = 512 := rfl
  cases fuel with
  | zero => exact absurd some_ (Nat.lt_irrefl 0)
  | succ fuel =>
    rw [readAtLoop, if_neg (by decide)]
    simp only [first, ok, not_true, if_false, data, address, image, Nat.zero_mod, Nat.zero_add,
      chunk, Nat.sub_self, readAtLoop_zero, List.append_nil]

/-- One sector from the start of a file. -/
theorem ufsReadAt_sector {s : Ufs} {h : Nat} (valid : handleValid s h = true)
    (noFaults : NoFaults s.drive) (size : entrySize s.directory h = 512)
    (low : entryStart s.directory h < 2 ^ 28) :
    (ufsReadAt h 0 512 s).2.1 =
      (List.range 512).map fun p => bufferOf [s.drive.sectors (entryStart s.directory h)] p := by
  have whole : min 512 (512 - 0) = 512 := rfl
  rw [← @readAtLoop_sector _ 512 _ (by decide) noFaults low]
  unfold ufsReadAt
  rw [if_neg (not_not_intro valid)]
  simp only [Int.toNat_natCast, size]
  rw [if_neg (by decide), whole]

theorem tableOf_image (accounts : Accounts) : tableOf (sectorOf (passwdImage accounts) 0) = accounts := by
  refine accounts_of_image fun p hp => ?_
  have first : p / 512 = 0 := by omega
  have within : p % 512 = p := by omega
  simp [bufferOf, first, within, sectorOf]

/-- The table of the bytes `users_init` has read. -/
theorem tableOf_read (sector : Sector) : (fun i : Fin 16 => accountOf fun p =>
    ((List.range 512).map fun q => bufferOf [sector] q).getD (i.val * recordSize + p) 0) =
      tableOf sector := by
  funext i
  have hi := i.isLt
  refine accountOf_congr fun p hp => ?_
  rw [List.getD_eq_getElem?_getD, List.getElem?_map,
    List.getElem?_range (by unfold recordSize; omega)]
  rfl

theorem bootLoads_diskHas {disk : Nat → Sector} {dir : Buffer} {h size : Nat} {table : Accounts}
    (entry : PasswdEntry dir h) (has : DiskHas disk dir h size table) (small : size < 2 ^ 32) :
    bootLoads disk = if size = 512 then some table else none := by
  obtain ⟨count, next, superblock, low, high⟩ := has.superblock
  obtain ⟨ready, _, same⟩ := remount_spec superblock has.directory low high
  obtain ⟨sectors, noFaults, _⟩ := remount_drive superblock
  have slot := entry_in_directory entry.slot
  have found : findIn (remount disk).directory passwdFile = some h := by
    rw [← entry.found, ← findIn_sized dir h size]
    refine findIn_congr fun i hi j hj => same _ ?_
    have := entry_in_directory hi
    omega
  have field (k : Nat) (hk : k + 4 ≤ 40) : readU32 (remount disk).directory (entryAt h + k) =
      readU32 (sized dir h size) (entryAt h + k) :=
    Lib.readU32_congr fun j hj => by
      rw [Nat.add_assoc]
      exact same _ (by omega)
  have valid := handleValid_of_found ready found
  have size_eq : entrySize (remount disk).directory h = size :=
    (field 24 (by decide)).trans (entrySize_sized dir h small)
  have start_eq : entryStart (remount disk).directory h = entryStart dir h :=
    (field 20 (by decide)).trans (entryStart_sized dir h size)
  have find_eq : ufsFind (remount disk) passwdFile = some h := by
    unfold ufsFind
    rw [if_pos ready]
    exact found
  have size_read : ufsSize (remount disk) h = size := by
    unfold ufsSize
    rw [if_pos valid]
    exact size_eq
  have length : userMaxAccounts * recordSize = 512 := rfl
  unfold bootLoads usersInit
  simp only [find_eq, size_read, length]
  by_cases whole : size = 512
  · have bytes := ufsReadAt_sector valid noFaults (size_eq.trans whole) (by
      rw [start_eq]
      have := entry.high
      unfold ufsDataEndLba at this
      omega)
    rw [start_eq, sectors] at bytes
    simp only [whole, ne_eq, not_true, if_false, if_true, bytes, Bool.false_eq_true]
    rw [tableOf_read, has.contents]
  · simp only [ne_eq, whole, not_false_eq_true, if_true, if_false]

/-! ## The sector writes of a save -/

/-- The directory sector with the size of entry `h`. -/
def sizeSector (h : Nat) : Nat := (entryAt h + 24) / 512

inductive SaveWrite where
  | directory (sector size : Nat)
  | superblock (count next : Nat)
  | table (accounts : Accounts)

def SaveWrite.toWrite (dir : Buffer) (h : Nat) : SaveWrite → Nat × Sector
  | .directory k size => (ufsDirLba + k, sectorOf (sized dir h size) k)
  | .superblock count next => (ufsSbLba, sectorOf (superblockImage count next) 0)
  | .table accounts => (entryStart dir h, sectorOf (passwdImage accounts) 0)

/-- The size and the table on the disk after a write. -/
def SaveWrite.apply (h : Nat) (has : Nat × Accounts) : SaveWrite → Nat × Accounts
  | .directory k size => (if k = sizeSector h then size else has.1, has.2)
  | .superblock _ _ => has
  | .table accounts => (has.1, accounts)

def SaveWrite.Proper : SaveWrite → Prop
  | .directory k size => k < 5 ∧ size < 2 ^ 32
  | .superblock _ next => ufsDataLba ≤ next ∧ next ≤ ufsDataEndLba
  | .table _ => True

theorem DiskHas.write {disk : Nat → Sector} {dir : Buffer} {h size : Nat} {table : Accounts}
    (entry : PasswdEntry dir h) (has : DiskHas disk dir h size table) (w : SaveWrite)
    (proper : w.Proper) :
    DiskHas (Function.update disk (w.toWrite dir h).1 (w.toWrite dir h).2) dir h
      (w.apply h (size, table)).1 (w.apply h (size, table)).2 := by
  have low := entry.low
  unfold ufsDataLba at low
  obtain ⟨count, next, superblock, inRange⟩ := has.superblock
  unfold SuperblockOn at superblock
  cases w with
  | directory k size' =>
    obtain ⟨hk, _⟩ := proper
    refine ⟨⟨count, next, ?_, inRange⟩, fun p hp => ?_, ?_⟩
    · unfold SuperblockOn
      simp only [SaveWrite.toWrite]
      rw [Function.update_of_ne (by unfold ufsSbLba ufsDirLba; omega)]
      exact superblock
    · simp only [SaveWrite.toWrite, SaveWrite.apply]
      by_cases here : p / 512 = k
      · rw [here, Function.update_self, sectorOf]
        have place : 512 * k + p % 512 = p := by omega
        simp only [place]
        by_cases own : k = sizeSector h
        · rw [if_pos own]
        · rw [if_neg own]
          have outside : p < entryAt h + 24 ∨ entryAt h + 28 ≤ p := by
            unfold sizeSector entryAt ufsEntrySize at own
            unfold entryAt ufsEntrySize
            omega
          rw [sized_outside _ _ _ _ outside, sized_outside _ _ _ _ outside]
      · rw [Function.update_of_ne (by omega), has.directory p hp]
        split
        · next own =>
          have outside : p < entryAt h + 24 ∨ entryAt h + 28 ≤ p := by
            unfold sizeSector entryAt ufsEntrySize at own
            unfold entryAt ufsEntrySize
            omega
          rw [sized_outside _ _ _ _ outside, sized_outside _ _ _ _ outside]
        · rfl
    · simp only [SaveWrite.toWrite, SaveWrite.apply]
      rw [Function.update_of_ne (by unfold ufsDirLba; omega)]
      exact has.contents
  | superblock count' next' =>
    refine ⟨⟨count', next', ?_, proper⟩, fun p hp => ?_, ?_⟩
    · unfold SuperblockOn SaveWrite.toWrite
      exact Function.update_self ..
    · simp only [SaveWrite.toWrite, SaveWrite.apply]
      rw [Function.update_of_ne (by unfold ufsSbLba ufsDirLba; omega)]
      exact has.directory p hp
    · simp only [SaveWrite.toWrite, SaveWrite.apply]
      rw [Function.update_of_ne (by unfold ufsSbLba; omega)]
      exact has.contents
  | table accounts =>
    refine ⟨⟨count, next, ?_, inRange⟩, fun p hp => ?_, ?_⟩
    · unfold SuperblockOn
      simp only [SaveWrite.toWrite]
      rw [Function.update_of_ne (by unfold ufsSbLba; omega)]
      exact superblock
    · simp only [SaveWrite.toWrite, SaveWrite.apply]
      unfold directoryBytes at hp
      rw [Function.update_of_ne (by unfold ufsDirLba; omega)]
      exact has.directory p hp
    · simp only [SaveWrite.toWrite, SaveWrite.apply]
      rw [Function.update_self, tableOf_image]

theorem DiskHas.writes {disk : Nat → Sector} {dir : Buffer} {h : Nat} {has : Nat × Accounts}
    (entry : PasswdEntry dir h) (ws : List SaveWrite) (proper : ∀ w ∈ ws, w.Proper)
    (start : DiskHas disk dir h has.1 has.2) :
    DiskHas (replay disk (ws.map (SaveWrite.toWrite dir h))) dir h
      (ws.foldl (SaveWrite.apply h) has).1 (ws.foldl (SaveWrite.apply h) has).2 := by
  induction ws generalizing disk has with
  | nil => exact start
  | cons w rest ih =>
    rw [List.map_cons, Lib.WriteLog.replay_cons, List.foldl_cons]
    exact ih (fun v hv => proper v (List.mem_cons_of_mem w hv))
      (start.write entry w (proper w List.mem_cons_self))

/-! ## Which writes a save makes -/

/-- The writes of one `persist_directory() != 0 || persist_superblock() != 0`
whose first command has number `n`. -/
def persistSaves (faults : Nat → Option Nat) (n size count next : Nat) : List SaveWrite :=
  (List.range (transferred (faults n) 5)).map (fun k => .directory k size) ++
    if faults n = none then
      (List.range (transferred (faults (n + 1)) 1)).map fun _ => .superblock count next
    else []

/-- The commands it issues. -/
def persistLength (faults : Nat → Option Nat) (n : Nat) : Nat := if faults n = none then 2 else 1

/-- The truncation, the sector of the table, the size: up to where a command fails. -/
def saveWrites (faults : Nat → Option Nat) (n count next : Nat) (accounts : Accounts) :
    List SaveWrite :=
  let m := n + persistLength faults n
  persistSaves faults n 0 count next ++
    if faults m = some 0 then []
    else
      (List.range (transferred (faults (m + 1)) 1)).map (fun _ => .table accounts) ++
        if faults (m + 1) = none then persistSaves faults (m + 2) 512 count next else []

theorem ataWriteSectors_writes (lba count : Nat) (buf : Buffer) (d : Drive) (hpos : 0 < count)
    (hle : count ≤ 256) :
    (ataWriteSectors lba count buf d).1 = decide (d.faults d.commands = none) ∧
      d.Extends (ataWriteSectors lba count buf d).2
        (runWrites (lba28 lba) buf (transferred (d.faults d.commands) count)) ∧
      (ataWriteSectors lba count buf d).2.commands = d.commands + 1 := by
  unfold ataWriteSectors
  rw [if_neg (by omega)]
  obtain ⟨run, _⟩ := writeRun_extends (lba28 lba) buf (transferred d.fault count) d
  exact ⟨rfl, ⟨run.log, run.sectors, run.faults⟩, rfl⟩

theorem persist_writes {s : Ufs} {dir : Buffer} {h size : Nat}
    (directory : s.directory = sized dir h size) :
    s.drive.Extends (persist s).2.drive
        ((persistSaves s.drive.faults s.drive.commands size s.cachedFileCount s.nextFreeLba).map
          (SaveWrite.toWrite dir h)) ∧
      (persist s).2.drive.commands =
        s.drive.commands + persistLength s.drive.faults s.drive.commands := by
  obtain ⟨dirOk, dirWrites, dirCommands⟩ := ataWriteSectors_writes ufsDirLba ufsDirSectors
    s.directory s.drive (by decide) (by decide)
  have dirAddr : lba28 ufsDirLba = ufsDirLba := by decide
  have sbAddr : lba28 ufsSbLba = ufsSbLba := by decide
  have first : (runWrites ufsDirLba s.directory (transferred (s.drive.faults s.drive.commands) 5)) =
      ((List.range (transferred (s.drive.faults s.drive.commands) 5)).map
        fun k => SaveWrite.directory k size).map (SaveWrite.toWrite dir h) := by
    rw [runWrites, List.map_map, directory]
    rfl
  rw [dirAddr] at dirWrites
  unfold persistSaves persistLength persist persistDirectory persistSuperblock
  simp only [dirOk]
  by_cases fine : s.drive.faults s.drive.commands = none
  · obtain ⟨sbOk, sbWrites, sbCommands⟩ := ataWriteSectors_writes ufsSbLba 1
      (superblockImage s.cachedFileCount s.nextFreeLba)
      (ataWriteSectors ufsDirLba ufsDirSectors s.directory s.drive).2 (by decide) (by decide)
    rw [sbAddr, dirWrites.faults, dirCommands] at sbWrites
    simp only [fine, decide_true, if_true]
    refine ⟨?_, by rw [sbCommands, dirCommands]⟩
    rw [fine] at first dirWrites
    have second : runWrites ufsSbLba (superblockImage s.cachedFileCount s.nextFreeLba)
        (transferred (s.drive.faults (s.drive.commands + 1)) 1) =
        ((List.range (transferred (s.drive.faults (s.drive.commands + 1)) 1)).map fun _ =>
          SaveWrite.superblock s.cachedFileCount s.nextFreeLba).map (SaveWrite.toWrite dir h) := by
      rw [runWrites, List.map_map]
      have one : transferred (s.drive.faults (s.drive.commands + 1)) 1 ≤ 1 := transferred_le _ _
      apply List.map_congr_left
      intro k hk
      have zero : k = 0 := by
        have := List.mem_range.mp hk
        omega
      rw [zero]
      rfl
    rw [List.map_append, ← first, ← second]
    exact dirWrites.trans sbWrites
  · simp only [fine, decide_false, Bool.false_eq_true, if_false, List.append_nil]
    rw [← first]
    exact ⟨dirWrites, dirCommands⟩

theorem transferred_one (fault : Option Nat) :
    transferred fault 1 = if fault = some 0 then 0 else 1 := by
  cases fault with
  | none => rfl
  | some j =>
    cases j with
    | zero => rfl
    | succ j => simp [transferred]

theorem writeAtLoop_zero (start fuel cur : Nat) (src : Buffer) (d : Drive) :
    writeAtLoop start fuel cur 0 src d = (true, d) := by
  cases fuel with
  | zero => rfl
  | succ fuel => rw [writeAtLoop, if_pos rfl]

/-- The table is one turn of the loop: a read and a write. -/
theorem writeAtLoop_sector {start fuel : Nat} {src : Buffer} {d : Drive} (some_ : 0 < fuel)
    (low : start < 2 ^ 28) :
    let r := writeAtLoop start fuel 0 512 src d
    d.Extends r.2 (if d.faults d.commands = some 0 then []
        else (List.range (transferred (d.faults (d.commands + 1)) 1)).map
          fun _ => (start, sectorOf src 0)) ∧
      (r.1 = true ↔ d.faults d.commands ≠ some 0 ∧ d.faults (d.commands + 1) = none) ∧
      (r.1 = true → r.2.commands = d.commands + 2) := by
  have address : lba28 start = start := Nat.mod_eq_of_lt low
  have first : wrap32 (start + 0 / sectorSize) = start := by
    rw [Nat.zero_div]
    exact Nat.mod_eq_of_lt (by omega)
  have chunk : min (sectorSize - 0) 512 = 512 := rfl
  cases fuel with
  | zero => exact absurd some_ (Nat.lt_irrefl 0)
  | succ fuel =>
    have read : (ataReadSectors start 1 d).1 = decide (d.faults d.commands ≠ some 0) ∧
        d.Extends (ataReadSectors start 1 d).2.2 [] ∧
        (ataReadSectors start 1 d).2.2.commands = d.commands + 1 := by
      rw [ataReadSectors_sectors start 1 d (by decide) (by decide)]
      refine ⟨?_, ⟨(List.append_nil _).symm, rfl, rfl⟩, rfl⟩
      simp only [Drive.fault, transferred_one]
      split
      · next failed => simp [failed]
      · next fine => simp [fine]
    obtain ⟨readOk, readDrive, readCommands⟩ := read
    rw [writeAtLoop, if_neg (by decide)]
    simp only [first, readOk, Nat.zero_mod, chunk, Nat.sub_self, writeAtLoop_zero]
    by_cases failed : d.faults d.commands = some 0
    · simp only [failed, ne_eq, not_true, decide_false, Bool.false_eq_true, not_false_eq_true,
        if_true, false_and, iff_self, true_and]
      exact ⟨readDrive, False.elim⟩
    · simp only [failed, ne_eq, not_false_eq_true, decide_true, not_true, if_false, true_and]
      obtain ⟨written, writes, commands⟩ := ataWriteSectors_writes start 1
        (fun p => if 0 ≤ p ∧ p < 0 + 512 then src (p - 0)
          else bufferOf (ataReadSectors start 1 d).2.1 p) (ataReadSectors start 1 d).2.2
        (by decide) (by decide)
      rw [address, readDrive.faults, readCommands] at writes
      rw [readDrive.faults, readCommands] at written
      have image : runWrites start (fun p => if 0 ≤ p ∧ p < 0 + 512 then src (p - 0)
          else bufferOf (ataReadSectors start 1 d).2.1 p)
            (transferred (d.faults (d.commands + 1)) 1) =
          (List.range (transferred (d.faults (d.commands + 1)) 1)).map
            fun _ => (start, sectorOf src 0) := by
        have one : transferred (d.faults (d.commands + 1)) 1 ≤ 1 := transferred_le _ _
        apply List.map_congr_left
        intro k hk
        have zero : k = 0 := by
          have := List.mem_range.mp hk
          omega
        have scratch : sectorOf (fun p => if 0 ≤ p ∧ p < 0 + 512 then src (p - 0)
            else bufferOf (ataReadSectors start 1 d).2.1 p) 0 = sectorOf src 0 := by
          funext i
          have hi := i.isLt
          exact if_pos (by omega)
        rw [zero, scratch]
        rfl
      rw [image] at writes
      by_cases fine : d.faults (d.commands + 1) = none
      · simp only [written, fine, decide_true, not_true, if_false, true_implies, iff_self, true_and]
        rw [fine] at writes
        exact ⟨readDrive.trans writes, by rw [commands, readCommands]⟩
      · simp only [written, fine, decide_false, Bool.false_eq_true, not_false_eq_true, if_true,
          iff_self, false_implies, and_true]
        exact readDrive.trans writes

/-- A save makes exactly these writes. -/
theorem usersPersist_writes {u : Users} {h : Nat} (saved : Saved u h) (accounts : Accounts) :
    u.ufs.drive.Extends (usersPersist accounts u.ufs).drive
      ((saveWrites u.ufs.drive.faults u.ufs.drive.commands u.ufs.cachedFileCount
        u.ufs.nextFreeLba accounts).map (SaveWrite.toWrite u.ufs.directory h)) := by
  obtain ⟨s, same⟩ : ∃ s, u.ufs = s := ⟨_, rfl⟩
  have entry := saved.entry
  have ready := saved.ready
  rw [same] at entry ready ⊢
  have find : ufsFind s passwdFile = some h := by
    unfold ufsFind
    rw [if_pos ready]
    exact entry.found
  have valid := handleValid_of_found ready entry.found
  -- the truncation, whatever becomes of it
  have truncated : (ufsTruncate h 0 s).2 = (persist { s with directory := sized s.directory h 0 }).2 := by
    unfold ufsTruncate
    rw [if_neg (not_not_intro valid), if_neg (Nat.not_lt_zero _)]
    rfl
  obtain ⟨tDirectory, tNext, tReady, _⟩ := persist_frame { s with directory := sized s.directory h 0 }
  have tCount := persist_count { s with directory := sized s.directory h 0 }
  obtain ⟨tWrites, tCommands⟩ := @persist_writes { s with directory := sized s.directory h 0 }
    s.directory h 0 rfl
  simp only at tReady tDirectory tNext tCount tWrites tCommands
  obtain ⟨t, t_eq⟩ : ∃ t, (persist { s with directory := sized s.directory h 0 }).2 = t := ⟨_, rfl⟩
  rw [t_eq] at truncated tReady tDirectory tNext tCount tWrites tCommands
  have result : usersPersist accounts s =
      (ufsWriteAt h 0 (passwdImage accounts) 512 t).2 := by
    unfold usersPersist
    simp only [find, truncated]
    rfl
  -- the sector
  have validT : handleValid t h = true := by
    refine handleValid_of_found (tReady.trans ready) ?_
    rw [tDirectory, findIn_sized]
    exact entry.found
  have roomy : ensureCapacity h 512 t = (true, t) := by
    have room := entry.room
    have sane := entry.sane
    unfold ensureCapacity
    rw [if_pos]
    rw [tDirectory, entryCapacity_sized]
    unfold wrap32 sectorSize
    omega
  have start : entryStart t.directory h = entryStart s.directory h := by
    rw [tDirectory, entryStart_sized]
  have low : entryStart s.directory h < 2 ^ 28 := by
    have := entry.high
    unfold ufsDataEndLba at this
    omega
  have empty : entrySize t.directory h = 0 := by
    rw [tDirectory, entrySize_sized _ _ (by decide)]
  have written := @writeAtLoop_sector (entryStart s.directory h) 512 (passwdImage accounts) t.drive
    (by decide) low
  simp only at written
  rw [tWrites.faults, tCommands] at written
  obtain ⟨wWrites, wOk, wCommands⟩ := written
  rw [result, ufsWriteAt_eq h 0 (passwdImage accounts) 512 t validT (by decide)]
  simp only [Int.toNat_natCast, Nat.zero_add, roomy, ite_self, not_true, if_false]
  unfold writeData
  simp only [Int.toNat_natCast, start, empty]
  obtain ⟨w, w_eq⟩ : ∃ w, writeAtLoop (entryStart s.directory h) 512 0 512 (passwdImage accounts)
      t.drive = w := ⟨_, rfl⟩
  rw [w_eq] at wWrites wOk wCommands ⊢
  have data : s.drive.Extends w.2 ((persistSaves s.drive.faults s.drive.commands 0
        s.cachedFileCount s.nextFreeLba ++
      if s.drive.faults (s.drive.commands + persistLength s.drive.faults s.drive.commands) = some 0
      then []
      else (List.range (transferred (s.drive.faults
        (s.drive.commands + persistLength s.drive.faults s.drive.commands + 1)) 1)).map
          fun _ => SaveWrite.table accounts).map (SaveWrite.toWrite s.directory h)) := by
    have both := tWrites.trans wWrites
    rw [List.map_append]
    split
    · next failed =>
      rw [if_pos failed] at both
      exact both
    · next fine =>
      rw [if_neg fine] at both
      rw [List.map_map]
      exact both
  unfold saveWrites
  simp only
  by_cases ok : w.1 = true
  · obtain ⟨readFine, writeFine⟩ := wOk.mp ok
    rw [if_neg (not_not_intro ok), if_pos (by decide)]
    rw [if_neg readFine] at data
    rw [if_neg readFine, if_pos writeFine, ← List.append_assoc, List.map_append]
    have resized : writeU32 t.directory (entryAt h + 24) 512 = sized s.directory h 512 := by
      rw [tDirectory]
      exact sized_sized s.directory h 0 512
    rw [resized]
    have last := (@persist_writes { t with directory := sized s.directory h 512, drive := w.2 }
      s.directory h 512 rfl).1
    simp only at last
    rw [wCommands ok, data.faults, tCount, tNext] at last
    rw [tCount, tNext]
    exact data.trans last
  · rw [if_pos ok]
    split
    · next failed =>
      rw [if_pos failed] at data
      exact data
    · next readFine =>
      rw [if_neg readFine] at data
      rw [if_neg fun writeFine => ok (wOk.mpr ⟨readFine, writeFine⟩), List.append_nil]
      exact data

/-! ## What a part of the writes leaves -/

/-- The number of the first command behind the truncation. -/
def dataCommand (faults : Nat → Option Nat) (n : Nat) : Nat := n + persistLength faults n

/-- The sector writes of the truncation. -/
def truncationWrites (faults : Nat → Option Nat) (n : Nat) : Nat :=
  transferred (faults n) 5 + if faults n = none then transferred (faults (n + 1)) 1 else 0

/-- The size 0 gets to the disk. -/
def TruncationReaches (faults : Nat → Option Nat) (n h : Nat) : Prop :=
  sizeSector h < transferred (faults n) 5

/-- The sector of the table is read and written. -/
def TableReaches (faults : Nat → Option Nat) (n : Nat) : Prop :=
  faults (dataCommand faults n) ≠ some 0 ∧ faults (dataCommand faults n + 1) ≠ some 0

/-- The size 512 gets to the disk behind it. -/
def SizeReturns (faults : Nat → Option Nat) (n h : Nat) : Prop :=
  faults (dataCommand faults n) ≠ some 0 ∧ faults (dataCommand faults n + 1) = none ∧
    sizeSector h < transferred (faults (dataCommand faults n + 2)) 5

/-- After `j` sector writes the file is empty. -/
def EmptyAfter (faults : Nat → Option Nat) (n h j : Nat) : Prop :=
  TruncationReaches faults n h ∧ sizeSector h < j ∧
    ¬ (SizeReturns faults n h ∧ truncationWrites faults n + 1 + sizeSector h < j)

/-- What was saved stays when the power is lost no earlier than after the call. -/
def SaveLasts (faults : Nat → Option Nat) (n h : Nat) : Prop :=
  TableReaches faults n ∧ (TruncationReaches faults n h → SizeReturns faults n h)

theorem foldl_directories (h size a : Nat) (has : Nat × Accounts) :
    ((List.range a).map fun k => SaveWrite.directory k size).foldl (SaveWrite.apply h) has =
      (if sizeSector h < a then size else has.1, has.2) := by
  induction a with
  | zero => rfl
  | succ a ih =>
    rw [List.range_succ, List.map_append, List.foldl_append, ih]
    simp only [List.map_cons, List.map_nil, List.foldl_cons, List.foldl_nil, SaveWrite.apply]
    refine Prod.ext ?_ rfl
    simp only
    split
    · rw [if_pos (by omega)]
    · split
      · rw [if_pos (by omega)]
      · rw [if_neg (by omega)]

theorem foldl_superblocks (h count next a : Nat) (has : Nat × Accounts) :
    ((List.range a).map fun _ => SaveWrite.superblock count next).foldl (SaveWrite.apply h) has =
      has := by
  induction a with
  | zero => rfl
  | succ a ih =>
    rw [List.range_succ, List.map_append, List.foldl_append, ih]
    rfl

theorem foldl_tables (h a : Nat) (new : Accounts) (has : Nat × Accounts) :
    ((List.range a).map fun _ => SaveWrite.table new).foldl (SaveWrite.apply h) has =
      (has.1, if 0 < a then new else has.2) := by
  induction a with
  | zero => rfl
  | succ a ih =>
    rw [List.range_succ, List.map_append, List.foldl_append, ih, if_pos (Nat.succ_pos a)]
    rfl

theorem foldl_persistSaves (faults : Nat → Option Nat) (n size count next h j : Nat)
    (has : Nat × Accounts) :
    ((persistSaves faults n size count next).take j).foldl (SaveWrite.apply h) has =
      (if sizeSector h < min j (transferred (faults n) 5) then size else has.1, has.2) := by
  unfold persistSaves
  rw [List.take_append, List.foldl_append, ← List.map_take, List.take_range, foldl_directories]
  by_cases fine : faults n = none
  · rw [if_pos fine, ← List.map_take, List.take_range, foldl_superblocks]
  · rw [if_neg fine, List.take_nil, List.foldl_nil]

theorem length_persistSaves (faults : Nat → Option Nat) (n size count next : Nat) :
    (persistSaves faults n size count next).length = truncationWrites faults n := by
  unfold persistSaves truncationWrites
  rw [List.length_append, List.length_map, List.length_range]
  split <;> simp

open Classical in
theorem foldl_saveWrites (faults : Nat → Option Nat) (n count next h j : Nat)
    (old new : Accounts) :
    ((saveWrites faults n count next new).take j).foldl (SaveWrite.apply h) (512, old) =
      (if EmptyAfter faults n h j then 0 else 512,
        if TableReaches faults n ∧ truncationWrites faults n < j then new else old) := by
  unfold saveWrites
  simp only
  rw [List.take_append, List.foldl_append, foldl_persistSaves, length_persistSaves]
  unfold EmptyAfter TableReaches TruncationReaches SizeReturns dataCommand
  have short : transferred (faults n) 5 ≤ truncationWrites faults n := Nat.le_add_right _ _
  generalize truncationWrites faults n = before at *
  have reached : sizeSector h < min j (transferred (faults n) 5) ↔
      sizeSector h < transferred (faults n) 5 ∧ sizeSector h < j := by omega
  simp only [reached]
  by_cases failed : faults (n + persistLength faults n) = some 0
  · simp only [failed, if_true, List.take_nil, List.foldl_nil, ne_eq, not_true, false_and,
      not_false_eq_true, and_true, if_false]
  simp only [failed, if_false, ne_eq, not_false_eq_true, true_and]
  rw [List.take_append, List.foldl_append, ← List.map_take, List.take_range, foldl_tables,
    List.length_map, List.length_range, transferred_one]
  rcases written : faults (n + persistLength faults n + 1) with _ | _ | late
  · simp only [reduceCtorEq, if_true, if_false, foldl_persistSaves, not_false_eq_true, true_and]
    have back : sizeSector h <
        min (j - before - 1) (transferred (faults (n + persistLength faults n + 2)) 5) ↔
        sizeSector h < transferred (faults (n + persistLength faults n + 2)) 5 ∧
          before + 1 + sizeSector h < j := by omega
    have stored : 0 < min (j - before) 1 ↔ before < j := by omega
    simp only [back, stored]
    refine Prod.ext ?_ rfl
    simp only
    by_cases returned : sizeSector h < transferred (faults (n + persistLength faults n + 2)) 5 ∧
        before + 1 + sizeSector h < j
    · rw [if_pos returned, if_neg fun empty => empty.2.2 returned]
    · rw [if_neg returned]
      exact if_congr (by simp only [returned, not_false_eq_true, and_true]) rfl rfl
  · have none_ : ¬ 0 < min (j - before) 0 := by omega
    simp only [reduceCtorEq, if_true, if_false, List.take_nil, List.foldl_nil, none_, false_and,
      not_false_eq_true, and_true, not_true]
  · have stored : 0 < min (j - before) 1 ↔ before < j := by omega
    simp only [reduceCtorEq, if_false, List.take_nil, List.foldl_nil, stored, false_and,
      not_false_eq_true, and_true, Option.some.injEq, Nat.add_eq_zero_iff, one_ne_zero, and_false,
      true_and]

theorem ufsReadAt_quiet (handle : Int) (offset len : Nat) {s : Ufs} (noFaults : NoFaults s.drive) :
    s.drive.Extends (ufsReadAt handle offset len s).2.2.drive [] ∧
      (ufsReadAt handle offset len s).2.2 =
        { s with drive := (ufsReadAt handle offset len s).2.2.drive } := by
  unfold ufsReadAt
  split
  · exact ⟨Drive.Extends.refl _, rfl⟩
  simp only
  split
  · exact ⟨Drive.Extends.refl _, rfl⟩
  · exact ⟨readAtLoop_drive _ _ _ _ _ noFaults, rfl⟩

/-- A boot that loads the table leaves it saved. -/
theorem usersInit_saved {u : Users} (cons : Consistent u.ufs) (laid : Laid u.ufs)
    (loads : (usersInit u).1 = false) : ∃ h, Saved (usersInit u).2 h := by
  unfold usersInit at loads ⊢
  rcases found : ufsFind u.ufs passwdFile with _ | h
  · simp [found] at loads
  simp only [found] at loads ⊢
  by_cases odd : ufsSize u.ufs h ≠ userMaxAccounts * recordSize
  · simp [odd] at loads
  rw [if_neg odd]
  have size_eq := Classical.not_not.mp odd
  have foundIn : findIn u.ufs.directory passwdFile = some h := by
    unfold ufsFind at found
    rw [if_pos cons.ready] at found
    exact found
  have slot := (findIn_some foundIn).1
  have valid := handleValid_of_found cons.ready foundIn
  have size : entrySize u.ufs.directory h = 512 := by
    unfold ufsSize at size_eq
    rw [if_pos valid] at size_eq
    exact size_eq
  have sane := cons.allocated.capacity_le slot
  have room : 0 < entryCapacity u.ufs.directory h := by
    have := laid.sized h slot
    omega
  have first := cons.allocated.inside h slot (entryStart u.ufs.directory h) ⟨Nat.le_refl _, by omega⟩
  have top := cons.allocated.high
  have entry : PasswdEntry u.ufs.directory h :=
    ⟨slot, foundIn, first.1, Nat.lt_of_lt_of_le first.2 top, room, sane⟩
  have bytes := ufsReadAt_sector valid cons.faultless size (by
    have := entry.high
    unfold ufsDataEndLba at this
    omega)
  have quiet := ufsReadAt_quiet h 0 512 cons.faultless
  have length : userMaxAccounts * recordSize = 512 := rfl
  rw [length]
  obtain ⟨r, r_eq⟩ : ∃ r, ufsReadAt h 0 512 u.ufs = r := ⟨_, rfl⟩
  rw [r_eq] at bytes quiet ⊢
  obtain ⟨writes, memory⟩ := quiet
  have directory : r.2.2.directory = u.ufs.directory := by rw [memory]
  have next : r.2.2.nextFreeLba = u.ufs.nextFreeLba := by rw [memory]
  have ready : r.2.2.ready = u.ufs.ready := by rw [memory]
  refine ⟨h, ready.trans cons.ready, directory ▸ entry, directory ▸ size, ?_, ?_⟩
  · simp only [next]
    exact ⟨cons.allocated.low, top⟩
  · have loaded : (fun i : Fin 16 => accountOf fun p => r.2.1.getD (i.val * recordSize + p) 0) =
        tableOf (u.ufs.drive.sectors (entryStart u.ufs.directory h)) := by
      rw [bytes]
      exact tableOf_read _
    simp only [directory, writes.sectors, Lib.WriteLog.replay_nil]
    refine ⟨⟨_, _, cons.superblock, cons.allocated.low, top⟩, ?_, loaded.symm⟩
    rw [sized_self size]
    exact cons.directory

/-! ## What a call promises -/

/-- The disk after `j` of the sector writes from `d` to `d'`. -/
def cutDisk (d d' : Drive) (j : Nat) : Nat → Sector :=
  replay d.sectors ((d'.log.drop d.log.length).take j)

/-- With the power lost after `j` sector writes, a boot loads the table before
the call or the one after it; after a call that returns 0, the one after it. -/
structure KeepsTable (username password : CString) (uid : BitVec 32) (u : Users) (j : Nat) :
    Prop where
  cut : bootLoads (cutDisk u.ufs.drive (usersAdd username password uid u).2.ufs.drive j) =
      some u.accounts ∨
    bootLoads (cutDisk u.ufs.drive (usersAdd username password uid u).2.ufs.drive j) =
      some (usersAdd username password uid u).2.accounts
  lasts : (usersAdd username password uid u).1 = true →
    bootLoads (usersAdd username password uid u).2.ufs.drive.sectors =
      some (usersAdd username password uid u).2.accounts

/-- `users_add` refuses the name, or the table is full. -/
def Refused (username : CString) (accounts : Accounts) : Prop :=
  (username.bytes.length = 0 ∨ username.bytes.length ≥ userNameMax) ∨
    nameTaken accounts username = true ∨ freeAccount accounts = none

theorem usersAdd_refused {username : CString} (password : CString) (uid : BitVec 32) {u : Users}
    (refused : Refused username u.accounts) : usersAdd username password uid u = (false, u) := by
  unfold usersAdd
  split
  · rfl
  next named =>
  split
  · rfl
  next untaken =>
  rcases refused with length | taken | full
  · exact absurd length named
  · exact absurd taken untaken
  · rw [full]

theorem usersAdd_accepted {username : CString} (password : CString) (uid : BitVec 32) {u : Users}
    (accepted : ¬ Refused username u.accounts) :
    ∃ slot, freeAccount u.accounts = some slot ∧ usersAdd username password uid u =
      (true, { accounts := withAccount u.accounts slot username password uid
               ufs := usersPersist (withAccount u.accounts slot username password uid) u.ufs }) := by
  unfold Refused at accepted
  simp only [not_or] at accepted
  obtain ⟨⟨some_, short⟩, untaken, room⟩ := accepted
  obtain ⟨slot, free⟩ := Option.ne_none_iff_exists'.mp room
  refine ⟨slot, free, ?_⟩
  unfold usersAdd
  rw [if_neg (by simp [some_, short]), if_neg untaken, free]

/-- The new account is seen in its first character. -/
theorem withAccount_ne {accounts : Accounts} {slot : Fin 16} {username : CString}
    (password : CString) (uid : BitVec 32) (free : freeAccount accounts = some slot)
    (some_ : 0 < username.bytes.length) :
    withAccount accounts slot username password uid ≠ accounts := by
  intro same
  have unused := List.find?_some free
  have zero : (accounts slot).username 0 = 0 := by simpa [Account.inUse] using unused
  have here := congrArg (fun a => (a slot).username 0) same
  unfold withAccount at here
  simp only [Function.update_self, setUsername] at here
  rw [if_pos (by simp only [Fin.val_zero, userNameMax]; omega), zero, Fin.val_zero,
    List.getD_eq_getElem?_getD, List.getElem?_eq_getElem some_] at here
  exact username.nonzero _ (List.getElem_mem some_) here

theorem saveWrites_proper {faults : Nat → Option Nat} {n count next : Nat} {accounts : Accounts}
    (low : ufsDataLba ≤ next) (high : next ≤ ufsDataEndLba) :
    ∀ w ∈ saveWrites faults n count next accounts, w.Proper := by
  have part (n size : Nat) (small : size < 2 ^ 32) :
      ∀ w ∈ persistSaves faults n size count next, w.Proper := by
    intro w hw
    rcases List.mem_append.mp hw with dir | sb
    · obtain ⟨k, hk, rfl⟩ := List.mem_map.mp dir
      have := transferred_le (faults n) 5
      have := List.mem_range.mp hk
      exact ⟨by omega, small⟩
    · split at sb
      · obtain ⟨_, _, rfl⟩ := List.mem_map.mp sb
        exact ⟨low, high⟩
      · cases sb
  intro w hw
  rcases List.mem_append.mp hw with first | later
  · exact part n 0 (by decide) w first
  split at later
  · cases later
  rcases List.mem_append.mp later with table | last
  · obtain ⟨_, _, rfl⟩ := List.mem_map.mp table
    trivial
  split at last
  · exact part _ 512 (by decide) w last
  · cases last

open Classical in
/-- What a boot loads from a disk with the first `j` sector writes of a save. -/
theorem bootLoads_cut {u : Users} {h : Nat} (saved : Saved u h) (accounts : Accounts) (j : Nat) :
    bootLoads (cutDisk u.ufs.drive (usersPersist accounts u.ufs).drive j) =
      if EmptyAfter u.ufs.drive.faults u.ufs.drive.commands h j then none
      else some (if TableReaches u.ufs.drive.faults u.ufs.drive.commands ∧
        truncationWrites u.ufs.drive.faults u.ufs.drive.commands < j then accounts
        else u.accounts) := by
  have writes := usersPersist_writes saved accounts
  have proper := @saveWrites_proper u.ufs.drive.faults u.ufs.drive.commands
    u.ufs.cachedFileCount _ accounts saved.next.1 saved.next.2
  have cut := @DiskHas.writes _ _ _ (512, u.accounts) saved.entry
    ((saveWrites u.ufs.drive.faults u.ufs.drive.commands u.ufs.cachedFileCount u.ufs.nextFreeLba
      accounts).take j) (fun w hw => proper w (List.mem_of_mem_take hw)) saved.disk
  rw [foldl_saveWrites] at cut
  unfold cutDisk
  rw [writes.log, List.drop_left, ← List.map_take]
  rw [bootLoads_diskHas saved.entry cut (by simp only; split <;> decide)]
  simp only
  split
  · rfl
  · rfl

/-- A call keeps its promises exactly when it is refused, or when its writes
reach the disk and the cut is not in the window of the empty file. -/
theorem usersAdd_keeps_iff {u : Users} {h : Nat} (saved : Saved u h) (username password : CString)
    (uid : BitVec 32) (j : Nat) :
    KeepsTable username password uid u j ↔ Refused username u.accounts ∨
      (SaveLasts u.ufs.drive.faults u.ufs.drive.commands h ∧
        ¬ EmptyAfter u.ufs.drive.faults u.ufs.drive.commands h j) := by
  classical
  by_cases refused : Refused username u.accounts
  · have result := usersAdd_refused password uid refused
    refine ⟨fun _ => Or.inl refused, fun _ => ⟨Or.inl ?_, fun ok => ?_⟩⟩
    · rw [result, cutDisk, List.drop_length, List.take_nil, Lib.WriteLog.replay_nil,
        bootLoads_diskHas saved.entry saved.disk (by decide), if_pos rfl]
    · rw [result] at ok
      cases ok
  obtain ⟨slot, free, result⟩ := usersAdd_accepted password uid refused
  have some_ : 0 < username.bytes.length :=
    Nat.pos_of_ne_zero fun zero => refused (Or.inl (Or.inl zero))
  have differs := withAccount_ne password uid free some_
  have boots := bootLoads_cut saved (withAccount u.accounts slot username password uid)
  have written := usersPersist_writes saved (withAccount u.accounts slot username password uid)
  generalize withAccount u.accounts slot username password uid = new at *
  -- all the writes are those of a cut beyond them
  obtain ⟨late, past, above⟩ : ∃ late, (usersPersist new u.ufs).drive.sectors =
      cutDisk u.ufs.drive (usersPersist new u.ufs).drive late ∧
      truncationWrites u.ufs.drive.faults u.ufs.drive.commands + 1 + sizeSector h < late := by
    refine ⟨((usersPersist new u.ufs).drive.log.drop u.ufs.drive.log.length).length +
      (truncationWrites u.ufs.drive.faults u.ufs.drive.commands + 1 + sizeSector h) + 1, ?_, ?_⟩
    · rw [cutDisk, List.take_of_length_le (by omega), written.sectors, written.log, List.drop_left]
    · omega
  have final := boots late
  rw [← past] at final
  have emptyLate : EmptyAfter u.ufs.drive.faults u.ufs.drive.commands h late ↔
      TruncationReaches u.ufs.drive.faults u.ufs.drive.commands h ∧
        ¬ SizeReturns u.ufs.drive.faults u.ufs.drive.commands h := by
    unfold EmptyAfter
    exact ⟨fun e => ⟨e.1, fun r => e.2.2 ⟨r, above⟩⟩, fun e => ⟨e.1, by omega, fun r => e.2 r.1⟩⟩
  constructor
  · intro keeps
    have cut := keeps.cut
    have lasts := keeps.lasts
    rw [result] at cut lasts
    simp only at cut lasts
    refine Or.inr ⟨?_, fun empty => ?_⟩
    · have loaded := lasts trivial
      rw [final] at loaded
      split at loaded
      · cases loaded
      next filled =>
      rw [emptyLate] at filled
      refine ⟨?_, fun reaches => by_contra fun back => filled ⟨reaches, back⟩⟩
      by_contra missing
      rw [if_neg fun both => missing both.1] at loaded
      exact differs (Option.some.inj loaded).symm
    · rw [boots j, if_pos empty] at cut
      rcases cut with old | new
      · cases old
      · cases new
  · rintro (bad | ⟨⟨table, returns⟩, filled⟩)
    · exact absurd bad refused
    refine ⟨?_, fun _ => ?_⟩
    · rw [result]
      simp only
      rw [boots j, if_neg filled]
      split
      · exact Or.inr rfl
      · exact Or.inl rfl
    · rw [result]
      simp only
      rw [final, if_neg fun e => (emptyLate.mp e).2 (returns (emptyLate.mp e).1),
        if_pos ⟨table, by omega⟩]

/-- A volume with this table in its only file. -/
def savedDirectory : Buffer :=
  sized (writeU32 (writeU32 (setName (fun _ => 0) 0 passwdFile) 20 ufsDataLba) 28 1) 0 512

def savedUsers (accounts : Accounts) : Users where
  accounts := accounts
  ufs :=
    { directory := savedDirectory
      ready := true
      cachedFileCount := 1
      nextFreeLba := ufsDataLba + 1
      drive :=
        { sectors := fun lba =>
            if lba = ufsSbLba then sectorOf (superblockImage 1 (ufsDataLba + 1)) 0
            else if lba = ufsDataLba then sectorOf (passwdImage accounts) 0
            else sectorOf savedDirectory (lba - ufsDirLba)
          log := []
          commands := 0
          faults := fun _ => none } }

theorem savedUsers_saved (accounts : Accounts) : Saved (savedUsers accounts) 0 := by
  have start : entryStart savedDirectory 0 = ufsDataLba := by decide
  have size : entrySize savedDirectory 0 = 512 := by decide
  have entry : PasswdEntry savedDirectory 0 :=
    ⟨by decide, by decide, by rw [start], by rw [start]; decide, by decide, by decide⟩
  refine ⟨rfl, entry, size, ⟨Nat.le_succ _, ?_⟩, ⟨1, ufsDataLba + 1, ?_, by decide⟩,
    fun p hp => ?_, ?_⟩
  · simp only [savedUsers]
    decide
  · unfold SuperblockOn
    simp only [savedUsers, if_true]
  · unfold directoryBytes at hp
    have noSb : ufsDirLba + p / 512 ≠ ufsSbLba := by unfold ufsDirLba ufsSbLba; omega
    have noData : ufsDirLba + p / 512 ≠ ufsDataLba := by unfold ufsDirLba ufsDataLba; omega
    have place : 512 * (ufsDirLba + p / 512 - ufsDirLba) + p % 512 = p := by omega
    simp only [savedUsers, noSb, noData, if_false, sectorOf, place]
    rw [sized_self size]
  · simp only [savedUsers]
    rw [start, if_neg (by decide), if_pos rfl, tableOf_image]

/-- "bob" -/
def bobName : CString := ⟨[0x62, 0x6F, 0x62], by simp⟩
def noAccounts : Accounts := fun _ => { username := fun _ => 0, uid := 0, passwordHash := 0 }

theorem bob_accepted : ¬ Refused bobName noAccounts := by
  unfold Refused
  decide

/-- Lost after the first sector of the directory, the power leaves an empty
`.passwd`: the next boot seeds the default passwords. -/
theorem usersAdd_seeds : Saved (savedUsers noAccounts) 0 ∧
    ¬ KeepsTable bobName bobName 1001 (savedUsers noAccounts) 1 := by
  refine ⟨savedUsers_saved noAccounts, fun keeps => ?_⟩
  obtain ⟨slot, _, result⟩ := usersAdd_accepted bobName 1001 (u := savedUsers noAccounts)
    bob_accepted
  have cut := keeps.cut
  have empty : EmptyAfter (savedUsers noAccounts).ufs.drive.faults
      (savedUsers noAccounts).ufs.drive.commands 0 1 :=
    ⟨by unfold TruncationReaches; decide, by decide, fun late => absurd late.2 (by decide)⟩
  rw [result] at cut
  simp only at cut
  rw [bootLoads_cut (savedUsers_saved noAccounts), if_pos empty] at cut
  rcases cut with old | new
  · cases old
  · cases new

/-- Before the first sector the old table is there. -/
theorem usersAdd_keeps_before : KeepsTable bobName bobName 1001 (savedUsers noAccounts) 0 :=
  (usersAdd_keeps_iff (savedUsers_saved noAccounts) bobName bobName 1001 0).mpr
    (Or.inr ⟨⟨⟨by decide, by decide⟩, fun _ => ⟨by decide, rfl, by decide⟩⟩,
      fun empty => absurd empty.2.1 (Nat.not_lt_zero _)⟩)

end MiniKernel.Storage
