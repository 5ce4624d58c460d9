import MiniKernel.Storage.Extents

/-!
# Power loss on the persistent filesystem

Source: kernel/core/ufs.c:318-364 (`ensure_capacity`), 81-96 (`persist_*`),
119-167 (`ufs_init`), kernel/drivers/ata.c:69-103. A run is cut after any of its
sector writes and the volume is mounted again. The directory reaches the disk
before the superblock does, so between the two the disk records an extent that
`next_free_lba` does not yet cover; `GrowthWindow` says between which writes.
-/
namespace MiniKernel.Storage
open Drivers
open Lib (Buffer readU32 writeU32)
open Lib.WriteLog (replay replay_append replay_other replay_take_append)

/-! ## What the disk says -/

/-- The bytes of the cached directory; the buffer is not read beyond them. -/
def directoryBytes : Nat := 2560

def DirectoryOn (disk : Nat → Sector) (dir : Buffer) : Prop :=
  ∀ p < directoryBytes, disk (ufsDirLba + p / 512) ⟨p % 512, mod_512_lt p⟩ = dir p

def SuperblockOn (disk : Nat → Sector) (count nextFree : Nat) : Prop :=
  disk ufsSbLba = sectorOf (superblockImage count nextFree) 0

/-- Mounting a disk on a machine that starts anew. -/
def remount (disk : Nat → Sector) : Ufs :=
  ufsInit
    { directory := fun _ => 0
      ready := false
      cachedFileCount := 0
      nextFreeLba := ufsDataLba
      drive := { sectors := disk, log := [], commands := 0, faults := fun _ => none } }

/-- Used entries have disjoint extents below `next_free_lba`. -/
structure ExtentsOk (dir : Buffer) (nextFree : Nat) : Prop where
  below : ∀ i < ufsMaxEntries, entryUsed dir i = true → ∀ lba, InExtent dir i lba → lba < nextFree
  apart : ∀ i < ufsMaxEntries, entryUsed dir i = true → ∀ j < ufsMaxEntries,
    entryUsed dir j = true → i ≠ j → ∀ lba, InExtent dir i lba → ¬ InExtent dir j lba

/-- The volume is mounted and its allocator hands out no used extent. -/
def Sound (s : Ufs) : Prop := s.ready = true ∧ ExtentsOk s.directory s.nextFreeLba

theorem superblock_magic (count nextFree : Nat) :
    hasMagic (bufferOf [sectorOf (superblockImage count nextFree) 0]) = true := by
  simp [hasMagic, bufferOf, sectorOf, superblockImage, writeU32]

theorem superblock_nextFree (count nextFree : Nat) (h : nextFree < 2 ^ 32) :
    readU32 (bufferOf [sectorOf (superblockImage count nextFree) 0]) 8 = nextFree := by
  have image : readU32 (superblockImage count nextFree) 8 = nextFree :=
    Lib.readU32_writeU32 _ _ _ h
  rw [← image]
  apply Lib.readU32_congr
  intro i hi
  have quotient : (8 + i) / 512 = 0 := by omega
  have remainder : (8 + i) % 512 = 8 + i := by omega
  simp only [bufferOf, quotient, remainder, List.getElem?_cons_zero, sectorOf, Nat.mul_zero,
    Nat.zero_add, image]

/-- What a mount makes of a disk with a superblock. -/
theorem remount_spec {disk : Nat → Sector} {count nextFree : Nat} {dir : Buffer}
    (sb : SuperblockOn disk count nextFree) (dirOn : DirectoryOn disk dir)
    (low : ufsDataLba ≤ nextFree) (high : nextFree ≤ ufsDataEndLba) :
    (remount disk).ready = true ∧ (remount disk).nextFreeLba = nextFree ∧
      ∀ p < directoryBytes, (remount disk).directory p = dir p := by
  let blank : Drive := { sectors := disk, log := [], commands := 0, faults := fun _ => none }
  have faultless : NoFaults blank := rfl
  have sbRead := ataReadSectors_ok ufsSbLba 1 faultless (by decide) (by decide)
  obtain ⟨sbOk, sbData, sbDrive⟩ := sbRead
  have faultless' := sbDrive.noFaults faultless
  obtain ⟨dirOk, dirData, _⟩ := ataReadSectors_ok ufsDirLba ufsDirSectors
    faultless' (by decide) (by decide)
  have sbAddr : lba28 ufsSbLba = ufsSbLba := by decide
  have dirAddr : lba28 ufsDirLba = ufsDirLba := by decide
  have same : ((ataReadSectors ufsSbLba 1 blank).2.2).sectors = disk := sbDrive.sectors
  have image : (ataReadSectors ufsSbLba 1 blank).2.1 =
      [sectorOf (superblockImage count nextFree) 0] := by
    rw [sbData, sbAddr]
    simp only [List.range_one, List.map_cons, List.map_nil, Nat.add_zero]
    exact congrArg (fun s => [s]) sb
  have bound : nextFree < 2 ^ 32 := Nat.lt_of_le_of_lt high (by decide)
  have inRange : ¬ (nextFree < ufsDataLba ∨ nextFree > ufsDataEndLba) := by omega
  unfold remount ufsInit
  simp only [blank] at *
  simp only [sbOk, image, superblock_magic, dirOk, not_true_eq_false, if_false,
    superblock_nextFree count nextFree bound, inRange, true_and]
  intro p hp
  have sector : p / 512 < 5 := by
    unfold directoryBytes at hp
    omega
  rw [dirData, dirAddr, same]
  have := dirOn p hp
  simp [bufferOf, ufsDirSectors, sector, this]

/-- Entries lie within the directory's bytes. -/
theorem entry_in_directory {i : Nat} (hi : i < ufsMaxEntries) :
    entryAt i + 40 ≤ directoryBytes := by
  unfold entryAt ufsEntrySize directoryBytes ufsMaxEntries at *
  omega

theorem entries_congr {a b : Buffer} (same : ∀ p < directoryBytes, a p = b p) {i : Nat}
    (hi : i < ufsMaxEntries) : entryUsed a i = entryUsed b i ∧ SameExtent b a i := by
  have within := entry_in_directory hi
  constructor
  · unfold entryUsed
    rw [same _ (by omega)]
  · apply sameExtent_of_bytes
    intro p _ _ _
    exact same p (by omega)

theorem extentsOk_congr {a b : Buffer} {nextFree : Nat}
    (same : ∀ p < directoryBytes, a p = b p) (h : ExtentsOk b nextFree) : ExtentsOk a nextFree := by
  constructor
  · intro i hi used lba inside
    have entry := entries_congr same hi
    exact h.below i hi (entry.1 ▸ used) lba ((inExtent_congr entry.2).mp inside)
  · intro i hi usedI j hj usedJ ne lba insideI insideJ
    have entryI := entries_congr same hi
    have entryJ := entries_congr same hj
    exact h.apart i hi (entryI.1 ▸ usedI) j hj (entryJ.1 ▸ usedJ) ne lba
      ((inExtent_congr entryI.2).mp insideI) ((inExtent_congr entryJ.2).mp insideJ)

/-- Whether a mount is sound can be read off the disk. -/
theorem sound_remount_iff {disk : Nat → Sector} {count nextFree : Nat} {dir : Buffer}
    (sb : SuperblockOn disk count nextFree) (dirOn : DirectoryOn disk dir)
    (low : ufsDataLba ≤ nextFree) (high : nextFree ≤ ufsDataEndLba) :
    Sound (remount disk) ↔ ExtentsOk dir nextFree := by
  obtain ⟨ready, next, same⟩ := remount_spec sb dirOn low high
  rw [Sound, ready, next]
  constructor
  · intro ⟨_, ok⟩
    exact extentsOk_congr (fun p hp => (same p hp).symm) ok
  · intro ok
    exact ⟨rfl, extentsOk_congr same ok⟩

/-! ## Writes that reach the disk one sector at a time -/

/-- The directory on the disk when the first `d` sectors of `new` have replaced
those of `old`. -/
def mixed (d : Nat) (old new : Buffer) : Buffer := fun p => if p / 512 < d then new p else old p

/-- A field of an entry lies in one sector, so it is old or new as a whole. -/
theorem readU32_mixed (d : Nat) (old new : Buffer) (p : Nat) (aligned : p % 4 = 0) :
    readU32 (mixed d old new) p = if p / 512 < d then readU32 new p else readU32 old p := by
  have sector (i : Nat) (hi : i < 4) : (p + i) / 512 = p / 512 := by omega
  split
  · next written =>
    apply Lib.readU32_congr
    intro i hi
    simp only [mixed, sector i hi, if_pos written]
  · next unwritten =>
    apply Lib.readU32_congr
    intro i hi
    simp only [mixed, sector i hi, if_neg unwritten]

/-- The sector of the directory that holds an entry's start field. -/
def startSector (i : Nat) : Nat := (entryAt i + 20) / 512

/-- The sector that holds its capacity field. -/
def capacitySector (i : Nat) : Nat := (entryAt i + 28) / 512

theorem entryStart_mixed (d : Nat) (old new : Buffer) (i : Nat) :
    entryStart (mixed d old new) i =
      if startSector i < d then entryStart new i else entryStart old i := by
  apply readU32_mixed
  unfold entryAt ufsEntrySize
  omega

theorem entryCapacity_mixed (d : Nat) (old new : Buffer) (i : Nat) :
    entryCapacity (mixed d old new) i =
      if capacitySector i < d then entryCapacity new i else entryCapacity old i := by
  apply readU32_mixed
  unfold entryAt ufsEntrySize
  omega

theorem startSector_le_capacitySector (i : Nat) : startSector i ≤ capacitySector i := by
  unfold startSector capacitySector
  omega

/-- The writes of `persist_directory` and `persist_superblock`. -/
def persistWrites (dir : Buffer) (count nextFree : Nat) : List (Nat × Sector) :=
  runWrites ufsDirLba dir 5 ++ [(ufsSbLba, sectorOf (superblockImage count nextFree) 0)]

theorem persistWrites_length (dir : Buffer) (count nextFree : Nat) :
    (persistWrites dir count nextFree).length = 6 := by
  simp [persistWrites, runWrites]

theorem take_runWrites (lba : Nat) (buf : Buffer) (n d : Nat) (hd : d ≤ n) :
    (runWrites lba buf n).take d = runWrites lba buf d := by
  unfold runWrites
  rw [← List.map_take, List.take_range, Nat.min_eq_left hd]

/-- A cut in the directory leaves a mix of old and new sectors, under the old
superblock. -/
theorem replay_directory {disk : Nat → Sector} {old : Buffer} {count nextFree : Nat}
    (new : Buffer) (sb : SuperblockOn disk count nextFree) (dirOn : DirectoryOn disk old)
    (d : Nat) (hd : d ≤ 5) :
    SuperblockOn (replay disk (runWrites ufsDirLba new d)) count nextFree ∧
      DirectoryOn (replay disk (runWrites ufsDirLba new d)) (mixed d old new) := by
  constructor
  · unfold SuperblockOn at *
    rw [replay_runWrites, if_neg (by unfold ufsDirLba ufsSbLba; omega)]
    exact sb
  · intro p hp
    rw [replay_runWrites]
    by_cases written : p / 512 < d
    · rw [if_pos (by omega), mixed, if_pos written, Nat.add_sub_cancel_left, sectorOf]
      exact congrArg new (Nat.div_add_mod p 512)
    · rw [if_neg (by omega), mixed, if_neg written]
      exact dirOn p hp

/-- After the whole of `persist` the disk holds the new directory and superblock. -/
theorem replay_persistWrites {disk : Nat → Sector} {old : Buffer} {count nextFree : Nat}
    (new : Buffer) (count' nextFree' : Nat) (sb : SuperblockOn disk count nextFree)
    (dirOn : DirectoryOn disk old) :
    SuperblockOn (replay disk (persistWrites new count' nextFree')) count' nextFree' ∧
      DirectoryOn (replay disk (persistWrites new count' nextFree')) new := by
  obtain ⟨_, written⟩ := replay_directory new sb dirOn 5 (by decide)
  rw [persistWrites, Lib.WriteLog.replay_concat]
  constructor
  · exact Function.update_self ..
  · intro p hp
    rw [Function.update_of_ne (by unfold ufsDirLba ufsSbLba; omega), written p hp, mixed, if_pos]
    unfold directoryBytes at hp
    omega

/-! ## The invariant between operations -/

/-- The cached directory and the superblock are on the disk. -/
structure Consistent (s : Ufs) : Prop where
  ready : s.ready = true
  faultless : NoFaults s.drive
  allocated : Allocated s.directory s.nextFreeLba
  directory : DirectoryOn s.drive.sectors s.directory
  superblock : SuperblockOn s.drive.sectors s.cachedFileCount s.nextFreeLba

theorem Allocated.extentsOk {dir : Buffer} {nextFree : Nat} (h : Allocated dir nextFree) :
    ExtentsOk dir nextFree :=
  ⟨fun i hi _ lba inside => (h.inside i hi lba inside).2,
    fun i hi _ j hj _ ne => h.apart i hi j hj ne⟩

/-- A directory whose extents are among those of an allocated one, but for one
entry that may reach into the sectors below the filesystem. -/
theorem extentsOk_of_cover {dir dir' : Buffer} {nextFree : Nat} (slot : Nat)
    (h : Allocated dir nextFree)
    (cover : ∀ i < ufsMaxEntries, ∀ lba, InExtent dir' i lba →
      InExtent dir i lba ∨ (i = slot ∧ lba < ufsDataLba)) : ExtentsOk dir' nextFree := by
  have low := h.low
  constructor
  · intro i hi _ lba inside
    rcases cover i hi lba inside with old | ⟨_, under⟩
    · exact (h.inside i hi lba old).2
    · omega
  · intro i hi _ j hj _ ne lba insideI insideJ
    rcases cover i hi lba insideI with oldI | ⟨slotI, underI⟩
    · rcases cover j hj lba insideJ with oldJ | ⟨_, underJ⟩
      · exact h.apart i hi j hj ne lba oldI oldJ
      · have := (h.inside i hi lba oldI).1
        omega
    · rcases cover j hj lba insideJ with oldJ | ⟨slotJ, _⟩
      · have := (h.inside j hj lba oldJ).1
        omega
      · exact ne (slotI.trans slotJ.symm)

/-- Such a change is sound at every cut: half of it leaves an old extent, an
empty one, or one that starts at sector 0. -/
theorem Keeps.mixed_ok {slot : Nat} {dir dir' : Buffer} {nextFree : Nat} (d : Nat)
    (keeps : Keeps slot dir dir') (h : Allocated dir nextFree) :
    ExtentsOk (mixed d dir dir') nextFree := by
  refine extentsOk_of_cover slot h fun i hi lba inside => ?_
  have bound := h.capacity_le hi
  unfold InExtent at inside ⊢
  rw [entryStart_mixed, entryCapacity_mixed] at inside
  rcases keeps i with ⟨start, capacity⟩ | ⟨own, start, capacity⟩
  · rw [start, capacity, ite_self, ite_self] at inside
    exact Or.inl inside
  · rw [start, capacity] at inside
    by_cases startNew : startSector i < d
    · rw [if_pos startNew] at inside
      right
      unfold ufsDataLba
      split at inside <;> omega
    · rw [if_neg startNew] at inside
      left
      split at inside <;> omega

/-! ## Cuts -/

/-- Cut after any number of these writes, the volume mounts soundly unless `bad`. -/
def CutSafe (disk : Nat → Sector) (writes : List (Nat × Sector)) (bad : Nat → Prop) : Prop :=
  ∀ j ≤ writes.length, Sound (remount (replay disk (writes.take j))) ↔ ¬ bad j

theorem CutSafe.append {disk : Nat → Sector} {first second : List (Nat × Sector)}
    {bad bad' : Nat → Prop} (h : CutSafe disk first bad)
    (h' : CutSafe (replay disk first) second bad')
    (early : ∀ j, bad j → j ≤ first.length) (late : ∀ j, bad' j → 0 < j) :
    CutSafe disk (first ++ second) fun j => bad j ∨ bad' (j - first.length) := by
  intro j hj
  rw [replay_take_append]
  rw [List.length_append] at hj
  by_cases inFirst : j ≤ first.length
  · rw [if_pos inFirst, h j inFirst]
    constructor
    · rintro fine (bad | bad')
      · exact fine bad
      · have := late _ bad'
        omega
    · intro fine bad
      exact fine (Or.inl bad)
  · rw [if_neg inFirst, h' (j - first.length) (by omega)]
    constructor
    · rintro fine (bad | bad')
      · exact inFirst (early j bad)
      · exact fine bad'
    · intro fine bad'
      exact fine (Or.inr bad')

theorem CutSafe.congr {disk : Nat → Sector} {writes : List (Nat × Sector)} {bad bad' : Nat → Prop}
    (h : CutSafe disk writes bad) (same : ∀ j, bad j ↔ bad' j) : CutSafe disk writes bad' := by
  intro j hj
  rw [h j hj, same j]

/-- Writes to the data area only. -/
def DataOnly (writes : List (Nat × Sector)) : Prop := ∀ w ∈ writes, ufsDataLba ≤ w.1

theorem DataOnly.take {writes : List (Nat × Sector)} (h : DataOnly writes) (j : Nat) :
    DataOnly (writes.take j) :=
  fun w hw => h w (List.mem_of_mem_take hw)

theorem DataOnly.append {first second : List (Nat × Sector)} (h : DataOnly first)
    (h' : DataOnly second) : DataOnly (first ++ second) := by
  intro w hw
  rcases List.mem_append.mp hw with before | after
  · exact h w before
  · exact h' w after

theorem DataOnly.metadata {disk : Nat → Sector} {writes : List (Nat × Sector)} {dir : Buffer}
    {count nextFree : Nat} (h : DataOnly writes) (sb : SuperblockOn disk count nextFree)
    (dirOn : DirectoryOn disk dir) :
    SuperblockOn (replay disk writes) count nextFree ∧ DirectoryOn (replay disk writes) dir := by
  have kept (a : Nat) (below : a < ufsDataLba) : replay disk writes a = disk a := by
    apply replay_other
    intro w hw same
    have := h w hw
    omega
  constructor
  · unfold SuperblockOn at *
    rw [kept _ (by decide)]
    exact sb
  · intro p hp
    rw [kept _ (by unfold directoryBytes ufsDirLba ufsDataLba at *; omega)]
    exact dirOn p hp

theorem DataOnly.cutSafe {disk : Nat → Sector} {writes : List (Nat × Sector)} {dir : Buffer}
    {count nextFree : Nat} (h : DataOnly writes) (sb : SuperblockOn disk count nextFree)
    (dirOn : DirectoryOn disk dir) (allocated : Allocated dir nextFree) :
    CutSafe disk writes fun _ => False := by
  intro j _
  obtain ⟨sb', dirOn'⟩ := (h.take j).metadata sb dirOn
  rw [sound_remount_iff sb' dirOn' allocated.low allocated.high]
  simp [allocated.extentsOk]

/-- The cuts of a `persist`: those in the directory, and the end. -/
theorem persist_cutSafe {disk : Nat → Sector} {old : Buffer} {count nextFree : Nat}
    (new : Buffer) (count' nextFree' : Nat) (sb : SuperblockOn disk count nextFree)
    (dirOn : DirectoryOn disk old) (low : ufsDataLba ≤ nextFree) (high : nextFree ≤ ufsDataEndLba)
    (allocated : Allocated new nextFree') :
    CutSafe disk (persistWrites new count' nextFree')
      fun j => j ≤ 5 ∧ ¬ ExtentsOk (mixed j old new) nextFree := by
  intro j hj
  rw [persistWrites_length] at hj
  rcases Nat.lt_or_ge 5 j with whole | within
  · have all : j = 6 := by omega
    obtain ⟨sb', dirOn'⟩ := replay_persistWrites new count' nextFree' sb dirOn
    rw [all, List.take_of_length_le (by rw [persistWrites_length]),
      sound_remount_iff sb' dirOn' allocated.low allocated.high]
    simp [allocated.extentsOk]
  · have cut : (persistWrites new count' nextFree').take j = runWrites ufsDirLba new j := by
      rw [persistWrites, List.take_append_of_le_length (by simp [runWrites]; omega),
        take_runWrites _ _ _ _ within]
    obtain ⟨sb', dirOn'⟩ := replay_directory new sb dirOn j within
    rw [cut, sound_remount_iff sb' dirOn' low high]
    simp [within]

/-! ## One operation -/

/-- An operation that leaves `t` behind after these writes. -/
structure Effect (s t : Ufs) (writes : List (Nat × Sector)) (bad : Nat → Prop) : Prop where
  consistent : Consistent t
  drive : s.drive.Extends t.drive writes
  cuts : CutSafe s.drive.sectors writes bad

theorem Effect.idle {s t : Ufs} (cons : Consistent s) (drive : s.drive.Extends t.drive [])
    (dir : t.directory = s.directory) (next : t.nextFreeLba = s.nextFreeLba)
    (count : t.cachedFileCount = s.cachedFileCount) (ready : t.ready = s.ready) :
    Effect s t [] fun _ => False := by
  have disk : t.drive.sectors = s.drive.sectors := drive.sectors
  refine ⟨⟨?_, drive.noFaults cons.faultless, ?_, ?_, ?_⟩, drive, ?_⟩
  · rw [ready]
    exact cons.ready
  · rw [dir, next]
    exact cons.allocated
  · rw [disk, dir]
    exact cons.directory
  · rw [disk, count, next]
    exact cons.superblock
  · intro j hj
    have zero : j = 0 := by simpa using hj
    rw [zero]
    simp only [List.take_nil, Lib.WriteLog.replay_nil, not_false_eq_true, iff_true]
    rw [sound_remount_iff cons.superblock cons.directory cons.allocated.low cons.allocated.high]
    exact cons.allocated.extentsOk

theorem Effect.refl {s : Ufs} (cons : Consistent s) : Effect s s [] fun _ => False :=
  Effect.idle cons (Drive.Extends.refl _) rfl rfl rfl rfl

/-- On a faultless drive both parts of `persist` succeed. -/
theorem persist_ok {s : Ufs} (faultless : NoFaults s.drive) :
    (persist s).1 = true ∧ (persist s).2.directory = s.directory ∧
      (persist s).2.nextFreeLba = s.nextFreeLba ∧
      (persist s).2.cachedFileCount = s.cachedFileCount ∧ (persist s).2.ready = s.ready ∧
      s.drive.Extends (persist s).2.drive
        (persistWrites s.directory s.cachedFileCount s.nextFreeLba) := by
  obtain ⟨dirOk, dirDrive⟩ := ataWriteSectors_ok ufsDirLba ufsDirSectors s.directory
    faultless (by decide) (by decide)
  obtain ⟨sbOk, sbDrive⟩ := ataWriteSectors_ok ufsSbLba 1
    (superblockImage s.cachedFileCount s.nextFreeLba) (dirDrive.noFaults faultless)
    (by decide) (by decide)
  have dirAddr : lba28 ufsDirLba = ufsDirLba := by decide
  have sbAddr : lba28 ufsSbLba = ufsSbLba := by decide
  rw [dirAddr] at dirDrive
  rw [sbAddr] at sbDrive
  have first : (persistDirectory s).1 = true := dirOk
  simp only [persist, first, if_true]
  exact ⟨sbOk, rfl, rfl, rfl, rfl, dirDrive.trans sbDrive⟩

/-- A change of the directory that is persisted. -/
theorem persist_effect {s t : Ufs} {bad : Nat → Prop} (cons : Consistent s)
    (drive : t.drive = s.drive) (ready : t.ready = s.ready)
    (allocated : Allocated t.directory t.nextFreeLba)
    (cuts : ∀ j ≤ 5, ExtentsOk (mixed j s.directory t.directory) s.nextFreeLba ↔ ¬ bad j)
    (early : ∀ j, bad j → j ≤ 5) :
    Effect s (persist t).2 (persistWrites t.directory t.cachedFileCount t.nextFreeLba) bad := by
  have faultless : NoFaults t.drive := drive ▸ cons.faultless
  obtain ⟨_, dir, next, count, ready', emits⟩ := persist_ok faultless
  rw [drive] at emits
  obtain ⟨sb', dirOn'⟩ := replay_persistWrites t.directory t.cachedFileCount t.nextFreeLba
    cons.superblock cons.directory
  refine ⟨⟨?_, emits.noFaults cons.faultless, ?_, ?_, ?_⟩, emits, ?_⟩
  · rw [ready', ready]
    exact cons.ready
  · rw [dir, next]
    exact allocated
  · rw [emits.sectors, dir]
    exact dirOn'
  · rw [emits.sectors, count, next]
    exact sb'
  · apply (persist_cutSafe t.directory t.cachedFileCount t.nextFreeLba cons.superblock
      cons.directory cons.allocated.low cons.allocated.high allocated).congr
    intro j
    constructor
    · rintro ⟨hj, torn⟩
      by_contra fine
      exact torn ((cuts j hj).mpr fine)
    · intro badJ
      exact ⟨early j badJ, fun ok => (cuts j (early j badJ)).mp ok badJ⟩

/-- Persisting a directory whose extents are kept is safe at every cut. -/
theorem persist_keeps {s t : Ufs} (slot : Nat) (cons : Consistent s) (drive : t.drive = s.drive)
    (ready : t.ready = s.ready) (next : t.nextFreeLba = s.nextFreeLba)
    (keeps : Keeps slot s.directory t.directory) :
    Effect s (persist t).2 (persistWrites t.directory t.cachedFileCount t.nextFreeLba)
      fun _ => False := by
  apply persist_effect cons drive ready
  · rw [next]
    exact keeps.allocated cons.allocated
  · intro j _
    simp [keeps.mixed_ok j cons.allocated]
  · intro j bad
    exact bad.elim

theorem Effect.trans {s t u : Ufs} {first second : List (Nat × Sector)} {bad bad' : Nat → Prop}
    (h : Effect s t first bad) (h' : Effect t u second bad')
    (early : ∀ j, bad j → j ≤ first.length) (late : ∀ j, bad' j → 0 < j) :
    Effect s u (first ++ second) fun j => bad j ∨ bad' (j - first.length) := by
  refine ⟨h'.consistent, h.drive.trans h'.drive, h.cuts.append ?_ early late⟩
  rw [← h.drive.sectors]
  exact h'.cuts

theorem Effect.congr {s t : Ufs} {writes : List (Nat × Sector)} {bad bad' : Nat → Prop}
    (h : Effect s t writes bad) (same : ∀ j, bad j ↔ bad' j) : Effect s t writes bad' :=
  ⟨h.consistent, h.drive, h.cuts.congr same⟩

/-- Two operations that are safe at every cut. -/
theorem Effect.trans_safe {s t u : Ufs} {first second : List (Nat × Sector)}
    (h : Effect s t first fun _ => False) (h' : Effect t u second fun _ => False) :
    Effect s u (first ++ second) fun _ => False :=
  (h.trans h' (fun _ bad => bad.elim) (fun _ bad => bad.elim)).congr (fun _ => or_self_iff)

/-- Data written, and nothing else. -/
theorem Effect.data {s : Ufs} {d : Drive} {writes : List (Nat × Sector)} (cons : Consistent s)
    (drive : s.drive.Extends d writes) (data : DataOnly writes) :
    Effect s { s with drive := d } writes fun _ => False := by
  obtain ⟨sb, dirOn⟩ := data.metadata cons.superblock cons.directory
  rw [← drive.sectors] at sb dirOn
  exact ⟨⟨cons.ready, drive.noFaults cons.faultless, cons.allocated, dirOn, sb⟩, drive,
    data.cutSafe cons.superblock cons.directory cons.allocated⟩

theorem runWrites_dataOnly (lba : Nat) (buf : Buffer) (n : Nat) (h : ufsDataLba ≤ lba) :
    DataOnly (runWrites lba buf n) := by
  intro w hw
  obtain ⟨s, _, rfl⟩ := List.mem_map.mp hw
  exact Nat.le_trans h (Nat.le_add_right lba s)

/-- The copy writes as many sectors as the file has, all to the data area. -/
theorem moveLoop_ok (oldStart newStart oldSectors fuel done : Nat) (d : Drive)
    (faultless : NoFaults d) (low : ufsDataLba ≤ newStart) (high : newStart + oldSectors < 2 ^ 28)
    (enough : oldSectors ≤ done + fuel) :
    (moveLoop oldStart newStart oldSectors fuel done d).1 = true ∧
      ∃ writes, d.Extends (moveLoop oldStart newStart oldSectors fuel done d).2 writes ∧
        DataOnly writes ∧ writes.length = oldSectors - done := by
  induction fuel generalizing done d with
  | zero => exact ⟨rfl, [], Drive.Extends.refl d, by simp [DataOnly], by simp; omega⟩
  | succ fuel ih =>
    rw [moveLoop]
    by_cases more : done < oldSectors
    swap
    · rw [if_neg more]
      exact ⟨rfl, [], Drive.Extends.refl d, by simp [DataOnly], by simp; omega⟩
    rw [if_pos more]
    let chunk := min (oldSectors - done) 8
    have hpos : 0 < chunk := by omega
    have hle : chunk ≤ 256 := by omega
    obtain ⟨readOk, _, readDrive⟩ :=
      ataReadSectors_ok (wrap32 (oldStart + done)) chunk faultless hpos hle
    obtain ⟨writeOk, writeDrive⟩ := ataWriteSectors_ok (wrap32 (newStart + done)) chunk
      (bufferOf (ataReadSectors (wrap32 (oldStart + done)) chunk d).2.1)
      (readDrive.noFaults faultless) hpos hle
    have addr : lba28 (wrap32 (newStart + done)) = newStart + done := lba28_wrap32 _ (by omega)
    rw [addr] at writeDrive
    have both := readDrive.trans writeDrive
    obtain ⟨restOk, writes, restDrive, restData, restLength⟩ := ih (done + chunk)
      (ataWriteSectors (wrap32 (newStart + done)) chunk
        (bufferOf (ataReadSectors (wrap32 (oldStart + done)) chunk d).2.1)
        (ataReadSectors (wrap32 (oldStart + done)) chunk d).2.2).2
      (both.noFaults faultless) (by omega)
    simp only [chunk] at *
    simp only [readOk, writeOk, not_true_eq_false, if_false]
    refine ⟨restOk, _, both.trans restDrive, ?_, ?_⟩
    · rw [List.nil_append]
      exact (runWrites_dataOnly _ _ _ (by omega)).append restData
    · simp [runWrites, restLength]
      omega

/-- Writing to a file touches sectors of the data area only, if the file has
any extent to write to. -/
theorem writeAtLoop_ok (startLba fuel cur remaining : Nat) (src : Buffer) (d : Drive)
    (faultless : NoFaults d) (low : 0 < remaining → ufsDataLba ≤ startLba)
    (high : startLba ≤ ufsDataEndLba) (hcur : cur < 2 ^ 32) :
    (writeAtLoop startLba fuel cur remaining src d).1 = true ∧
      ∃ writes, d.Extends (writeAtLoop startLba fuel cur remaining src d).2 writes ∧
        DataOnly writes := by
  induction fuel generalizing cur remaining src d with
  | zero => exact ⟨rfl, [], Drive.Extends.refl d, by simp [DataOnly]⟩
  | succ fuel ih =>
    rw [writeAtLoop]
    by_cases done : remaining = 0
    · rw [if_pos done]
      exact ⟨rfl, [], Drive.Extends.refl d, by simp [DataOnly]⟩
    rw [if_neg done]
    have lowStart := low (by omega)
    have addr : lba28 (wrap32 (startLba + cur / sectorSize)) = startLba + cur / sectorSize := by
      apply lba28_wrap32
      unfold sectorSize ufsDataEndLba at *
      omega
    obtain ⟨readOk, _, readDrive⟩ := ataReadSectors_ok
      (wrap32 (startLba + cur / sectorSize)) 1 faultless (by decide) (by decide)
    have writeSpec (buf : Buffer) := ataWriteSectors_ok
      (wrap32 (startLba + cur / sectorSize)) 1 buf (readDrive.noFaults faultless) (by decide)
      (by decide)
    simp only [readOk, (writeSpec _).1, not_true_eq_false, if_false]
    have writeDrive := (writeSpec fun p =>
      if cur % sectorSize ≤ p ∧ p < cur % sectorSize + min (sectorSize - cur % sectorSize) remaining
      then src (p - cur % sectorSize)
      else bufferOf (ataReadSectors (wrap32 (startLba + cur / sectorSize)) 1 d).2.1 p).2
    rw [addr] at writeDrive
    have both := readDrive.trans writeDrive
    obtain ⟨restOk, writes, restDrive, restData⟩ := ih
      (wrap32 (cur + min (sectorSize - cur % sectorSize) remaining))
      (remaining - min (sectorSize - cur % sectorSize) remaining)
      (fun p => src (p + min (sectorSize - cur % sectorSize) remaining)) _
      (both.noFaults faultless) (fun _ => lowStart) (Nat.mod_lt _ (by decide))
    refine ⟨restOk, _, both.trans restDrive, ?_⟩
    rw [List.nil_append]
    exact (runWrites_dataOnly _ _ _ (Nat.le_trans lowStart (Nat.le_add_right _ _))).append restData

/-! ## Growing a file -/

/-- How many sectors are copied before the directory is written. -/
def copiedSectors (dir : Buffer) (handle : Nat) : Nat :=
  if entrySize dir handle > 0 then sectorsForBytes (entrySize dir handle) else 0

/-- The first directory sector after which the new extent shows: the one with
the start field, if the entry had an extent, else the one with the capacity. -/
def firstTorn (dir : Buffer) (handle : Nat) : Nat :=
  if entryCapacity dir handle = 0 then capacitySector handle else startSector handle

theorem entryUsed_mixed_moved (d : Nat) (dir : Buffer) (h start capacity i : Nat) :
    entryUsed (mixed d dir (movedEntry dir h start capacity)) i = entryUsed dir i := by
  have same : mixed d dir (movedEntry dir h start capacity) (entryAt i) = dir (entryAt i) := by
    unfold mixed
    split
    · apply movedEntry_outside
      rcases Nat.lt_trichotomy i h with before | rfl | after
      · have := entryAt_le_of_lt before
        omega
      · omega
      · have := entryAt_le_of_lt after
        omega
    · rfl
  unfold entryUsed
  rw [same]

/-- A cut of the directory while a file is moved is sound until the new extent
shows, as the superblock does not cover it yet. -/
theorem moved_mixed_iff {dir : Buffer} {nextFree h capacity : Nat} (d : Nat)
    (allocated : Allocated dir nextFree) (hh : h < ufsMaxEntries) (used : entryUsed dir h = true)
    (hcapacity : 0 < capacity) (bound : capacity < 2 ^ 32) :
    ExtentsOk (mixed d dir (movedEntry dir h nextFree capacity)) nextFree ↔
      ¬ firstTorn dir h < d := by
  have extent := movedEntry_extent dir h nextFree capacity
    (Nat.lt_of_le_of_lt allocated.high (by decide)) bound
  have order := startSector_le_capacitySector h
  constructor
  · intro ok torn
    have usedMixed : entryUsed (mixed d dir (movedEntry dir h nextFree capacity)) h = true := by
      rw [entryUsed_mixed_moved]
      exact used
    have shows : InExtent (mixed d dir (movedEntry dir h nextFree capacity)) h nextFree := by
      unfold InExtent
      rw [entryStart_mixed, entryCapacity_mixed, extent.1, extent.2]
      unfold firstTorn at torn
      split at torn
      · rw [if_pos (by omega), if_pos torn]
        omega
      · rw [if_pos torn]
        split <;> omega
    exact Nat.lt_irrefl _ (ok.below h hh usedMixed nextFree shows)
  · intro early
    refine extentsOk_of_cover h allocated fun i _ lba inside => Or.inl ?_
    unfold InExtent at inside ⊢
    rw [entryStart_mixed, entryCapacity_mixed] at inside
    by_cases own : i = h
    · subst own
      unfold firstTorn at early
      split at early
      · next empty =>
        rw [if_neg (by omega : ¬ capacitySector i < d), empty] at inside
        omega
      · rw [if_neg early, if_neg (by omega)] at inside
        exact inside
    · obtain ⟨start, size⟩ := movedEntry_other dir h nextFree capacity i own
      rw [start, size, ite_self, ite_self] at inside
      exact inside

/-- The cuts at which a growing file's extent is on the disk before the
superblock covers it. -/
def TornGrowth (s : Ufs) (handle j : Nat) : Prop :=
  copiedSectors s.directory handle + firstTorn s.directory handle < j ∧
    j ≤ copiedSectors s.directory handle + 5

theorem movedDrive_ok {s : Ufs} (cons : Consistent s) (handle : Nat) :
    (movedDrive s handle).1 = true ∧
      ∃ writes, s.drive.Extends (movedDrive s handle).2 writes ∧ DataOnly writes ∧
        writes.length = copiedSectors s.directory handle := by
  unfold movedDrive copiedSectors
  split
  · have few := sectorsForBytes_lt (entrySize s.directory handle)
    have high := cons.allocated.high
    have moved := moveLoop_ok (entryStart s.directory handle) s.nextFreeLba
      (sectorsForBytes (entrySize s.directory handle))
      (sectorsForBytes (entrySize s.directory handle)) 0 s.drive cons.faultless
      cons.allocated.low (by unfold ufsDataEndLba at high; omega) (by omega)
    exact moved
  · exact ⟨rfl, [], Drive.Extends.refl _, by simp [DataOnly], rfl⟩

/-- `ensure_capacity`, with the copy under its name. -/
theorem ensureCapacity_grows {s : Ufs} {handle needed : Nat} (cons : Consistent s)
    (needs : NeedsGrowth s handle needed) :
    let capacity := newCapacitySectors (entryCapacity s.directory handle) (sectorsForBytes needed)
    ensureCapacity handle needed s = persist
      { s with
        directory := movedEntry s.directory handle s.nextFreeLba capacity
        nextFreeLba := wrap32 (s.nextFreeLba + capacity)
        drive := (movedDrive s handle).2 } := by
  intro capacity
  rw [ensureCapacity_moves needs, (movedDrive_ok cons handle).1, if_neg (by decide)]

/-- Persisting a moved file's entry. -/
theorem moved_effect {s t : Ufs} {handle capacity : Nat} (cons : Consistent s)
    (hh : handle < ufsMaxEntries) (used : entryUsed s.directory handle = true)
    (positive : 0 < capacity) (bound : capacity < 2 ^ 32)
    (room : s.nextFreeLba + capacity ≤ ufsDataEndLba)
    (dir : t.directory = movedEntry s.directory handle s.nextFreeLba capacity)
    (next : t.nextFreeLba = s.nextFreeLba + capacity) (drive : t.drive = s.drive)
    (ready : t.ready = s.ready) :
    (persist t).1 = true ∧ 0 < entryCapacity (persist t).2.directory handle ∧
      Effect s (persist t).2 (persistWrites t.directory t.cachedFileCount t.nextFreeLba)
        fun j => firstTorn s.directory handle < j ∧ j ≤ 5 := by
  have start : s.nextFreeLba < 2 ^ 32 := Nat.lt_of_le_of_lt cons.allocated.high (by decide)
  have faultless : NoFaults t.drive := drive ▸ cons.faultless
  obtain ⟨ok, kept, _⟩ := persist_ok faultless
  refine ⟨ok, ?_, persist_effect cons drive ready ?_ ?_ fun j bad => bad.2⟩
  · rw [kept, dir, (movedEntry_extent s.directory handle s.nextFreeLba capacity start bound).2]
    exact positive
  · rw [dir, next]
    exact moved_allocated cons.allocated bound room
  · intro j hj
    rw [dir, moved_mixed_iff j cons.allocated hh used positive bound]
    simp [hj]

theorem ensureCapacity_effect {s : Ufs} {handle needed : Nat} (cons : Consistent s)
    (hh : handle < ufsMaxEntries) (used : entryUsed s.directory handle = true)
    (needs : NeedsGrowth s handle needed) :
    (ensureCapacity handle needed s).1 = true ∧
      0 < entryCapacity (ensureCapacity handle needed s).2.directory handle ∧
      ∃ writes, writes.length = copiedSectors s.directory handle + 6 ∧
        Effect s (ensureCapacity handle needed s).2 writes (TornGrowth s handle) := by
  obtain ⟨positive, bound, noWrap, room⟩ := growth_bounds cons.allocated hh needs
  obtain ⟨_, copy, copyDrive, copyData, copyLength⟩ := movedDrive_ok cons handle
  have copied := Effect.data cons copyDrive copyData
  rw [ensureCapacity_grows cons needs]
  obtain ⟨ok, capacity, persisted⟩ := moved_effect copied.consistent hh used positive bound room
    (t := { s with
      directory := movedEntry s.directory handle s.nextFreeLba
        (newCapacitySectors (entryCapacity s.directory handle) (sectorsForBytes needed))
      nextFreeLba := wrap32 (s.nextFreeLba +
        newCapacitySectors (entryCapacity s.directory handle) (sectorsForBytes needed))
      drive := (movedDrive s handle).2 }) rfl noWrap rfl rfl
  refine ⟨ok, capacity, _, ?_, (copied.trans persisted (fun _ bad => bad.elim)
    (fun j bad => Nat.zero_lt_of_lt bad.1)).congr fun j => ?_⟩
  · rw [List.length_append, persistWrites_length, copyLength]
  · rw [false_or, copyLength]
    dsimp only [TornGrowth]
    omega

/-! ## The operations -/

/-- The operation is a write that has to grow its file, and the power fails
after `j` of its sector writes, when the disk holds the new extent and not yet
the new `next_free_lba`. -/
def GrowthWindow (s : Ufs) : UfsOp → Nat → Prop
  | .writeAt handle offset _ len, j =>
    handleValid s handle = true ∧ 0 < len.toNat ∧ offset.toNat + len.toNat < 2 ^ 32 ∧
      NeedsGrowth s handle.toNat (offset.toNat + len.toNat) ∧ TornGrowth s handle.toNat j
  | _, _ => False

theorem create_effect {s : Ufs} (cons : Consistent s) (name : CString) (ownerUid : Nat) :
    ∃ writes, Effect s (ufsCreate name ownerUid s).2 writes fun _ => False := by
  unfold ufsCreate
  split
  · exact ⟨[], Effect.refl cons⟩
  split
  · exact ⟨[], Effect.refl cons⟩
  split
  · exact ⟨[], Effect.refl cons⟩
  split
  · exact ⟨[], Effect.refl cons⟩
  · next slot _ =>
    have keeps := createdEntry_keeps s.directory slot name ownerUid
    exact ⟨_, persist_keeps slot cons rfl rfl rfl keeps⟩

theorem delete_effect {s : Ufs} (cons : Consistent s) (name : CString) :
    ∃ writes, Effect s (ufsDelete name s).2 writes fun _ => False := by
  unfold ufsDelete
  split
  · exact ⟨[], Effect.refl cons⟩
  split
  · exact ⟨[], Effect.refl cons⟩
  · next slot _ =>
    exact ⟨_, persist_keeps 0 cons rfl rfl rfl (keeps_of_same fun i =>
      update_sameExtent s.directory slot i _ 0 (by omega) (by omega))⟩

theorem chmod_effect {s : Ufs} (cons : Consistent s) (handle : Int) (perm : UInt8) :
    ∃ writes, Effect s (ufsChmod handle perm s).2 writes fun _ => False := by
  unfold ufsChmod
  split
  · exact ⟨[], Effect.refl cons⟩
  · exact ⟨_, persist_keeps 0 cons rfl rfl rfl (keeps_of_same fun i =>
      update_sameExtent s.directory handle.toNat i _ perm (by omega) (by omega))⟩

theorem truncate_effect {s : Ufs} (cons : Consistent s) (handle : Int) (newSize : Nat) :
    ∃ writes, Effect s (ufsTruncate handle newSize s).2 writes fun _ => False := by
  unfold ufsTruncate
  split
  · exact ⟨[], Effect.refl cons⟩
  split
  · exact ⟨[], Effect.refl cons⟩
  · exact ⟨_, persist_keeps 0 cons rfl rfl rfl (keeps_of_same fun i =>
      writeSize_sameExtent s.directory handle.toNat i newSize)⟩

theorem readAtLoop_drive (startLba fuel cur remaining : Nat) (d : Drive) (faultless : NoFaults d) :
    d.Extends (readAtLoop startLba fuel cur remaining d).2.2 [] := by
  induction fuel generalizing cur remaining d with
  | zero => exact Drive.Extends.refl d
  | succ fuel ih =>
    rw [readAtLoop]
    split
    · exact Drive.Extends.refl d
    · obtain ⟨ok, _, read⟩ := ataReadSectors_ok
        (wrap32 (startLba + cur / sectorSize)) 1 faultless (by decide) (by decide)
      simp only [ok, not_true_eq_false, if_false]
      exact read.trans (ih _ _ _ (read.noFaults faultless))

theorem readAt_effect {s : Ufs} (cons : Consistent s) (handle : Int) (offset len : Nat) :
    ∃ writes, Effect s (ufsReadAt handle offset len s).2.2 writes fun _ => False := by
  unfold ufsReadAt
  split
  · exact ⟨[], Effect.refl cons⟩
  · simp only
    split
    · exact ⟨[], Effect.refl cons⟩
    · exact ⟨[], Effect.idle cons (readAtLoop_drive _ _ _ _ _ cons.faultless) rfl rfl rfl rfl⟩

theorem writeData_effect {s : Ufs} (cons : Consistent s) (handle : Int)
    (hh : handle.toNat < ufsMaxEntries) (offset needed : Nat) (buf : Buffer) (len : Nat)
    (hoffset : offset < 2 ^ 32)
    (capacity : 0 < len → 0 < entryCapacity s.directory handle.toNat) :
    ∃ writes, Effect s (writeData handle offset needed buf len s).2 writes fun _ => False := by
  have extent (nonempty : 0 < len) := cons.allocated.inside handle.toNat hh
    (entryStart s.directory handle.toNat) ⟨Nat.le_refl _, by have := capacity nonempty; omega⟩
  have high := cons.allocated.high
  -- a file without an extent is not written to
  have written : (writeAtLoop (entryStart s.directory handle.toNat) len offset len buf
        s.drive).1 = true ∧
      ∃ writes, s.drive.Extends (writeAtLoop (entryStart s.directory handle.toNat) len offset len
        buf s.drive).2 writes ∧ DataOnly writes := by
    rcases Nat.eq_zero_or_pos len with empty | nonempty
    · rw [empty]
      exact ⟨rfl, [], Drive.Extends.refl _, by simp [DataOnly]⟩
    · have := extent nonempty
      exact writeAtLoop_ok _ len offset len buf s.drive cons.faultless (fun _ => this.1) (by omega)
        hoffset
  obtain ⟨ok, writes, drive, data⟩ := written
  have effect := Effect.data cons drive data
  simp only [writeData, ok, not_true_eq_false, if_false]
  split
  · exact ⟨_, effect.trans_safe (persist_keeps 0 effect.consistent rfl rfl rfl
      (keeps_of_same fun i => writeSize_sameExtent s.directory handle.toNat i needed))⟩
  · exact ⟨_, effect⟩

/-- An operation that is safe at every cut, whatever window it is not in. -/
theorem effect_of_safe {s t : Ufs} {bad : Nat → Prop}
    (effect : ∃ writes, Effect s t writes fun _ => False) (empty : ∀ j, ¬ bad j) :
    ∃ writes, Effect s t writes bad ∧ ∀ j, bad j → j ≤ writes.length := by
  obtain ⟨writes, effect⟩ := effect
  exact ⟨writes, effect.congr fun j => iff_of_false id (empty j), fun j b => absurd b (empty j)⟩

/-- A write that does not move its file. -/
theorem writeAt_stays {s : Ufs} (cons : Consistent s) (handle : Int) (offset len : BitVec 32)
    (buf : Buffer) (valid : handleValid s handle = true)
    (small : offset.toNat + len.toNat < 2 ^ 32)
    (stays : 0 < len.toNat → ¬ NeedsGrowth s handle.toNat (offset.toNat + len.toNat)) :
    ∃ writes, Effect s (ufsWriteAt handle offset.toNat buf len.toNat s).2 writes
      fun _ => False := by
  obtain ⟨hh, _⟩ := handleValid_spec valid
  rw [ufsWriteAt_eq handle offset.toNat buf len.toNat s valid small]
  by_cases nonempty : len.toNat > 0
  · obtain ⟨same, room⟩ := ensureCapacity_fits (stays nonempty)
    simp only [nonempty, if_true, same]
    split
    · exact ⟨[], Effect.refl cons⟩
    · next ok =>
      have := room (by simpa using ok)
      exact writeData_effect cons handle hh _ _ buf _ offset.isLt (fun _ => by omega)
  · simp only [nonempty, if_false, not_true_eq_false]
    exact writeData_effect cons handle hh _ _ buf _ offset.isLt (fun h => absurd h nonempty)

theorem writeAt_effect {s : Ufs} (cons : Consistent s) (handle : Int) (offset len : BitVec 32)
    (buf : Buffer) :
    ∃ writes, Effect s (ufsWriteAt handle offset.toNat buf len.toNat s).2 writes
        (GrowthWindow s (.writeAt handle offset buf len)) ∧
      ∀ j, GrowthWindow s (.writeAt handle offset buf len) j → j ≤ writes.length := by
  by_cases valid : handleValid s handle = true
  swap
  · rw [ufsWriteAt_refused _ offset.isLt len.isLt (Or.inl (by simpa using valid))]
    exact effect_of_safe ⟨[], Effect.refl cons⟩ fun j window => valid window.1
  by_cases small : offset.toNat + len.toNat < 2 ^ 32
  swap
  · rw [ufsWriteAt_refused _ offset.isLt len.isLt (Or.inr small)]
    exact effect_of_safe ⟨[], Effect.refl cons⟩ fun j window => small window.2.2.1
  by_cases grows : 0 < len.toNat ∧ NeedsGrowth s handle.toNat (offset.toNat + len.toNat)
  swap
  · exact effect_of_safe
      (writeAt_stays cons handle offset len buf valid small fun nonempty needs =>
        grows ⟨nonempty, needs⟩)
      fun j window => grows ⟨window.2.1, window.2.2.2.1⟩
  obtain ⟨nonempty, needs⟩ := grows
  obtain ⟨hh, used⟩ := handleValid_spec valid
  rw [ufsWriteAt_eq handle offset.toNat buf len.toNat s valid small]
  obtain ⟨ok, capacity, writes, length, grown⟩ := ensureCapacity_effect cons hh used needs
  obtain ⟨data, written⟩ := writeData_effect grown.consistent handle hh offset.toNat
    (offset.toNat + len.toNat) buf len.toNat offset.isLt (fun _ => capacity)
  have torn_le (j : Nat) (torn : TornGrowth s handle.toNat j) : j ≤ writes.length := by
    rw [length]
    have := torn.2
    omega
  simp only [gt_iff_lt, nonempty, if_true, ok, not_true_eq_false, if_false]
  refine ⟨_, (grown.trans written torn_le (fun _ bad => bad.elim)).congr fun j => ?_,
    fun j window => ?_⟩
  · rw [or_false]
    exact ⟨fun torn => ⟨valid, nonempty, small, needs, torn⟩, fun window => window.2.2.2.2⟩
  · rw [List.length_append]
    exact Nat.le_trans (torn_le j window.2.2.2.2) (Nat.le_add_right _ _)

/-- One operation of a run, with its cuts. -/
theorem perform_effect {s : Ufs} (cons : Consistent s) (o : UfsOp) :
    ∃ writes, Effect s (perform o s) writes (GrowthWindow s o) ∧
      ∀ j, GrowthWindow s o j → j ≤ writes.length := by
  cases o with
  | create name ownerUid =>
    exact effect_of_safe (create_effect cons name ownerUid.toNat) fun _ => id
  | delete name => exact effect_of_safe (delete_effect cons name) fun _ => id
  | chmod handle perm => exact effect_of_safe (chmod_effect cons handle perm) fun _ => id
  | truncate handle newSize =>
    exact effect_of_safe (truncate_effect cons handle newSize.toNat) fun _ => id
  | writeAt handle offset buf len => exact writeAt_effect cons handle offset len buf
  | readAt handle offset len =>
    exact effect_of_safe (readAt_effect cons handle offset.toNat len.toNat) fun _ => id

/-! ## Runs -/

def performAll (ops : List UfsOp) (s : Ufs) : Ufs := ops.foldl (fun s o => perform o s) s

/-- The number of sectors an operation writes. -/
def writeCount (s : Ufs) (o : UfsOp) : Nat :=
  (perform o s).drive.log.length - s.drive.log.length

/-- The power fails `j` sector writes into the run, inside a growth window of
the operation that is under way. -/
def CutInWindow : Ufs → List UfsOp → Nat → Prop
  | _, [], _ => False
  | s, o :: ops, j => GrowthWindow s o j ∨ CutInWindow (perform o s) ops (j - writeCount s o)

theorem growthWindow_pos {s : Ufs} {o : UfsOp} {j : Nat} (h : GrowthWindow s o j) : 0 < j := by
  cases o with
  | writeAt handle offset buf len => exact Nat.zero_lt_of_lt h.2.2.2.2.1
  | _ => exact h.elim

theorem cutInWindow_pos {s : Ufs} {ops : List UfsOp} {j : Nat} (h : CutInWindow s ops j) :
    0 < j := by
  induction ops generalizing s j with
  | nil => exact h.elim
  | cons o ops ih =>
    rcases h with window | later
    · exact growthWindow_pos window
    · have := ih later
      omega

theorem performAll_effect {s : Ufs} (cons : Consistent s) (ops : List UfsOp) :
    ∃ writes, Effect s (performAll ops s) writes (CutInWindow s ops) ∧
      ∀ j, CutInWindow s ops j → j ≤ writes.length := by
  induction ops generalizing s with
  | nil => exact ⟨[], Effect.refl cons, fun _ bad => bad.elim⟩
  | cons o ops ih =>
    obtain ⟨first, effect, early⟩ := perform_effect cons o
    obtain ⟨rest, effects, later⟩ := ih effect.consistent
    have count : writeCount s o = first.length := by
      rw [writeCount, effect.drive.log, List.length_append, Nat.add_sub_cancel_left]
    refine ⟨first ++ rest, (effect.trans effects early fun j bad => cutInWindow_pos bad).congr ?_,
      fun j bad => ?_⟩
    · intro j
      rw [CutInWindow, count]
    · rw [CutInWindow, count] at bad
      rw [List.length_append]
      rcases bad with window | inRest
      · exact Nat.le_trans (early j window) (Nat.le_add_right _ _)
      · have := later _ inRest
        omega

theorem freshVolume_consistent (disk : Nat → Sector) : Consistent (freshVolume disk) := by
  let blank : Ufs :=
    { directory := fun _ => 0
      ready := false
      cachedFileCount := 0
      nextFreeLba := ufsDataLba
      drive := { sectors := disk, log := [], commands := 0, faults := fun _ => none } }
  have faultless : NoFaults blank.drive := rfl
  obtain ⟨ok, _, _, _, _, emits⟩ := persist_ok faultless
  have format : (freshVolume disk).drive.sectors = (persist blank).2.drive.sectors := by
    have first : (persistDirectory blank).1 = true :=
      (ataWriteSectors_ok ufsDirLba ufsDirSectors blank.directory
        faultless (by decide) (by decide)).1
    simp only [persist, first, if_true]
    rfl
  have written (a : Nat) : (freshVolume disk).drive.sectors a =
      replay disk (persistWrites (fun _ => 0) 0 ufsDataLba) a := by
    rw [format, emits.sectors]
  refine ⟨rfl, ?_, formatted_allocated, ?_, ?_⟩
  · exact emits.noFaults faultless
  · intro p hp
    rw [written, persistWrites, Lib.WriteLog.replay_concat,
      Function.update_of_ne (by unfold ufsDirLba ufsSbLba; omega), replay_runWrites, if_pos]
    · rfl
    · unfold directoryBytes at hp
      omega
  · rw [SuperblockOn, written, persistWrites, Lib.WriteLog.replay_concat]
    exact Function.update_self ..

/-- The disk when the power fails after `j` sector writes of the run. -/
def survivingDisk (disk : Nat → Sector) (ops : List UfsOp) (j : Nat) : Nat → Sector :=
  let s := freshVolume disk
  replay s.drive.sectors ((performAll ops s).drive.log.take j)

/-- The cuts of a whole run. -/
theorem survivingDisk_cuts (disk : Nat → Sector) (ops : List UfsOp) :
    ∃ n, (∀ j ≤ n, Sound (remount (survivingDisk disk ops j)) ↔
        ¬ CutInWindow (freshVolume disk) ops j) ∧
      (∀ j, n ≤ j → survivingDisk disk ops j = survivingDisk disk ops n) ∧
      ∀ j, CutInWindow (freshVolume disk) ops j → j < n := by
  obtain ⟨writes, effect, early⟩ := performAll_effect (freshVolume_consistent disk) ops
  have log : (performAll ops (freshVolume disk)).drive.log = writes := effect.drive.log
  have sound := sound_remount_iff effect.consistent.superblock effect.consistent.directory
    effect.consistent.allocated.low effect.consistent.allocated.high
  unfold survivingDisk
  simp only [log]
  refine ⟨writes.length, effect.cuts, fun j beyond => ?_, fun j bad => ?_⟩
  · rw [List.take_of_length_le beyond, List.take_of_length_le (Nat.le_refl _)]
  · -- after the last write the volume is as the run left it
    refine Nat.lt_of_le_of_ne (early j bad) fun last => ?_
    have cut := effect.cuts j (early j bad)
    rw [List.take_of_length_le (Nat.le_of_eq last.symm), ← effect.drive.sectors, sound] at cut
    exact cut.mp effect.consistent.allocated.extentsOk bad

/-- Wherever the power fails, the volume mounts with disjoint extents below
`next_free_lba`, unless it fails inside the growth window of a write. -/
theorem power_loss_sound_iff (disk : Nat → Sector) (ops : List UfsOp) (j : Nat) :
    Sound (remount (survivingDisk disk ops j)) ↔ ¬ CutInWindow (freshVolume disk) ops j := by
  obtain ⟨n, cuts, after, within⟩ := survivingDisk_cuts disk ops
  rcases Nat.lt_or_ge n j with beyond | cut
  · have last : ¬ CutInWindow (freshVolume disk) ops n := fun bad => Nat.lt_irrefl n (within n bad)
    have settled : ¬ CutInWindow (freshVolume disk) ops j := fun bad => by
      have := within j bad
      omega
    rw [after j (Nat.le_of_lt beyond)]
    exact iff_of_true ((cuts n (Nat.le_refl n)).mpr last) settled
  · exact cuts j cut

def nameA : CString := ⟨[0x61], by simp⟩

/-- A file is created and its first byte written. -/
def firstByte : List UfsOp := [.create nameA 0, .writeAt 0 0 (fun _ => 0) 1]

/-- The power fails when the directory is on the disk and the superblock is not. -/
theorem power_loss_after_directory :
    ¬ ∀ disk ops j, Sound (remount (survivingDisk disk ops j)) := by
  intro claim
  have window : CutInWindow (freshVolume fun _ _ => 0) firstByte 11 := by
    refine Or.inr (Or.inl ⟨?_, ?_, ?_, ⟨?_, ?_⟩, ?_, ?_⟩)
    all_goals decide +kernel
  obtain ⟨n, cuts, _, within⟩ := survivingDisk_cuts (fun _ _ => 0) firstByte
  exact (cuts 11 (Nat.le_of_lt (within 11 window))).mp (claim _ _ _) window

end MiniKernel.Storage

