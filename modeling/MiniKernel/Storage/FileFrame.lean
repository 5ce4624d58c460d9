import MiniKernel.Storage.Extents

/-!
# What an operation on one file leaves of the others

Source: kernel/core/ufs.c:205-459. Every operation works on one directory slot.
Whatever the drive does, the entries of the other slots and the sectors they own
stay as they are, and the allocator's invariant is kept.
-/
namespace MiniKernel.Storage
open Drivers
open Lib (Buffer readU32 writeU32)

/-- Byte `p` of the file in slot `i`. -/
def fileByte (s : Ufs) (i p : Nat) : UInt8 :=
  s.drive.sectors (entryStart s.directory i + p / 512) ⟨p % 512, mod_512_lt p⟩

/-- A mounted volume between operations; its drive may fail at any command. -/
structure Laid (s : Ufs) : Prop where
  ready : s.ready = true
  allocated : Allocated s.directory s.nextFreeLba
  sized : ∀ i < ufsMaxEntries, entrySize s.directory i ≤ 512 * entryCapacity s.directory i

/-- Nothing outside slot `h` and its sectors changes. -/
structure Beside (h : Nat) (s t : Ufs) : Prop where
  entries : ∀ p, p < entryAt h ∨ entryAt h + 40 ≤ p → t.directory p = s.directory p
  sectors : ∀ i < ufsMaxEntries, i ≠ h → ∀ lba, InExtent s.directory i lba →
    t.drive.sectors lba = s.drive.sectors lba

/-- The file in slot `i` is as it was. -/
structure SameFile (i : Nat) (s t : Ufs) : Prop where
  used : entryUsed t.directory i = entryUsed s.directory i
  size : entrySize t.directory i = entrySize s.directory i
  bytes : ∀ p < entrySize s.directory i, fileByte t i p = fileByte s i p

theorem Beside.refl (h : Nat) (s : Ufs) : Beside h s s := ⟨fun _ _ => rfl, fun _ _ _ _ _ => rfl⟩

/-- Entries beside `h` are outside the bytes of entry `h`. -/
theorem entry_outside {i h p : Nat} (other : i ≠ h) (low : entryAt i ≤ p) (high : p < entryAt i + 40) :
    p < entryAt h ∨ entryAt h + 40 ≤ p := by
  rcases Nat.lt_or_gt_of_ne other with before | after
  · have := entryAt_le_of_lt before
    omega
  · have := entryAt_le_of_lt after
    omega

theorem Beside.sameExtent {h i : Nat} {s t : Ufs} (beside : Beside h s t) (other : i ≠ h) :
    SameExtent s.directory t.directory i :=
  sameExtent_other other beside.entries

theorem Beside.used {h i : Nat} {s t : Ufs} (beside : Beside h s t) (other : i ≠ h) :
    entryUsed t.directory i = entryUsed s.directory i := by
  unfold entryUsed
  rw [beside.entries _ (entry_outside other (Nat.le_refl _) (by omega))]

theorem Beside.size {h i : Nat} {s t : Ufs} (beside : Beside h s t) (other : i ≠ h) :
    entrySize t.directory i = entrySize s.directory i := by
  apply Lib.readU32_congr
  intro j hj
  exact beside.entries _ (entry_outside other (by omega) (by omega))

theorem Beside.trans {h : Nat} {s t u : Ufs} (first : Beside h s t) (second : Beside h t u) :
    Beside h s u := by
  refine ⟨fun p outside => (second.entries p outside).trans (first.entries p outside), ?_⟩
  intro i hi other lba inside
  have still : InExtent t.directory i lba := (inExtent_congr (first.sameExtent other)).mpr inside
  exact (second.sectors i hi other lba still).trans (first.sectors i hi other lba inside)

/-- A file's bytes lie in its extent. -/
theorem Laid.inExtent {s : Ufs} (laid : Laid s) {i p : Nat} (hi : i < ufsMaxEntries)
    (hp : p < entrySize s.directory i) :
    InExtent s.directory i (entryStart s.directory i + p / 512) := by
  have := laid.sized i hi
  unfold InExtent
  omega

theorem Beside.sameFile {h i : Nat} {s t : Ufs} (beside : Beside h s t) (laid : Laid s)
    (hi : i < ufsMaxEntries) (other : i ≠ h) : SameFile i s t := by
  refine ⟨beside.used other, beside.size other, fun p hp => ?_⟩
  unfold fileByte
  rw [(beside.sameExtent other).1, beside.sectors i hi other _ (laid.inExtent hi hp)]

/-- A volume whose entries beside `h` are as before is laid out if entry `h` is. -/
theorem Laid.of_beside {h : Nat} {s t : Ufs} (laid : Laid s) (ready : t.ready = s.ready)
    (allocated : Allocated t.directory t.nextFreeLba)
    (entries : ∀ p, p < entryAt h ∨ entryAt h + 40 ≤ p → t.directory p = s.directory p)
    (own : h < ufsMaxEntries → entrySize t.directory h ≤ 512 * entryCapacity t.directory h) :
    Laid t := by
  refine ⟨ready.trans laid.ready, allocated, fun i hi => ?_⟩
  by_cases same : i = h
  · subst same
    exact own hi
  · have size : entrySize t.directory i = entrySize s.directory i := by
      apply Lib.readU32_congr
      intro j hj
      exact entries _ (entry_outside same (by omega) (by omega))
    rw [size, (sameExtent_other same entries).2]
    exact laid.sized i hi

/-! ## `persist` -/

/-- The sectors of the superblock and the directory. -/
def Metadata (a : Nat) : Prop := ufsSbLba ≤ a ∧ a < ufsDataLba

theorem persistDirectory_touches (s : Ufs) :
    s.drive.Touches (persistDirectory s).2.drive (fun _ => False) Metadata := by
  have addr : lba28 ufsDirLba = ufsDirLba := by decide
  refine (ataWriteSectors_touches ufsDirLba ufsDirSectors s.directory s.drive).mono
    (fun _ => id) fun a inside => ?_
  rw [addr] at inside
  unfold Metadata ufsSbLba ufsDataLba
  unfold ufsDirLba ufsDirSectors at inside
  omega

theorem persistSuperblock_touches (s : Ufs) :
    s.drive.Touches (persistSuperblock s).2.drive (fun _ => False) Metadata := by
  have addr : lba28 ufsSbLba = ufsSbLba := by decide
  refine (ataWriteSectors_touches ufsSbLba 1 _ s.drive).mono (fun _ => id) fun a inside => ?_
  rw [addr] at inside
  unfold Metadata ufsDataLba
  unfold ufsSbLba at inside ⊢
  omega

/-- `persist` writes the metadata, and changes nothing in memory. -/
theorem persist_frame (s : Ufs) :
    (persist s).2.directory = s.directory ∧ (persist s).2.nextFreeLba = s.nextFreeLba ∧
      (persist s).2.ready = s.ready ∧
      s.drive.Touches (persist s).2.drive (fun _ => False) Metadata := by
  unfold persist
  simp only
  split
  · exact ⟨rfl, rfl, rfl, (persistDirectory_touches s).trans (persistSuperblock_touches _)⟩
  · exact ⟨rfl, rfl, rfl, persistDirectory_touches s⟩

/-- Without faults both parts of `persist` succeed. -/
theorem persist_succeeds {s : Ufs} (faultless : NoFaults s.drive) : (persist s).1 = true := by
  obtain ⟨dirOk, dirDrive⟩ := ataWriteSectors_ok ufsDirLba ufsDirSectors s.directory
    faultless (by decide) (by decide)
  have first : (persistDirectory s).1 = true := dirOk
  simp only [persist, first, if_true]
  exact (ataWriteSectors_ok ufsSbLba _ _ (dirDrive.noFaults faultless) (by decide)
    (by decide)).1

/-- A change of entry `h` that is persisted. -/
theorem persist_beside {h : Nat} {s t : Ufs} (laid : Laid s) (ready : t.ready = s.ready)
    (drive : t.drive = s.drive) (allocated : Allocated t.directory t.nextFreeLba)
    (entries : ∀ p, p < entryAt h ∨ entryAt h + 40 ≤ p → t.directory p = s.directory p)
    (own : h < ufsMaxEntries → entrySize t.directory h ≤ 512 * entryCapacity t.directory h) :
    Laid (persist t).2 ∧ Beside h s (persist t).2 := by
  obtain ⟨dir, next, ready', touches⟩ := persist_frame t
  constructor
  · refine laid.of_beside (ready'.trans ready) ?_ (dir ▸ entries) (dir ▸ own)
    rw [dir, next]
    exact allocated
  · refine ⟨dir ▸ entries, fun i hi _ lba inside => ?_⟩
    have area := laid.allocated.inside i hi lba inside
    rw [touches.other fun metadata => by unfold Metadata at metadata; omega, drive]

/-! ## The loops -/

theorem moveLoop_touches (oldStart newStart oldSectors fuel done : Nat) (d : Drive)
    (oldHigh : oldStart + oldSectors ≤ 2 ^ 28) (newHigh : newStart + oldSectors ≤ 2 ^ 28) :
    d.Touches (moveLoop oldStart newStart oldSectors fuel done d).2
      (fun a => oldStart ≤ a ∧ a < oldStart + oldSectors)
      fun a => newStart + done ≤ a ∧ a < newStart + oldSectors := by
  induction fuel generalizing done d with
  | zero => exact Drive.Touches.refl d _ _
  | succ fuel ih =>
    rw [moveLoop]
    by_cases more : done < oldSectors
    swap
    · rw [if_neg more]
      exact Drive.Touches.refl d _ _
    rw [if_pos more]
    have oldAddr : lba28 (wrap32 (oldStart + done)) = oldStart + done := lba28_wrap32 _ (by omega)
    have newAddr : lba28 (wrap32 (newStart + done)) = newStart + done := lba28_wrap32 _ (by omega)
    have read := (ataReadSectors_touches (wrap32 (oldStart + done)) (min (oldSectors - done) 8) d).mono
      (r := fun a => oldStart ≤ a ∧ a < oldStart + oldSectors)
      (w := fun a => newStart + done ≤ a ∧ a < newStart + oldSectors)
      (fun a inside => by rw [oldAddr] at inside; omega) fun _ bad => bad.elim
    have written (buf : Buffer) (e : Drive) :=
      (ataWriteSectors_touches (wrap32 (newStart + done)) (min (oldSectors - done) 8) buf e).mono
        (r := fun a => oldStart ≤ a ∧ a < oldStart + oldSectors)
        (w := fun a => newStart + done ≤ a ∧ a < newStart + oldSectors)
        (fun _ bad => bad.elim) fun a inside => by rw [newAddr] at inside; omega
    have rest (e : Drive) := (ih (done + min (oldSectors - done) 8) e).mono
      (w := fun a => newStart + done ≤ a ∧ a < newStart + oldSectors)
      (fun _ => id) fun a inside => by omega
    simp only
    split
    · exact read
    split
    · exact read.trans (written _ _)
    · exact (read.trans (written _ _)).trans (rest _)

/-- Without faults the copy succeeds. -/
theorem moveLoop_succeeds (oldStart newStart oldSectors fuel done : Nat) (d : Drive)
    (faultless : NoFaults d) : (moveLoop oldStart newStart oldSectors fuel done d).1 = true := by
  induction fuel generalizing done d with
  | zero => rfl
  | succ fuel ih =>
    rw [moveLoop]
    by_cases more : done < oldSectors
    swap
    · rw [if_neg more]
    rw [if_pos more]
    obtain ⟨readOk, _, readDrive⟩ := ataReadSectors_ok (wrap32 (oldStart + done))
      (min (oldSectors - done) 8) faultless (by omega) (by omega)
    have writeSpec (buf : Buffer) := ataWriteSectors_ok (wrap32 (newStart + done))
      (min (oldSectors - done) 8) buf (readDrive.noFaults faultless)
      (by omega) (by omega)
    simp only [readOk, (writeSpec _).1, not_true_eq_false, if_false]
    exact ih _ _ ((writeSpec _).2.noFaults (readDrive.noFaults faultless))

theorem writeAtLoop_touches (startLba capacity fuel cur remaining : Nat) (src : Buffer) (d : Drive)
    (high : startLba + capacity ≤ ufsDataEndLba) (fits : cur + remaining ≤ 512 * capacity) :
    d.Touches (writeAtLoop startLba fuel cur remaining src d).2
      (fun a => startLba ≤ a ∧ a < startLba + capacity)
      fun a => startLba ≤ a ∧ a < startLba + capacity := by
  induction fuel generalizing cur remaining src d with
  | zero => exact Drive.Touches.refl d _ _
  | succ fuel ih =>
    rw [writeAtLoop]
    by_cases finished : remaining = 0
    · rw [if_pos finished]
      exact Drive.Touches.refl d _ _
    rw [if_neg finished]
    have addr : lba28 (wrap32 (startLba + cur / sectorSize)) = startLba + cur / sectorSize := by
      apply lba28_wrap32
      unfold sectorSize ufsDataEndLba at *
      omega
    have next : wrap32 (cur + min (sectorSize - cur % sectorSize) remaining) =
        cur + min (sectorSize - cur % sectorSize) remaining := by
      apply Nat.mod_eq_of_lt
      unfold ufsDataEndLba at high
      omega
    have own (a : Nat) (inside : lba28 (wrap32 (startLba + cur / sectorSize)) ≤ a ∧
        a < lba28 (wrap32 (startLba + cur / sectorSize)) + 1) :
        startLba ≤ a ∧ a < startLba + capacity := by
      rw [addr] at inside
      unfold sectorSize at inside
      omega
    have read := (ataReadSectors_touches (wrap32 (startLba + cur / sectorSize)) 1 d).mono
      (w := fun a => startLba ≤ a ∧ a < startLba + capacity) own fun _ bad => bad.elim
    have written (buf : Buffer) (e : Drive) :=
      (ataWriteSectors_touches (wrap32 (startLba + cur / sectorSize)) 1 buf e).mono
        (r := fun a => startLba ≤ a ∧ a < startLba + capacity) (fun _ bad => bad.elim) own
    simp only
    split
    · exact read
    split
    · exact read.trans (written _ _)
    · exact (read.trans (written _ _)).trans (ih _ _ _ _ (by rw [next]; omega))

theorem bufferOf_single (sector : Sector) (p : Nat) (hp : p < 512) :
    bufferOf [sector] p = sector ⟨p % 512, Nat.mod_lt p (by decide)⟩ := by
  have first : p / 512 = 0 := by omega
  simp only [bufferOf, first, List.getElem?_cons_zero]

/-- What `ufs_read_at` stores is what the sectors hold, up to where a read fails. -/
theorem readAtLoop_spec (startLba capacity fuel cur remaining : Nat) (d : Drive)
    (high : startLba + capacity ≤ ufsDataEndLba) (fits : cur + remaining ≤ 512 * capacity) :
    d.Touches (readAtLoop startLba fuel cur remaining d).2.2
        (fun a => startLba ≤ a ∧ a < startLba + capacity) (fun _ => False) ∧
      (readAtLoop startLba fuel cur remaining d).2.1.length ≤ remaining ∧
      ∀ k, (readAtLoop startLba fuel cur remaining d).2.1[k]? = none ∨
        (readAtLoop startLba fuel cur remaining d).2.1[k]? =
          some (d.sectors (startLba + (cur + k) / 512)
            ⟨(cur + k) % 512, Nat.mod_lt _ (by decide)⟩) := by
  induction fuel generalizing cur remaining d with
  | zero => exact ⟨Drive.Touches.refl d _ _, Nat.zero_le _, fun k => Or.inl rfl⟩
  | succ fuel ih =>
    rw [readAtLoop]
    by_cases finished : remaining = 0
    · rw [if_pos finished]
      exact ⟨Drive.Touches.refl d _ _, Nat.zero_le _, fun k => Or.inl rfl⟩
    rw [if_neg finished]
    have addr : lba28 (wrap32 (startLba + cur / sectorSize)) = startLba + cur / sectorSize := by
      apply lba28_wrap32
      unfold sectorSize ufsDataEndLba at *
      omega
    let chunk := min (sectorSize - cur % sectorSize) remaining
    have next : wrap32 (cur + chunk) = cur + chunk := by
      apply Nat.mod_eq_of_lt
      unfold ufsDataEndLba at high
      omega
    have read := (ataReadSectors_touches (wrap32 (startLba + cur / sectorSize)) 1 d).mono
      (r := fun a => startLba ≤ a ∧ a < startLba + capacity)
      (fun a inside => by
        rw [addr] at inside
        unfold sectorSize at inside
        omega) fun _ => id
    obtain ⟨drive, length, rest⟩ := ih (cur + chunk) (remaining - chunk)
      (ataReadSectors (wrap32 (startLba + cur / sectorSize)) 1 d).2.2 (by omega)
    simp only [chunk] at *
    simp only [next]
    split
    · exact ⟨read, Nat.zero_le _, fun k => Or.inl rfl⟩
    · next ok =>
      have data := ataReadSectors_data (Bool.of_not_eq_false (by simpa using ok))
      refine ⟨read.trans drive, ?_, fun k => ?_⟩
      · simp only [List.length_append, List.length_map, List.length_range]
        omega
      · rw [data, addr]
        by_cases early : k < min (sectorSize - cur % sectorSize) remaining
        · right
          have inSector : cur % 512 + k < 512 := by
            unfold sectorSize at early
            omega
          have quotient : (cur + k) / 512 = cur / 512 := by omega
          have remainder : (cur + k) % 512 = (cur % 512 + k) % 512 := by omega
          rw [List.getElem?_append_left (by simpa using early), List.getElem?_map,
            List.getElem?_range early]
          simp only [Option.map_some, List.range_one, List.map_cons, List.map_nil, Nat.add_zero,
            sectorSize, bufferOf_single _ _ inSector, quotient, remainder]
        · have shift : cur + min (sectorSize - cur % sectorSize) remaining +
              (k - min (sectorSize - cur % sectorSize) remaining) = cur + k := by omega
          rw [List.getElem?_append_right (by simpa using Nat.not_lt.mp early)]
          have later := rest (k - min (sectorSize - cur % sectorSize) remaining)
          rw [shift, read.other id] at later
          simpa using later

/-! ## The operations -/

/-- The sectors of slot `h`, before or after an operation; if the drive may fail,
also those a growing file was to get. -/
def OwnSector (h : Nat) (s t : Ufs) (a : Nat) : Prop :=
  InExtent s.directory h a ∨ InExtent t.directory h a ∨
    (¬ NoFaults s.drive ∧ s.nextFreeLba ≤ a)

/-- An operation on slot `h` that gives up none of its sectors. -/
structure Works (h : Nat) (s t : Ufs) : Prop where
  laid : Laid t
  beside : Beside h s t
  capacity : entryCapacity s.directory h ≤ entryCapacity t.directory h
  nextFree : s.nextFreeLba ≤ t.nextFreeLba
  touches : s.drive.Touches t.drive (OwnSector h s t) fun a => OwnSector h s t a ∨ Metadata a

theorem Works.refl {s : Ufs} (laid : Laid s) (h : Nat) : Works h s s :=
  ⟨laid, Beside.refl h s, Nat.le_refl _, Nat.le_refl _, Drive.Touches.refl _ _ _⟩

/-- A second operation that leaves the extent alone. -/
theorem Works.trans {h : Nat} {s t u : Ufs} (first : Works h s t) (second : Works h t u)
    (same : SameExtent t.directory u.directory h) : Works h s u := by
  have faults : t.drive.faults = s.drive.faults := by
    obtain ⟨_, extends_, _⟩ := first.touches.writes
    exact extends_.faults
  have before (a : Nat) (own : OwnSector h s t a) : OwnSector h s u a := by
    rcases own with old | new | free
    · exact Or.inl old
    · exact Or.inr (Or.inl ((inExtent_congr same).mpr new))
    · exact Or.inr (Or.inr free)
  have after (a : Nat) (own : OwnSector h t u a) : OwnSector h s u a := by
    rcases own with old | new | free
    · exact Or.inr (Or.inl ((inExtent_congr same).mpr old))
    · exact Or.inr (Or.inl new)
    · exact Or.inr (Or.inr ⟨fun none => free.1 (faults.trans none), Nat.le_trans first.nextFree free.2⟩)
  exact ⟨second.laid, first.beside.trans second.beside,
    Nat.le_trans first.capacity second.capacity, Nat.le_trans first.nextFree second.nextFree,
    (first.touches.mono before fun a => Or.imp_left (before a)).trans
      (second.touches.mono after fun a => Or.imp_left (after a))⟩

theorem Laid.extent {s : Ufs} (laid : Laid s) {i : Nat} (hi : i < ufsMaxEntries)
    (some : 0 < entryCapacity s.directory i) :
    ufsDataLba ≤ entryStart s.directory i ∧
      entryStart s.directory i + entryCapacity s.directory i ≤ s.nextFreeLba := by
  have first := laid.allocated.inside i hi (entryStart s.directory i) ⟨Nat.le_refl _, by omega⟩
  have last := laid.allocated.inside i hi
    (entryStart s.directory i + entryCapacity s.directory i - 1) ⟨by omega, by omega⟩
  omega

/-- Only the drive changes, in sectors of slot `h` or in free ones. -/
theorem drive_works {h : Nat} {s : Ufs} {d : Drive} (laid : Laid s) (hh : h < ufsMaxEntries)
    (touches : s.drive.Touches d (OwnSector h s s) fun a => OwnSector h s s a) :
    Works h s { s with drive := d } := by
  refine ⟨⟨laid.ready, laid.allocated, laid.sized⟩, ⟨fun _ _ => rfl, ?_⟩, Nat.le_refl _,
    Nat.le_refl _, touches.mono (fun _ => id) fun _ => Or.inl⟩
  intro i hi ne lba inside
  have area := laid.allocated.inside i hi lba inside
  have apart := laid.allocated.apart i hi h hh ne lba inside
  apply touches.other
  rintro (own | own | free)
  · exact apart own
  · exact apart own
  · omega

/-- A changed entry is persisted: the drive sees metadata only. -/
theorem persist_works {h : Nat} {s t : Ufs} (laid : Laid s) (ready : t.ready = s.ready)
    (drive : t.drive = s.drive) (next : t.nextFreeLba = s.nextFreeLba)
    (same : ∀ i, SameExtent s.directory t.directory i)
    (entries : ∀ p, p < entryAt h ∨ entryAt h + 40 ≤ p → t.directory p = s.directory p)
    (own : h < ufsMaxEntries → entrySize t.directory h ≤ 512 * entryCapacity s.directory h) :
    Works h s (persist t).2 := by
  obtain ⟨dir, next', _, touches⟩ := persist_frame t
  have allocated : Allocated t.directory t.nextFreeLba := by
    rw [next]
    exact (keeps_of_same same).allocated laid.allocated
  obtain ⟨laid', beside⟩ := persist_beside laid ready drive allocated entries fun hh => by
    rw [(same h).2]
    exact own hh
  refine ⟨laid', beside, ?_, ?_, ?_⟩
  · rw [dir]
    exact Nat.le_of_eq (same h).2.symm
  · rw [next', next]
  · rw [drive] at touches
    exact touches.mono (fun _ bad => bad.elim) fun _ => Or.inr

/-- A byte of entry `h` outside its start, size and capacity is set. -/
theorem update_works {h p : Nat} {v : UInt8} {s : Ufs} (count : Nat) (laid : Laid s)
    (inside : entryAt h ≤ p ∧ p < entryAt h + 40)
    (offField : p < entryAt h + 20 ∨ entryAt h + 32 ≤ p) :
    Works h s (persist { s with
      directory := Function.update s.directory p v, cachedFileCount := count }).2 := by
  have size : entrySize (Function.update s.directory p v) h = entrySize s.directory h := by
    apply Lib.readU32_congr
    intro j hj
    apply Function.update_of_ne
    omega
  refine persist_works laid rfl rfl rfl
    (fun i => update_sameExtent s.directory h i p v inside offField)
    (fun q outside => Function.update_of_ne (by omega) _ _) fun hh => ?_
  dsimp only
  rw [size]
  exact laid.sized h hh

/-- The size of a file becomes one that its sectors hold. -/
theorem resize_works {h size : Nat} {s : Ufs} (laid : Laid s)
    (fits : size ≤ 512 * entryCapacity s.directory h) (small : size < 2 ^ 32) :
    let r := persist { s with directory := writeU32 s.directory (entryAt h + 24) size }
    Works h s r.2 ∧ SameExtent s.directory r.2.directory h := by
  intro r
  have same (i : Nat) := writeSize_sameExtent s.directory h i size
  constructor
  · refine persist_works laid rfl rfl rfl same
      (fun q outside => Lib.writeU32_outside _ _ _ _ (by omega)) fun _ => ?_
    dsimp only
    rw [entrySize, Lib.readU32_writeU32 _ _ _ small]
    exact fits
  · rw [(persist_frame _).1]
    exact same h

theorem ufsFind_spec {s : Ufs} {name : CString} {slot : Nat} (found : ufsFind s name = some slot) :
    slot < ufsMaxEntries ∧ entryUsed s.directory slot = true := by
  unfold ufsFind at found
  split at found
  · have used := List.find?_some found
    rw [Bool.and_eq_true] at used
    exact ⟨List.mem_range.mp (List.mem_of_find?_eq_some found), used.1⟩
  · cases found

theorem ufsDelete_works {s : Ufs} (laid : Laid s) (name : CString) :
    (ufsDelete name s).2 = s ∨
      ∃ slot, ufsFind s name = some slot ∧ Works slot s (ufsDelete name s).2 := by
  unfold ufsDelete
  split
  · exact Or.inl rfl
  split
  · exact Or.inl rfl
  · next slot found =>
    exact Or.inr ⟨slot, found, update_works _ laid (by omega) (by omega)⟩

theorem ufsChmod_works {s : Ufs} (laid : Laid s) (handle : Int) (perm : UInt8) :
    Works handle.toNat s (ufsChmod handle perm s).2 := by
  unfold ufsChmod
  split
  · exact Works.refl laid _
  · exact update_works s.cachedFileCount laid (by omega) (by omega)

theorem ufsTruncate_works {s : Ufs} (laid : Laid s) (handle : Int) (newSize : Nat) :
    Works handle.toNat s (ufsTruncate handle newSize s).2 := by
  unfold ufsTruncate
  split
  · exact Works.refl laid _
  split
  · exact Works.refl laid _
  · next fits =>
    unfold wrap32 sectorSize at fits
    exact (resize_works laid (by omega) (by omega)).1

/-- `ufs_create` fills the first free slot, or changes nothing. -/
theorem ufsCreate_spec {s : Ufs} (laid : Laid s) (name : CString) (ownerUid : Nat) :
    ufsCreate name ownerUid s = (none, s) ∨
      (0 < name.bytes.length ∧ name.bytes.length < ufsNameMax ∧ ufsFind s name = none ∧
        ∃ slot < ufsMaxEntries, firstFree s.directory = some slot ∧
          Laid (ufsCreate name ownerUid s).2 ∧ Beside slot s (ufsCreate name ownerUid s).2 ∧
          ((ufsCreate name ownerUid s).1 = none ∨
            (ufsCreate name ownerUid s).1 = some slot)) := by
  unfold ufsCreate
  split
  · exact Or.inl rfl
  split
  · exact Or.inl rfl
  split
  · exact Or.inl rfl
  split
  · exact Or.inl rfl
  · next length missing _ slot free =>
    have hslot : slot < ufsMaxEntries :=
      List.mem_range.mp (List.mem_of_find?_eq_some free)
    have outside := createdEntry_outside s.directory slot name ownerUid
    have keeps := createdEntry_keeps s.directory slot name ownerUid
    obtain ⟨laid', beside⟩ := persist_beside (h := slot)
      (t := { s with
        directory := createdEntry s.directory slot name ownerUid
        cachedFileCount := wrap32 (s.cachedFileCount + 1) })
      laid rfl rfl (keeps.allocated laid.allocated) outside
      (fun _ => by
        dsimp only
        rw [createdEntry_size]
        exact Nat.zero_le _)
    refine Or.inr ⟨by omega, by omega, by simpa using missing, slot, hslot, free, laid', beside, ?_⟩
    simp only
    split
    · exact Or.inr rfl
    · exact Or.inl rfl

/-- A file's old sectors, as `ensure_capacity` counts them, are within its capacity. -/
theorem Laid.oldSectors_le {s : Ufs} (laid : Laid s) {h : Nat} (hh : h < ufsMaxEntries) :
    sectorsForBytes (entrySize s.directory h) ≤ entryCapacity s.directory h := by
  have sized := laid.sized h hh
  unfold sectorsForBytes wrap32 sectorSize
  omega

/-- The copy of a growing file reads its extent and goes to free sectors. -/
theorem movedDrive_touches {s : Ufs} {handle : Nat} (laid : Laid s) (hh : handle < ufsMaxEntries) :
    s.drive.Touches (movedDrive s handle).2 (InExtent s.directory handle)
      fun a => s.nextFreeLba ≤ a ∧ a < s.nextFreeLba + entryCapacity s.directory handle := by
  by_cases nonempty : entrySize s.directory handle > 0
  · rw [movedDrive, if_pos nonempty]
    have sized := laid.sized handle hh
    have small := laid.allocated.capacity_le hh
    have high := laid.allocated.high
    have extent := laid.extent hh (by omega)
    have sectors := laid.oldSectors_le hh
    unfold ufsDataEndLba at high
    refine (moveLoop_touches (entryStart s.directory handle) s.nextFreeLba
      (sectorsForBytes (entrySize s.directory handle))
      (sectorsForBytes (entrySize s.directory handle)) 0 s.drive (by omega) (by omega)).mono
      (fun a inside => ?_) fun a inside => ?_
    · unfold InExtent
      omega
    · omega
  · rw [movedDrive, if_neg nonempty]
    exact Drive.Touches.refl _ _ _

theorem movedDrive_succeeds {s : Ufs} (faultless : NoFaults s.drive) (handle : Nat) :
    (movedDrive s handle).1 = true := by
  by_cases nonempty : entrySize s.directory handle > 0
  · rw [movedDrive, if_pos nonempty]
    exact moveLoop_succeeds _ _ _ _ _ _ faultless
  · rw [movedDrive, if_neg nonempty]

/-- A growing file keeps its size and has at least its old capacity; `t` is the
volume with the copy made and the entry changed. -/
theorem moved_works {s t : Ufs} {handle needed : Nat} (laid : Laid s) (hh : handle < ufsMaxEntries)
    (needs : NeedsGrowth s handle needed) (small : needed + 511 < 2 ^ 32)
    (dir : t.directory = movedEntry s.directory handle s.nextFreeLba
      (newCapacitySectors (entryCapacity s.directory handle) (sectorsForBytes needed)))
    (next : t.nextFreeLba = wrap32 (s.nextFreeLba +
      newCapacitySectors (entryCapacity s.directory handle) (sectorsForBytes needed)))
    (copied : s.drive.Touches t.drive (InExtent s.directory handle)
      fun a => s.nextFreeLba ≤ a ∧ a < s.nextFreeLba + entryCapacity s.directory handle)
    (ready : t.ready = s.ready) :
    Works handle s (persist t).2 ∧
      needed ≤ 512 * entryCapacity (persist t).2.directory handle := by
  obtain ⟨_, bound, noWrap, room⟩ := growth_bounds laid.allocated hh needs
  obtain ⟨enough, _, larger, _⟩ :=
    newCapacitySectors_spec (entryCapacity s.directory handle) needed
  generalize newCapacitySectors (entryCapacity s.directory handle) (sectorsForBytes needed) =
    capacity at *
  have start : s.nextFreeLba < 2 ^ 32 := Nat.lt_of_le_of_lt laid.allocated.high (by decide)
  have extent := movedEntry_extent s.directory handle s.nextFreeLba capacity start bound
  rw [← dir] at extent
  have size : entrySize t.directory handle = entrySize s.directory handle := by
    apply Lib.readU32_congr
    intro j hj
    rw [dir]
    exact movedEntry_outside _ _ _ _ _ (by omega)
  have sized := laid.sized handle hh
  obtain ⟨laid', beside⟩ := persist_beside (h := handle) (s := { s with drive := t.drive })
    ⟨laid.ready, laid.allocated, laid.sized⟩ ready rfl
    (by
      rw [dir, next, noWrap]
      exact moved_allocated laid.allocated bound room)
    (fun p outside => by
      rw [dir]
      exact movedEntry_outside _ _ _ _ _ (by omega))
    (fun _ => by
      rw [size, extent.2]
      omega)
  obtain ⟨kept, next', _, persisted⟩ := persist_frame t
  refine ⟨⟨laid', ⟨beside.entries, fun i hi ne lba inside => ?_⟩, ?_, ?_, ?_⟩, ?_⟩
  · have area := laid.allocated.inside i hi lba inside
    rw [beside.sectors i hi ne lba inside]
    exact copied.other (by omega)
  · rw [kept, extent.2]
    exact larger
  · rw [next', next, noWrap]
    exact Nat.le_add_right _ _
  · refine (copied.mono (fun a => Or.inl) fun a inside => ?_).trans
      (persisted.mono (fun _ bad => bad.elim) fun _ => Or.inr)
    refine Or.inl (Or.inr (Or.inl ?_))
    rw [InExtent, kept, extent.1, extent.2]
    omega
  · have sectors : needed ≤ 512 * sectorsForBytes needed := by
      unfold sectorsForBytes wrap32 sectorSize
      omega
    rw [kept, extent.2]
    omega

/-- The same for the entry `ensure_capacity` writes after a copy that left `d`. -/
theorem moved_to {s : Ufs} {handle needed : Nat} (d : Drive) (laid : Laid s)
    (hh : handle < ufsMaxEntries) (needs : NeedsGrowth s handle needed)
    (small : needed + 511 < 2 ^ 32)
    (copied : s.drive.Touches d (InExtent s.directory handle)
      fun a => s.nextFreeLba ≤ a ∧ a < s.nextFreeLba + entryCapacity s.directory handle)
    {r : Bool × Ufs}
    (persisted : r = persist
      { s with
        directory := movedEntry s.directory handle s.nextFreeLba
          (newCapacitySectors (entryCapacity s.directory handle) (sectorsForBytes needed))
        nextFreeLba := wrap32 (s.nextFreeLba +
          newCapacitySectors (entryCapacity s.directory handle) (sectorsForBytes needed))
        drive := d }) :
    Works handle s r.2 ∧ needed ≤ 512 * entryCapacity r.2.directory handle := by
  rw [persisted]
  exact moved_works laid hh needs small rfl rfl copied rfl

/-- A failed copy leaves everything but free sectors as it was. -/
theorem failed_copy_works {s : Ufs} {handle : Nat} (d : Drive) (laid : Laid s)
    (hh : handle < ufsMaxEntries) (faulty : ¬ NoFaults s.drive)
    (copied : s.drive.Touches d (InExtent s.directory handle)
      fun a => s.nextFreeLba ≤ a ∧ a < s.nextFreeLba + entryCapacity s.directory handle) :
    Works handle s { s with drive := d } :=
  drive_works laid hh (copied.mono (fun _ => Or.inl)
    fun _ inside => Or.inr (Or.inr ⟨faulty, inside.1⟩))

theorem ensureCapacity_works {s : Ufs} {handle needed : Nat} (laid : Laid s)
    (hh : handle < ufsMaxEntries) (small : NeedsGrowth s handle needed → needed + 511 < 2 ^ 32) :
    Works handle s (ensureCapacity handle needed s).2 ∧
      ((ensureCapacity handle needed s).1 = true →
        needed ≤ 512 * entryCapacity (ensureCapacity handle needed s).2.directory handle) := by
  by_cases needs : NeedsGrowth s handle needed
  · have moves := ensureCapacity_moves needs
    have copied := movedDrive_touches laid hh
    by_cases ok : (movedDrive s handle).1 = true
    · rw [if_neg (not_not_intro ok)] at moves
      obtain ⟨works, enough⟩ := moved_to _ laid hh needs (small needs) copied moves
      exact ⟨works, fun _ => enough⟩
    · have faulty : ¬ NoFaults s.drive := fun none => ok (movedDrive_succeeds none handle)
      rw [if_pos ok] at moves
      rw [moves]
      exact ⟨failed_copy_works _ laid hh faulty copied, fun bad => absurd bad Bool.false_ne_true⟩
  · obtain ⟨same, fits⟩ := ensureCapacity_fits needs
    rw [same]
    exact ⟨Works.refl laid handle, fits⟩

/-- Data written inside a file's capacity, and the size after it. -/
theorem writeData_works {s : Ufs} {handle : Int} (laid : Laid s)
    (hh : handle.toNat < ufsMaxEntries) (offset : Nat) (buf : Buffer) (len : Nat)
    (fits : offset + len ≤ 512 * entryCapacity s.directory handle.toNat) :
    Works handle.toNat s (writeData handle offset (offset + len) buf len s).2 ∧
      SameExtent s.directory (writeData handle offset (offset + len) buf len s).2.directory
        handle.toNat ∧
      ((writeData handle offset (offset + len) buf len s).1 = -1 ∨
        (writeData handle offset (offset + len) buf len s).1 = toInt32 len) := by
  have capacity := laid.allocated.capacity_le hh
  have written : Works handle.toNat s { s with
      drive := (writeAtLoop (entryStart s.directory handle.toNat) len offset len buf
        s.drive).2 } := by
    apply drive_works laid hh
    rcases Nat.eq_zero_or_pos len with rfl | nonempty
    · exact Drive.Touches.refl _ _ _
    · have extent := laid.extent hh (by omega)
      have high := laid.allocated.high
      exact (writeAtLoop_touches _ (entryCapacity s.directory handle.toNat) _ _ _ _ s.drive
        (by omega) fits).mono (fun _ => Or.inl) fun _ => Or.inl
  unfold writeData
  simp only
  split
  · exact ⟨written, SameExtent.refl _ _, Or.inl rfl⟩
  split
  · obtain ⟨resized, kept⟩ := resize_works written.laid fits (by omega)
    refine ⟨written.trans resized kept, kept, ?_⟩
    split
    · exact Or.inr rfl
    · exact Or.inl rfl
  · exact ⟨written, SameExtent.refl _ _, Or.inr rfl⟩

theorem toInt32_small {n : Nat} (h : n < 2 ^ 31) : toInt32 n = n := by
  unfold toInt32
  rw [BitVec.toInt_eq_toNat_cond, BitVec.toNat_ofNat]
  omega

/-- A write grows its file far enough: a write of no bytes grows nothing, and the
sectors for the last bytes of the 32-bit range come out as none. -/
def WriteFits (s : Ufs) (handle : Int) (offset len : Nat) : Prop :=
  handleValid s handle = true → offset + len < 2 ^ 32 →
    (len = 0 → offset ≤ 512 * entryCapacity s.directory handle.toNat) ∧
    (0 < len → NeedsGrowth s handle.toNat (offset + len) → offset + len + 511 < 2 ^ 32)

/-- `ufs_write_at` changes its own file only. -/
theorem ufsWriteAt_works {s : Ufs} {handle : Int} {offset len : Nat} {buf : Buffer} (laid : Laid s)
    (hoffset : offset < 2 ^ 32) (hlen : len < 2 ^ 32) (fits : WriteFits s handle offset len) :
    Works handle.toNat s (ufsWriteAt handle offset buf len s).2 ∧
      ((ufsWriteAt handle offset buf len s).1 = -1 ∨
        ((ufsWriteAt handle offset buf len s).1 = toInt32 len ∧ offset + len ≤
          512 * entryCapacity (ufsWriteAt handle offset buf len s).2.directory handle.toNat)) := by
  by_cases accepted : handleValid s handle = true ∧ offset + len < 2 ^ 32
  swap
  · have refused : ufsWriteAt handle offset buf len s = (-1, s) :=
      ufsWriteAt_refused _ hoffset hlen (by simpa only [not_and_or, Bool.not_eq_true] using accepted)
    rw [refused]
    exact ⟨Works.refl laid _, Or.inl rfl⟩
  obtain ⟨valid, small⟩ := accepted
  obtain ⟨hh, _⟩ := handleValid_spec valid
  obtain ⟨empty, growing⟩ := fits valid small
  rw [ufsWriteAt_eq handle offset buf len s valid small]
  -- the part of `ensure_capacity`, called or not
  generalize grow : (if len > 0 then ensureCapacity handle.toNat (offset + len) s
    else (true, s)) = grown
  have ready : Works handle.toNat s grown.2 ∧
      (grown.1 = true → offset + len ≤ 512 * entryCapacity grown.2.directory handle.toNat) := by
    rw [← grow]
    split
    · next nonempty => exact ensureCapacity_works laid hh (growing nonempty)
    · exact ⟨Works.refl laid _, fun _ => by dsimp only; omega⟩
  simp only
  split
  · exact ⟨ready.1, Or.inl rfl⟩
  · next ok =>
    have room := ready.2 (by simpa using ok)
    obtain ⟨written, kept, result⟩ := writeData_works ready.1.laid hh offset buf len room
    refine ⟨ready.1.trans written kept, ?_⟩
    rcases result with failed | done
    · exact Or.inl failed
    · refine Or.inr ⟨done, ?_⟩
      have := written.capacity
      omega

theorem ufsReadAt_invalid {s : Ufs} {handle : Int} (invalid : handleValid s handle = false)
    (offset len : Nat) : ufsReadAt handle offset len s = (-1, [], s) := by
  unfold ufsReadAt
  rw [if_pos (by simp [invalid])]

/-- A read leaves memory and medium alone, and reads its own file only. -/
theorem ufsReadAt_frame {s : Ufs} (laid : Laid s) (handle : Int) (offset len : Nat) :
    ∃ d, s.drive.Touches d (InExtent s.directory handle.toNat) (fun _ => False) ∧
      (ufsReadAt handle offset len s).2.2 = { s with drive := d } := by
  unfold ufsReadAt
  split
  · exact ⟨s.drive, Drive.Touches.refl _ _ _, rfl⟩
  simp only
  split
  · exact ⟨s.drive, Drive.Touches.refl _ _ _, rfl⟩
  · next valid inside =>
    obtain ⟨hh, _⟩ := handleValid_spec (by simpa using valid)
    have sized := laid.sized _ hh
    have extent := laid.extent hh (by omega)
    have high := laid.allocated.high
    exact ⟨_, (readAtLoop_spec _ (entryCapacity s.directory handle.toNat) _ _ _ s.drive
      (by omega) (by omega)).1, rfl⟩

theorem ufsReadAt_works {s : Ufs} (laid : Laid s) (handle : Int) (offset len : Nat) :
    Works handle.toNat s (ufsReadAt handle offset len s).2.2 := by
  obtain ⟨d, touches, read⟩ := ufsReadAt_frame laid handle offset len
  rw [read]
  exact ⟨⟨laid.ready, laid.allocated, laid.sized⟩,
    ⟨fun _ _ => rfl, fun _ _ _ lba _ => touches.other id⟩, Nat.le_refl _, Nat.le_refl _,
    touches.mono (fun _ => Or.inl) fun _ bad => bad.elim⟩

theorem ufsReadAt_sameFile {s : Ufs} (laid : Laid s) (handle : Int) (offset len i : Nat) :
    SameFile i s (ufsReadAt handle offset len s).2.2 := by
  obtain ⟨d, touches, read⟩ := ufsReadAt_frame laid handle offset len
  rw [read]
  refine ⟨rfl, rfl, fun p _ => ?_⟩
  unfold fileByte
  rw [touches.other id]

/-- The bytes a read stores are the file's from the offset on, up to its end. -/
theorem ufsReadAt_spec {s : Ufs} (laid : Laid s) {handle : Int}
    (valid : handleValid s handle = true) (offset len : Nat) :
    (∀ k b, (ufsReadAt handle offset len s).2.1[k]? = some b →
      offset + k < entrySize s.directory handle.toNat ∧
        b = fileByte s handle.toNat (offset + k)) ∧
      ((ufsReadAt handle offset len s).1 ≤ 0 ∨
        offset + (ufsReadAt handle offset len s).1.toNat ≤ entrySize s.directory handle.toNat) := by
  obtain ⟨hh, _⟩ := handleValid_spec valid
  unfold ufsReadAt
  rw [if_neg (by simp [valid])]
  simp only
  split
  · refine ⟨fun k b stored => ?_, Or.inl (Int.le_refl 0)⟩
    simp at stored
  · next inside =>
    have sized := laid.sized _ hh
    have capacity := laid.allocated.capacity_le hh
    have extent := laid.extent hh (by omega)
    have high := laid.allocated.high
    obtain ⟨_, length, bytes⟩ := readAtLoop_spec (entryStart s.directory handle.toNat)
      (entryCapacity s.directory handle.toNat)
      (min len (entrySize s.directory handle.toNat - offset)) offset
      (min len (entrySize s.directory handle.toNat - offset)) s.drive (by omega)
      (by omega)
    dsimp only
    constructor
    · intro k b stored
      have early := (List.getElem?_eq_some_iff.mp stored).1
      rcases bytes k with none | some
      · rw [none] at stored
        cases stored
      · rw [some] at stored
        exact ⟨by omega, (Option.some.inj stored).symm⟩
    · split
      · right
        rw [toInt32_small (by omega)]
        omega
      · left
        decide

theorem faultyVolume_laid (disk : Nat → Sector) (faults : Nat → Option Nat) :
    Laid (faultyVolume disk faults) := by
  refine ⟨rfl, formatted_allocated, fun i _ => ?_⟩
  have size : entrySize (fun _ => 0) i = 0 := by simp [entrySize, readU32]
  change entrySize (fun _ => 0) i ≤ _
  rw [size]
  exact Nat.zero_le _

end MiniKernel.Storage
