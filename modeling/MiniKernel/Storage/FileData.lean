import MiniKernel.Storage.FileFrame

/-!
# What the copy, write and read loops leave in a file

Source: kernel/core/ufs.c:334-459, on a drive that does not fail. The loops work
on sectors; what they do is said byte by byte, `byteAt` being byte `p` of a file
whose sectors start at `start`.
-/
namespace MiniKernel.Storage
open Drivers
open Lib (Buffer readU32 writeU32)

def byteAt (d : Drive) (start p : Nat) : UInt8 :=
  d.sectors (start + p / 512) ⟨p % 512, mod_512_lt p⟩

theorem fileByte_eq (s : Ufs) (i p : Nat) :
    fileByte s i p = byteAt s.drive (entryStart s.directory i) p := rfl

theorem sectorOf_bufferOf (sectors : List Sector) (k : Nat) (sector : Sector)
    (at_ : sectors[k]? = some sector) : sectorOf (bufferOf sectors) k = sector := by
  funext i
  have quotient : (512 * k + i.val) / 512 = k := by
    have := i.isLt
    omega
  have remainder : (512 * k + i.val) % 512 = i.val := by
    have := i.isLt
    omega
  simp only [sectorOf, bufferOf, quotient, at_, remainder]

/-- A write that succeeds, sector by sector. -/
theorem ataWriteSectors_sectors (lba count : Nat) (buf : Buffer) {d : Drive} (h : NoFaults d)
    (hpos : 0 < count) (hle : count ≤ 256) (a : Nat) :
    (ataWriteSectors lba count buf d).2.sectors a =
      if lba28 lba ≤ a ∧ a < lba28 lba + count then sectorOf buf (a - lba28 lba)
      else d.sectors a := by
  rw [(ataWriteSectors_ok lba count buf h hpos hle).2.sectors, replay_runWrites]

/-- The copy arrives: sector `k` of the new extent is sector `k` of the old one. -/
theorem moveLoop_copies (oldStart newStart oldSectors fuel done : Nat) (d : Drive)
    (faultless : NoFaults d) (oldHigh : oldStart + oldSectors ≤ newStart)
    (newHigh : newStart + oldSectors ≤ 2 ^ 28) (enough : oldSectors ≤ done + fuel) (k : Nat)
    (low : done ≤ k) (high : k < oldSectors) :
    (moveLoop oldStart newStart oldSectors fuel done d).2.sectors (newStart + k) =
      d.sectors (oldStart + k) := by
  induction fuel generalizing done d with
  | zero => omega
  | succ fuel ih =>
    have oldAddr : lba28 (wrap32 (oldStart + done)) = oldStart + done := lba28_wrap32 _ (by omega)
    have newAddr : lba28 (wrap32 (newStart + done)) = newStart + done := lba28_wrap32 _ (by omega)
    let chunk := min (oldSectors - done) 8
    obtain ⟨readOk, data, readDrive⟩ := ataReadSectors_ok (wrap32 (oldStart + done))
      chunk faultless (by omega) (by omega)
    have faultless' := readDrive.noFaults faultless
    have same : (ataReadSectors (wrap32 (oldStart + done)) chunk d).2.2.sectors = d.sectors :=
      readDrive.sectors
    have written (a : Nat) := ataWriteSectors_sectors (wrap32 (newStart + done)) chunk
      (bufferOf (ataReadSectors (wrap32 (oldStart + done)) chunk d).2.1) faultless'
      (by omega : 0 < chunk) (by omega) a
    have writeOk := ataWriteSectors_ok (wrap32 (newStart + done)) chunk
      (bufferOf (ataReadSectors (wrap32 (oldStart + done)) chunk d).2.1) faultless'
      (by omega) (by omega)
    rw [moveLoop, if_pos (by omega)]
    simp only [chunk] at *
    simp only [readOk, writeOk.1, not_true_eq_false, if_false]
    rw [oldAddr] at data
    rw [newAddr] at written
    by_cases inChunk : k < done + min (oldSectors - done) 8
    · -- the rest of the loop writes behind this chunk
      have rest := moveLoop_touches oldStart newStart oldSectors fuel
        (done + min (oldSectors - done) 8)
        (ataWriteSectors (wrap32 (newStart + done)) (min (oldSectors - done) 8)
          (bufferOf (ataReadSectors (wrap32 (oldStart + done)) (min (oldSectors - done) 8) d).2.1)
          (ataReadSectors (wrap32 (oldStart + done)) (min (oldSectors - done) 8) d).2.2).2
        (by omega) newHigh
      rw [rest.other (by omega), written, if_pos (by omega), data]
      apply sectorOf_bufferOf
      have index : newStart + k - (newStart + done) = k - done := by omega
      have back : oldStart + done + (k - done) = oldStart + k := by omega
      rw [index, List.getElem?_map, List.getElem?_range (by omega)]
      simp only [Option.map_some, back]
    · rw [ih _ _ (writeOk.2.noFaults faultless') (by omega) (by omega), written, if_neg (by omega),
        same]

/-- One turn of the loop of `ufs_write_at`: a sector is read and written back
with `chunk` bytes of it replaced. -/
theorem writeChunk_bytes (startLba cur chunk : Nat) (src : Buffer) (d : Drive)
    (faultless : NoFaults d) (high : startLba + cur / 512 < 2 ^ 28)
    (within : cur % 512 + chunk ≤ 512) :
    let lba := wrap32 (startLba + cur / sectorSize)
    let read := ataReadSectors lba 1 d
    let written := ataWriteSectors lba 1 (fun p =>
      if cur % sectorSize ≤ p ∧ p < cur % sectorSize + chunk then src (p - cur % sectorSize)
      else bufferOf read.2.1 p) read.2.2
    read.1 = true ∧ written.1 = true ∧ NoFaults written.2 ∧
      ∀ p, byteAt written.2 startLba p =
        if cur ≤ p ∧ p < cur + chunk then src (p - cur) else byteAt d startLba p := by
  intro lba read written
  have addr : lba28 lba = startLba + cur / 512 := lba28_wrap32 _ high
  obtain ⟨readOk, data, readDrive⟩ := ataReadSectors_ok lba 1 faultless (by decide) (by decide)
  have faultless' := readDrive.noFaults faultless
  have same : read.2.2.sectors = d.sectors := readDrive.sectors
  have writeOk := ataWriteSectors_ok lba 1 (fun p =>
    if cur % 512 ≤ p ∧ p < cur % 512 + chunk then src (p - cur % 512)
    else bufferOf read.2.1 p) faultless' (by decide) (by decide)
  refine ⟨readOk, writeOk.1, writeOk.2.noFaults faultless', fun p => ?_⟩
  have sector : written.2.sectors (startLba + p / 512) = _ :=
    ataWriteSectors_sectors lba 1 (fun p =>
      if cur % 512 ≤ p ∧ p < cur % 512 + chunk then src (p - cur % 512)
      else bufferOf read.2.1 p) faultless' (by decide) (by decide) (startLba + p / 512)
  rw [byteAt, sector, addr, same]
  by_cases own : p / 512 = cur / 512
  · have inSector : p % 512 < 512 := Nat.mod_lt p (by decide)
    have offset : 512 * (startLba + p / 512 - (startLba + cur / 512)) + p % 512 = p % 512 := by
      omega
    have old : bufferOf read.2.1 (p % 512) = byteAt d startLba p := by
      rw [data, addr]
      simp only [List.range_one, List.map_cons, List.map_nil, Nat.add_zero,
        bufferOf_single _ _ inSector, byteAt, own, Nat.mod_mod]
    rw [if_pos (by omega), sectorOf, offset, old]
    by_cases replaced : cur % 512 ≤ p % 512 ∧ p % 512 < cur % 512 + chunk
    · have index : p % 512 - cur % 512 = p - cur := by omega
      rw [if_pos replaced, if_pos (by omega), index]
    · rw [if_neg replaced, if_neg (by omega)]
  · rw [if_neg (by omega), if_neg (by omega)]
    rfl

/-- The written bytes are the buffer's, all others are as they were. -/
theorem writeAtLoop_bytes (startLba capacity fuel cur remaining : Nat) (src : Buffer) (d : Drive)
    (faultless : NoFaults d) (high : startLba + capacity ≤ ufsDataEndLba)
    (fits : cur + remaining ≤ 512 * capacity) (enough : remaining ≤ fuel) :
    (writeAtLoop startLba fuel cur remaining src d).1 = true ∧
      NoFaults (writeAtLoop startLba fuel cur remaining src d).2 ∧
      ∀ p, byteAt (writeAtLoop startLba fuel cur remaining src d).2 startLba p =
        if cur ≤ p ∧ p < cur + remaining then src (p - cur) else byteAt d startLba p := by
  induction fuel generalizing cur remaining src d with
  | zero =>
    refine ⟨rfl, faultless, fun p => ?_⟩
    rw [if_neg (by omega)]
    rfl
  | succ fuel ih =>
    rw [writeAtLoop]
    by_cases finished : remaining = 0
    · rw [if_pos finished]
      refine ⟨rfl, faultless, fun p => ?_⟩
      rw [if_neg (by omega)]
    rw [if_neg finished]
    unfold ufsDataEndLba at high
    have unit : sectorSize = 512 := rfl
    have offset : cur % sectorSize = cur % 512 := rfl
    obtain ⟨readOk, writeOk, faultless', first⟩ :=
      writeChunk_bytes startLba cur (min (sectorSize - cur % sectorSize) remaining) src d faultless
        (by omega) (by omega)
    have next : wrap32 (cur + min (sectorSize - cur % sectorSize) remaining) =
        cur + min (sectorSize - cur % sectorSize) remaining := Nat.mod_eq_of_lt (by omega)
    simp only [readOk, writeOk, not_true_eq_false, if_false, next]
    have positive := Nat.mod_lt cur (by decide : 0 < sectorSize)
    obtain ⟨ok, still, bytes⟩ := ih (cur + min (sectorSize - cur % sectorSize) remaining)
      (remaining - min (sectorSize - cur % sectorSize) remaining)
      (fun p => src (p + min (sectorSize - cur % sectorSize) remaining)) _ faultless'
      (by omega) (by omega)
    refine ⟨ok, still, fun p => ?_⟩
    rw [bytes, first]
    by_cases inChunk : p < cur + min (sectorSize - cur % sectorSize) remaining
    · rw [if_neg (by omega)]
      by_cases later : cur ≤ p
      · rw [if_pos ⟨later, inChunk⟩, if_pos (by omega)]
      · rw [if_neg (by omega), if_neg (by omega)]
    · by_cases written : p < cur + remaining
      · have index : p - (cur + min (sectorSize - cur % sectorSize) remaining) +
            min (sectorSize - cur % sectorSize) remaining = p - cur := by omega
        rw [if_pos (by omega), if_pos (by omega), index]
      · rw [if_neg (by omega), if_neg (by omega), if_neg (by omega)]

/-- A read on a drive without faults is complete. -/
theorem readAtLoop_complete (startLba fuel cur remaining : Nat) (d : Drive)
    (faultless : NoFaults d) (enough : remaining ≤ fuel) :
    (readAtLoop startLba fuel cur remaining d).1 = true ∧
      NoFaults (readAtLoop startLba fuel cur remaining d).2.2 ∧
      (readAtLoop startLba fuel cur remaining d).2.1.length = remaining := by
  induction fuel generalizing cur remaining d with
  | zero =>
    obtain rfl : remaining = 0 := by omega
    exact ⟨rfl, faultless, rfl⟩
  | succ fuel ih =>
    rw [readAtLoop]
    by_cases finished : remaining = 0
    · rw [if_pos finished]
      exact ⟨rfl, faultless, finished.symm⟩
    rw [if_neg finished]
    obtain ⟨readOk, _, readDrive⟩ := ataReadSectors_ok
      (wrap32 (startLba + cur / sectorSize)) 1 faultless (by decide) (by decide)
    have positive : 0 < sectorSize - cur % sectorSize := by
      have := Nat.mod_lt cur (by decide : 0 < sectorSize)
      omega
    simp only [readOk, not_true_eq_false, if_false]
    obtain ⟨ok, still, length⟩ := ih (wrap32 (cur + min (sectorSize - cur % sectorSize) remaining))
      (remaining - min (sectorSize - cur % sectorSize) remaining)
      (ataReadSectors (wrap32 (startLba + cur / sectorSize)) 1 d).2.2
      (readDrive.noFaults faultless) (by omega)
    refine ⟨ok, still, ?_⟩
    rw [List.length_append, length, List.length_map, List.length_range]
    omega

/-! ## The operations on a file's contents -/

/-- The file in slot `h` has this size and these bytes; its name, owner and
permissions and all other files are as they were. -/
structure Rewritten (h size : Nat) (byte : Nat → UInt8) (s t : Ufs) : Prop where
  laid : Laid t
  faultless : NoFaults t.drive
  beside : Beside h s t
  heads : ∀ q, q < entryAt h + 20 ∨ entryAt h + 32 ≤ q → t.directory q = s.directory q
  sized : entrySize t.directory h = size
  bytes : ∀ p < size, fileByte t h p = byte p

theorem Rewritten.refl {s : Ufs} (laid : Laid s) (faultless : NoFaults s.drive) (h : Nat) :
    Rewritten h (entrySize s.directory h) (fileByte s h) s s :=
  ⟨laid, faultless, Beside.refl h s, fun _ _ => rfl, rfl, fun _ _ => rfl⟩

/-- What is persisted is in the cached directory, and the data is not touched. -/
theorem persisted_bytes {h : Nat} {t : Ufs} (laid : Laid (persist t).2) (hh : h < ufsMaxEntries)
    {p : Nat} (hp : p < entrySize t.directory h) :
    fileByte (persist t).2 h p = byteAt t.drive (entryStart t.directory h) p := by
  obtain ⟨dir, _, _, touches⟩ := persist_frame t
  have inside := laid.inExtent hh (dir.symm ▸ hp)
  have area := laid.allocated.inside h hh _ inside
  rw [dir] at area
  rw [fileByte, dir, byteAt, touches.other fun metadata => by unfold Metadata at metadata; omega]

theorem resize_rewrites {h size : Nat} {s : Ufs} (laid : Laid s) (faultless : NoFaults s.drive)
    (hh : h < ufsMaxEntries) (fits : size ≤ 512 * entryCapacity s.directory h)
    (small : size < 2 ^ 32) :
    Rewritten h size (fileByte s h) s
      (persist { s with directory := writeU32 s.directory (entryAt h + 24) size }).2 := by
  obtain ⟨works, same⟩ := resize_works laid fits small
  obtain ⟨dir, _, _, touches⟩ :=
    persist_frame { s with directory := writeU32 s.directory (entryAt h + 24) size }
  have now : entrySize (writeU32 s.directory (entryAt h + 24) size) h = size :=
    Lib.readU32_writeU32 _ _ _ small
  refine ⟨works.laid, touches.noFaults faultless, works.beside, fun q outside => ?_, ?_,
    fun p hp => ?_⟩
  · rw [dir]
    exact Lib.writeU32_outside _ _ _ _ (by omega)
  · rw [dir]
    exact now
  · rw [persisted_bytes works.laid hh (by rw [now]; exact hp), fileByte_eq]
    exact congrArg (fun start => byteAt s.drive start p) (writeSize_sameExtent s.directory h h size).1

theorem Rewritten.trans {h a b : Nat} {f g : Nat → UInt8} {s t u : Ufs}
    (first : Rewritten h a f s t) (second : Rewritten h b g t u) : Rewritten h b g s u :=
  ⟨second.laid, second.faultless, first.beside.trans second.beside,
    fun q outside => (second.heads q outside).trans (first.heads q outside),
    second.sized, second.bytes⟩

theorem movedDrive_arrives {s : Ufs} {handle : Nat} (laid : Laid s) (faultless : NoFaults s.drive)
    (hh : handle < ufsMaxEntries) (k : Nat)
    (hk : k < sectorsForBytes (entrySize s.directory handle)) :
    (movedDrive s handle).2.sectors (s.nextFreeLba + k) =
      s.drive.sectors (entryStart s.directory handle + k) := by
  have sectors := laid.oldSectors_le hh
  have small := laid.allocated.capacity_le hh
  have high := laid.allocated.high
  have extent := laid.extent hh (by omega)
  have nonempty : entrySize s.directory handle > 0 := by
    by_contra empty
    have none : sectorsForBytes 0 = 0 := by decide
    rw [Nat.eq_zero_of_not_pos empty, none] at hk
    omega
  unfold ufsDataEndLba at high
  rw [movedDrive, if_pos nonempty]
  exact moveLoop_copies _ _ _ _ 0 s.drive faultless (by omega) (by omega) (by omega) k
    (Nat.zero_le k) hk

/-- The entry of a file whose contents have been copied. -/
theorem moved_rewrites {s t : Ufs} {handle needed : Nat} (laid : Laid s)
    (hh : handle < ufsMaxEntries) (needs : NeedsGrowth s handle needed)
    (small : needed + 511 < 2 ^ 32)
    (dir : t.directory = movedEntry s.directory handle s.nextFreeLba
      (newCapacitySectors (entryCapacity s.directory handle) (sectorsForBytes needed)))
    (next : t.nextFreeLba = wrap32 (s.nextFreeLba +
      newCapacitySectors (entryCapacity s.directory handle) (sectorsForBytes needed)))
    (copied : s.drive.Touches t.drive (InExtent s.directory handle)
      fun a => s.nextFreeLba ≤ a ∧ a < s.nextFreeLba + entryCapacity s.directory handle)
    (faultless : NoFaults t.drive) (ready : t.ready = s.ready)
    (arrived : ∀ k < sectorsForBytes (entrySize s.directory handle),
      t.drive.sectors (s.nextFreeLba + k) = s.drive.sectors (entryStart s.directory handle + k)) :
    Rewritten handle (entrySize s.directory handle) (fileByte s handle) s (persist t).2 ∧
      needed ≤ 512 * entryCapacity (persist t).2.directory handle := by
  obtain ⟨works, enough⟩ := moved_works laid hh needs small dir next copied ready
  obtain ⟨_, bound, _, _⟩ := growth_bounds laid.allocated hh needs
  obtain ⟨kept, _, _, touches⟩ := persist_frame t
  have outside (q : Nat) (hq : q < entryAt handle + 20 ∨ entryAt handle + 32 ≤ q ∨
      (entryAt handle + 24 ≤ q ∧ q < entryAt handle + 28)) : t.directory q = s.directory q := by
    rw [dir]
    exact movedEntry_outside _ _ _ _ _ hq
  have size : entrySize t.directory handle = entrySize s.directory handle := by
    apply Lib.readU32_congr
    intro j hj
    exact outside _ (by omega)
  have start : entryStart t.directory handle = s.nextFreeLba := by
    rw [dir]
    exact (movedEntry_extent _ _ _ _ (Nat.lt_of_le_of_lt laid.allocated.high (by decide)) bound).1
  refine ⟨⟨works.laid, touches.noFaults faultless, works.beside, fun q hq => ?_, ?_,
    fun p hp => ?_⟩, enough⟩
  · rw [kept]
    exact outside q (by omega)
  · rw [kept]
    exact size
  · have sector : p / 512 < sectorsForBytes (entrySize s.directory handle) := by
      have sized := laid.sized handle hh
      have few := laid.allocated.capacity_le hh
      unfold sectorsForBytes wrap32 sectorSize
      omega
    rw [persisted_bytes works.laid hh (size.symm ▸ hp), start, byteAt, arrived _ sector]
    rfl

/-- The same where `ensure_capacity` persists what a copy to `d` left. -/
theorem moved_to_rewrites {s : Ufs} {handle needed : Nat} (d : Drive) (laid : Laid s)
    (hh : handle < ufsMaxEntries) (needs : NeedsGrowth s handle needed)
    (small : needed + 511 < 2 ^ 32)
    (copied : s.drive.Touches d (InExtent s.directory handle)
      fun a => s.nextFreeLba ≤ a ∧ a < s.nextFreeLba + entryCapacity s.directory handle)
    (faultless : NoFaults d)
    (arrived : ∀ k < sectorsForBytes (entrySize s.directory handle),
      d.sectors (s.nextFreeLba + k) = s.drive.sectors (entryStart s.directory handle + k))
    {r : Bool × Ufs}
    (persisted : r = persist
      { s with
        directory := movedEntry s.directory handle s.nextFreeLba
          (newCapacitySectors (entryCapacity s.directory handle) (sectorsForBytes needed))
        nextFreeLba := wrap32 (s.nextFreeLba +
          newCapacitySectors (entryCapacity s.directory handle) (sectorsForBytes needed))
        drive := d }) :
    r.1 = true ∧ Rewritten handle (entrySize s.directory handle) (fileByte s handle) s r.2 ∧
      needed ≤ 512 * entryCapacity r.2.directory handle := by
  rw [persisted]
  exact ⟨persist_succeeds faultless,
    moved_rewrites laid hh needs small rfl rfl copied faultless rfl arrived⟩

/-- The file would have to grow, and there is no room for it. -/
def NoRoom (s : Ufs) (handle needed : Nat) : Prop :=
  wrap32 (entryCapacity s.directory handle * sectorSize) < needed ∧ ¬ NeedsGrowth s handle needed

instance (s : Ufs) (handle needed : Nat) : Decidable (NeedsGrowth s handle needed) :=
  inferInstanceAs (Decidable (_ ∧ _))

instance (s : Ufs) (handle needed : Nat) : Decidable (NoRoom s handle needed) :=
  inferInstanceAs (Decidable (_ ∧ _))

/-- Growing a file keeps its contents; where there is no room nothing happens. -/
theorem ensureCapacity_rewrites {s : Ufs} {handle needed : Nat} (laid : Laid s)
    (faultless : NoFaults s.drive) (hh : handle < ufsMaxEntries) (small : needed + 511 < 2 ^ 32) :
    (ensureCapacity handle needed s = (false, s) ∧ NoRoom s handle needed) ∨
      ((ensureCapacity handle needed s).1 = true ∧
        Rewritten handle (entrySize s.directory handle) (fileByte s handle) s
          (ensureCapacity handle needed s).2 ∧
        needed ≤ 512 * entryCapacity (ensureCapacity handle needed s).2.directory handle) := by
  by_cases needs : NeedsGrowth s handle needed
  · right
    have moves := ensureCapacity_moves needs
    have copied := movedDrive_touches laid hh
    rw [if_neg (not_not_intro (movedDrive_succeeds faultless handle))] at moves
    exact moved_to_rewrites _ laid hh needs small copied (copied.noFaults faultless)
      (movedDrive_arrives laid faultless hh) moves
  · obtain ⟨same, fits⟩ := ensureCapacity_fits needs
    cases ok : (ensureCapacity handle needed s).1 with
    | true =>
      rw [same]
      exact Or.inr ⟨rfl, Rewritten.refl laid faultless handle, fits ok⟩
    | false =>
      refine Or.inl ⟨Prod.ext ok same, ?_, needs⟩
      by_contra enough
      rw [ensureCapacity, if_pos (Nat.not_lt.mp enough)] at ok
      cases ok

/-- Bytes `offset` to `offset + len` replaced by those of a buffer. -/
def overlay (offset len : Nat) (buf : Buffer) (byte : Nat → UInt8) : Nat → UInt8 := fun p =>
  if offset ≤ p ∧ p < offset + len then buf (p - offset) else byte p

/-- The loop of `ufs_write_at` within a file's capacity. -/
theorem writeLoop_overlay {s : Ufs} {handle : Int} (laid : Laid s) (faultless : NoFaults s.drive)
    (hh : handle.toNat < ufsMaxEntries) (offset : Nat) (buf : Buffer) (len : Nat)
    (fits : offset + len ≤ 512 * entryCapacity s.directory handle.toNat) :
    let r := writeAtLoop (entryStart s.directory handle.toNat) len offset len buf s.drive
    r.1 = true ∧ NoFaults r.2 ∧ ∀ p, byteAt r.2 (entryStart s.directory handle.toNat) p =
      overlay offset len buf (fileByte s handle.toNat) p := by
  intro r
  rcases Nat.eq_zero_or_pos len with rfl | nonempty
  · refine ⟨rfl, faultless, fun p => ?_⟩
    rw [overlay, if_neg (by omega)]
    rfl
  · have extent := laid.extent hh (by omega)
    have high := laid.allocated.high
    exact writeAtLoop_bytes _ (entryCapacity s.directory handle.toNat) _ _ _ _ s.drive faultless
      (by omega) fits (Nat.le_refl len)

theorem writeData_rewrites {s : Ufs} {handle : Int} (laid : Laid s) (faultless : NoFaults s.drive)
    (hh : handle.toNat < ufsMaxEntries) (offset : Nat) (buf : Buffer) (len : Nat)
    (fits : offset + len ≤ 512 * entryCapacity s.directory handle.toNat) :
    let r := writeData handle offset (offset + len) buf len s
    r.1 = toInt32 len ∧
      Rewritten handle.toNat (max (entrySize s.directory handle.toNat) (offset + len))
        (overlay offset len buf (fileByte s handle.toNat)) s r.2 := by
  have few := laid.allocated.capacity_le hh
  obtain ⟨works, _, _⟩ := writeData_works laid hh offset buf len fits
  obtain ⟨ok, faultless', bytes⟩ := writeLoop_overlay laid faultless hh offset buf len fits
  unfold writeData at works ⊢
  simp only [ok, not_true_eq_false, if_false] at works ⊢
  by_cases grows : offset + len > entrySize s.directory handle.toNat
  · simp only [if_pos grows] at works ⊢
    let t : Ufs := { s with drive := (writeAtLoop (entryStart s.directory handle.toNat) len offset
      len buf s.drive).2 }
    have tLaid : Laid t := ⟨laid.ready, laid.allocated, laid.sized⟩
    have resized := resize_rewrites (s := t) tLaid faultless' hh fits (by omega)
    have persisted : (persist { t with
        directory := writeU32 t.directory (entryAt handle.toNat + 24) (offset + len) }).1 = true :=
      persist_succeeds faultless'
    rw [Nat.max_eq_right (by omega)]
    refine ⟨if_pos persisted, works.laid, resized.faultless, works.beside, resized.heads,
      resized.sized, fun p hp => ?_⟩
    rw [← bytes p]
    exact resized.bytes p hp
  · simp only [if_neg grows] at works ⊢
    rw [Nat.max_eq_left (by omega)]
    exact ⟨trivial, works.laid, faultless', works.beside, fun _ _ => rfl, rfl, fun p _ => bytes p⟩

/-- `ufs_write_at` where a file ends or before, at most a page: nothing happens
for lack of space, or the bytes are laid over the file. -/
theorem ufsWriteAt_rewrites {s : Ufs} {handle : Int} {offset len : Nat} (buf : Buffer)
    (laid : Laid s) (faultless : NoFaults s.drive) (valid : handleValid s handle = true)
    (within : offset ≤ entrySize s.directory handle.toNat) (few : len ≤ 4096) :
    (NoRoom s handle.toNat (offset + len) ∧ ufsWriteAt handle offset buf len s = (-1, s)) ∨
      (¬ NoRoom s handle.toNat (offset + len) ∧ (ufsWriteAt handle offset buf len s).1 = len ∧
        Rewritten handle.toNat (max (entrySize s.directory handle.toNat) (offset + len))
          (overlay offset len buf (fileByte s handle.toNat)) s
          (ufsWriteAt handle offset buf len s).2) := by
  obtain ⟨hh, _⟩ := handleValid_spec valid
  have sized := laid.sized _ hh
  have small := laid.allocated.capacity_le hh
  have noWrap : wrap32 (entryCapacity s.directory handle.toNat * sectorSize) =
      entryCapacity s.directory handle.toNat * 512 := by
    apply Nat.mod_eq_of_lt
    unfold sectorSize
    omega
  rw [ufsWriteAt_eq handle offset buf len s valid (by omega), ← toInt32_small (by omega : len < 2 ^ 31)]
  rcases Nat.eq_zero_or_pos len with rfl | nonempty
  · have written := writeData_rewrites laid faultless hh offset buf 0 (by omega)
    simp only [gt_iff_lt, Nat.lt_irrefl, if_false, not_true_eq_false]
    refine Or.inr ⟨fun noRoom => ?_, written⟩
    have := noRoom.1
    omega
  · simp only [gt_iff_lt, if_pos nonempty]
    rcases ensureCapacity_rewrites laid faultless hh (by omega : offset + len + 511 < 2 ^ 32) with
      ⟨failed, full⟩ | ⟨ok, grown, enough⟩
    · rw [failed]
      exact Or.inl ⟨full, if_pos Bool.false_ne_true⟩
    · right
      have fine : ¬ NoRoom s handle.toNat (offset + len) := by
        intro noRoom
        have fits := (ensureCapacity_fits noRoom.2).2 ok
        have := noRoom.1
        omega
      rw [if_neg (not_not_intro ok)]
      obtain ⟨result, written⟩ := writeData_rewrites grown.laid grown.faultless hh offset buf len enough
      rw [grown.sized] at written
      refine ⟨fine, result, written.laid, written.faultless, grown.beside.trans written.beside,
        fun q hq => (written.heads q hq).trans (grown.heads q hq), written.sized, fun p hp => ?_⟩
      rw [written.bytes p hp]
      unfold overlay
      split
      · rfl
      · next old =>
        rcases Nat.lt_or_ge p (entrySize s.directory handle.toNat) with inOld | beyond
        · exact grown.bytes p inOld
        · have inNew : p < offset + len := (lt_max_iff.mp hp).resolve_left (Nat.not_lt.mpr beyond)
          exact absurd ⟨Nat.le_trans within beyond, inNew⟩ old

end MiniKernel.Storage
