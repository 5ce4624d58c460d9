import MiniKernel.Storage.Mfs
import MiniKernel.Storage.Ufs

/-!
# The disk image

Source: mkdisk.py:18-107. A byte array is a list of bytes, a name a list of
characters; where Python raises, there is no image. The layout of the files is
computed twice, once for the directory and once for the contents.
-/
namespace MiniKernel.Storage
open Drivers
open Lib (Buffer readU32 writeU32)

def mkdiskFsBaseLba : Nat := 2048
def mkdiskMaxEntries : Nat := 16
def mkdiskUfsBaseLba : Nat := 8192
def mkdiskUfsDirSectors : Nat := 5
def mkdiskUfsDataLba : Nat := mkdiskUfsBaseLba + 1 + mkdiskUfsDirSectors
def mkdiskUfsDataReservedSectors : Nat := 8192

/-- `bytes(n)`. -/
def zeroBytes (n : Nat) : List UInt8 := List.replicate n 0

/-- `struct.pack('<I', n)`. -/
def packU32 (n : Nat) : Option (List UInt8) :=
  if n < 2 ^ 32 then
    some [UInt8.ofNat n, UInt8.ofNat (n / 2 ^ 8), UInt8.ofNat (n / 2 ^ 16), UInt8.ofNat (n / 2 ^ 24)]
  else none

/-- `name.encode('ascii')`. -/
def encodeAscii (name : List Char) : Option (List UInt8) :=
  if name.all fun c => c.toNat < 128 then some (name.map fun c => UInt8.ofNat c.toNat) else none

/-- `buf[start:stop] = src`. -/
def assignSlice (buf : List UInt8) (start stop : Nat) (src : List UInt8) : List UInt8 :=
  buf.take start ++ src ++ buf.drop stop

/-- `(n + SECTOR - 1) // SECTOR`. -/
def sectorsOf (n : Nat) : Nat := (n + 512 - 1) / 512

abbrev DiskFile := List Char × List UInt8

/-- The directory record of one file. -/
def direntOf (f : DiskFile) (fileStartLba : Nat) : Option (List UInt8) :=
  if f.1.length ≥ 20 then none
  else do
    let name ← encodeAscii f.1
    let start ← packU32 fileStartLba
    let size ← packU32 f.2.length
    let entry := zeroBytes 32
    let entry := assignSlice entry 0 f.1.length name
    let entry := assignSlice entry 20 24 start
    some (assignSlice entry 24 28 size)

/-- The first loop of `build`, from file number `i` on. -/
def directoryLoop : List DiskFile → Nat → List UInt8 → Nat → Option (List UInt8)
  | [], _, directory, _ => some directory
  | f :: rest, i, directory, fileStartLba => do
    let entry ← direntOf f fileStartLba
    directoryLoop rest (i + 1) (assignSlice directory (i * 32) ((i + 1) * 32) entry)
      (fileStartLba + sectorsOf f.2.length)

/-- `FS_BASE_LBA + 16` and the sectors of the files before number `i`. -/
def targetLba (blobs : List (List UInt8)) (i : Nat) : Nat :=
  mkdiskFsBaseLba + 16 + ((blobs.take i).map fun b => sectorsOf b.length).sum

/-- One turn of the second loop of `build`. -/
def placeBlob (blobs : List (List UInt8)) (data : List UInt8) (i : Nat) (img : List UInt8) :
    List UInt8 :=
  let currentLba := img.length / 512
  let img := if currentLba < targetLba blobs i then
      img ++ zeroBytes ((targetLba blobs i - currentLba) * 512) else img
  let img := img ++ data
  let remainder := img.length % 512
  if remainder ≠ 0 then img ++ zeroBytes (512 - remainder) else img

def blobLoop (blobs : List (List UInt8)) : List (List UInt8) → Nat → List UInt8 → List UInt8
  | [], _, img => img
  | data :: rest, i, img => blobLoop blobs rest (i + 1) (placeBlob blobs data i img)

def bootArea (boot kernel : List UInt8) : List UInt8 :=
  let img := boot ++ kernel
  if img.length < mkdiskFsBaseLba * 512 then
    img ++ zeroBytes (mkdiskFsBaseLba * 512 - img.length) else img

def build (boot kernel : List UInt8) (files : List DiskFile) : Option (List UInt8) :=
  if files.length > mkdiskMaxEntries then none
  else do
    let count ← packU32 files.length
    let superblock := zeroBytes 512
    let superblock := assignSlice superblock 0 4 [0x4D, 0x46, 0x53, 0x31]
    let superblock := assignSlice superblock 4 8 count
    let directory ← directoryLoop files 0 (zeroBytes 512) (mkdiskFsBaseLba + 16)
    let blobs := files.map Prod.snd
    some (blobLoop blobs blobs 0 (bootArea boot kernel ++ superblock ++ directory))

/-- `format_ufs_region`, with the file it appends to. -/
def formatUfsRegion (img : List UInt8) : Option (List UInt8) :=
  let padTo := mkdiskUfsBaseLba * 512
  if img.length > padTo then none
  else do
    let count ← packU32 0
    let next ← packU32 mkdiskUfsDataLba
    let img := if img.length < padTo then img ++ zeroBytes (padTo - img.length) else img
    let superblock := zeroBytes 512
    let superblock := assignSlice superblock 0 4 [0x55, 0x46, 0x53, 0x31]
    let superblock := assignSlice superblock 4 8 count
    let superblock := assignSlice superblock 8 12 next
    some (img ++ superblock ++ zeroBytes (mkdiskUfsDirSectors * 512) ++
      zeroBytes (mkdiskUfsDataReservedSectors * 512))

/-- A disk with this image on it. -/
def diskOf (img : List UInt8) : Nat → Sector := fun lba i => img.getD (512 * lba + i.val) 0

/-! ## Slices -/

theorem length_assignSlice {buf src : List UInt8} {start stop : Nat}
    (size : start + src.length = stop) (inside : stop ≤ buf.length) :
    (assignSlice buf start stop src).length = buf.length := by
  simp [assignSlice]
  omega

theorem getElem?_assignSlice {buf src : List UInt8} {start stop : Nat} (p : Nat)
    (size : start + src.length = stop) (inside : stop ≤ buf.length) :
    (assignSlice buf start stop src)[p]? =
      if start ≤ p ∧ p < stop then src[p - start]? else buf[p]? := by
  have head : (buf.take start).length = start := by
    rw [List.length_take]
    omega
  unfold assignSlice
  rw [List.append_assoc]
  by_cases before : p < start
  · rw [if_neg (by omega), List.getElem?_append_left (by omega), List.getElem?_take_of_lt before]
  rw [List.getElem?_append_right (by omega), head]
  by_cases within : p < stop
  · rw [if_pos (by omega), List.getElem?_append_left (by omega)]
  · rw [if_neg (by omega), List.getElem?_append_right (by omega), List.getElem?_drop]
    congr 1
    omega

theorem length_packU32 {n : Nat} {bytes : List UInt8} (packed : packU32 n = some bytes) :
    n < 2 ^ 32 ∧ bytes.length = 4 := by
  unfold packU32 at packed
  split at packed
  · next small =>
    cases packed
    exact ⟨small, rfl⟩
  · cases packed

/-- The kernel reads what was packed. -/
theorem readU32_packed {n p : Nat} {bytes : List UInt8} {buf : Buffer}
    (packed : packU32 n = some bytes) (stored : ∀ j < 4, buf (p + j) = bytes.getD j 0) :
    readU32 buf p = n := by
  obtain ⟨small, _⟩ := length_packU32 packed
  have written : readU32 (writeU32 (fun _ => 0) 0 n) 0 = n := Lib.readU32_writeU32 _ _ _ small
  rw [← written]
  apply Lib.readU32_congr
  intro j hj
  rw [stored j hj]
  unfold packU32 at packed
  rw [if_pos small] at packed
  cases packed
  match j, hj with
  | 0, _ => rfl
  | 1, _ => rfl
  | 2, _ => rfl
  | 3, _ => rfl

/-! ## The directory -/

/-- The record of a file: name, start and size, and zeros. -/
structure RecordAt (buf : Buffer) (f : DiskFile) (startLba : Nat) : Prop where
  name : ∀ j < f.1.length, buf j = UInt8.ofNat (f.1.getD j ' ').toNat
  terminated : ∀ j, f.1.length ≤ j → j < 20 → buf j = 0
  short : f.1.length < 20
  start : readU32 buf 20 = startLba
  size : readU32 buf 24 = f.2.length

theorem direntOf_record {f : DiskFile} {startLba : Nat} {entry : List UInt8}
    (made : direntOf f startLba = some entry) :
    entry.length = 32 ∧ RecordAt (fun p => entry.getD p 0) f startLba := by
  unfold direntOf at made
  split at made
  · cases made
  next short =>
  simp only [Option.bind_eq_bind, Option.bind_eq_some_iff] at made
  obtain ⟨name, encoded, start, packedStart, size, packedSize, same⟩ := made
  obtain ⟨_, startLength⟩ := length_packU32 packedStart
  obtain ⟨_, sizeLength⟩ := length_packU32 packedSize
  have bytes : name = f.1.map fun c => UInt8.ofNat c.toNat := by
    unfold encodeAscii at encoded
    split at encoded
    · cases encoded
      rfl
    · cases encoded
  have nameLength : name.length = f.1.length := by rw [bytes, List.length_map]
  cases same
  have blank : (zeroBytes 32).length = 32 := List.length_replicate
  have first : (assignSlice (zeroBytes 32) 0 f.1.length name).length = 32 :=
    (length_assignSlice (by omega) (by omega)).trans blank
  have second : (assignSlice (assignSlice (zeroBytes 32) 0 f.1.length name) 20 24 start).length =
      32 := (length_assignSlice (by omega) (by omega)).trans first
  have entry (p : Nat) : (assignSlice (assignSlice (assignSlice (zeroBytes 32) 0 f.1.length name)
      20 24 start) 24 28 size).getD p 0 =
      if 24 ≤ p ∧ p < 28 then size.getD (p - 24) 0
      else if 20 ≤ p ∧ p < 24 then start.getD (p - 20) 0
      else if p < f.1.length then name.getD p 0 else 0 := by
    simp only [List.getD_eq_getElem?_getD]
    rw [getElem?_assignSlice p (by omega) (by omega)]
    split
    · rfl
    rw [getElem?_assignSlice p (by omega) (by omega)]
    split
    · rfl
    rw [getElem?_assignSlice p (by omega) (by omega)]
    by_cases inName : p < f.1.length
    · rw [if_pos ⟨Nat.zero_le _, inName⟩, if_pos inName, Nat.sub_zero]
    · rw [if_neg (fun h => inName h.2), if_neg inName, zeroBytes, List.getElem?_replicate]
      split <;> rfl
  refine ⟨(length_assignSlice (by omega) (by omega)).trans second, fun j hj => ?_,
    fun j low high => ?_, by omega, ?_, ?_⟩
  · rw [entry, if_neg (by omega), if_neg (by omega), if_pos hj, bytes]
    simp [hj]
  · rw [entry, if_neg (by omega), if_neg (by omega), if_neg (by omega)]
  · refine readU32_packed packedStart fun j hj => ?_
    rw [entry, if_neg (by omega), if_pos (by omega), Nat.add_sub_cancel_left]
  · refine readU32_packed packedSize fun j hj => ?_
    rw [entry, if_pos (by omega), Nat.add_sub_cancel_left]

/-- The sectors of some files. -/
def sectorSum (files : List DiskFile) : Nat := (files.map fun f => sectorsOf f.2.length).sum

theorem sectorSum_cons (f : DiskFile) (rest : List DiskFile) :
    sectorSum (f :: rest) = sectorsOf f.2.length + sectorSum rest := by
  simp [sectorSum]

/-- The records are at their places, and nothing else has changed. -/
theorem directoryLoop_records {files : List DiskFile} {i lba : Nat}
    {directory result : List UInt8} (done : directoryLoop files i directory lba = some result)
    (length : directory.length = 512) (room : i + files.length ≤ 16) :
    result.length = 512 ∧ (∀ p, p < 32 * i → result.getD p 0 = directory.getD p 0) ∧
      ∀ k f, files[k]? = some f → RecordAt (fun p => result.getD (32 * (i + k) + p) 0) f
        (lba + sectorSum (files.take k)) := by
  induction files generalizing i lba directory with
  | nil =>
    cases done
    exact ⟨length, fun _ _ => rfl, fun k f found => by cases found⟩
  | cons f rest ih =>
    rw [directoryLoop, Option.bind_eq_bind, Option.bind_eq_some_iff] at done
    obtain ⟨entry, made, done⟩ := done
    obtain ⟨entryLength, record⟩ := direntOf_record made
    rw [List.length_cons] at room
    have slice (p : Nat) := @getElem?_assignSlice directory entry _ _ p
      (show i * 32 + entry.length = (i + 1) * 32 by omega) (by omega)
    obtain ⟨resultLength, before, records⟩ := ih done
      ((length_assignSlice (by omega) (by omega)).trans length) (by omega)
    refine ⟨resultLength, fun p hp => ?_, fun k g found => ?_⟩
    · rw [before p (by omega), List.getD_eq_getElem?_getD, slice, if_neg (by omega),
        ← List.getD_eq_getElem?_getD]
    · cases k with
      | zero =>
        cases found
        have own (p : Nat) (hp : p < 32) :
            result.getD (32 * (i + 0) + p) 0 = entry.getD p 0 := by
          rw [before _ (by omega), List.getD_eq_getElem?_getD, slice, if_pos (by omega),
            ← List.getD_eq_getElem?_getD]
          congr 1
          omega
        have fields (q : Nat) (hq : q + 4 ≤ 32) :
            readU32 (fun p => result.getD (32 * (i + 0) + p) 0) q =
              readU32 (fun p => entry.getD p 0) q :=
          Lib.readU32_congr fun j hj => own _ (by omega)
        have short := record.short
        refine ⟨fun j hj => ?_, fun j low high => ?_, short, ?_, ?_⟩
        · exact (own j (by omega)).trans (record.name j hj)
        · exact (own j (by omega)).trans (record.terminated j low high)
        · exact (fields 20 (by decide)).trans record.start
        · exact (fields 24 (by decide)).trans record.size
      | succ k =>
        have later := records k g found
        rw [List.take_succ_cons, sectorSum_cons, ← Nat.add_assoc lba]
        have place : i + (k + 1) = i + 1 + k := by omega
        rw [place]
        exact later

/-! ## The contents -/

theorem targetLba_eq (files : List DiskFile) (i : Nat) :
    targetLba (files.map Prod.snd) i = 2064 + sectorSum (files.take i) := by
  unfold targetLba mkdiskFsBaseLba sectorSum
  rw [← List.map_take, List.map_map]
  rfl

theorem getD_append_left {xs ys : List UInt8} {p : Nat} (h : p < xs.length) :
    (xs ++ ys).getD p 0 = xs.getD p 0 := by
  rw [List.getD_eq_getElem?_getD, List.getElem?_append_left h, ← List.getD_eq_getElem?_getD]

theorem getD_append_right {xs ys : List UInt8} {p : Nat} (h : xs.length ≤ p) :
    (xs ++ ys).getD p 0 = ys.getD (p - xs.length) 0 := by
  rw [List.getD_eq_getElem?_getD, List.getElem?_append_right h, ← List.getD_eq_getElem?_getD]

theorem getD_zeroBytes (n p : Nat) : (zeroBytes n).getD p 0 = 0 := by
  rw [List.getD_eq_getElem?_getD, zeroBytes, List.getElem?_replicate]
  split <;> rfl

/-- A file's contents begin at its target, and fill whole sectors. -/
theorem placeBlob_spec {blobs : List (List UInt8)} {data img : List UInt8} {i : Nat}
    (aligned : img.length % 512 = 0) (early : img.length ≤ 512 * targetLba blobs i) :
    (placeBlob blobs data i img).length = 512 * (targetLba blobs i + sectorsOf data.length) ∧
      (∀ p < img.length, (placeBlob blobs data i img).getD p 0 = img.getD p 0) ∧
      ∀ j < data.length,
        (placeBlob blobs data i img).getD (512 * targetLba blobs i + j) 0 = data.getD j 0 := by
  have padded : ∃ mid : List UInt8, (if img.length / 512 < targetLba blobs i then
      img ++ zeroBytes ((targetLba blobs i - img.length / 512) * 512) else img) = mid ∧
      mid.length = 512 * targetLba blobs i ∧ ∀ p < img.length, mid.getD p 0 = img.getD p 0 := by
    refine ⟨_, rfl, ?_, fun p hp => ?_⟩
    · split
      · rw [List.length_append, zeroBytes, List.length_replicate]
        omega
      · omega
    · split
      · exact getD_append_left hp
      · rfl
  obtain ⟨mid, same, length, kept⟩ := padded
  have filled : (placeBlob blobs data i img).length =
        512 * (targetLba blobs i + sectorsOf data.length) ∧
      ∀ p < (mid ++ data).length,
        (placeBlob blobs data i img).getD p 0 = (mid ++ data).getD p 0 := by
    unfold placeBlob sectorsOf
    simp only [same]
    have total : (mid ++ data).length = 512 * targetLba blobs i + data.length := by
      rw [List.length_append, length]
    split
    · refine ⟨?_, fun p hp => getD_append_left hp⟩
      rw [List.length_append, zeroBytes, List.length_replicate]
      omega
    · exact ⟨by omega, fun _ _ => rfl⟩
  obtain ⟨size, bytes⟩ := filled
  rw [List.length_append, length] at bytes
  refine ⟨size, fun p hp => ?_, fun j hj => ?_⟩
  · rw [bytes p (by omega), getD_append_left (by omega), kept p hp]
  · rw [bytes _ (by omega), getD_append_right (by omega), length, Nat.add_sub_cancel_left]

theorem blobLoop_spec {files done rest : List DiskFile} {img : List UInt8}
    (parts : files = done ++ rest) (aligned : img.length % 512 = 0)
    (early : img.length ≤ 512 * (2064 + sectorSum done)) :
    let result := blobLoop (files.map Prod.snd) (rest.map Prod.snd) done.length img
    result.length = (if rest = [] then img.length else 512 * (2064 + sectorSum files)) ∧
      (∀ p < img.length, result.getD p 0 = img.getD p 0) ∧
      ∀ k f, rest[k]? = some f → ∀ j < f.2.length,
        result.getD (512 * (2064 + sectorSum (done ++ rest.take k)) + j) 0 = f.2.getD j 0 := by
  induction rest generalizing done img with
  | nil => exact ⟨rfl, fun _ _ => rfl, fun k f found => by cases found⟩
  | cons f rest ih =>
    have target : targetLba (files.map Prod.snd) done.length = 2064 + sectorSum done := by
      rw [targetLba_eq, parts, List.take_left]
    obtain ⟨size, kept, own⟩ := @placeBlob_spec (files.map Prod.snd) f.2 _
      done.length aligned (target ▸ early)
    rw [target] at size own
    have through : sectorSum (done ++ [f]) = sectorSum done + sectorsOf f.2.length := by
      simp [sectorSum]
    have next := @ih (done ++ [f])
      (placeBlob (files.map Prod.snd) f.2 done.length img) (by simp [parts]) (by omega)
      (by rw [through]; omega)
    rw [List.length_append, List.length_singleton] at next
    obtain ⟨length, before, later⟩ := next
    simp only [List.map_cons, blobLoop]
    refine ⟨?_, fun p hp => ?_, fun k g found j hj => ?_⟩
    · rw [length, if_neg (List.cons_ne_nil f rest)]
      split
      · next last =>
        rw [size, parts, last, through, Nat.add_assoc]
      · rfl
    · rw [before p (by omega), kept p hp]
    · cases k with
      | zero =>
        cases found
        have inside : j < 512 * sectorsOf f.2.length := by
          unfold sectorsOf
          omega
        rw [List.take_zero, List.append_nil, before _ (by omega), own j hj]
      | succ k =>
        have := later k g found j hj
        rw [List.append_assoc] at this
        exact this

/-! ## The image -/

theorem length_bootArea {boot kernel : List UInt8} (fits : (boot ++ kernel).length ≤ 2048 * 512) :
    (bootArea boot kernel).length = 2048 * 512 := by
  unfold bootArea mkdiskFsBaseLba
  simp only
  split
  · rw [List.length_append, zeroBytes, List.length_replicate]
    omega
  · omega

/-- What the image holds from sector 2048 on. -/
structure ImageHolds (img : List UInt8) (files : List DiskFile) : Prop where
  magic : ∀ j < 4, img.getD (512 * 2048 + j) 0 = [0x4D, 0x46, 0x53, 0x31].getD j 0
  count : readU32 (fun p => img.getD (512 * 2048 + p) 0) 4 = files.length
  records : ∀ k f, files[k]? = some f →
    RecordAt (fun p => img.getD (512 * 2049 + (32 * k + p)) 0) f (2064 + sectorSum (files.take k))
  contents : ∀ k f, files[k]? = some f → ∀ j < f.2.length,
    img.getD (512 * (2064 + sectorSum (files.take k)) + j) 0 = f.2.getD j 0

theorem sectorSum_take_le {files : List DiskFile} {k : Nat} {f : DiskFile}
    (found : files[k]? = some f) :
    sectorSum (files.take k) + sectorsOf f.2.length ≤ sectorSum files := by
  induction files generalizing k with
  | nil => cases found
  | cons g rest ih =>
    cases k with
    | zero =>
      cases found
      rw [sectorSum_cons]
      simp [sectorSum]
    | succ k =>
      have := ih found
      rw [List.take_succ_cons, sectorSum_cons, sectorSum_cons]
      omega

theorem build_holds {boot kernel img : List UInt8} {files : List DiskFile}
    (fits : (boot ++ kernel).length ≤ 2048 * 512) (built : build boot kernel files = some img) :
    files.length ≤ 16 ∧
      img.length = (if files = [] then 512 * 2050 else 512 * (2064 + sectorSum files)) ∧
      ImageHolds img files := by
  unfold build at built
  split at built
  · cases built
  next few =>
  unfold mkdiskMaxEntries at few
  simp only [Option.bind_eq_bind, Option.bind_eq_some_iff] at built
  obtain ⟨count, packed, directory, listed, same⟩ := built
  cases same
  obtain ⟨_, countLength⟩ := length_packU32 packed
  obtain ⟨directoryLength, _, records⟩ := directoryLoop_records listed
    List.length_replicate (by omega)
  have boots := length_bootArea fits
  have blank : (zeroBytes 512).length = 512 := List.length_replicate
  generalize bootArea boot kernel = head at *
  have superblock (p : Nat) : (assignSlice (assignSlice (zeroBytes 512) 0 4
      [0x4D, 0x46, 0x53, 0x31]) 4 8 count).getD p 0 =
      if 4 ≤ p ∧ p < 8 then count.getD (p - 4) 0
      else if p < 4 then [0x4D, 0x46, 0x53, 0x31].getD p 0 else 0 := by
    simp only [List.getD_eq_getElem?_getD]
    rw [getElem?_assignSlice p (by omega) (by
      rw [length_assignSlice (by decide) (by rw [blank]; decide), blank]
      decide)]
    split
    · rfl
    rw [getElem?_assignSlice p (by decide) (by rw [blank]; decide)]
    by_cases low : p < 4
    · rw [if_pos ⟨Nat.zero_le _, low⟩, if_pos low, Nat.sub_zero]
    · rw [if_neg (fun h => low h.2), if_neg low, ← List.getD_eq_getElem?_getD, getD_zeroBytes]
  have superblockLength : (assignSlice (assignSlice (zeroBytes 512) 0 4
      [0x4D, 0x46, 0x53, 0x31]) 4 8 count).length = 512 := by
    rw [length_assignSlice (by omega) (by
      rw [length_assignSlice (by decide) (by rw [blank]; decide), blank]
      decide), length_assignSlice (by decide) (by rw [blank]; decide), blank]
  generalize assignSlice (assignSlice (zeroBytes 512) 0 4 [0x4D, 0x46, 0x53, 0x31]) 4 8 count =
    sb at *
  have start : (head ++ sb ++ directory).length = 2050 * 512 := by
    rw [List.length_append, List.length_append, boots, superblockLength, directoryLength]
  obtain ⟨length, kept, contents⟩ := @blobLoop_spec files [] files
    (head ++ sb ++ directory) rfl (by rw [start]) (by rw [start]; simp [sectorSum])
  simp only [List.length_nil] at length kept contents
  rw [start] at length kept
  have sbByte (p : Nat) (hp : p < 512) :
      (head ++ sb ++ directory).getD (512 * 2048 + p) 0 = sb.getD p 0 := by
    rw [getD_append_left (by rw [List.length_append]; omega), getD_append_right (by omega), boots]
    have place : 512 * 2048 + p - 2048 * 512 = p := by omega
    rw [place]
  have dirByte (p : Nat) (hp : p < 512) :
      (head ++ sb ++ directory).getD (512 * 2049 + p) 0 = directory.getD p 0 := by
    rw [getD_append_right (by rw [List.length_append]; omega), List.length_append, boots,
      superblockLength]
    have place : 512 * 2049 + p - (2048 * 512 + 512) = p := by omega
    rw [place]
  refine ⟨by omega, ?_, ?_, ?_, fun k f found => ?_, fun k f found j hj => ?_⟩
  · rw [length]
  · intro j hj
    rw [kept _ (by omega), sbByte j (by omega), superblock, if_neg (by omega), if_pos hj]
  · refine readU32_packed packed fun j hj => ?_
    rw [kept _ (by omega), sbByte _ (by omega), superblock, if_pos (by omega),
      Nat.add_sub_cancel_left]
  · have hk : k < files.length := (List.getElem?_eq_some_iff.mp found).1
    have record := records k f found
    have byte (p : Nat) (hp : p < 32) :
        (blobLoop (files.map Prod.snd) (files.map Prod.snd) 0 (head ++ sb ++ directory)).getD
          (512 * 2049 + (32 * k + p)) 0 = directory.getD (32 * (0 + k) + p) 0 := by
      rw [kept _ (by omega), dirByte _ (by omega), Nat.zero_add]
    have fields (q : Nat) (hq : q + 4 ≤ 32) : readU32 (fun p => (blobLoop (files.map Prod.snd)
        (files.map Prod.snd) 0 (head ++ sb ++ directory)).getD (512 * 2049 + (32 * k + p)) 0) q =
          readU32 (fun p => directory.getD (32 * (0 + k) + p) 0) q :=
      Lib.readU32_congr fun j hj => byte _ (by omega)
    have short := record.short
    refine ⟨fun j hj => ?_, fun j low high => ?_, short, ?_, ?_⟩
    · exact (byte j (by omega)).trans (record.name j hj)
    · exact (byte j (by omega)).trans (record.terminated j low high)
    · exact (fields 20 (by decide)).trans record.start
    · exact (fields 24 (by decide)).trans record.size
  · exact contents k f found j hj

/-- A file's sectors end before the image does. -/
theorem file_inside_image {img : List UInt8} {files : List DiskFile} {k : Nat} {f : DiskFile}
    (length : img.length = if files = [] then 512 * 2050 else 512 * (2064 + sectorSum files))
    (found : files[k]? = some f) :
    512 * (2064 + sectorSum (files.take k) + sectorsOf f.2.length) ≤ img.length := by
  have some_ : files ≠ [] := by
    rintro rfl
    cases found
  have within := sectorSum_take_le found
  rw [length, if_neg some_]
  omega

/-- What `format_ufs_region` leaves of the image, and what it puts behind it. -/
structure Formatted (img img' : List UInt8) : Prop where
  fits : img.length ≤ 512 * 8192
  kept : ∀ p < img.length, img'.getD p 0 = img.getD p 0
  magic : ∀ j < 4, img'.getD (512 * 8192 + j) 0 = [0x55, 0x46, 0x53, 0x31].getD j 0
  next : readU32 (fun p => img'.getD (512 * 8192 + p) 0) 8 = 8198
  blank : ∀ p, 512 * 8193 ≤ p → img'.getD p 0 = 0

theorem getD_assignSlice {buf src : List UInt8} {start stop : Nat} (p : Nat)
    (size : start + src.length = stop) (inside : stop ≤ buf.length) :
    (assignSlice buf start stop src).getD p 0 =
      if start ≤ p ∧ p < stop then src.getD (p - start) 0 else buf.getD p 0 := by
  rw [List.getD_eq_getElem?_getD, getElem?_assignSlice p size inside]
  split
  · rw [List.getD_eq_getElem?_getD]
  · rw [List.getD_eq_getElem?_getD]

theorem length_zeroBytes (n : Nat) : (zeroBytes n).length = n := List.length_replicate

theorem padded_image {img : List UInt8} (fits : img.length ≤ 512 * 8192) :
    ∃ head : List UInt8, (if img.length < mkdiskUfsBaseLba * 512 then
        img ++ zeroBytes (mkdiskUfsBaseLba * 512 - img.length) else img) = head ∧
      head.length = 512 * 8192 ∧ ∀ p < img.length, head.getD p 0 = img.getD p 0 := by
  unfold mkdiskUfsBaseLba
  refine ⟨_, rfl, ?_, fun p hp => ?_⟩
  · split
    · rw [List.length_append, length_zeroBytes]
      omega
    · omega
  · split
    · exact getD_append_left hp
    · rfl

theorem formatUfsRegion_formatted {img img' : List UInt8}
    (formatted : formatUfsRegion img = some img') : Formatted img img' := by
  unfold formatUfsRegion at formatted
  simp only at formatted
  split at formatted
  · cases formatted
  next small =>
  have fits : img.length ≤ 512 * 8192 := by
    unfold mkdiskUfsBaseLba at small
    omega
  simp only [Option.bind_eq_bind, Option.bind_eq_some_iff] at formatted
  obtain ⟨count, packedCount, next, packedNext, same⟩ := formatted
  cases same
  obtain ⟨_, countLength⟩ := length_packU32 packedCount
  obtain ⟨_, nextLength⟩ := length_packU32 packedNext
  obtain ⟨head, padded, headLength, kept⟩ := padded_image fits
  rw [padded]
  obtain ⟨first, first_eq⟩ : ∃ b, assignSlice (zeroBytes 512) 0 4 [0x55, 0x46, 0x53, 0x31] = b :=
    ⟨_, rfl⟩
  have firstLength : first.length = 512 := by
    rw [← first_eq, length_assignSlice (by decide) (by rw [length_zeroBytes]; decide), length_zeroBytes]
  have secondLength : (assignSlice first 4 8 count).length = 512 := by
    rw [length_assignSlice (by omega) (by omega), firstLength]
  have thirdLength : (assignSlice (assignSlice first 4 8 count) 8 12 next).length = 512 := by
    rw [length_assignSlice (by omega) (by omega), secondLength]
  rw [first_eq]
  have superblock (p : Nat) (hp : p < 512) : (head ++
      assignSlice (assignSlice first 4 8 count) 8 12 next ++ zeroBytes (mkdiskUfsDirSectors * 512) ++
      zeroBytes (mkdiskUfsDataReservedSectors * 512)).getD (512 * 8192 + p) 0 =
        (assignSlice (assignSlice first 4 8 count) 8 12 next).getD p 0 := by
    have reached : 512 * 8192 + p <
        (head ++ assignSlice (assignSlice first 4 8 count) 8 12 next).length := by
      rw [List.length_append]
      omega
    have place : 512 * 8192 + p - head.length = p := by omega
    rw [List.append_assoc, getD_append_left reached, getD_append_right (by omega), place]
  refine ⟨fits, fun p hp => ?_, fun j hj => ?_, ?_, fun p hp => ?_⟩
  · rw [List.append_assoc, List.append_assoc, getD_append_left (by omega), kept p hp]
  · rw [superblock j (by omega), getD_assignSlice j (by omega) (by omega), if_neg (by omega),
      getD_assignSlice j (by omega) (by omega), if_neg (by omega), ← first_eq,
      getD_assignSlice j (by decide) (by rw [length_zeroBytes]; decide), if_pos ⟨Nat.zero_le j, hj⟩,
      Nat.sub_zero]
  · refine readU32_packed packedNext fun j hj => ?_
    rw [superblock _ (by omega), getD_assignSlice _ (by omega) (by omega), if_pos (by omega),
      Nat.add_sub_cancel_left]
  · have past : (head ++ assignSlice (assignSlice first 4 8 count) 8 12 next).length ≤ p := by
      rw [List.length_append]
      omega
    rw [List.append_assoc, getD_append_right past]
    by_cases inDirectory : p - (head ++ assignSlice (assignSlice first 4 8 count) 8 12 next).length <
        (zeroBytes (mkdiskUfsDirSectors * 512)).length
    · rw [getD_append_left inDirectory, getD_zeroBytes]
    · rw [getD_append_right (Nat.le_of_not_lt inDirectory), getD_zeroBytes]

theorem ImageHolds.formatted {img img' : List UInt8} {files : List DiskFile}
    (holds : ImageHolds img files) (formatted : Formatted img img') (few : files.length ≤ 16)
    (length : img.length = if files = [] then 512 * 2050 else 512 * (2064 + sectorSum files)) :
    ImageHolds img' files := by
  have long : 512 * 2050 ≤ img.length := by
    rw [length]
    split <;> omega
  have same (p : Nat) (hp : p < 512 * 2050) : img'.getD p 0 = img.getD p 0 :=
    formatted.kept p (by omega)
  refine ⟨fun j hj => ?_, ?_, fun k f found => ?_, fun k f found j hj => ?_⟩
  · rw [same _ (by omega), holds.magic j hj]
  · rw [← holds.count]
    exact Lib.readU32_congr fun j hj => same _ (by omega)
  · have hk : k < files.length := (List.getElem?_eq_some_iff.mp found).1
    have record := holds.records k f found
    have short := record.short
    refine ⟨fun j hj => ?_, fun j low high => ?_, short, ?_, ?_⟩
    · rw [same _ (by omega)]
      exact record.name j hj
    · rw [same _ (by omega)]
      exact record.terminated j low high
    · rw [← record.start]
      exact Lib.readU32_congr fun j hj => same _ (by omega)
    · rw [← record.size]
      exact Lib.readU32_congr fun j hj => same _ (by omega)
  · have inside := file_inside_image length found
    have whole : f.2.length ≤ 512 * sectorsOf f.2.length := by
      unfold sectorsOf
      omega
    rw [formatted.kept _ (by omega)]
    exact holds.contents k f found j hj

/-- It refuses an image that reaches into the region, and no other. -/
theorem formatUfsRegion_isSome {img : List UInt8} (fits : img.length ≤ 512 * 8192) :
    ∃ img', formatUfsRegion img = some img' := by
  unfold formatUfsRegion
  simp only
  rw [if_neg (by unfold mkdiskUfsBaseLba; omega)]
  exact ⟨_, rfl⟩

end MiniKernel.Storage
