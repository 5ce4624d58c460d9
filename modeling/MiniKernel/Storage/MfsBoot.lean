import MiniKernel.Storage.Mkdisk

/-!
# Booting from the image

Source: kernel/core/fs.c:16-111 and kernel/core/ufs.c:119-145, on the disk that
mkdisk.py has written. `fs_find` compares with `str_eq` from the first byte of
the static entry on; what lies in memory behind that entry is a field of the
module's state.
-/
namespace MiniKernel.Storage
open Drivers
open Lib (Buffer readU32)

def fsSuperblockLba : Nat := 2048
def fsDirLba : Nat := 2049
def fsMaxEntries : Nat := 16

structure Fs where
  dirSector : Buffer
  ready : Bool
  cachedFileCount : Nat
  /-- The memory behind the static entry of `fs_entry`. -/
  behind : Buffer
  drive : Drive

def hasMfsMagic (superblock : Buffer) : Bool :=
  superblock 0 = 0x4D ∧ superblock 1 = 0x46 ∧ superblock 2 = 0x53 ∧ superblock 3 = 0x31

def fsInit (s : Fs) : Fs :=
  let s := { s with ready := false, cachedFileCount := 0 }
  let sb := ataReadSectors fsSuperblockLba 1 s.drive
  let s := { s with drive := sb.2.2 }
  if ¬ sb.1 then s
  else
    let superblock := bufferOf sb.2.1
    if ¬ hasMfsMagic superblock then s
    else
      let dir := ataReadSectors fsDirLba 1 s.drive
      let s := { s with drive := dir.2.2 }
      if ¬ dir.1 then s
      else
        let count := readU32 superblock 4
        { s with
          dirSector := bufferOf dir.2.1
          cachedFileCount := if count > fsMaxEntries then fsMaxEntries else count
          ready := true }

def fsFileCount (s : Fs) : Nat := if s.ready then s.cachedFileCount else 0

/-- `fs_entry`: the memory from `entry.name` on, and the numbers. The struct is
the record's first 28 bytes. -/
def fsEntry (s : Fs) (index : Nat) : Option (Buffer × FsDirent) :=
  if ¬ s.ready ∨ index ≥ s.cachedFileCount then none
  else
    let raw : Buffer := fun p => s.dirSector (index * 32 + p)
    some (fun p => if p < 28 then raw p else s.behind p,
      { startLba := BitVec.ofNat 32 (readU32 raw 20)
        sizeBytes := BitVec.ofNat 32 (readU32 raw 24) })

def fsFind (s : Fs) (name : CString) : Option FsDirent :=
  (List.range (fsFileCount s)).findSome? fun i =>
    match fsEntry s i with
    | some e => if strEq e.1 name then some e.2 else none
    | none => none

/-- The bytes of a name in the image. -/
def asciiBytes (name : List Char) : List UInt8 := name.map fun c => UInt8.ofNat c.toNat

/-- Non-empty, and of printable characters. -/
def Printable (name : List Char) : Prop :=
  name ≠ [] ∧ ∀ c ∈ name, 0x20 ≤ c.toNat ∧ c.toNat ≤ 0x7E

theorem Printable.nonzero {name : List Char} (printable : Printable name) :
    ∀ b ∈ asciiBytes name, b ≠ 0 := by
  intro b hb
  obtain ⟨c, hc, rfl⟩ := List.mem_map.mp hb
  obtain ⟨low, high⟩ := printable.2 c hc
  intro zero
  have value : (UInt8.ofNat c.toNat).toNat = c.toNat := UInt8.toNat_ofNat_of_lt' (by
    change c.toNat < 256
    omega)
  rw [zero] at value
  change 0 = c.toNat at value
  omega

theorem asciiBytes_inj {a b : List Char} (ha : ∀ c ∈ a, c.toNat ≤ 0x7E)
    (hb : ∀ c ∈ b, c.toNat ≤ 0x7E) (same : asciiBytes a = asciiBytes b) : a = b := by
  induction a generalizing b with
  | nil =>
    cases b with
    | nil => rfl
    | cons d rest => cases same
  | cons c rest ih =>
    cases b with
    | nil => cases same
    | cons d rest' =>
      obtain ⟨first, later⟩ := List.cons.inj same
      have hc := ha c List.mem_cons_self
      have hd := hb d List.mem_cons_self
      have bytes := congrArg UInt8.toNat first
      rw [UInt8.toNat_ofNat_of_lt' (by change c.toNat < 256; omega),
        UInt8.toNat_ofNat_of_lt' (by change d.toNat < 256; omega)] at bytes
      rw [Char.toNat_inj.mp bytes, ih (fun x hx => ha x (List.mem_cons_of_mem c hx))
        (fun x hx => hb x (List.mem_cons_of_mem d hx)) later]

/-- A terminated name matches itself and nothing else. -/
theorem strEq_iff {a : Buffer} {stored : List UInt8} {name : CString}
    (bytes : ∀ j < stored.length, a j = stored.getD j 0) (nonzero : ∀ b ∈ stored, b ≠ 0)
    (terminated : a stored.length = 0) : strEq a name = true ↔ name.bytes = stored := by
  have named (l : List UInt8) (hl : ∀ b ∈ l, b ≠ 0) (j : Nat) (hj : j < l.length) :
      l.getD j 0 ≠ 0 := by
    rw [List.getD_eq_getElem?_getD, List.getElem?_eq_getElem hj]
    exact hl _ (List.getElem_mem hj)
  simp only [strEq, Bool.and_eq_true, List.all_eq_true, List.mem_range, decide_eq_true_eq]
  constructor
  · intro ⟨equal, ends⟩
    have lengths : name.bytes.length = stored.length := by
      rcases Nat.lt_trichotomy name.bytes.length stored.length with less | same | more
      · exact absurd ((bytes _ less).symm.trans ends) (named _ nonzero _ less)
      · exact same
      · exact absurd ((equal _ more).symm.trans terminated) (named _ name.nonzero _ more)
    refine List.ext_getElem lengths fun j hj hj' => ?_
    have here := (equal j hj).symm.trans (bytes j hj')
    rw [List.getD_eq_getElem?_getD, List.getD_eq_getElem?_getD, List.getElem?_eq_getElem hj,
      List.getElem?_eq_getElem hj'] at here
    exact here
  · intro same
    rw [same]
    exact ⟨bytes, terminated⟩

/-! ## Mounting -/

theorem bufferOf_diskOf (img : List UInt8) (lba p : Nat) (hp : p < 512) :
    bufferOf [diskOf img lba] p = img.getD (512 * lba + p) 0 := by
  have first : p / 512 = 0 := by omega
  have within : p % 512 = p := by omega
  simp only [bufferOf, first, List.getElem?_cons_zero, diskOf, within]

/-- A disk that works, with this image on it. -/
structure OnDisk (d : Drive) (img : List UInt8) : Prop where
  sectors : d.sectors = diskOf img
  noFaults : NoFaults d

/-- The mounted filesystem: one record for each file. -/
structure MountedFrom (s : Fs) (img : List UInt8) (files : List DiskFile) : Prop where
  ready : s.ready = true
  count : s.cachedFileCount = files.length
  records : ∀ k f, files[k]? = some f →
    RecordAt (fun p => s.dirSector (k * 32 + p)) f (2064 + sectorSum (files.take k))
  disk : OnDisk s.drive img

theorem readSector_onDisk {d : Drive} {img : List UInt8} (disk : OnDisk d img) {lba : Nat}
    (low : lba < 2 ^ 28) :
    (ataReadSectors lba 1 d).1 = true ∧ (ataReadSectors lba 1 d).2.1 = [diskOf img lba] ∧
      OnDisk (ataReadSectors lba 1 d).2.2 img := by
  obtain ⟨ok, data, kept⟩ := ataReadSectors_ok lba 1 disk.noFaults (by decide) (by decide)
  have address : lba28 lba = lba := Nat.mod_eq_of_lt low
  refine ⟨ok, ?_, kept.sectors.trans disk.sectors, kept.noFaults disk.noFaults⟩
  rw [data, disk.sectors, address]
  rfl

theorem fsInit_mounts {s : Fs} {img : List UInt8} {files : List DiskFile}
    (few : files.length ≤ 16) (disk : OnDisk s.drive img) (holds : ImageHolds img files) :
    MountedFrom (fsInit s) img files := by
  obtain ⟨sbOk, sbData, disk'⟩ := readSector_onDisk disk (show fsSuperblockLba < 2 ^ 28 by decide)
  obtain ⟨dirOk, dirData, disk''⟩ := readSector_onDisk disk' (show fsDirLba < 2 ^ 28 by decide)
  have magicByte (j : Nat) (hj : j < 4) : bufferOf [diskOf img fsSuperblockLba] j =
      [0x4D, 0x46, 0x53, 0x31].getD j 0 :=
    (bufferOf_diskOf img fsSuperblockLba j (by omega)).trans (holds.magic j hj)
  have magic : hasMfsMagic (bufferOf [diskOf img fsSuperblockLba]) = true := by
    unfold hasMfsMagic
    rw [magicByte 0 (by decide), magicByte 1 (by decide), magicByte 2 (by decide),
      magicByte 3 (by decide)]
    decide
  have count : readU32 (bufferOf [diskOf img fsSuperblockLba]) 4 = files.length := by
    rw [← holds.count]
    exact Lib.readU32_congr fun j hj => bufferOf_diskOf img fsSuperblockLba _ (by omega)
  unfold fsInit
  simp only [sbOk, sbData, dirOk, dirData, magic, count, not_true, if_false, fsMaxEntries]
  refine ⟨rfl, if_neg (by omega), fun k f found => ?_, disk''⟩
  have hk : k < files.length := (List.getElem?_eq_some_iff.mp found).1
  have record := holds.records k f found
  have byte (p : Nat) (hp : p < 32) : bufferOf [diskOf img fsDirLba] (k * 32 + p) =
      img.getD (512 * 2049 + (32 * k + p)) 0 := by
    rw [bufferOf_diskOf img fsDirLba _ (by omega), Nat.mul_comm k]
    rfl
  have short := record.short
  refine ⟨fun j hj => ?_, fun j low high => ?_, short, ?_, ?_⟩
  · exact (byte j (by omega)).trans (record.name j hj)
  · exact (byte j (by omega)).trans (record.terminated j low high)
  · rw [← record.start]
    exact Lib.readU32_congr fun j hj => byte _ (by omega)
  · rw [← record.size]
    exact Lib.readU32_congr fun j hj => byte _ (by omega)

/-! ## Finding a file -/

/-- The entry `fs_find` returns for file number `k`. -/
def direntAt (files : List DiskFile) (k : Nat) (f : DiskFile) : FsDirent :=
  { startLba := BitVec.ofNat 32 (2064 + sectorSum (files.take k))
    sizeBytes := BitVec.ofNat 32 f.2.length }

theorem getD_asciiBytes (name : List Char) (j : Nat) (hj : j < name.length) :
    (asciiBytes name).getD j 0 = UInt8.ofNat (name.getD j ' ').toNat := by
  simp [asciiBytes, hj]

theorem fsEntry_mounted {s : Fs} {img : List UInt8} {files : List DiskFile}
    (mounted : MountedFrom s img files) {k : Nat} {f : DiskFile} (found : files[k]? = some f)
    (printable : Printable f.1) :
    ∃ bytes, fsEntry s k = some (bytes, direntAt files k f) ∧
      ∀ name, strEq bytes name = true ↔ name.bytes = asciiBytes f.1 := by
  have hk : k < files.length := (List.getElem?_eq_some_iff.mp found).1
  have record := mounted.records k f found
  have short := record.short
  have length : (asciiBytes f.1).length = f.1.length := List.length_map _
  refine ⟨fun p => if p < 28 then s.dirSector (k * 32 + p) else s.behind p, ?_, fun name =>
    strEq_iff (fun j hj => ?_) printable.nonzero ?_⟩
  · unfold fsEntry direntAt
    rw [if_neg (by rw [mounted.ready, mounted.count]; simp; omega)]
    simp only [record.start, record.size]
  · rw [if_pos (by omega), getD_asciiBytes f.1 j (by omega)]
    exact record.name j (by omega)
  · rw [length, if_pos (by omega)]
    exact record.terminated f.1.length (Nat.le_refl _) short

/-- The search is the search of the list of files. -/
theorem fsFind_mounted {s : Fs} {img : List UInt8} {files : List DiskFile}
    (mounted : MountedFrom s img files) (printable : ∀ f ∈ files, Printable f.1)
    (distinct : (files.map Prod.fst).Nodup) (name : CString) :
    (∀ k f, files[k]? = some f → name.bytes = asciiBytes f.1 →
        fsFind s name = some (direntAt files k f)) ∧
      ((∀ f ∈ files, name.bytes ≠ asciiBytes f.1) → fsFind s name = none) := by
  have count : fsFileCount s = files.length := by
    rw [fsFileCount, if_pos mounted.ready, mounted.count]
  have turn (i : Nat) (g : DiskFile) (here : files[i]? = some g) : (match fsEntry s i with
      | some e => if strEq e.1 name then some e.2 else none
      | none => none) = if name.bytes = asciiBytes g.1 then some (direntAt files i g) else none := by
    obtain ⟨bytes, entry, matches_⟩ :=
      fsEntry_mounted mounted here (printable g (List.mem_of_getElem? here))
    rw [entry]
    exact if_congr (matches_ name) rfl rfl
  constructor
  · intro k f found same
    have hk : k < files.length := (List.getElem?_eq_some_iff.mp found).1
    unfold fsFind
    rw [count, List.findSome?_eq_some_iff]
    refine ⟨List.range k, k, (List.range' (k + 1) (files.length - (k + 1))), ?_, ?_, ?_⟩
    · have parts : files.length = k + (1 + (files.length - (k + 1))) := by omega
      rw [List.range_eq_range', List.range_eq_range', parts, ← List.range'_append_1,
        ← List.range'_append_1]
      simp
      omega
    · rw [turn k f found, if_pos same]
    · intro i hi
      have before := List.mem_range.mp hi
      have inside : i < files.length := by omega
      rw [turn i files[i] (List.getElem?_eq_getElem inside), if_neg]
      intro also
      -- two files of one name are one file
      have names := asciiBytes_inj
        (fun c hc => ((printable files[i] (List.getElem_mem inside)).2 c hc).2)
        (fun c hc => ((printable f (List.mem_of_getElem? found)).2 c hc).2) (also.symm.trans same)
      have := (@List.Nodup.getElem_inj_iff _ _ distinct i
        (by rw [List.length_map]; omega) k (by rw [List.length_map]; omega)).mp (by
          rw [List.getElem_map, List.getElem_map, names]
          exact congrArg Prod.fst (List.getElem?_eq_some_iff.mp found).2.symm)
      omega
  · intro absent
    unfold fsFind
    rw [count, List.findSome?_eq_none_iff]
    intro i hi
    have inside := List.mem_range.mp hi
    rw [turn i files[i] (List.getElem?_eq_getElem inside),
      if_neg (absent files[i] (List.getElem_mem inside))]

/-! ## Reading it -/

theorem chunkStores_append (dst : Nat) (first second : List Sector) :
    chunkStores dst (first ++ second) =
      chunkStores dst first ++ chunkStores (dst + 512 * first.length) second := by
  induction first generalizing dst with
  | nil => rfl
  | cons sector rest ih =>
    rw [List.cons_append, chunkStores, chunkStores, ih, List.append_assoc, List.length_cons]
    have place : dst + 512 + 512 * rest.length = dst + 512 * (rest.length + 1) := by omega
    rw [place]

theorem applyStores_append (mem : Nat → UInt8) (first second : List Store) :
    applyStores mem (first ++ second) = applyStores (applyStores mem first) second :=
  List.foldl_append

/-- A byte is what was stored there, where all stores to it agree. -/
theorem applyStores_mem {stores : List Store} {a : Nat} {v : UInt8} (mem : Nat → UInt8)
    (stored : (a, v) ∈ stores) (agree : ∀ w, (a, w) ∈ stores → w = v) :
    applyStores mem stores a = v := by
  induction stores generalizing mem with
  | nil => cases stored
  | cons s rest ih =>
    by_cases later : ∃ w, (a, w) ∈ rest
    · obtain ⟨w, hw⟩ := later
      have same := agree w (List.mem_cons_of_mem s hw)
      exact ih (Function.update mem s.1 s.2) (same ▸ hw) fun w' hw' =>
        agree w' (List.mem_cons_of_mem s hw')
    · have first : s = (a, v) := by
        rcases List.mem_cons.mp stored with here | there
        · exact here.symm
        · exact absurd ⟨v, there⟩ later
      have untouched := applyStores_other (Function.update mem s.1 s.2) rest a
        fun w hw => later ⟨w, hw⟩
      unfold applyStores at untouched ⊢
      rw [List.foldl_cons, untouched, first, Function.update_self]

theorem applyStores_sector (mem : Nat → UInt8) (dst : Nat) (sector : Sector) (i : Fin 512) :
    applyStores mem (sectorStores dst sector) (dst + i.val) = sector i := by
  refine applyStores_mem mem (List.mem_map.mpr ⟨i, List.mem_finRange i, rfl⟩) fun w hw => ?_
  obtain ⟨j, _, same⟩ := List.mem_map.mp hw
  obtain ⟨place, rfl⟩ := Prod.mk.inj same
  rw [Fin.ext (Nat.add_left_cancel place)]

/-- The sectors lie in memory one behind the other. -/
theorem applyStores_chunk (mem : Nat → UInt8) (dst : Nat) (sectors : List Sector) (p : Nat)
    (hp : p < 512 * sectors.length) :
    applyStores mem (chunkStores dst sectors) (dst + p) = bufferOf sectors p := by
  induction sectors generalizing mem dst p with
  | nil => exact absurd hp (by simp)
  | cons sector rest ih =>
    rw [chunkStores, applyStores_append]
    rcases Nat.lt_or_ge p 512 with inFirst | later
    · have first : p / 512 = 0 := by omega
      have within : p % 512 = p := by omega
      rw [applyStores_other _ _ _ fun v hv => ?_, applyStores_sector mem dst sector ⟨p, inFirst⟩]
      · simp only [bufferOf, first, List.getElem?_cons_zero, within]
      · have := (mem_chunkStores (dst + 512) rest (dst + p)).mp ⟨v, hv⟩
        omega
    · obtain ⟨q, rfl⟩ := Nat.exists_eq_add_of_le later
      rw [List.length_cons] at hp
      have quotient : (512 + q) / 512 = q / 512 + 1 := by omega
      have remainder : (512 + q) % 512 = q % 512 := by omega
      rw [← Nat.add_assoc, ih _ (dst + 512) q (by omega)]
      simp only [bufferOf, quotient, List.getElem?_cons_succ, remainder]

/-- Without faults the loop delivers every sector, whatever the chunks. -/
theorem fsReadFileLoop_noFaults (entry : FsDirent) (buf fuel sectors k : Nat) {d : Drive}
    (noFaults : NoFaults d) (enough : sectors ≤ fuel)
    (low : entry.startLba.toNat + k + sectors ≤ 2 ^ 28) :
    (fsReadFileLoop entry buf fuel sectors (buf + k * 512) d).1 = true ∧
      (fsReadFileLoop entry buf fuel sectors (buf + k * 512) d).2.1 =
        chunkStores (buf + k * 512)
          ((List.range sectors).map fun s => d.sectors (entry.startLba.toNat + k + s)) := by
  induction fuel generalizing sectors k d with
  | zero =>
    have done : sectors = 0 := by omega
    subst done
    exact ⟨rfl, rfl⟩
  | succ fuel ih =>
    rw [fsReadFileLoop]
    by_cases done : sectors = 0
    · subst done
      exact ⟨rfl, rfl⟩
    rw [if_neg done]
    obtain ⟨chunk, some_, all, within, chunk_eq⟩ : ∃ chunk, 0 < chunk ∧ chunk ≤ 256 ∧
        chunk ≤ sectors ∧ (if sectors > 256 then 256 else sectors) = chunk := by
      split
      · exact ⟨256, by omega, by omega, by omega, rfl⟩
      · exact ⟨sectors, by omega, by omega, by omega, rfl⟩
    have position : (buf + k * 512 - buf) / 512 = k := by omega
    have address : lba28 (entry.startLba.toNat + k) = entry.startLba.toNat + k :=
      Nat.mod_eq_of_lt (by omega)
    obtain ⟨ok, data, kept⟩ :=
      ataReadSectors_ok (entry.startLba.toNat + k) chunk noFaults some_ all
    obtain ⟨rest, stores⟩ := ih (sectors - chunk) (k + chunk) (kept.noFaults noFaults)
      (by omega) (by omega)
    have next : buf + (k + chunk) * 512 = buf + k * 512 + chunk * 512 := by omega
    rw [next] at rest stores
    simp only [chunk_eq, position, ok, if_true]
    refine ⟨rest, ?_⟩
    have parts : List.range sectors = List.range chunk ++
        (List.range (sectors - chunk)).map fun s => chunk + s := by
      rw [← List.range_add, Nat.add_sub_cancel' within]
    rw [stores, data, address, parts, List.map_append, chunkStores_append, List.length_map,
      List.length_range, Nat.mul_comm 512, List.map_map, kept.sectors]
    congr 3
    funext s
    simp only [Function.comp_apply, Nat.add_assoc]
    rfl

theorem fsReadFile_onDisk {d : Drive} {img : List UInt8} {files : List DiskFile} {k : Nat}
    {f : DiskFile} (disk : OnDisk d img) (holds : ImageHolds img files)
    (found : files[k]? = some f)
    (below : 2064 + sectorSum (files.take k) + sectorsOf f.2.length ≤ 8192) (buf : Nat) :
    (fsReadFile (direntAt files k f) buf d).1 = true ∧ ∀ mem, ∀ j < f.2.length,
      applyStores mem (fsReadFile (direntAt files k f) buf d).2.1 (buf + j) = f.2.getD j 0 := by
  have whole : f.2.length ≤ 512 * sectorsOf f.2.length := by
    unfold sectorsOf
    omega
  have start : (direntAt files k f).startLba.toNat = 2064 + sectorSum (files.take k) :=
    Nat.mod_eq_of_lt (by omega)
  have size : (direntAt files k f).sizeBytes.toNat = f.2.length := Nat.mod_eq_of_lt (by omega)
  -- the file's sectors, or one where it has none
  obtain ⟨n, sectors, enough, few⟩ : ∃ n, fileSectors (direntAt files k f) = n ∧
      sectorsOf f.2.length ≤ n ∧ n ≤ 8192 := by
    refine ⟨_, rfl, ?_⟩
    have rounded : (((direntAt files k f).sizeBytes + 511) / 512).toNat = sectorsOf f.2.length := by
      rw [BitVec.toNat_udiv, BitVec.toNat_add, size]
      unfold sectorsOf
      change (f.2.length + 511) % 2 ^ 32 / 512 = _
      omega
    unfold fileSectors
    simp only
    split
    · next zero =>
      have none_ : sectorsOf f.2.length = 0 := by
        rw [← rounded, zero]
        rfl
      omega
    · omega
  have loop := fsReadFileLoop_noFaults (direntAt files k f) buf n n 0 disk.noFaults (Nat.le_refl n)
    (by omega)
  rw [Nat.zero_mul, Nat.add_zero, Nat.add_zero, start] at loop
  unfold fsReadFile
  rw [sectors]
  refine ⟨loop.1, fun mem j hj => ?_⟩
  have here : j / 512 < n := by omega
  have place : 512 * (2064 + sectorSum (files.take k) + j / 512) + j % 512 =
      512 * (2064 + sectorSum (files.take k)) + j := by omega
  rw [loop.2, applyStores_chunk mem buf _ j (by rw [List.length_map, List.length_range]; omega)]
  simp only [bufferOf, List.getElem?_map, List.getElem?_range here, Option.map_some, disk.sectors,
    diskOf, place]
  exact holds.contents k f found j hj

/-! ## The image boots -/

/-- Every file is found under its name and read back, and nothing else is found. -/
structure FindsExactly (s : Fs) (files : List DiskFile) : Prop where
  ready : s.ready = true
  count : fsFileCount s = files.length
  file : ∀ f ∈ files, ∀ name : CString, name.bytes = asciiBytes f.1 →
    ∃ e, fsFind s name = some e ∧ e.sizeBytes.toNat = f.2.length ∧
      e.startLba.toNat + sectorsOf f.2.length ≤ ufsSbLba ∧
      ∀ buf, (fsReadFile e buf s.drive).1 = true ∧ ∀ mem, ∀ j < f.2.length,
        applyStores mem (fsReadFile e buf s.drive).2.1 (buf + j) = f.2.getD j 0
  nothingElse : ∀ name : CString, (∀ f ∈ files, name.bytes ≠ asciiBytes f.1) →
    fsFind s name = none

/-- `ufs_init` recognises an empty volume: it mounts it and writes nothing. -/
structure RecognisesEmpty (u : Ufs) : Prop where
  ready : (ufsInit u).ready = true
  count : (ufsInit u).cachedFileCount = 0
  unused : ∀ i < ufsMaxEntries, entryUsed (ufsInit u).directory i = false
  next : (ufsInit u).nextFreeLba = ufsDataLba
  untouched : (ufsInit u).drive.log = u.drive.log

theorem fsInit_finds {s : Fs} {img : List UInt8} {files : List DiskFile}
    (few : files.length ≤ 16) (printable : ∀ f ∈ files, Printable f.1)
    (distinct : (files.map Prod.fst).Nodup) (disk : OnDisk s.drive img)
    (holds : ImageHolds img files) (below : ∀ k f, files[k]? = some f →
      2064 + sectorSum (files.take k) + sectorsOf f.2.length ≤ 8192) :
    FindsExactly (fsInit s) files := by
  have mounted := fsInit_mounts few disk holds
  refine ⟨mounted.ready, ?_, fun f hf name same => ?_, fun name absent => ?_⟩
  · rw [fsFileCount, if_pos mounted.ready, mounted.count]
  · obtain ⟨k, found⟩ := List.mem_iff_getElem?.mp hf
    have low := below k f found
    have whole : f.2.length ≤ 512 * sectorsOf f.2.length := by
      unfold sectorsOf
      omega
    refine ⟨direntAt files k f, (fsFind_mounted mounted printable distinct name).1 k f found same,
      Nat.mod_eq_of_lt (by omega), ?_, fun buf => ?_⟩
    · have start : (direntAt files k f).startLba.toNat = 2064 + sectorSum (files.take k) :=
        Nat.mod_eq_of_lt (by omega)
      rw [start]
      exact low
    · exact fsReadFile_onDisk mounted.disk holds found low buf
  · exact (fsFind_mounted mounted printable distinct name).2 absent

theorem ufsInit_recognises {u : Ufs} {img img' : List UInt8} (formatted : Formatted img img')
    (disk : OnDisk u.drive img') : RecognisesEmpty u := by
  obtain ⟨sbOk, sbData, disk'⟩ := readSector_onDisk disk (show ufsSbLba < 2 ^ 28 by decide)
  have sbLog : (ataReadSectors ufsSbLba 1 u.drive).2.2.log = u.drive.log := by
    rw [(ataReadSectors_ok ufsSbLba 1 disk.noFaults (by decide) (by decide)).2.2.log,
      List.append_nil]
  obtain ⟨dirOk, dirData, kept⟩ := ataReadSectors_ok ufsDirLba ufsDirSectors disk'.noFaults
    (by decide) (by decide)
  have magicByte (j : Nat) (hj : j < 4) : bufferOf [diskOf img' ufsSbLba] j =
      [0x55, 0x46, 0x53, 0x31].getD j 0 :=
    (bufferOf_diskOf img' ufsSbLba j (by omega)).trans (formatted.magic j hj)
  have magic : hasMagic (bufferOf [diskOf img' ufsSbLba]) = true := by
    unfold hasMagic
    rw [magicByte 0 (by decide), magicByte 1 (by decide), magicByte 2 (by decide),
      magicByte 3 (by decide)]
    decide
  have next : readU32 (bufferOf [diskOf img' ufsSbLba]) 8 = ufsDataLba := by
    rw [show ufsDataLba = 8198 from rfl, ← formatted.next]
    exact Lib.readU32_congr fun j hj => bufferOf_diskOf img' ufsSbLba _ (by omega)
  -- the whole directory is zero
  have blank : bufferOf (ataReadSectors ufsDirLba ufsDirSectors
      (ataReadSectors ufsSbLba 1 u.drive).2.2).2.1 = fun _ => 0 := by
    funext p
    have address : lba28 ufsDirLba = 8193 := rfl
    rw [dirData, disk'.sectors, address]
    simp only [bufferOf, List.getElem?_map]
    rcases Nat.lt_or_ge (p / 512) ufsDirSectors with inside | outside
    · rw [List.getElem?_range inside]
      exact formatted.blank _ (by omega)
    · rw [List.getElem?_eq_none (by rw [List.length_range]; exact outside)]
      rfl
  have none_ : countUsedEntries (fun _ => 0) = 0 := by decide
  have init : ufsInit u = { u with
      ready := true, directory := fun _ => 0, cachedFileCount := 0, nextFreeLba := ufsDataLba
      drive := (ataReadSectors ufsDirLba ufsDirSectors
        (ataReadSectors ufsSbLba 1 u.drive).2.2).2.2 } := by
    unfold ufsInit
    simp only [sbOk, sbData, magic, next, dirOk, blank, none_, not_true, if_false]
    rw [if_neg (by decide)]
  constructor
  · rw [init]
  · rw [init]
  · intro i _
    rw [init]
    rfl
  · rw [init]
  · rw [init, kept.log, List.append_nil, sbLog]

/-- The kernel mounts what `mkdisk.py` has written: exactly these files, and an
empty volume behind them. -/
theorem mkdisk_boots {boot kernel img img' : List UInt8} {files : List DiskFile}
    (fits : (boot ++ kernel).length ≤ 2048 * 512) (printable : ∀ f ∈ files, Printable f.1)
    (distinct : (files.map Prod.fst).Nodup) (built : build boot kernel files = some img)
    (formatted : formatUfsRegion img = some img') {s : Fs} (hs : OnDisk s.drive img') {u : Ufs}
    (hu : OnDisk u.drive img') : FindsExactly (fsInit s) files ∧ RecognisesEmpty u := by
  obtain ⟨few, length, holds⟩ := build_holds fits built
  have region := formatUfsRegion_formatted formatted
  refine ⟨fsInit_finds few printable distinct hs (holds.formatted region few length)
    fun k f found => ?_, ufsInit_recognises region hu⟩
  have inside := file_inside_image length found
  have := region.fits
  omega

/-- One file of one byte, with no boot code before it. -/
theorem mkdisk_boots_one : ∃ (img : List UInt8) (s : Fs) (u : Ufs),
    OnDisk s.drive img ∧ OnDisk u.drive img ∧ FindsExactly (fsInit s) [(['a'], [7])] ∧
      RecognisesEmpty u := by
  have printable : ∀ f ∈ ([(['a'], [7])] : List DiskFile), Printable f.1 := by
    intro f hf
    rw [List.mem_singleton.mp hf]
    exact ⟨List.cons_ne_nil _ _, by simp⟩
  have fits : (([] : List UInt8) ++ []).length ≤ 2048 * 512 := by decide
  obtain ⟨img, built⟩ : ∃ img, build [] [] [(['a'], [7])] = some img := ⟨_, rfl⟩
  have length := (build_holds fits built).2.1
  obtain ⟨img', formatted⟩ := @formatUfsRegion_isSome img (by
    rw [length, if_neg (List.cons_ne_nil _ _)]
    decide)
  let drive : Drive := { sectors := diskOf img', log := [], commands := 0, faults := fun _ => none }
  have disk : OnDisk drive img' := ⟨rfl, rfl⟩
  have booted := mkdisk_boots fits printable (List.nodup_singleton _) built formatted
    (s := ⟨fun _ => 0, false, 0, fun _ => 0, drive⟩) disk (u := ⟨fun _ => 0, false, 0, 0, drive⟩)
    disk
  exact ⟨img', _, _, disk, disk, booted.1, booted.2⟩

end MiniKernel.Storage
