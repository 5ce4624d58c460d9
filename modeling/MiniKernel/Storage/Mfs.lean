import MiniKernel.Drivers.Ata
import MiniKernel.Memory.Heap

/-!
# Loading a file from the read-only filesystem

Source: kernel/core/fs.c:91-111 (`fs_read_file`), kernel/core/process.c:275-292
(`process_spawn_from_file`), kernel/core/shell/shell_cmd_process.c:55-91
(`cmd_run`). Both callers ask `kmalloc` for `size_bytes` and hand the buffer to
`fs_read_file`, which stores whole sectors. The result of a load is the list of
addresses it stores to, with the bytes, in the order of the stores.
-/
namespace MiniKernel.Storage
open Drivers Memory
open Memory.Paging (Word)

/-- The numbers of an `fs_dirent_t`; the name is used up by `fs_find`. -/
structure FsDirent where
  startLba : BitVec 32
  sizeBytes : BitVec 32

/-- A byte stored at an address. -/
abbrev Store := Nat × UInt8

/-- The stores of one sector, 16 bits at a time. -/
def sectorStores (dst : Nat) (sector : Sector) : List Store :=
  (List.finRange 512).map fun i => (dst + i.val, sector i)

/-- The stores of the sectors one command delivers. -/
def chunkStores (dst : Nat) : List Sector → List Store
  | [] => []
  | sector :: rest => sectorStores dst sector ++ chunkStores (dst + 512) rest

/-- The loop of `fs_read_file` with `sectors` to go, in at most `fuel` turns;
a turn takes a sector at least. -/
def fsReadFileLoop (entry : FsDirent) (buf : Nat) :
    Nat → Nat → Nat → Drive → Bool × List Store × Drive
  | 0, _, _, d => (true, [], d)
  | fuel + 1, sectors, dst, d =>
    if sectors = 0 then (true, [], d)
    else
      let chunk := if sectors > 256 then 256 else sectors
      let read := ataReadSectors (entry.startLba.toNat + (dst - buf) / 512) chunk d
      if read.1 then
        let rest := fsReadFileLoop entry buf fuel (sectors - chunk) (dst + chunk * 512) read.2.2
        (rest.1, chunkStores dst read.2.1 ++ rest.2.1, rest.2.2)
      else (false, chunkStores dst read.2.1, read.2.2)

/-- The number of sectors `fs_read_file` asks for, computed in 32 bits. -/
def fileSectors (entry : FsDirent) : Nat :=
  let sectors := (entry.sizeBytes + 511) / 512
  if sectors = 0 then 1 else sectors.toNat

def fsReadFile (entry : FsDirent) (buf : Nat) (d : Drive) : Bool × List Store × Drive :=
  fsReadFileLoop entry buf (fileSectors entry) (fileSectors entry) buf d

/-- `kmalloc(size_bytes)`, then `fs_read_file` into that buffer; a failed
allocation ends the load. -/
def loadFile (entry : FsDirent) (h : Heap) (d : Drive) : Option Nat × List Store × Heap :=
  let buf := kmalloc (entry.sizeBytes.setWidth 64) h
  match buf.1 with
  | none => (none, [], buf.2)
  | some p => (some p, (fsReadFile entry p d).2.1, buf.2)

/-- The memory after some stores. -/
def applyStores (mem : Nat → UInt8) (stores : List Store) : Nat → UInt8 :=
  stores.foldl (fun mem s => Function.update mem s.1 s.2) mem

/-! ## Where a load stores -/

/-- The drive delivers the sector with number `k` of the load: the commands for
the chunks before it succeed, and its own gets that far. -/
def Delivered (d : Drive) (k : Nat) : Prop :=
  (∀ c < k / 256, ∀ j, d.faults (d.commands + c) = some j → 256 ≤ j) ∧
    ∀ j, d.faults (d.commands + k / 256) = some j → k % 256 < j

theorem mem_chunkStores (dst : Nat) (sectors : List Sector) (a : Nat) :
    (∃ v, (a, v) ∈ chunkStores dst sectors) ↔ dst ≤ a ∧ a < dst + 512 * sectors.length := by
  induction sectors generalizing dst with
  | nil => simp [chunkStores]
  | cons sector rest ih =>
    have first : (∃ v, (a, v) ∈ sectorStores dst sector) ↔ dst ≤ a ∧ a < dst + 512 := by
      simp only [sectorStores, List.mem_map, List.mem_finRange, true_and, Prod.mk.injEq]
      constructor
      · rintro ⟨v, i, rfl, _⟩
        have := i.isLt
        omega
      · intro ⟨low, high⟩
        exact ⟨_, ⟨a - dst, by omega⟩, by simp only; omega, rfl⟩
    simp only [chunkStores, List.mem_append, exists_or, first, ih, List.length_cons]
    omega

theorem ataReadSectors_sectors (lba count : Nat) (d : Drive) (hpos : 0 < count)
    (hle : count ≤ 256) :
    ataReadSectors lba count d =
      (decide (transferred d.fault count = count),
        (List.range (transferred d.fault count)).map fun s => d.sectors (lba28 lba + s),
        { d with
          commands := d.commands + 1
          reads := d.reads ++ (List.range (transferred d.fault count)).map fun s => lba28 lba + s }) := by
  unfold ataReadSectors
  rw [if_neg (by omega)]

theorem delivered_low (d : Drive) (k : Nat) (low : k < 256) :
    Delivered d k ↔ ∀ j, d.fault = some j → k < j := by
  unfold Delivered Drive.fault
  rw [Nat.div_eq_of_lt low, Nat.mod_eq_of_lt low, Nat.add_zero]
  simp

theorem delivered_next (d : Drive) (k : Nat) :
    Delivered d (k + 256) ↔ (∀ j, d.fault = some j → 256 ≤ j) ∧
      Delivered { d with commands := d.commands + 1 } k := by
  have quotient : (k + 256) / 256 = k / 256 + 1 := by omega
  have remainder : (k + 256) % 256 = k % 256 := by omega
  have shift (c : Nat) : d.commands + (c + 1) = d.commands + 1 + c := by omega
  unfold Delivered Drive.fault
  rw [quotient, remainder, shift]
  constructor
  · intro ⟨before, own⟩
    refine ⟨fun j hj => before 0 (Nat.succ_pos _) j hj, fun c hc j hj => ?_, own⟩
    exact before (c + 1) (by omega) j (shift c ▸ hj)
  · intro ⟨first, before, own⟩
    refine ⟨fun c hc j hj => ?_, own⟩
    cases c with
    | zero => exact first j hj
    | succ c => exact before c (by omega) j (shift c ▸ hj)

/-- The loop stores to the sectors that are delivered, and nowhere else. -/
theorem fsReadFileLoop_stores (entry : FsDirent) (buf fuel sectors dst : Nat) (d : Drive)
    (enough : sectors ≤ fuel) (a : Nat) :
    (∃ v, (a, v) ∈ (fsReadFileLoop entry buf fuel sectors dst d).2.1) ↔
      ∃ k < sectors, Delivered d k ∧ dst + 512 * k ≤ a ∧ a < dst + 512 * (k + 1) := by
  induction fuel generalizing sectors dst d with
  | zero =>
    have : sectors = 0 := by omega
    simp [fsReadFileLoop, this]
  | succ fuel ih =>
    rw [fsReadFileLoop]
    by_cases done : sectors = 0
    · simp [done]
    rw [if_neg done]
    have split : (if sectors > 256 then 256 else sectors) = min sectors 256 := by
      split <;> omega
    simp only [split]
    rw [ataReadSectors_sectors _ _ _ (by omega) (by omega)]
    have within (k : Nat) : k < transferred d.fault (min sectors 256) ↔
        k < sectors ∧ k < 256 ∧ Delivered d k := by
      rw [lt_transferred]
      constructor
      · intro ⟨hk, own⟩
        exact ⟨by omega, by omega, (delivered_low d k (by omega)).mpr own⟩
      · intro ⟨hk, low, delivered⟩
        exact ⟨by omega, (delivered_low d k low).mp delivered⟩
    have enough' : sectors - min sectors 256 ≤ fuel := by omega
    -- the addresses of the first chunk
    have first : (dst ≤ a ∧ a < dst + 512 * transferred d.fault (min sectors 256)) ↔
        ∃ k, (k < sectors ∧ k < 256 ∧ Delivered d k) ∧
          dst + 512 * k ≤ a ∧ a < dst + 512 * (k + 1) := by
      constructor
      · intro ⟨low, high⟩
        exact ⟨(a - dst) / 512, (within _).mp (by omega), by omega, by omega⟩
      · intro ⟨k, hk, low, high⟩
        have := (within k).mpr hk
        omega
    by_cases complete : transferred d.fault (min sectors 256) = min sectors 256
    · simp only [complete, decide_true, if_true, List.mem_append, exists_or]
      rw [mem_chunkStores, List.length_map, List.length_range, ih _ _ _ enough']
      rw [complete] at first within
      rw [first]
      clear first
      have shift (k : Nat) : dst + 512 * (k + 256) = dst + 256 * 512 + 512 * k := by ring
      have shift' (k : Nat) : dst + 512 * (k + 256 + 1) = dst + 256 * 512 + 512 * (k + 1) := by ring
      have fine : 256 < sectors → ∀ j, d.fault = some j → 256 ≤ j := by
        intro more j hj
        have last := (delivered_low d 255 (by omega)).mp ((within 255).mp (by omega)).2.2 j hj
        omega
      constructor
      · rintro (⟨k, ⟨hk, _, delivered⟩, low, high⟩ | ⟨k, hk, delivered, low, high⟩)
        · exact ⟨k, hk, delivered, low, high⟩
        · have chunk : min sectors 256 = 256 := by omega
          rw [chunk] at hk low high
          refine ⟨k + 256, by omega, (delivered_next d k).mpr ⟨fine (by omega), delivered⟩, ?_, ?_⟩
          · rw [shift]
            exact low
          · rw [shift']
            exact high
      · rintro ⟨k, hk, delivered, low, high⟩
        rcases Nat.lt_or_ge k 256 with inFirst | later
        · exact Or.inl ⟨k, ⟨hk, inFirst, delivered⟩, low, high⟩
        · have chunk : min sectors 256 = 256 := by omega
          obtain ⟨k', rfl⟩ := Nat.exists_eq_add_of_le' later
          rw [shift] at low
          rw [shift'] at high
          rw [chunk]
          exact Or.inr ⟨k', by omega, ((delivered_next d k').mp delivered).2, low, high⟩
    · simp only [complete, decide_false, Bool.false_eq_true, if_false]
      rw [mem_chunkStores, List.length_map, List.length_range, first]
      clear first
      constructor
      · rintro ⟨k, ⟨hk, _, delivered⟩, low, high⟩
        exact ⟨k, hk, delivered, low, high⟩
      · rintro ⟨k, hk, delivered, low, high⟩
        refine ⟨k, ⟨hk, ?_, delivered⟩, low, high⟩
        -- a command that fails delivers nothing to the chunks after it
        by_contra later
        have ok : ∀ j, d.fault = some j → 256 ≤ j := by
          obtain ⟨k', rfl⟩ := Nat.exists_eq_add_of_le' (Nat.le_of_not_lt later)
          exact ((delivered_next d k').mp delivered).1
        apply complete
        cases hf : d.fault with
        | none => simp [transferred]
        | some j =>
          have := ok j hf
          simp only [transferred, Option.getD_some]
          omega

/-! ## The block a file is loaded into -/

/-- Other blocks are left alone: the load stores inside the payload of the
block `kmalloc` returned, so no byte of another block changes, header or
payload, nor a byte of the block's own header. -/
structure LoadContained (entry : FsDirent) (h : Heap) (d : Drive) : Prop where
  inside : ∀ p, (loadFile entry h d).1 = some p → ∀ a v, (a, v) ∈ (loadFile entry h d).2.1 →
    ∃ c ∈ (loadFile entry h d).2.2.blocks, c.payload = p ∧ p ≤ a ∧ a < c.stop
  unchanged : ∀ p, (loadFile entry h d).1 = some p → ∀ b ∈ (loadFile entry h d).2.2.blocks,
    b.payload ≠ p → ∀ a, b.addr ≤ a → a < b.stop → ∀ mem,
      applyStores mem (loadFile entry h d).2.1 a = mem a

theorem applyStores_other (mem : Nat → UInt8) (stores : List Store) (a : Nat)
    (other : ∀ v, (a, v) ∉ stores) : applyStores mem stores a = mem a := by
  unfold applyStores
  induction stores generalizing mem with
  | nil => rfl
  | cons s rest ih =>
    rw [List.foldl_cons, ih _ (fun v hv => other v (List.mem_cons_of_mem s hv))]
    apply Function.update_of_ne
    intro same
    exact other s.2 (by rw [same]; exact List.mem_cons_self)

/-- `size_bytes`, rounded up as `kmalloc` does. -/
def roundedSize (entry : FsDirent) : Nat := (entry.sizeBytes.toNat + 15) / 16 * 16

/-- Every sector the drive delivers fits in what `kmalloc` leaves of the block
it picks. -/
def SectorsFit (entry : FsDirent) (h : Heap) (d : Drive) : Prop :=
  ∀ k < fileSectors entry, Delivered d k →
    512 * (k + 1) ≤ keptSize (roundedSize entry) (pickedSize (roundedSize entry) h)

theorem loadFile_none {entry : FsDirent} {h : Heap} {d : Drive}
    (cannot : ¬ CanAllocate (entry.sizeBytes.setWidth 64) h) : (loadFile entry h d).1 = none := by
  rw [← kmalloc_isSome_iff, Option.not_isSome_iff_eq_none] at cannot
  simp only [loadFile, cannot]

/-- A load that got a buffer: the buffer's block, and the addresses stored to. -/
theorem loadFile_some {entry : FsDirent} {h : Heap} {d : Drive}
    (can : CanAllocate (entry.sizeBytes.setWidth 64) h) :
    ∃ p, ∃ c ∈ (loadFile entry h d).2.2.blocks, (loadFile entry h d).1 = some p ∧ c.payload = p ∧
      c.size = keptSize (roundedSize entry) (pickedSize (roundedSize entry) h) ∧
      ∀ a, (∃ v, (a, v) ∈ (loadFile entry h d).2.1) ↔
        ∃ k < fileSectors entry, Delivered d k ∧ p + 512 * k ≤ a ∧ a < p + 512 * (k + 1) := by
  obtain ⟨p, hp⟩ := Option.isSome_iff_exists.mp ((kmalloc_isSome_iff _ h).mpr can)
  obtain ⟨c, hc, payload, _, size⟩ := kmalloc_some hp
  have width : (entry.sizeBytes.setWidth 64).toNat = entry.sizeBytes.toNat := by
    rw [BitVec.toNat_setWidth]
    have := entry.sizeBytes.isLt
    omega
  rw [width] at size
  have result : loadFile entry h d = (some p, (fsReadFile entry p d).2.1,
      (kmalloc (entry.sizeBytes.setWidth 64) h).2) := by
    simp only [loadFile, hp]
  rw [result]
  exact ⟨p, c, hc, rfl, payload, size,
    fsReadFileLoop_stores entry p (fileSectors entry) (fileSectors entry) p d (Nat.le_refl _)⟩

theorem sectorsFit_of_contained {entry : FsDirent} {h : Heap} {d : Drive}
    (can : CanAllocate (entry.sizeBytes.setWidth 64) h) (contained : LoadContained entry h d) :
    SectorsFit entry h d := by
  obtain ⟨p, c, hc, hp, payload, size, stored⟩ := loadFile_some (d := d) can
  intro k hk delivered
  -- the last byte of the sector lies in the only block with this payload
  obtain ⟨v, last⟩ := (stored (p + 512 * k + 511)).mpr ⟨k, hk, delivered, by omega, by omega⟩
  obtain ⟨c', hc', payload', _, below⟩ := contained.inside p hp _ v last
  have same := Heap.payload_injective _ hc' hc (payload'.trans payload.symm)
  rw [same, HeapBlock.stop, payload, size] at below
  omega

theorem contained_of_sectorsFit {entry : FsDirent} {h : Heap} {d : Drive}
    (can : CanAllocate (entry.sizeBytes.setWidth 64) h) (fit : SectorsFit entry h d) :
    LoadContained entry h d := by
  obtain ⟨p, c, hc, hp, payload, size, stored⟩ := loadFile_some (d := d) can
  have stop : c.stop = p + keptSize (roundedSize entry) (pickedSize (roundedSize entry) h) := by
    rw [HeapBlock.stop, payload, size]
  have within (a : Nat) (v : UInt8) (ha : (a, v) ∈ (loadFile entry h d).2.1) :
      p ≤ a ∧ a < c.stop := by
    obtain ⟨k, hk, delivered, low, high⟩ := (stored a).mp ⟨v, ha⟩
    have room := fit k hk delivered
    rw [stop]
    omega
  constructor
  · intro p' hp' a v ha
    obtain rfl : p = p' := Option.some.inj (hp.symm.trans hp')
    exact ⟨c, hc, payload, within a v ha⟩
  · intro p' hp' b hb otherBlock a low high mem
    obtain rfl : p = p' := Option.some.inj (hp.symm.trans hp')
    apply applyStores_other
    intro v ha
    obtain ⟨first, last⟩ := within a v ha
    have ne : b ≠ c := fun same => otherBlock (by rw [same, payload])
    have apart := Heap.apart_of_ne _ hb hc ne
    have before : c.addr < c.payload := Nat.lt_add_of_pos_right (by decide)
    simp only [HeapBlock.Apart] at apart
    omega

/-- Loading a file stays inside its buffer exactly when there is no buffer or
every sector the drive delivers fits: the reader counts in sectors of 512 bytes,
the allocator in units of 16. -/
theorem load_contained_iff (entry : FsDirent) (h : Heap) (d : Drive) :
    LoadContained entry h d ↔
      (CanAllocate (entry.sizeBytes.setWidth 64) h → SectorsFit entry h d) := by
  constructor
  · intro contained can
    exact sectorsFit_of_contained can contained
  · intro fit
    by_cases can : CanAllocate (entry.sizeBytes.setWidth 64) h
    · exact contained_of_sectorsFit can (fit can)
    · have refused := loadFile_none (d := d) can
      constructor
      · intro p hp
        rw [refused] at hp
        cases hp
      · intro p hp
        rw [refused] at hp
        cases hp

/-- A fresh heap over free memory, and a drive without faults. -/
def freshHeap : Heap := heapInit { bitmap := fun f => f == 0, freeFrames := 0, searchHint := 0 }
def blankDrive : Drive :=
  { sectors := fun _ _ => 0, log := [], commands := 0, faults := fun _ => none }

/-- A file of 600 bytes: `kmalloc` keeps 608 bytes and puts the next header
right behind them, `fs_read_file` stores 1024. -/
theorem load_overruns_600 : ¬ ∀ entry h d, LoadContained entry h d := by
  intro claim
  have can : CanAllocate (BitVec.setWidth 64 (600 : BitVec 32)) freshHeap := by decide +kernel
  have fit := sectorsFit_of_contained can (claim ⟨2064, 600⟩ freshHeap blankDrive)
  have delivered : Delivered blankDrive 1 := by simp [Delivered, blankDrive]
  have room := fit 1 (by decide) delivered
  have kept : keptSize (roundedSize ⟨2064, 600⟩) (pickedSize (roundedSize ⟨2064, 600⟩) freshHeap) =
      608 := by decide
  rw [kept] at room
  omega

end MiniKernel.Storage
