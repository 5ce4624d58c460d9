import MiniKernel.Storage.Ufs

/-!
# Extents of the persistent filesystem

Source: kernel/core/ufs.c:299-418. An entry of the directory owns the sectors
from its start on, as many as its capacity says; `ensure_capacity` takes new
ones at `next_free_lba` and never gives any back. What the allocator maintains
is a property of the cached directory alone, whatever the drive does.
-/
namespace MiniKernel.Storage
open Drivers
open Lib (Buffer readU32 writeU32)

/-- The sectors `[start_lba, start_lba + capacity)`. -/
def InExtent (dir : Buffer) (i lba : Nat) : Prop :=
  entryStart dir i ≤ lba ∧ lba < entryStart dir i + entryCapacity dir i

theorem inExtent_congr {a b : Buffer} {i lba : Nat} (same : SameExtent b a i) :
    InExtent a i lba ↔ InExtent b i lba := by
  unfold InExtent
  rw [same.1, same.2]

/-- The allocator's view: extents of all entries, used or not, are disjoint and
lie between the start of the data area and `next_free_lba`. -/
structure Allocated (dir : Buffer) (nextFree : Nat) : Prop where
  low : ufsDataLba ≤ nextFree
  high : nextFree ≤ ufsDataEndLba
  inside : ∀ i < ufsMaxEntries, ∀ lba, InExtent dir i lba → ufsDataLba ≤ lba ∧ lba < nextFree
  apart : ∀ i < ufsMaxEntries, ∀ j < ufsMaxEntries, i ≠ j → ∀ lba, InExtent dir i lba →
    ¬ InExtent dir j lba

/-- An extent inside the data area has at most 8192 sectors. -/
theorem Allocated.capacity_le {dir : Buffer} {nextFree : Nat} (h : Allocated dir nextFree)
    {i : Nat} (hi : i < ufsMaxEntries) : entryCapacity dir i ≤ 8192 := by
  rcases Nat.eq_zero_or_pos (entryCapacity dir i) with empty | nonempty
  · omega
  · have first := h.inside i hi (entryStart dir i) ⟨Nat.le_refl _, by omega⟩
    have last := h.inside i hi (entryStart dir i + entryCapacity dir i - 1) ⟨by omega, by omega⟩
    have := h.high
    unfold ufsDataLba ufsDataEndLba at *
    omega

/-- No extent moves, but that of `slot` may be cleared. -/
def Keeps (slot : Nat) (dir dir' : Buffer) : Prop :=
  ∀ i, SameExtent dir dir' i ∨ (i = slot ∧ entryStart dir' i = 0 ∧ entryCapacity dir' i = 0)

theorem Keeps.allocated {slot : Nat} {dir dir' : Buffer} {nextFree : Nat}
    (keeps : Keeps slot dir dir') (h : Allocated dir nextFree) : Allocated dir' nextFree := by
  have old (i lba : Nat) (inside : InExtent dir' i lba) : InExtent dir i lba := by
    rcases keeps i with same | ⟨_, _, empty⟩
    · exact (inExtent_congr same).mp inside
    · unfold InExtent at inside
      omega
  exact ⟨h.low, h.high, fun i hi lba inside => h.inside i hi lba (old i lba inside),
    fun i hi j hj ne lba insideI insideJ =>
      h.apart i hi j hj ne lba (old i lba insideI) (old j lba insideJ)⟩

theorem keeps_of_same {dir dir' : Buffer} (h : ∀ i, SameExtent dir dir' i) : Keeps 0 dir dir' :=
  fun i => Or.inl (h i)

/-- `ufs_create` moves no extent and clears that of its slot. -/
theorem createdEntry_keeps (dir : Buffer) (slot : Nat) (name : CString) (uid : Nat) :
    Keeps slot dir (createdEntry dir slot name uid) := by
  intro i
  by_cases own : i = slot
  · rw [own]
    exact Or.inr ⟨rfl, createdEntry_extent dir slot name uid⟩
  · exact Or.inl (sameExtent_other own (createdEntry_outside dir slot name uid))

theorem moved_allocated {dir : Buffer} {nextFree h capacity : Nat}
    (allocated : Allocated dir nextFree) (bound : capacity < 2 ^ 32)
    (room : nextFree + capacity ≤ ufsDataEndLba) :
    Allocated (movedEntry dir h nextFree capacity) (nextFree + capacity) := by
  have low := allocated.low
  have extent := movedEntry_extent dir h nextFree capacity
    (Nat.lt_of_le_of_lt allocated.high (by decide)) bound
  have own (lba : Nat) : InExtent (movedEntry dir h nextFree capacity) h lba ↔
      nextFree ≤ lba ∧ lba < nextFree + capacity := by
    unfold InExtent
    rw [extent.1, extent.2]
  have others (i lba : Nat) (other : i ≠ h) :
      InExtent (movedEntry dir h nextFree capacity) i lba ↔ InExtent dir i lba :=
    inExtent_congr (movedEntry_other dir h nextFree capacity i other)
  refine ⟨by omega, room, fun i hi lba inside => ?_, fun i hi j hj ne lba insideI insideJ => ?_⟩
  · by_cases same : i = h
    · rw [same, own] at inside
      omega
    · have := allocated.inside i hi lba ((others i lba same).mp inside)
      omega
  · by_cases sameI : i = h
    · rw [sameI, own] at insideI
      have := allocated.inside j hj lba ((others j lba (fun same => ne (sameI.trans same.symm))).mp
        insideJ)
      omega
    · have old := (others i lba sameI).mp insideI
      by_cases sameJ : j = h
      · rw [sameJ, own] at insideJ
        have := allocated.inside i hi lba old
        omega
      · exact allocated.apart i hi j hj ne lba old ((others j lba sameJ).mp insideJ)

/-! ## Growing a file -/

/-- `ensure_capacity` has to move the file, and finds room for it. -/
def NeedsGrowth (s : Ufs) (handle needed : Nat) : Prop :=
  wrap32 (entryCapacity s.directory handle * sectorSize) < needed ∧
    wrap32 (s.nextFreeLba +
      newCapacitySectors (entryCapacity s.directory handle) (sectorsForBytes needed)) ≤ ufsDataEndLba

/-- The numbers of a growth do not wrap. -/
theorem growth_bounds {s : Ufs} {handle needed : Nat}
    (allocated : Allocated s.directory s.nextFreeLba) (hh : handle < ufsMaxEntries)
    (needs : NeedsGrowth s handle needed) :
    let capacity := newCapacitySectors (entryCapacity s.directory handle) (sectorsForBytes needed)
    0 < capacity ∧ capacity < 2 ^ 32 ∧
      wrap32 (s.nextFreeLba + capacity) = s.nextFreeLba + capacity ∧
      s.nextFreeLba + capacity ≤ ufsDataEndLba := by
  intro capacity
  have spec := newCapacitySectors_spec (entryCapacity s.directory handle) needed
  have small := allocated.capacity_le hh
  have high := allocated.high
  have room := needs.2
  have upper : capacity ≤ 2 ^ 24 := by omega
  have noWrap : wrap32 (s.nextFreeLba + capacity) = s.nextFreeLba + capacity := by
    unfold wrap32 ufsDataEndLba at *
    omega
  refine ⟨spec.2.1, by omega, noWrap, ?_⟩
  rw [← noWrap]
  exact room

/-- The copy `ensure_capacity` makes first. -/
def movedDrive (s : Ufs) (handle : Nat) : Bool × Drive :=
  if entrySize s.directory handle > 0 then
    moveLoop (entryStart s.directory handle) s.nextFreeLba
      (sectorsForBytes (entrySize s.directory handle))
      (sectorsForBytes (entrySize s.directory handle)) 0 s.drive
  else (true, s.drive)

/-- `ensure_capacity` when the file has to move, with the copy under its name. -/
theorem ensureCapacity_moves {s : Ufs} {handle needed : Nat} (needs : NeedsGrowth s handle needed) :
    ensureCapacity handle needed s =
      if ¬ (movedDrive s handle).1 then (false, { s with drive := (movedDrive s handle).2 })
      else persist
        { s with
          directory := movedEntry s.directory handle s.nextFreeLba
            (newCapacitySectors (entryCapacity s.directory handle) (sectorsForBytes needed))
          nextFreeLba := wrap32 (s.nextFreeLba +
            newCapacitySectors (entryCapacity s.directory handle) (sectorsForBytes needed))
          drive := (movedDrive s handle).2 } := by
  unfold ensureCapacity movedDrive
  rw [if_neg (Nat.not_le.mpr needs.1)]
  simp only [if_neg (Nat.not_lt.mpr needs.2)]

/-- Otherwise nothing happens, and success means there was room. -/
theorem ensureCapacity_fits {s : Ufs} {handle needed : Nat}
    (stays : ¬ NeedsGrowth s handle needed) :
    (ensureCapacity handle needed s).2 = s ∧
      ((ensureCapacity handle needed s).1 = true →
        needed ≤ 512 * entryCapacity s.directory handle) := by
  unfold ensureCapacity
  by_cases fits : needed ≤ wrap32 (entryCapacity s.directory handle * sectorSize)
  · rw [if_pos fits]
    refine ⟨rfl, fun _ => ?_⟩
    unfold wrap32 sectorSize at fits
    omega
  · rw [if_neg fits]
    have full : wrap32 (s.nextFreeLba +
        newCapacitySectors (entryCapacity s.directory handle) (sectorsForBytes needed)) >
        ufsDataEndLba := by
      by_contra room
      exact stays ⟨Nat.not_le.mp fits, Nat.not_lt.mp room⟩
    simp only [if_pos full]
    exact ⟨trivial, fun ok => by cases ok⟩

/-! ## Writing to a file -/

/-- An address in or after the data area is not cut down by the driver. -/
theorem lba28_wrap32 (lba : Nat) (h : lba < 2 ^ 28) : lba28 (wrap32 lba) = lba := by
  unfold lba28 wrap32
  rw [Nat.mod_eq_of_lt (by omega : lba < 2 ^ 32), Nat.mod_eq_of_lt h]

theorem handleValid_spec {s : Ufs} {handle : Int} (h : handleValid s handle = true) :
    handle.toNat < ufsMaxEntries ∧ entryUsed s.directory handle.toNat = true := by
  simp only [handleValid, Bool.and_eq_true, decide_eq_true_eq] at h
  obtain ⟨⟨⟨_, low⟩, high⟩, used⟩ := h
  exact ⟨by omega, used⟩

/-- The end of `ufs_write_at`: the data, then the size if it grew. -/
def writeData (handle : Int) (offset needed : Nat) (buf : Buffer) (len : Nat) (s : Ufs) :
    Int × Ufs :=
  let written := writeAtLoop (entryStart s.directory handle.toNat) len offset len buf s.drive
  let s := { s with drive := written.2 }
  if ¬ written.1 then (-1, s)
  else if needed > entrySize s.directory handle.toNat then
    let r := persist { s with directory := writeU32 s.directory (entryAt handle.toNat + 24) needed }
    (if r.1 then toInt32 len else -1, r.2)
  else (toInt32 len, s)

/-- `ufs_write_at` in three cases: refused, written after growing the file, and
written or given up without. -/
theorem ufsWriteAt_eq (handle : Int) (offset : Nat) (buf : Buffer) (len : Nat) (s : Ufs)
    (valid : handleValid s handle = true) (small : offset + len < 2 ^ 32) :
    ufsWriteAt handle offset buf len s =
      let grown := if len > 0 then ensureCapacity handle.toNat (offset + len) s else (true, s)
      if ¬ grown.1 then (-1, grown.2) else writeData handle offset (offset + len) buf len grown.2 := by
  have needed : wrap32 (offset + len) = offset + len := Nat.mod_eq_of_lt small
  unfold ufsWriteAt writeData
  simp only [valid, not_true_eq_false, if_false, needed]
  rw [if_neg (by omega)]

theorem ufsWriteAt_refused {handle : Int} {offset len : Nat} (buf : Buffer) {s : Ufs}
    (hoffset : offset < 2 ^ 32) (hlen : len < 2 ^ 32)
    (refused : handleValid s handle = false ∨ ¬ offset + len < 2 ^ 32) :
    ufsWriteAt handle offset buf len s = (-1, s) := by
  unfold ufsWriteAt
  rcases refused with invalid | wraps
  · simp [invalid]
  · split
    · rfl
    · have wrapped : wrap32 (offset + len) < offset := by
        unfold wrap32
        omega
      simp only [if_pos wrapped]

/-! ## A fresh volume -/

/-- A volume that was just formatted; the log starts afterwards. -/
def freshVolume (disk : Nat → Sector) : Ufs :=
  let s := formatFresh
    { directory := fun _ => 0
      ready := false
      cachedFileCount := 0
      nextFreeLba := ufsDataLba
      drive := { sectors := disk, log := [], commands := 0, faults := fun _ => none } }
  { s with drive := { s.drive with log := [] } }

/-- A directory of zero bytes records no extent. -/
theorem formatted_allocated : Allocated (fun _ => 0) ufsDataLba := by
  have empty (i lba : Nat) : ¬ InExtent (fun _ => 0) i lba := by
    have zero (p : Nat) : readU32 (fun _ => 0) p = 0 := by simp [readU32]
    unfold InExtent entryStart entryCapacity
    rw [zero, zero]
    omega
  refine ⟨Nat.le_refl _, (by decide : ufsDataLba ≤ ufsDataEndLba), ?_, ?_⟩
  · exact fun i _ lba inside => absurd inside (empty i lba)
  · exact fun i _ j _ _ lba inside => absurd inside (empty i lba)

/-- A fresh volume on a drive with these faults. -/
def faultyVolume (disk : Nat → Sector) (faults : Nat → Option Nat) : Ufs :=
  { freshVolume disk with
    drive := { (freshVolume disk).drive with commands := 0, faults := faults } }

/-! ## Runs -/

inductive UfsOp where
  | create (name : CString) (ownerUid : BitVec 32)
  | delete (name : CString)
  | chmod (handle : Int) (perm : UInt8)
  | truncate (handle : Int) (newSize : BitVec 32)
  | writeAt (handle : Int) (offset : BitVec 32) (buf : Buffer) (len : BitVec 32)
  | readAt (handle : Int) (offset len : BitVec 32)

def perform : UfsOp → Ufs → Ufs
  | .create name ownerUid, s => (ufsCreate name ownerUid.toNat s).2
  | .delete name, s => (ufsDelete name s).2
  | .chmod handle perm, s => (ufsChmod handle perm s).2
  | .truncate handle newSize, s => (ufsTruncate handle newSize.toNat s).2
  | .writeAt handle offset buf len, s => (ufsWriteAt handle offset.toNat buf len.toNat s).2
  | .readAt handle offset len, s => (ufsReadAt handle offset.toNat len.toNat s).2.2

/-- Operations are never refused altogether; one that fails says so in its result. -/
def ufsStep (s : Ufs) (o : UfsOp) : Option Ufs := some (perform o s)

end MiniKernel.Storage
