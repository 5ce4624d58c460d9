import MiniKernel.Storage.UfsRemount

/-!
# Volumes that live on across boots

Source: kernel/core/ufs.c:100-167. On a drive that does not fail, the disk says
all there is to know of a mounted volume: what a boot mounts from it is again
such a volume, with the same files.
-/
namespace MiniKernel.Storage
open Drivers
open Lib (Buffer readU32)

/-- A volume on a drive that does not fail, with its directory and its superblock
on the disk, and a file count that is right. -/
structure Mounted (s : Ufs) : Prop where
  volume : Volume s
  consistent : Consistent s
  catalogued : Catalogued s

theorem Mounted.perform {s : Ufs} (mounted : Mounted s) {o : UfsOp} (scope : InScope s o) :
    Mounted (perform o s) := by
  obtain ⟨_, effect, _⟩ := perform_effect mounted.consistent o
  exact ⟨(perform_refines mounted.volume o scope).1, effect.consistent,
    perform_catalogued mounted.catalogued o⟩

theorem freshVolume_mounted (disk : Nat → Sector) : Mounted (freshVolume disk) :=
  ⟨freshVolume_volume disk, freshVolume_consistent disk, freshVolume_catalogued disk⟩

/-! ## Directories that agree on their sectors -/

section Same

variable {a b : Buffer} (same : ∀ p < directoryBytes, a p = b p)
include same

theorem byte_same {i : Nat} (hi : i < ufsMaxEntries) {j : Nat} (hj : j < 40) :
    a (entryAt i + j) = b (entryAt i + j) := by
  have inside := entry_in_directory hi
  exact same _ (by omega)

theorem field_same {i : Nat} (hi : i < ufsMaxEntries) {k : Nat} (hk : k + 4 ≤ 40) :
    readU32 a (entryAt i + k) = readU32 b (entryAt i + k) := by
  apply Lib.readU32_congr
  intro j hj
  rw [Nat.add_assoc]
  exact byte_same same hi (by omega)

theorem name_same {i : Nat} (hi : i < ufsMaxEntries) : nameAt a i = nameAt b i := by
  apply nameAt_congr
  intro j hj
  unfold ufsNameMax at hj
  exact byte_same same hi (by omega)

theorem allocated_same {nextFree : Nat} (allocated : Allocated b nextFree) :
    Allocated a nextFree := by
  have extent {i : Nat} (hi : i < ufsMaxEntries) (lba : Nat) :=
    @inExtent_congr a b i lba (entries_congr same hi).2
  refine ⟨allocated.low, allocated.high, fun i hi lba inside => ?_,
    fun i hi j hj other lba insideI insideJ => ?_⟩
  · exact allocated.inside i hi lba ((extent hi lba).mp inside)
  · exact allocated.apart i hi j hj other lba ((extent hi lba).mp insideI)
      ((extent hj lba).mp insideJ)

theorem named_same (named : Named b) : Named a := by
  have used {i : Nat} (hi : i < ufsMaxEntries) := (entries_congr same hi).1
  refine ⟨fun i hi usedI => ?_, fun i hi usedI j hj usedJ names => ?_⟩
  · unfold Terminated
    rw [byte_same same hi (by decide)]
    exact named.terminated i hi (used hi ▸ usedI)
  · rw [name_same same hi, name_same same hj] at names
    exact named.distinct i hi (used hi ▸ usedI) j hj (used hj ▸ usedJ) names

theorem slotOf_same (name : List UInt8) : slotOf a name = slotOf b name := by
  unfold slotOf
  apply List.find?_congr
  intro i hi
  have inside := List.mem_range.mp hi
  rw [(entries_congr same inside).1, name_same same inside]

end Same


theorem fileAt_same {s t : Ufs} (same : ∀ p < directoryBytes, t.directory p = s.directory p)
    (disk : t.drive.sectors = s.drive.sectors) {i : Nat} (inside : i < ufsMaxEntries) :
    fileAt t i = fileAt s i := by
  have size := field_same same inside (show 24 + 4 ≤ 40 by omega)
  have owner := field_same same inside (show 32 + 4 ≤ 40 by omega)
  have perm := byte_same same inside (show 36 < 40 by omega)
  have start := field_same same inside (show 20 + 4 ≤ 40 by omega)
  unfold fileAt fileByte entrySize entryOwner entryPerm entryStart
  rw [size, owner, perm, start, disk]

theorem fileMap_same {s t : Ufs} (same : ∀ p < directoryBytes, t.directory p = s.directory p)
    (disk : t.drive.sectors = s.drive.sectors) : fileMap t = fileMap s := by
  funext name
  unfold fileMap
  rw [slotOf_same same]
  rcases found : slotOf s.directory name with _ | i
  · rw [Option.map_none, Option.map_none]
  · unfold slotOf at found
    have inside := List.mem_range.mp (List.mem_of_find?_eq_some found)
    rw [Option.map_some, Option.map_some, fileAt_same same disk inside]

/-! ## A boot -/

/-- What a boot mounts is such a volume again, with the same files. -/
theorem Mounted.remount {s : Ufs} (mounted : Mounted s) :
    Mounted (remount s.drive.sectors) ∧ fileMap (remount s.drive.sectors) = fileMap s := by
  have cons := mounted.consistent
  obtain ⟨ready, next, same⟩ := remount_spec cons.superblock cons.directory
    cons.allocated.low cons.allocated.high
  obtain ⟨disk, faultless, recount⟩ := remount_drive cons.superblock
  have counted : (MiniKernel.Storage.remount s.drive.sectors).cachedFileCount =
      s.cachedFileCount := by
    rw [recount, mounted.catalogued.counted]
    exact countUsedEntries_congr fun i hi => (entries_congr same hi).1
  have allocated := allocated_same same (next ▸ cons.allocated)
  refine ⟨⟨⟨⟨ready, allocated, fun i hi => ?_⟩, faultless, named_same same mounted.volume.named⟩,
    ⟨ready, faultless, allocated, fun p hp => ?_, ?_⟩, recount,
    (named_same same mounted.volume.named).terminated⟩, fileMap_same same disk⟩
  · have size := field_same same hi (show 24 + 4 ≤ 40 by decide)
    have capacity := field_same same hi (show 28 + 4 ≤ 40 by decide)
    unfold entrySize entryCapacity
    rw [size, capacity]
    exact mounted.volume.laid.sized i hi
  · rw [disk, same p hp]
    exact cons.directory p hp
  · rw [disk, counted, next]
    exact cons.superblock

end MiniKernel.Storage
