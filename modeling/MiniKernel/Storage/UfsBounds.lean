import MiniKernel.Lib.Machine
import MiniKernel.Storage.FileFrame

/-!
# Files stay within their extents

Source: kernel/core/ufs.c:314-459. `ufs_write_at` trusts `ensure_capacity` to
have made room up to `offset + len`. It does not ask when `len` is 0, and for
the last bytes of the 32-bit range the number of sectors wraps to 0: then the
size, or the data, goes beyond the extent. `WriteFits` is what is left.
-/
namespace MiniKernel.Storage
open Drivers
open Lib (Buffer)

/-- Sizes are within capacities, extents within the allocated part of the data area. -/
structure WithinExtents (s : Ufs) : Prop where
  nextFree : s.nextFreeLba ≤ ufsDataEndLba
  sized : ∀ i < ufsMaxEntries, entryUsed s.directory i = true →
    entrySize s.directory i ≤ 512 * entryCapacity s.directory i
  inside : ∀ i < ufsMaxEntries, entryUsed s.directory i = true → ∀ lba,
    InExtent s.directory i lba → ufsDataLba ≤ lba ∧ lba < s.nextFreeLba

/-- The sectors `ufs_read_at` and `ufs_write_at` read and write are those of the
handle's file, besides the metadata a write persists; without a file they touch none. -/
def TouchesOwn (s : Ufs) (o : UfsOp) : Prop :=
  let t := perform o s
  match o with
  | .readAt handle _ _ =>
    if handleValid s handle then
      s.drive.Touches t.drive (InExtent s.directory handle.toNat) fun _ => False
    else t.drive = s.drive
  | .writeAt handle _ _ _ =>
    if handleValid s handle then
      s.drive.Touches t.drive (OwnSector handle.toNat s t)
        fun a => OwnSector handle.toNat s t a ∨ Metadata a
    else t.drive = s.drive
  | _ => True

/-- Writes are such that their file grows far enough. -/
def Fits (s : Ufs) : UfsOp → Prop
  | .writeAt handle offset _ len => WriteFits s handle offset.toNat len.toNat
  | _ => True

theorem Laid.withinExtents {s : Ufs} (laid : Laid s) : WithinExtents s :=
  ⟨laid.allocated.high, fun i hi _ => laid.sized i hi, fun i hi _ => laid.allocated.inside i hi⟩

theorem perform_laid {s : Ufs} (laid : Laid s) (o : UfsOp) (fits : Fits s o) :
    Laid (perform o s) := by
  cases o with
  | create name ownerUid =>
    rcases ufsCreate_spec laid name ownerUid.toNat with same | ⟨_, _, _, _, _, _, laid', _⟩
    · simp only [perform, same]
      exact laid
    · exact laid'
  | delete name =>
    rcases ufsDelete_works laid name with same | ⟨_, _, works⟩
    · simp only [perform, same]
      exact laid
    · exact works.laid
  | chmod handle perm => exact (ufsChmod_works laid handle perm).laid
  | truncate handle newSize => exact (ufsTruncate_works laid handle newSize.toNat).laid
  | writeAt handle offset buf len =>
    exact (ufsWriteAt_works laid offset.isLt len.isLt fits).1.laid
  | readAt handle offset len => exact (ufsReadAt_works laid handle offset.toNat len.toNat).laid

theorem perform_touchesOwn {s : Ufs} (laid : Laid s) (o : UfsOp) (fits : Fits s o) :
    TouchesOwn s o := by
  cases o with
  | readAt handle offset len =>
    cases valid : handleValid s handle with
    | true =>
      obtain ⟨d, touches, read⟩ := ufsReadAt_frame laid handle offset.toNat len.toNat
      simp only [TouchesOwn, valid, if_true, perform, read]
      exact touches
    | false =>
      simp [TouchesOwn, valid, perform, ufsReadAt_invalid valid]
  | writeAt handle offset buf len =>
    cases valid : handleValid s handle with
    | true =>
      simp only [TouchesOwn, valid, if_true]
      exact (ufsWriteAt_works laid offset.isLt len.isLt fits).1.touches
    | false =>
      have refused := ufsWriteAt_refused buf offset.isLt len.isLt (Or.inl valid)
      simp [TouchesOwn, valid, perform, refused]
  | _ => exact trivial

/-- As long as every write grows its file far enough, files stay within their
extents and reads and writes within their files, whatever the drive does. -/
theorem files_within_extents (disk : Nat → Sector) (faults : Nat → Option Nat) (ops : List UfsOp)
    (s : Ufs) (meets : Lib.Machine.Meets ufsStep Fits (faultyVolume disk faults) ops)
    (reached : Lib.Machine.run ufsStep (faultyVolume disk faults) ops = some s) :
    WithinExtents s ∧ ∀ next, Fits s next → TouchesOwn s next := by
  have laid : Laid s := Lib.Machine.run_invariant
    (fun s o t laid fits stepped => by
      cases stepped
      exact perform_laid laid o fits)
    (faultyVolume_laid disk faults) meets reached
  exact ⟨laid.withinExtents, fun next fits => perform_touchesOwn laid next fits⟩

def nameF : CString := ⟨[0x66], by simp⟩

/-- A file is created, and nothing is written to it at offset 1000. -/
def emptyWriteBeyond : List UfsOp := [.create nameF 0, .writeAt 0 1000 (fun _ => 0) 0]

/-- The size becomes 1000, with no sector allocated. -/
theorem emptyWriteBeyond_exceeds : ¬ ∀ (disk : Nat → Sector) (faults : Nat → Option Nat)
    (ops : List UfsOp) (s : Ufs), Lib.Machine.run ufsStep (faultyVolume disk faults) ops = some s →
      WithinExtents s ∧ ∀ next, TouchesOwn s next := by
  intro claim
  let s := perform (.writeAt 0 1000 (fun _ => 0) 0)
    (perform (.create nameF 0) (faultyVolume (fun _ _ => 0) fun _ => none))
  have used : entryUsed s.directory 0 = true := by decide +kernel
  have size : entrySize s.directory 0 = 1000 := by decide +kernel
  have capacity : entryCapacity s.directory 0 = 0 := by decide +kernel
  have bound := (claim (fun _ _ => 0) (fun _ => none) emptyWriteBeyond s rfl).1.sized 0
    (by decide) used
  rw [size, capacity] at bound
  exact absurd bound (by decide)

/-- A first byte is written where the file has no sector yet. -/
theorem files_within_extents_append :
    WithinExtents (perform (.writeAt 0 0 (fun _ => 0) 1)
      (perform (.create nameF 0) (faultyVolume (fun _ _ => 0) fun _ => none))) :=
  (files_within_extents (fun _ _ => 0) (fun _ => none)
    [.create nameF 0, .writeAt 0 0 (fun _ => 0) 1] _
    ⟨trivial, fun t created => ⟨fun _ _ => ⟨fun empty => absurd empty (by decide),
      fun _ _ => by decide⟩, fun _ _ => trivial⟩⟩ rfl).1

end MiniKernel.Storage
