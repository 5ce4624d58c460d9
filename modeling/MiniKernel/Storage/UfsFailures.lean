import MiniKernel.Storage.UfsRemount

/-!
# What a failing transfer leaves in memory

Source: kernel/core/ufs.c:209-312, 318-416, on a drive whose commands may fail.
Every operation edits the cached directory and the counters first and persists
them afterwards; when a transfer then fails, it returns -1 and the edit stays.
`commandsBefore` and `commandsAfter` are the commands an operation issues on
either side of its first edit.
-/
namespace MiniKernel.Storage
open Drivers
open Lib (Buffer readU32 writeU32)

/-! ## Commands that fail -/

inductive DiskCommand where
  | read (count : Nat)
  | write

/-- A read gives up at a sector it does not get; a write also waits for the flush. -/
def DiskCommand.Fails : DiskCommand → Option Nat → Prop
  | .read count, fault => ∃ k < count, fault = some k
  | .write, fault => fault ≠ none

instance (c : DiskCommand) (fault : Option Nat) : Decidable (c.Fails fault) :=
  match c with
  | .read count => inferInstanceAs (Decidable (∃ k < count, fault = some k))
  | .write => inferInstanceAs (Decidable (fault ≠ none))

/-- None of these commands fails, the first of them being the `n`-th. -/
def Passes (faults : Nat → Option Nat) : Nat → List DiskCommand → Prop
  | _, [] => True
  | n, c :: rest => ¬ c.Fails (faults n) ∧ Passes faults (n + 1) rest

instance decidablePasses (faults : Nat → Option Nat) : ∀ n commands,
    Decidable (Passes faults n commands)
  | _, [] => .isTrue trivial
  | n, c :: rest =>
    have := decidablePasses faults (n + 1) rest
    inferInstanceAs (Decidable (¬ c.Fails (faults n) ∧ Passes faults (n + 1) rest))

theorem passes_append (faults : Nat → Option Nat) (n : Nat) (first second : List DiskCommand) :
    Passes faults n (first ++ second) ↔
      Passes faults n first ∧ Passes faults (n + first.length) second := by
  induction first generalizing n with
  | nil => simp [Passes]
  | cons c rest ih =>
    simp only [List.cons_append, Passes, ih, List.length_cons, and_assoc]
    rw [Nat.add_assoc, Nat.add_comm 1]

/-- The drive was given these commands: `ok` says that none failed. -/
structure Runs (d : Drive) (commands : List DiskCommand) (ok : Bool) (d' : Drive) : Prop where
  result : ok = true ↔ Passes d.faults d.commands commands
  commands : ok = true → d'.commands = d.commands + commands.length
  faults : ok = true → d'.faults = d.faults

theorem Runs.nothing (d : Drive) : Runs d [] true d :=
  ⟨iff_of_true rfl trivial, fun _ => rfl, fun _ => rfl⟩

theorem Runs.trans {d d' d'' : Drive} {first second : List DiskCommand} {ok : Bool}
    (h : Runs d first true d') (h' : Runs d' second ok d'') : Runs d (first ++ second) ok d'' := by
  have passed := h.result.mp rfl
  constructor
  · rw [h'.result, h.faults rfl, h.commands rfl, passes_append]
    exact ⟨fun rest => ⟨passed, rest⟩, fun both => both.2⟩
  · intro done
    rw [h'.commands done, h.commands rfl, List.length_append, Nat.add_assoc]
  · intro done
    rw [h'.faults done, h.faults rfl]

/-- A command that fails ends the operation. -/
theorem Runs.stop {d d' d'' : Drive} {first : List DiskCommand} (second : List DiskCommand)
    (h : Runs d first false d') : Runs d (first ++ second) false d'' := by
  constructor
  · rw [passes_append]
    constructor
    · intro impossible
      cases impossible
    · intro both
      exact h.result.mpr both.1
  · intro impossible
    cases impossible
  · intro impossible
    cases impossible

/-- A round of a loop: the first failure ends it. -/
theorem Runs.round {d d₁ d₂ : Drive} {first second : DiskCommand} {rest : List DiskCommand}
    {readOk writeOk : Bool} {later : Bool × Drive} (read : Runs d [first] readOk d₁)
    (write : Runs d₁ [second] writeOk d₂) (goes : Runs d₂ rest later.1 later.2) :
    Runs d (first :: second :: rest)
      (if ¬ readOk then (false, d₁) else if ¬ writeOk then (false, d₂) else later).1
      (if ¬ readOk then (false, d₁) else if ¬ writeOk then (false, d₂) else later).2 := by
  cases readOk with
  | false => exact read.stop (second :: rest)
  | true =>
    cases writeOk with
    | false => exact (read.trans write).stop rest
    | true => exact (read.trans write).trans goes

theorem ataReadSectors_runs (lba count : Nat) (d : Drive) (hpos : 0 < count) (hle : count ≤ 256) :
    Runs d [.read count] (ataReadSectors lba count d).1 (ataReadSectors lba count d).2.2 := by
  unfold ataReadSectors
  rw [if_neg (by omega)]
  refine ⟨?_, fun _ => rfl, fun _ => rfl⟩
  rw [decide_eq_true_eq]
  simp only [Passes, DiskCommand.Fails, and_true]
  change transferred d.fault count = count ↔ ¬ ∃ k < count, d.fault = some k
  cases d.fault with
  | none => simp [transferred]
  | some k => simp [transferred]

theorem ataWriteSectors_runs (lba count : Nat) (buf : Buffer) (d : Drive) (hpos : 0 < count)
    (hle : count ≤ 256) :
    Runs d [.write] (ataWriteSectors lba count buf d).1 (ataWriteSectors lba count buf d).2 := by
  obtain ⟨run, _⟩ := writeRun_extends (lba28 lba) buf (transferred d.fault count) d
  unfold ataWriteSectors
  rw [if_neg (by omega)]
  refine ⟨?_, fun _ => rfl, fun _ => run.faults⟩
  rw [decide_eq_true_eq]
  simp only [Passes, DiskCommand.Fails, and_true, not_not]
  exact Iff.rfl

def persistCommands : List DiskCommand := [.write, .write]

theorem persist_runs (s : Ufs) :
    Runs s.drive persistCommands (persist s).1 (persist s).2.drive := by
  have directory := ataWriteSectors_runs ufsDirLba ufsDirSectors s.directory s.drive (by decide)
    (by decide)
  have superblock := ataWriteSectors_runs ufsSbLba 1
    (superblockImage s.cachedFileCount s.nextFreeLba) (persistDirectory s).2.drive (by decide)
    (by decide)
  unfold persist
  simp only
  cases ok : (persistDirectory s).1 with
  | true =>
    have first : Runs s.drive [.write] true (persistDirectory s).2.drive := ok ▸ directory
    exact first.trans superblock
  | false =>
    have first : Runs s.drive [.write] false (persistDirectory s).2.drive := ok ▸ directory
    exact first.stop [.write]

/-! ## The loops -/

/-- A copy of so many sectors, eight at a time. -/
def copyCommands (sectors : Nat) : List DiskCommand :=
  (List.range ((sectors + 7) / 8)).flatMap fun k => [.read (min 8 (sectors - 8 * k)), .write]

theorem copyCommands_step {sectors : Nat} (h : 0 < sectors) :
    copyCommands sectors =
      .read (min sectors 8) :: .write :: copyCommands (sectors - min sectors 8) := by
  have chunks : (sectors + 7) / 8 = (sectors - min sectors 8 + 7) / 8 + 1 := by omega
  unfold copyCommands
  rw [chunks, List.range_succ_eq_map, List.flatMap_cons, List.flatMap_map, Nat.mul_zero,
    Nat.sub_zero, Nat.min_comm 8]
  simp only [List.cons_append, List.nil_append, List.cons.injEq, true_and]
  apply List.flatMap_congr
  intro k _
  have left : sectors - 8 * k.succ = sectors - min sectors 8 - 8 * k := by omega
  rw [left]

theorem moveLoop_runs (oldStart newStart oldSectors fuel done : Nat) (d : Drive)
    (enough : oldSectors ≤ done + fuel) :
    Runs d (copyCommands (oldSectors - done)) (moveLoop oldStart newStart oldSectors fuel done d).1
      (moveLoop oldStart newStart oldSectors fuel done d).2 := by
  induction fuel generalizing done d with
  | zero =>
    have none : oldSectors - done = 0 := Nat.sub_eq_zero_of_le enough
    rw [none]
    exact Runs.nothing d
  | succ fuel ih =>
    rw [moveLoop]
    by_cases more : done < oldSectors
    swap
    · rw [if_neg more, Nat.sub_eq_zero_of_le (Nat.not_lt.mp more)]
      exact Runs.nothing d
    rw [if_pos more, copyCommands_step (Nat.sub_pos_of_lt more)]
    have hpos : 0 < min (oldSectors - done) 8 := by omega
    have hle : min (oldSectors - done) 8 ≤ 256 := by omega
    have left : oldSectors - done - min (oldSectors - done) 8 =
        oldSectors - (done + min (oldSectors - done) 8) := by omega
    have read := ataReadSectors_runs (wrap32 (oldStart + done)) _ d hpos hle
    have write := ataWriteSectors_runs (wrap32 (newStart + done)) _
      (bufferOf (ataReadSectors (wrap32 (oldStart + done)) (min (oldSectors - done) 8) d).2.1)
      (ataReadSectors (wrap32 (oldStart + done)) (min (oldSectors - done) 8) d).2.2 hpos hle
    rw [left]
    exact read.round write (ih _ _ (by omega))

/-- How many sectors the bytes from `cur` on lie in. -/
def spanned (cur len : Nat) : Nat := if len = 0 then 0 else (cur + len - 1) / 512 - cur / 512 + 1

/-- Each sector is read, patched and written back. -/
def dataCommands (cur len : Nat) : List DiskCommand :=
  (List.range (spanned cur len)).flatMap fun _ => [.read 1, .write]

theorem dataCommands_step {cur len : Nat} (h : 0 < len) :
    dataCommands cur len =
      .read 1 :: .write :: dataCommands (cur + min (512 - cur % 512) len)
        (len - min (512 - cur % 512) len) := by
  have sectors : spanned cur len =
      spanned (cur + min (512 - cur % 512) len) (len - min (512 - cur % 512) len) + 1 := by
    unfold spanned
    rw [if_neg (by omega)]
    split <;> omega
  unfold dataCommands
  rw [sectors, List.range_succ_eq_map, List.flatMap_cons, List.flatMap_map]
  rfl

theorem writeAtLoop_runs (startLba fuel cur remaining : Nat) (src : Buffer) (d : Drive)
    (enough : remaining ≤ fuel) (small : cur + remaining < 2 ^ 32) :
    Runs d (dataCommands cur remaining) (writeAtLoop startLba fuel cur remaining src d).1
      (writeAtLoop startLba fuel cur remaining src d).2 := by
  induction fuel generalizing cur remaining src d with
  | zero =>
    rw [Nat.le_zero.mp enough]
    exact Runs.nothing d
  | succ fuel ih =>
    rw [writeAtLoop]
    by_cases done : remaining = 0
    · rw [if_pos done, done]
      exact Runs.nothing d
    rw [if_neg done, dataCommands_step (Nat.pos_of_ne_zero done)]
    have read := ataReadSectors_runs (wrap32 (startLba + cur / sectorSize)) 1 d (by decide)
      (by decide)
    let scratch : Buffer := fun p =>
      if cur % sectorSize ≤ p ∧ p < cur % sectorSize + min (sectorSize - cur % sectorSize) remaining
      then src (p - cur % sectorSize)
      else bufferOf (ataReadSectors (wrap32 (startLba + cur / sectorSize)) 1 d).2.1 p
    have write := ataWriteSectors_runs (wrap32 (startLba + cur / sectorSize)) 1 scratch
      (ataReadSectors (wrap32 (startLba + cur / sectorSize)) 1 d).2.2 (by decide) (by decide)
    have next : wrap32 (cur + min (sectorSize - cur % sectorSize) remaining) =
        cur + min (512 - cur % 512) remaining := Nat.mod_eq_of_lt (by unfold sectorSize; omega)
    simp only [next]
    exact read.round write (ih _ _ _ _ (by omega) (by omega))

/-! ## What an operation changes in memory -/

/-- The directory and the counters are the same. -/
structure SameMemory (s t : Ufs) : Prop where
  directory : t.directory = s.directory
  cachedFileCount : t.cachedFileCount = s.cachedFileCount
  nextFreeLba : t.nextFreeLba = s.nextFreeLba

/-- An operation that returns -1 has changed nothing in memory. -/
def FailsUnchanged (s : Ufs) (o : UfsOp) : Prop :=
  (ufsResult s o).1 = -1 → SameMemory s (perform o s)

/-- A write that makes its file longer, within the extent it has. -/
def Lengthens (s : Ufs) (handle offset len : Nat) : Prop :=
  (0 < len → offset + len ≤ wrap32 (entryCapacity s.directory handle * sectorSize)) ∧
    entrySize s.directory handle < offset + len

/-- The operation is accepted, and its edit makes a difference. -/
def Edits (s : Ufs) : UfsOp → Prop
  | .create name _ =>
    s.ready = true ∧ 0 < name.bytes.length ∧ name.bytes.length < ufsNameMax ∧
      ufsFind s name = none ∧ (firstFree s.directory).isSome = true
  | .delete name => s.ready = true ∧ (ufsFind s name).isSome = true
  | .chmod handle perm =>
    handleValid s handle = true ∧ entryPerm s.directory handle.toNat ≠ perm
  | .truncate handle newSize =>
    handleValid s handle = true ∧
      newSize.toNat ≤ wrap32 (entryCapacity s.directory handle.toNat * sectorSize) ∧
      entrySize s.directory handle.toNat ≠ newSize.toNat
  | .writeAt handle offset _ len =>
    handleValid s handle = true ∧ offset.toNat + len.toNat < 2 ^ 32 ∧
      ((0 < len.toNat ∧ NeedsGrowth s handle.toNat (offset.toNat + len.toNat)) ∨
        Lengthens s handle.toNat offset.toNat len.toNat)
  | .readAt _ _ _ => False

/-- The commands before the edit: a write copies the file it moves, or stores
its data into the extent the file has. -/
def commandsBefore (s : Ufs) : UfsOp → List DiskCommand
  | .writeAt handle offset _ len =>
    if 0 < len.toNat ∧ NeedsGrowth s handle.toNat (offset.toNat + len.toNat) then
      copyCommands (copiedSectors s.directory handle.toNat)
    else dataCommands offset.toNat len.toNat
  | _ => []

/-- The commands after it. -/
def commandsAfter (s : Ufs) : UfsOp → List DiskCommand
  | .writeAt handle offset _ len =>
    if 0 < len.toNat ∧ NeedsGrowth s handle.toNat (offset.toNat + len.toNat) then
      persistCommands ++ dataCommands offset.toNat len.toNat ++
        if entrySize s.directory handle.toNat < offset.toNat + len.toNat then persistCommands
        else []
    else persistCommands
  | _ => persistCommands

/-- The length of a write, returned as an `int`, is -1. -/
def LengthIsError : UfsOp → Prop
  | .writeAt _ _ _ len => toInt32 len.toNat = -1
  | _ => False

/-- The edit is made, and the operation returns -1 all the same. -/
def EditsAndFails (s : Ufs) (o : UfsOp) : Prop :=
  Edits s o ∧ Passes s.drive.faults s.drive.commands (commandsBefore s o) ∧
    (¬ Passes s.drive.faults (s.drive.commands + (commandsBefore s o).length)
      (commandsAfter s o) ∨ LengthIsError o)

theorem SameMemory.refl (s : Ufs) : SameMemory s s := ⟨rfl, rfl, rfl⟩

theorem persist_sameMemory (s : Ufs) : SameMemory s (persist s).2 :=
  ⟨(persist_frame s).1, persist_count s, (persist_frame s).2.1⟩

theorem SameMemory.trans {s t u : Ufs} (h : SameMemory s t) (h' : SameMemory t u) :
    SameMemory s u :=
  ⟨h'.directory.trans h.directory, h'.cachedFileCount.trans h.cachedFileCount,
    h'.nextFreeLba.trans h.nextFreeLba⟩

theorem SameMemory.symm {s t : Ufs} (h : SameMemory s t) : SameMemory t s :=
  ⟨h.directory.symm, h.cachedFileCount.symm, h.nextFreeLba.symm⟩

/-- An operation that does not edit. -/
theorem failsUnchanged_of_same {s : Ufs} {o : UfsOp} (same : SameMemory s (perform o s))
    (idle : ¬ Edits s o) : FailsUnchanged s o ↔ ¬ EditsAndFails s o :=
  iff_of_true (fun _ => same) fun bad => idle bad.1

/-- An operation that edits the memory and persists it, and nothing else. -/
theorem failsUnchanged_of_persist {s t : Ufs} {o : UfsOp} (edits : Edits s o ↔ ¬ SameMemory s t)
    (drive : t.drive = s.drive) (performed : perform o s = (persist t).2)
    (result : (ufsResult s o).1 = -1 ↔ (persist t).1 = false)
    (before : commandsBefore s o = []) (after : commandsAfter s o = persistCommands)
    (noLength : ¬ LengthIsError o) : FailsUnchanged s o ↔ ¬ EditsAndFails s o := by
  have runs := (persist_runs t).result
  rw [drive] at runs
  have memory : SameMemory s (perform o s) ↔ SameMemory s t := by
    rw [performed]
    exact ⟨fun h => h.trans (persist_sameMemory t).symm, fun h => h.trans (persist_sameMemory t)⟩
  unfold FailsUnchanged EditsAndFails
  rw [memory, result, edits, before, after, ← Bool.not_eq_true, runs]
  simp only [Passes, List.length_nil, Nat.add_zero, true_and, noLength, or_false]
  tauto

/-! ## Each operation -/

theorem sameMemory_of_update {s : Ufs} {p : Nat} {v : UInt8} :
    SameMemory s { s with directory := Function.update s.directory p v } ↔ s.directory p = v := by
  constructor
  · intro same
    have byte := congrFun same.directory p
    rw [← byte]
    exact Function.update_self ..
  · intro same
    refine ⟨?_, rfl, rfl⟩
    simp only [← same, Function.update_eq_self]

theorem sameMemory_of_writeU32 {s : Ufs} {p v : Nat} (hv : v < 2 ^ 32) :
    SameMemory s { s with directory := writeU32 s.directory p v } ↔ readU32 s.directory p = v := by
  constructor
  · intro same
    have field := congrArg (readU32 · p) same.directory
    simp only [Lib.readU32_writeU32 _ _ _ hv] at field
    exact field.symm
  · intro same
    refine ⟨?_, rfl, rfl⟩
    simp only [← same, Lib.writeU32_readU32]

theorem create_failsUnchanged_iff (s : Ufs) (name : CString) (ownerUid : BitVec 32) :
    FailsUnchanged s (.create name ownerUid) ↔ ¬ EditsAndFails s (.create name ownerUid) := by
  by_cases edits : Edits s (.create name ownerUid)
  · obtain ⟨ready, nonempty, short, absent, free⟩ := edits
    obtain ⟨slot, free⟩ := Option.isSome_iff_exists.mp free
    let t : Ufs :=
      { s with
        directory := createdEntry s.directory slot name ownerUid.toNat
        cachedFileCount := wrap32 (s.cachedFileCount + 1) }
    have created : ufsCreate name ownerUid.toNat s =
        (if (persist t).1 then some slot else none, (persist t).2) := by
      unfold ufsCreate
      rw [if_neg (not_not_intro ready), if_neg (by omega), absent, if_neg (by decide), free]
    have counted : t.cachedFileCount ≠ s.cachedFileCount := by
      simp only [t, wrap32]
      omega
    refine failsUnchanged_of_persist (t := t) ?_ rfl ?_ ?_ rfl rfl id
    · exact iff_of_true ⟨ready, nonempty, short, absent, Option.isSome_iff_exists.mpr ⟨slot, free⟩⟩
        fun same => counted same.cachedFileCount
    · simp only [perform, created]
    · simp only [ufsResult, created]
      cases (persist t).1 with
      | true => simp
      | false => simp
  · apply failsUnchanged_of_same _ edits
    have idle : ufsCreate name ownerUid.toNat s = (none, s) := by
      unfold ufsCreate
      by_cases ready : s.ready = true
      swap
      · rw [if_pos ready]
      rw [if_neg (not_not_intro ready)]
      by_cases length : name.bytes.length = 0 ∨ name.bytes.length ≥ ufsNameMax
      · rw [if_pos length]
      rw [if_neg length]
      by_cases there : (ufsFind s name).isSome = true
      · rw [if_pos there]
      rw [if_neg there]
      split
      · rfl
      · next slot free =>
        refine absurd ⟨ready, by omega, by omega, ?_, ?_⟩ edits
        · simpa using there
        · rw [free]
          rfl
    simp only [perform, idle]
    exact SameMemory.refl s

theorem delete_failsUnchanged_iff (s : Ufs) (name : CString) :
    FailsUnchanged s (.delete name) ↔ ¬ EditsAndFails s (.delete name) := by
  by_cases edits : Edits s (.delete name)
  · obtain ⟨ready, present⟩ := edits
    obtain ⟨slot, found⟩ := Option.isSome_iff_exists.mp present
    let t : Ufs :=
      { s with
        directory := Function.update s.directory (entryAt slot) 0
        cachedFileCount := wrap32 (s.cachedFileCount + 2 ^ 32 - 1) }
    have deleted : ufsDelete name s = persist t := by
      unfold ufsDelete
      rw [if_neg (not_not_intro ready), found]
    have used := (ufsFind_spec found).2
    refine failsUnchanged_of_persist (t := t) ?_ rfl ?_ ?_ rfl rfl id
    · refine iff_of_true ⟨ready, present⟩ fun same => ?_
      have byte := congrFun same.directory (entryAt slot)
      simp only [t, Function.update_self] at byte
      simp [entryUsed, ← byte] at used
    · simp only [perform, deleted]
    · simp only [ufsResult, deleted]
      cases (persist t).1 with
      | true => simp
      | false => simp
  · apply failsUnchanged_of_same _ edits
    have idle : ufsDelete name s = (false, s) := by
      unfold ufsDelete
      by_cases ready : s.ready = true
      swap
      · rw [if_pos ready]
      rw [if_neg (not_not_intro ready)]
      split
      · rfl
      · next slot found =>
        refine absurd ⟨ready, ?_⟩ edits
        rw [found]
        rfl
    simp only [perform, idle]
    exact SameMemory.refl s

theorem chmod_failsUnchanged_iff (s : Ufs) (handle : Int) (perm : UInt8) :
    FailsUnchanged s (.chmod handle perm) ↔ ¬ EditsAndFails s (.chmod handle perm) := by
  by_cases valid : handleValid s handle = true
  · let t : Ufs :=
      { s with directory := Function.update s.directory (entryAt handle.toNat + 36) perm }
    have changed : ufsChmod handle perm s = persist t := by
      unfold ufsChmod
      rw [if_neg (not_not_intro valid)]
    refine failsUnchanged_of_persist (t := t) ?_ rfl ?_ ?_ rfl rfl id
    · rw [sameMemory_of_update]
      exact ⟨fun edits => edits.2, fun differs => ⟨valid, differs⟩⟩
    · simp only [perform, changed]
    · simp only [ufsResult, changed]
      cases (persist t).1 with
      | true => simp
      | false => simp
  · have idle : ¬ Edits s (.chmod handle perm) := fun edits => valid edits.1
    apply failsUnchanged_of_same _ idle
    simp only [perform, ufsChmod, if_pos valid]
    exact SameMemory.refl s

theorem truncate_failsUnchanged_iff (s : Ufs) (handle : Int) (newSize : BitVec 32) :
    FailsUnchanged s (.truncate handle newSize) ↔ ¬ EditsAndFails s (.truncate handle newSize) := by
  by_cases accepted : handleValid s handle = true ∧
      newSize.toNat ≤ wrap32 (entryCapacity s.directory handle.toNat * sectorSize)
  · obtain ⟨valid, fits⟩ := accepted
    let t : Ufs :=
      { s with directory := writeU32 s.directory (entryAt handle.toNat + 24) newSize.toNat }
    have changed : ufsTruncate handle newSize.toNat s = persist t := by
      unfold ufsTruncate
      rw [if_neg (not_not_intro valid), if_neg (Nat.not_lt.mpr fits)]
    refine failsUnchanged_of_persist (t := t) ?_ rfl ?_ ?_ rfl rfl id
    · rw [sameMemory_of_writeU32 newSize.isLt]
      exact ⟨fun edits => edits.2.2, fun differs => ⟨valid, fits, differs⟩⟩
    · simp only [perform, changed]
    · simp only [ufsResult, changed]
      cases (persist t).1 with
      | true => simp
      | false => simp
  · have refused : ¬ Edits s (.truncate handle newSize) := fun edits =>
      accepted ⟨edits.1, edits.2.1⟩
    apply failsUnchanged_of_same _ refused
    have idle : ufsTruncate handle newSize.toNat s = (false, s) := by
      unfold ufsTruncate
      by_cases valid : handleValid s handle = true
      · rw [if_neg (not_not_intro valid), if_pos (by
          by_contra fits
          exact accepted ⟨valid, Nat.not_lt.mp fits⟩)]
      · rw [if_pos valid]
    simp only [perform, idle]
    exact SameMemory.refl s

/-! ## Writing -/

/-- The commands of `write_data`: the data, and a `persist` where the size grows. -/
def writeDataCommands (s : Ufs) (handle offset len : Nat) : List DiskCommand :=
  dataCommands offset len ++
    if entrySize s.directory handle < offset + len then persistCommands else []

/-- What the end of a write returns, and what it leaves. -/
theorem writeData_outcome (handle : Int) (offset len : Nat) (buf : Buffer) (s : Ufs)
    (small : offset + len < 2 ^ 32) :
    ∃ ok, Runs s.drive (writeDataCommands s handle.toNat offset len) ok
        (writeData handle offset (offset + len) buf len s).2.drive ∧
      (writeData handle offset (offset + len) buf len s).1 = (if ok then toInt32 len else -1) ∧
      (writeData handle offset (offset + len) buf len s).2.nextFreeLba = s.nextFreeLba ∧
      (writeData handle offset (offset + len) buf len s).2.cachedFileCount = s.cachedFileCount ∧
      (writeData handle offset (offset + len) buf len s).2.directory =
        if Passes s.drive.faults s.drive.commands (dataCommands offset len) ∧
            entrySize s.directory handle.toNat < offset + len then
          writeU32 s.directory (entryAt handle.toNat + 24) (offset + len)
        else s.directory := by
  have data := writeAtLoop_runs (entryStart s.directory handle.toNat) len offset len buf s.drive
    (Nat.le_refl _) small
  unfold writeData writeDataCommands
  simp only
  cases stored : (writeAtLoop (entryStart s.directory handle.toNat) len offset len buf
    s.drive).1 with
  | false =>
    rw [stored] at data
    have failed : ¬ Passes s.drive.faults s.drive.commands (dataCommands offset len) := fun h =>
      Bool.false_ne_true (data.result.mpr h)
    simp only [Bool.false_eq_true, not_false_eq_true, if_true, failed, false_and, if_false]
    exact ⟨false, data.stop _, by simp⟩
  | true =>
    rw [stored] at data
    have passed := data.result.mp rfl
    simp only [not_true_eq_false, if_false, passed, true_and]
    by_cases longer : entrySize s.directory handle.toNat < offset + len
    · rw [if_pos longer, if_pos longer, if_pos longer]
      have persisted := persist_runs
        { s with
          directory := writeU32 s.directory (entryAt handle.toNat + 24) (offset + len)
          drive := (writeAtLoop (entryStart s.directory handle.toNat) len offset len buf
            s.drive).2 }
      have kept := persist_sameMemory
        { s with
          directory := writeU32 s.directory (entryAt handle.toNat + 24) (offset + len)
          drive := (writeAtLoop (entryStart s.directory handle.toNat) len offset len buf
            s.drive).2 }
      exact ⟨_, data.trans persisted, rfl, kept.nextFreeLba, kept.cachedFileCount, kept.directory⟩
    · rw [if_neg longer, if_neg longer, if_neg longer, List.append_nil]
      exact ⟨true, data, rfl, rfl, rfl, rfl⟩

theorem movedDrive_runs (s : Ufs) (handle : Nat) :
    Runs s.drive (copyCommands (copiedSectors s.directory handle)) (movedDrive s handle).1
      (movedDrive s handle).2 := by
  unfold movedDrive copiedSectors
  split
  · exact moveLoop_runs _ _ _ _ 0 s.drive (Nat.le_add_left _ _)
  · exact Runs.nothing s.drive

theorem movedEntry_size (dir : Buffer) (handle start capacity : Nat) :
    entrySize (movedEntry dir handle start capacity) handle = entrySize dir handle := by
  unfold entrySize movedEntry
  rw [Lib.readU32_writeU32_other _ _ _ _ (by omega), Lib.readU32_writeU32_other _ _ _ _ (by omega)]

/-- Once the copy is made, the entry and the allocator are changed and persisted. -/
theorem ensureCapacity_copied {s : Ufs} {handle needed : Nat} (needs : NeedsGrowth s handle needed)
    (copied : (movedDrive s handle).1 = true) :
    ∃ t, ensureCapacity handle needed s = persist t ∧ t.drive = (movedDrive s handle).2 ∧
      entrySize t.directory handle = entrySize s.directory handle ∧
      t.nextFreeLba ≠ s.nextFreeLba := by
  have spec := newCapacitySectors_spec (entryCapacity s.directory handle) needed
  have bound : entryCapacity s.directory handle < 2 ^ 32 := Lib.readU32_lt _ _
  -- the copy's drive is named, so that it is never computed
  obtain ⟨d, drive⟩ : ∃ d, (movedDrive s handle).2 = d := ⟨_, rfl⟩
  rw [ensureCapacity_moves needs, if_neg (not_not_intro copied), drive]
  refine ⟨_, rfl, rfl, movedEntry_size _ _ _ _, ?_⟩
  simp only [wrap32]
  omega

/-- A write that moves its file, once the copy is made: the allocator has
advanced, and the rest is run to its end or to the command that fails. -/
theorem moved_outcome {s : Ufs} {handle : Int} {offset len : BitVec 32} (buf : Buffer)
    (valid : handleValid s handle = true) (small : offset.toNat + len.toNat < 2 ^ 32)
    (nonempty : 0 < len.toNat)
    (needs : NeedsGrowth s handle.toNat (offset.toNat + len.toNat))
    (copied : (movedDrive s handle.toNat).1 = true) :
    ∃ ok, Runs s.drive (copyCommands (copiedSectors s.directory handle.toNat) ++
          (persistCommands ++ writeDataCommands s handle.toNat offset.toNat len.toNat)) ok
        (ufsWriteAt handle offset.toNat buf len.toNat s).2.drive ∧
      (ufsWriteAt handle offset.toNat buf len.toNat s).1 =
        (if ok then toInt32 len.toNat else -1) ∧
      (ufsWriteAt handle offset.toNat buf len.toNat s).2.nextFreeLba ≠ s.nextFreeLba := by
  obtain ⟨moved, grown, drive, size, advanced⟩ := ensureCapacity_copied needs copied
  have written := ufsWriteAt_eq handle offset.toNat buf len.toNat s valid small
  have copy := movedDrive_runs s handle.toNat
  rw [copied, ← drive] at copy
  simp only [gt_iff_lt, nonempty, if_true, grown] at written
  have persisted := copy.trans (persist_runs moved)
  have kept := persist_sameMemory moved
  rw [← List.append_assoc]
  cases done : (persist moved).1 with
  | false =>
    rw [done] at persisted
    simp only [done, Bool.false_eq_true, not_false_eq_true, if_true] at written
    rw [written]
    exact ⟨false, persisted.stop _, rfl, kept.nextFreeLba ▸ advanced⟩
  | true =>
    rw [done] at persisted
    simp only [done, not_true_eq_false, if_false] at written
    obtain ⟨ok, runs, result, next, _⟩ := writeData_outcome handle offset.toNat len.toNat buf
      (persist moved).2 small
    unfold writeDataCommands at runs ⊢
    rw [kept.directory, size] at runs
    rw [written]
    exact ⟨ok, persisted.trans runs, result, next.trans kept.nextFreeLba ▸ advanced⟩

/-- A write that moves its file leaves the allocator advanced once the copy is
made, so it must not fail after that. -/
theorem growing_failsUnchanged_iff {s : Ufs} {handle : Int} {offset len : BitVec 32} (buf : Buffer)
    (valid : handleValid s handle = true) (small : offset.toNat + len.toNat < 2 ^ 32)
    (nonempty : 0 < len.toNat)
    (needs : NeedsGrowth s handle.toNat (offset.toNat + len.toNat)) :
    FailsUnchanged s (.writeAt handle offset buf len) ↔
      ¬ EditsAndFails s (.writeAt handle offset buf len) := by
  have grows : 0 < len.toNat ∧ NeedsGrowth s handle.toNat (offset.toNat + len.toNat) :=
    ⟨nonempty, needs⟩
  have edits : Edits s (.writeAt handle offset buf len) := ⟨valid, small, Or.inl grows⟩
  have copy := movedDrive_runs s handle.toNat
  have after : commandsAfter s (.writeAt handle offset buf len) =
      persistCommands ++ writeDataCommands s handle.toNat offset.toNat len.toNat := by
    simp only [commandsAfter, if_pos grows, writeDataCommands, List.append_assoc]
  unfold FailsUnchanged EditsAndFails
  simp only [edits, true_and, after, commandsBefore, if_pos grows, LengthIsError]
  cases copied : (movedDrive s handle.toNat).1 with
  | false =>
    rw [copied] at copy
    have failed := fun h => Bool.false_ne_true (copy.result.mpr h)
    have written := ufsWriteAt_eq handle offset.toNat buf len.toNat s valid small
    simp only [gt_iff_lt, nonempty, if_true, ensureCapacity_moves needs, copied,
      Bool.false_eq_true, not_false_eq_true] at written
    refine iff_of_true (fun _ => ?_) fun bad => failed bad.1
    simp only [perform, written]
    exact ⟨rfl, rfl, rfl⟩
  | true =>
    rw [copied] at copy
    have passed := copy.result.mp rfl
    obtain ⟨ok, runs, result, advanced⟩ := moved_outcome buf valid small nonempty needs copied
    have outcome := runs.result
    rw [passes_append] at outcome
    simp only [passed, true_and] at outcome ⊢
    simp only [ufsResult, perform, result, ← outcome]
    constructor
    · rintro unchanged (failed | isError)
      · exact advanced (unchanged (if_neg failed)).nextFreeLba
      · refine advanced (unchanged ?_).nextFreeLba
        rw [isError, ite_self]
    · intro fine returned
      refine absurd ?_ fine
      by_cases done : ok = true
      · rw [if_pos done] at returned
        exact Or.inr returned
      · exact Or.inl done

/-- A write within the extent its file has. -/
theorem fitting_failsUnchanged_iff {s : Ufs} {handle : Int} {offset len : BitVec 32} (buf : Buffer)
    (valid : handleValid s handle = true) (small : offset.toNat + len.toNat < 2 ^ 32)
    (stays : ¬ (0 < len.toNat ∧ NeedsGrowth s handle.toNat (offset.toNat + len.toNat)))
    (fits : 0 < len.toNat → offset.toNat + len.toNat ≤
      wrap32 (entryCapacity s.directory handle.toNat * sectorSize)) :
    FailsUnchanged s (.writeAt handle offset buf len) ↔
      ¬ EditsAndFails s (.writeAt handle offset buf len) := by
  have written : ufsWriteAt handle offset.toNat buf len.toNat s =
      writeData handle offset.toNat (offset.toNat + len.toNat) buf len.toNat s := by
    rw [ufsWriteAt_eq handle offset.toNat buf len.toNat s valid small]
    by_cases nonempty : 0 < len.toNat
    · have room : ensureCapacity handle.toNat (offset.toNat + len.toNat) s = (true, s) := by
        unfold ensureCapacity
        rw [if_pos (fits nonempty)]
      simp only [gt_iff_lt, nonempty, if_true, room, not_true_eq_false, if_false]
    · simp only [gt_iff_lt, nonempty, if_false, not_true_eq_false]
  obtain ⟨ok, runs, result, next, count, directory⟩ := writeData_outcome handle offset.toNat
    len.toNat buf s small
  have edits : Edits s (.writeAt handle offset buf len) ↔
      entrySize s.directory handle.toNat < offset.toNat + len.toNat := by
    constructor
    · rintro ⟨_, _, grows | longer⟩
      · exact absurd grows stays
      · exact longer.2
    · intro longer
      exact ⟨valid, small, Or.inr ⟨fits, longer⟩⟩
  have outcome := runs.result
  unfold writeDataCommands at outcome
  rw [passes_append] at outcome
  unfold FailsUnchanged EditsAndFails
  simp only [edits, commandsBefore, commandsAfter, if_neg stays, LengthIsError, ufsResult, perform,
    written, result]
  by_cases longer : entrySize s.directory handle.toNat < offset.toNat + len.toNat
  swap
  · rw [if_neg fun both => longer both.2] at directory
    exact iff_of_true (fun _ => ⟨directory, count, next⟩) fun bad => longer bad.1
  by_cases stored : Passes s.drive.faults s.drive.commands (dataCommands offset.toNat len.toNat)
  swap
  · rw [if_neg fun both => stored both.1] at directory
    exact iff_of_true (fun _ => ⟨directory, count, next⟩) fun bad => stored bad.2.1
  -- the size is in memory: nothing may fail any more
  have changed : ¬ SameMemory s
      (writeData handle offset.toNat (offset.toNat + len.toNat) buf len.toNat s).2 := by
    intro same
    rw [if_pos ⟨stored, longer⟩] at directory
    have field := congrArg (readU32 · (entryAt handle.toNat + 24))
      (directory.symm.trans same.directory)
    simp only [Lib.readU32_writeU32 _ _ _ small] at field
    exact Nat.ne_of_gt longer field
  simp only [longer, if_true, stored, true_and] at outcome ⊢
  rw [← outcome]
  constructor
  · rintro unchanged (failed | isError)
    · exact changed (unchanged (if_neg failed))
    · refine changed (unchanged ?_)
      rw [isError, ite_self]
  · intro fine returned
    refine absurd ?_ fine
    by_cases done : ok = true
    · rw [if_pos done] at returned
      exact Or.inr returned
    · exact Or.inl done

theorem writeAt_failsUnchanged_iff (s : Ufs) (handle : Int) (offset len : BitVec 32)
    (buf : Buffer) :
    FailsUnchanged s (.writeAt handle offset buf len) ↔
      ¬ EditsAndFails s (.writeAt handle offset buf len) := by
  by_cases accepted : handleValid s handle = true ∧ offset.toNat + len.toNat < 2 ^ 32
  swap
  · have refused : ufsWriteAt handle offset.toNat buf len.toNat s = (-1, s) :=
      ufsWriteAt_refused buf offset.isLt len.isLt (by
        rw [← Bool.not_eq_true]
        tauto)
    have idle : ¬ Edits s (.writeAt handle offset buf len) := fun edits =>
      accepted ⟨edits.1, edits.2.1⟩
    refine failsUnchanged_of_same ?_ idle
    simp only [perform, refused]
    exact SameMemory.refl s
  obtain ⟨valid, small⟩ := accepted
  by_cases grows : 0 < len.toNat ∧ NeedsGrowth s handle.toNat (offset.toNat + len.toNat)
  · exact growing_failsUnchanged_iff buf valid small grows.1 grows.2
  by_cases fits : 0 < len.toNat → offset.toNat + len.toNat ≤
      wrap32 (entryCapacity s.directory handle.toNat * sectorSize)
  · exact fitting_failsUnchanged_iff buf valid small grows fits
  -- no room for the file to grow
  · have idle : ¬ Edits s (.writeAt handle offset buf len) := by
      rintro ⟨_, _, growing | longer⟩
      · exact grows growing
      · exact fits longer.1
    refine failsUnchanged_of_same ?_ idle
    obtain ⟨nonempty, larger⟩ : 0 < len.toNat ∧ ¬ offset.toNat + len.toNat ≤
        wrap32 (entryCapacity s.directory handle.toNat * sectorSize) := by
      tauto
    have full : ensureCapacity handle.toNat (offset.toNat + len.toNat) s = (false, s) := by
      unfold ensureCapacity
      rw [if_neg larger]
      have none : wrap32 (s.nextFreeLba + newCapacitySectors
          (entryCapacity s.directory handle.toNat)
          (sectorsForBytes (offset.toNat + len.toNat))) > ufsDataEndLba := by
        by_contra room
        exact grows ⟨nonempty, Nat.not_le.mp larger, Nat.not_lt.mp room⟩
      simp only [if_pos none]
    have written := ufsWriteAt_eq handle offset.toNat buf len.toNat s valid small
    simp only [gt_iff_lt, nonempty, if_true, full, Bool.false_eq_true, not_false_eq_true] at written
    simp only [perform, written]
    exact SameMemory.refl s

theorem readAt_failsUnchanged_iff (s : Ufs) (handle : Int) (offset len : BitVec 32) :
    FailsUnchanged s (.readAt handle offset len) ↔ ¬ EditsAndFails s (.readAt handle offset len) := by
  refine failsUnchanged_of_same ?_ id
  simp only [perform, ufsReadAt]
  split
  · exact SameMemory.refl s
  split
  · exact SameMemory.refl s
  · exact ⟨rfl, rfl, rfl⟩

/-- An operation that returns -1 has changed nothing in memory exactly if it is
not one whose edit was made before a later transfer failed. -/
theorem failsUnchanged_iff (s : Ufs) (o : UfsOp) : FailsUnchanged s o ↔ ¬ EditsAndFails s o := by
  cases o with
  | create name ownerUid => exact create_failsUnchanged_iff s name ownerUid
  | delete name => exact delete_failsUnchanged_iff s name
  | chmod handle perm => exact chmod_failsUnchanged_iff s handle perm
  | truncate handle newSize => exact truncate_failsUnchanged_iff s handle newSize
  | writeAt handle offset buf len => exact writeAt_failsUnchanged_iff s handle offset len buf
  | readAt handle offset len => exact readAt_failsUnchanged_iff s handle offset len

/-- The first command, the write of the directory, fails while a file is created:
the result is -1, and the file is there. -/
theorem create_fails_and_counts : ¬ ∀ s o, FailsUnchanged s o := by
  intro claim
  have same := claim (faultyVolume (fun _ _ => 0) fun n => if n = 0 then some 0 else none)
    (.create nameA 0) (by decide +kernel)
  exact absurd same.cachedFileCount (by decide +kernel)

end MiniKernel.Storage
