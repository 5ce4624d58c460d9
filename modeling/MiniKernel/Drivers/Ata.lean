import MiniKernel.Lib.LittleEndian
import MiniKernel.Lib.WriteLog

/-!
# The ATA driver

Source: kernel/drivers/ata.c. A command transfers its sectors one by one and
gives up at the first one the drive does not get ready for; a write command
also waits for the cache flush. The drive sees 28 bits of the address. Every
sector that reaches the medium is logged, so that the disk a power loss leaves
behind is the old disk with a prefix of the log on it.
-/
namespace MiniKernel.Drivers
open Lib (Buffer)
open Lib.WriteLog (replay replay_append replay_concat replay_other)

abbrev Sector := Fin 512 → UInt8

theorem mod_512_lt (p : Nat) : p % 512 < 512 := Nat.mod_lt p (by decide)

structure Drive where
  sectors : Nat → Sector
  /-- Sector writes, in their order. -/
  log : List (Nat × Sector)
  /-- How many commands were issued before. -/
  commands : Nat
  /-- Where the `n`-th command fails: before it transfers the sector with that
  number, or, with the number of all its sectors, while it flushes the cache. -/
  faults : Nat → Option Nat
  /-- Addresses of the sectors read, in their order; nothing depends on them. -/
  reads : List Nat := []

/-- The address the drive is given. -/
def lba28 (lba : Nat) : Nat := lba % 2 ^ 28

/-- How many of `count` sectors are transferred. -/
def transferred (fault : Option Nat) (count : Nat) : Nat := min count (fault.getD count)

def sectorOf (buf : Buffer) (s : Nat) : Sector := fun i => buf (512 * s + i.val)

/-- A buffer that starts with these sectors. -/
def bufferOf (sectors : List Sector) : Buffer := fun p =>
  match sectors[p / 512]? with
  | some sector => sector ⟨p % 512, mod_512_lt p⟩
  | none => 0

/-- The next command's fault. -/
def Drive.fault (d : Drive) : Option Nat := d.faults d.commands

/-- `ata_read_sectors`: whether it succeeds, and the sectors it has stored. -/
def ataReadSectors (lba count : Nat) (d : Drive) : Bool × List Sector × Drive :=
  if count = 0 ∨ count > 256 then (false, [], d)
  else
    let n := transferred d.fault count
    (decide (n = count), (List.range n).map fun s => d.sectors (lba28 lba + s),
      { d with
        commands := d.commands + 1
        reads := d.reads ++ (List.range n).map fun s => lba28 lba + s })

/-- One sector written to the medium. -/
def Drive.put (d : Drive) (lba : Nat) (sector : Sector) : Drive :=
  { d with sectors := Function.update d.sectors lba sector, log := d.log ++ [(lba, sector)] }

/-- The first `n` sectors of `buf`, from sector address `lba` on. -/
def writeRun (lba : Nat) (buf : Buffer) : Nat → Drive → Drive
  | 0, d => d
  | n + 1, d => (writeRun lba buf n d).put (lba + n) (sectorOf buf n)

/-- `ata_write_sectors`. -/
def ataWriteSectors (lba count : Nat) (buf : Buffer) (d : Drive) : Bool × Drive :=
  if count = 0 ∨ count > 256 then (false, d)
  else
    let written := writeRun (lba28 lba) buf (transferred d.fault count) d
    (decide (d.fault = none), { written with commands := d.commands + 1 })

theorem transferred_le (fault : Option Nat) (count : Nat) : transferred fault count ≤ count :=
  Nat.min_le_left _ _

theorem lt_transferred (fault : Option Nat) (count k : Nat) :
    k < transferred fault count ↔ k < count ∧ ∀ j, fault = some j → k < j := by
  cases fault with
  | none => simp [transferred]
  | some j => simp [transferred]

/-- A read that succeeds has stored all its sectors. -/
theorem ataReadSectors_data {lba count : Nat} {d : Drive}
    (ok : (ataReadSectors lba count d).1 = true) :
    (ataReadSectors lba count d).2.1 =
      (List.range count).map fun s => d.sectors (lba28 lba + s) := by
  unfold ataReadSectors at ok ⊢
  split at ok
  · cases ok
  · next inRange =>
    have all : transferred d.fault count = count := of_decide_eq_true ok
    rw [if_neg inRange]
    simp only [all]

/-! ## What commands change, wherever they fail -/

/-- `d'` is `d` after these sector writes, with no other change the medium sees. -/
structure Drive.Extends (d d' : Drive) (writes : List (Nat × Sector)) : Prop where
  log : d'.log = d.log ++ writes
  sectors : d'.sectors = replay d.sectors writes
  faults : d'.faults = d.faults

theorem Drive.Extends.refl (d : Drive) : d.Extends d [] :=
  ⟨(List.append_nil _).symm, rfl, rfl⟩

theorem Drive.Extends.trans {d d' d'' : Drive} {first second : List (Nat × Sector)}
    (h : d.Extends d' first) (h' : d'.Extends d'' second) : d.Extends d'' (first ++ second) := by
  constructor
  · rw [h'.log, h.log, List.append_assoc]
  · rw [h'.sectors, h.sectors, replay_append]
  · rw [h'.faults, h.faults]

/-- The sector writes of a command. -/
def runWrites (lba : Nat) (buf : Buffer) (n : Nat) : List (Nat × Sector) :=
  (List.range n).map fun s => (lba + s, sectorOf buf s)

/-- `n` sectors of a run, on the disk. -/
theorem replay_runWrites (disk : Nat → Sector) (lba : Nat) (buf : Buffer) (n a : Nat) :
    replay disk (runWrites lba buf n) a =
      if lba ≤ a ∧ a < lba + n then sectorOf buf (a - lba) else disk a := by
  induction n with
  | zero =>
    rw [if_neg (by omega)]
    rfl
  | succ n ih =>
    have writes : runWrites lba buf (n + 1) =
        runWrites lba buf n ++ [(lba + n, sectorOf buf n)] := by
      simp [runWrites, List.range_succ]
    rw [writes, replay_concat]
    by_cases last : a = lba + n
    · rw [last, Function.update_self, if_pos (by omega), Nat.add_sub_cancel_left]
    · rw [Function.update_of_ne last, ih]
      by_cases before : lba ≤ a ∧ a < lba + n
      · rw [if_pos before, if_pos (by omega)]
      · rw [if_neg before, if_neg (by omega)]

theorem writeRun_extends (lba : Nat) (buf : Buffer) (n : Nat) (d : Drive) :
    d.Extends (writeRun lba buf n d) (runWrites lba buf n) ∧
      (writeRun lba buf n d).commands = d.commands ∧ (writeRun lba buf n d).reads = d.reads := by
  induction n with
  | zero => exact ⟨Drive.Extends.refl d, rfl, rfl⟩
  | succ n ih =>
    obtain ⟨before, commands, reads⟩ := ih
    have writes : runWrites lba buf (n + 1) =
        runWrites lba buf n ++ [(lba + n, sectorOf buf n)] := by
      simp [runWrites, List.range_succ]
    refine ⟨⟨?_, ?_, before.faults⟩, commands, reads⟩
    · rw [writes, ← List.append_assoc, ← before.log]
      rfl
    · rw [writes, replay_concat, ← before.sectors]
      rfl

/-- From `d` to `d'` sectors were read and written at such addresses only. -/
structure Drive.Touches (d d' : Drive) (read written : Nat → Prop) : Prop where
  reads : ∃ addresses, d'.reads = d.reads ++ addresses ∧ ∀ a ∈ addresses, read a
  writes : ∃ writes, d.Extends d' writes ∧ ∀ w ∈ writes, written w.1

theorem Drive.Touches.refl (d : Drive) (read written : Nat → Prop) : d.Touches d read written :=
  ⟨⟨[], (List.append_nil _).symm, by simp⟩, ⟨[], Drive.Extends.refl d, by simp⟩⟩

theorem Drive.Touches.trans {d d' d'' : Drive} {read written : Nat → Prop}
    (h : d.Touches d' read written) (h' : d'.Touches d'' read written) :
    d.Touches d'' read written := by
  obtain ⟨⟨first, readsFirst, inFirst⟩, writes, extends_, inWrites⟩ := h
  obtain ⟨⟨second, readsSecond, inSecond⟩, writes', extends', inWrites'⟩ := h'
  refine ⟨⟨first ++ second, ?_, fun a ha => ?_⟩, writes ++ writes', extends_.trans extends',
    fun w hw => ?_⟩
  · rw [readsSecond, readsFirst, List.append_assoc]
  · exact (List.mem_append.mp ha).elim (inFirst a) (inSecond a)
  · exact (List.mem_append.mp hw).elim (inWrites w) (inWrites' w)

theorem Drive.Touches.mono {d d' : Drive} {read written r w : Nat → Prop}
    (h : d.Touches d' read written) (hr : ∀ a, read a → r a) (hw : ∀ a, written a → w a) :
    d.Touches d' r w := by
  obtain ⟨⟨addresses, reads, inside⟩, writes, extends_, inWrites⟩ := h
  exact ⟨⟨addresses, reads, fun a ha => hr a (inside a ha)⟩, writes, extends_,
    fun w hw' => hw w.1 (inWrites w hw')⟩

/-- A sector nothing was written to is as it was. -/
theorem Drive.Touches.other {d d' : Drive} {read written : Nat → Prop}
    (h : d.Touches d' read written) {a : Nat} (outside : ¬ written a) :
    d'.sectors a = d.sectors a := by
  obtain ⟨_, writes, extends_, inWrites⟩ := h
  rw [extends_.sectors]
  exact replay_other _ _ _ fun w hw same => outside (same ▸ inWrites w hw)

theorem ataReadSectors_touches (lba count : Nat) (d : Drive) :
    d.Touches (ataReadSectors lba count d).2.2
      (fun a => lba28 lba ≤ a ∧ a < lba28 lba + count) fun _ => False := by
  unfold ataReadSectors
  split
  · exact Drive.Touches.refl d _ _
  · have few := transferred_le d.fault count
    refine ⟨⟨_, rfl, fun a ha => ?_⟩, [], ⟨(List.append_nil _).symm, rfl, rfl⟩, by simp⟩
    obtain ⟨s, hs, rfl⟩ := List.mem_map.mp ha
    have := List.mem_range.mp hs
    omega

theorem ataWriteSectors_touches (lba count : Nat) (buf : Buffer) (d : Drive) :
    d.Touches (ataWriteSectors lba count buf d).2 (fun _ => False)
      fun a => lba28 lba ≤ a ∧ a < lba28 lba + count := by
  unfold ataWriteSectors
  split
  · exact Drive.Touches.refl d _ _
  · have few := transferred_le d.fault count
    obtain ⟨run, _, reads⟩ := writeRun_extends (lba28 lba) buf (transferred d.fault count) d
    refine ⟨⟨[], by simp [reads], by simp⟩, _, ⟨run.log, run.sectors, run.faults⟩, fun w hw => ?_⟩
    obtain ⟨s, hs, rfl⟩ := List.mem_map.mp hw
    have := List.mem_range.mp hs
    dsimp only
    omega

/-! ## A drive without faults -/

def NoFaults (d : Drive) : Prop := d.faults = fun _ => none

theorem NoFaults.fault {d : Drive} (h : NoFaults d) : d.fault = none := by
  rw [Drive.fault, h]

theorem Drive.Extends.noFaults {d d' : Drive} {writes : List (Nat × Sector)}
    (h : d.Extends d' writes) (none : NoFaults d) : NoFaults d' := by
  rw [NoFaults, h.faults]
  exact none

theorem Drive.Touches.noFaults {d d' : Drive} {read written : Nat → Prop}
    (h : d.Touches d' read written) (none : NoFaults d) : NoFaults d' := by
  obtain ⟨_, extends_, _⟩ := h.writes
  exact extends_.noFaults none

theorem ataWriteSectors_ok (lba count : Nat) (buf : Buffer) {d : Drive} (h : NoFaults d)
    (hpos : 0 < count) (hle : count ≤ 256) :
    (ataWriteSectors lba count buf d).1 = true ∧
      d.Extends (ataWriteSectors lba count buf d).2 (runWrites (lba28 lba) buf count) := by
  have all : transferred d.fault count = count := by simp [h.fault, transferred]
  unfold ataWriteSectors
  rw [if_neg (by omega), all]
  obtain ⟨run, _⟩ := writeRun_extends (lba28 lba) buf count d
  exact ⟨by simp [h.fault], run.log, run.sectors, run.faults⟩

theorem ataReadSectors_ok (lba count : Nat) {d : Drive} (h : NoFaults d) (hpos : 0 < count)
    (hle : count ≤ 256) :
    (ataReadSectors lba count d).1 = true ∧
      (ataReadSectors lba count d).2.1 =
        (List.range count).map (fun s => d.sectors (lba28 lba + s)) ∧
      d.Extends (ataReadSectors lba count d).2.2 [] := by
  have all : transferred d.fault count = count := by simp [h.fault, transferred]
  unfold ataReadSectors
  rw [if_neg (by omega)]
  simp only [all, decide_true]
  exact ⟨trivial, trivial, (List.append_nil _).symm, rfl, rfl⟩

end MiniKernel.Drivers
