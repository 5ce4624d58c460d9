import MiniKernel.Lib.Machine
import MiniKernel.Lib.Ring

/-!
# Pipes

Source: kernel/core/pipe.c. A thread asleep in `pipe_read` or `pipe_write` starts
its loop again when it is woken, so what the two functions do is a series of
turns, each under `irq_save`: a turn returns, or goes to sleep on the pipe.
-/
namespace MiniKernel.Ipc
open Lib.Ring (window store forward)

def pipeMax : Nat := 8
def pipeBufSize : Nat := 1024

instance : NeZero pipeMax := ⟨by decide⟩
instance : NeZero pipeBufSize := ⟨by decide⟩

structure Pipe where
  inUse : Bool
  buf : Fin pipeBufSize → UInt8
  readPos : Fin pipeBufSize
  writePos : Fin pipeBufSize
  count : Nat
  readers : Int
  writers : Int

/-- `pipes`. -/
abbrev Pipes := Fin pipeMax → Pipe

/-- How a call ends, or one turn of its loop. -/
inductive Turn where
  /-- The number returned, and no thread woken. -/
  | answer (n : Int)
  /-- The bytes copied, their number returned, and the pipe's sleepers woken. -/
  | moved (bytes : List UInt8)
  /-- `sched_sleep(&pipes[idx])`. -/
  | sleep
  deriving DecidableEq, Repr

/-- What the caller gets; nothing yet when it sleeps. -/
def Turn.value : Turn → Option Int
  | .answer n => some n
  | .moved bytes => some bytes.length
  | .sleep => none

def Turn.bytes : Turn → List UInt8
  | .moved bytes => bytes
  | _ => []

/-! ## One pipe -/

def Pipe.maybeFree (p : Pipe) : Pipe :=
  if p.readers ≤ 0 ∧ p.writers ≤ 0 then { p with inUse := false } else p

/-- What `pipe_create` puts into the slot it found; `buf` is not written. -/
def Pipe.opened (p : Pipe) : Pipe :=
  { p with inUse := true, readPos := 0, writePos := 0, count := 0, readers := 1, writers := 1 }

def Pipe.addReader (p : Pipe) : Pipe := { p with readers := p.readers + 1 }
def Pipe.addWriter (p : Pipe) : Pipe := { p with writers := p.writers + 1 }

def Pipe.closeReader (p : Pipe) : Pipe :=
  { p with readers := if p.readers > 0 then p.readers - 1 else p.readers }.maybeFree

def Pipe.closeWriter (p : Pipe) : Pipe :=
  { p with writers := if p.writers > 0 then p.writers - 1 else p.writers }.maybeFree

/-- A turn of the loop of `pipe_read`. -/
def Pipe.readTurn (p : Pipe) (len : Nat) : Turn × Pipe :=
  if p.inUse = false then (.answer (-1), p)
  else if p.count > 0 then
    let n := if p.count < len then p.count else len
    (.moved (window p.buf p.readPos n),
      { p with readPos := forward p.readPos n, count := p.count - n })
  else if p.writers ≤ 0 then (.answer 0, p)
  else (.sleep, p)

/-- A turn of the loop of `pipe_write`; `len` is the length of `src`. -/
def Pipe.writeTurn (p : Pipe) (src : List UInt8) : Turn × Pipe :=
  if p.inUse = false then (.answer (-1), p)
  else if p.readers ≤ 0 then (.answer (-1), p)
  else
    let freeSpace := pipeBufSize - p.count
    if freeSpace > 0 then
      let n := if freeSpace < src.length then freeSpace else src.length
      (.moved (src.take n),
        { p with
          buf := store p.buf p.writePos (src.take n)
          writePos := forward p.writePos n
          count := p.count + n })
    else (.sleep, p)

/-! ## The table -/

/-- The callers' `int idx`, where it is an index of `pipes`. -/
def pipeIndex (idx : Int) : Option (Fin pipeMax) :=
  if h : 0 ≤ idx ∧ idx < pipeMax then some ⟨idx.toNat, by omega⟩ else none

/-- `pipe_create`: the first free slot, or -1. -/
def pipeCreate (pipes : Pipes) : Int × Pipes :=
  match (List.finRange pipeMax).find? fun i => (pipes i).inUse = false with
  | some i => (i.val, Function.update pipes i (pipes i).opened)
  | none => (-1, pipes)

/-- `pipe_add_reader` and `pipe_add_writer` differ in the count they raise. -/
def addEnd (raise : Pipe → Pipe) (pipes : Pipes) (idx : Int) : Int × Pipes :=
  match pipeIndex idx with
  | some i => if (pipes i).inUse then (0, Function.update pipes i (raise (pipes i))) else (-1, pipes)
  | none => (-1, pipes)

def pipeAddReader : Pipes → Int → Int × Pipes := addEnd Pipe.addReader
def pipeAddWriter : Pipes → Int → Int × Pipes := addEnd Pipe.addWriter

/-- `pipe_close_reader` and `pipe_close_writer` differ in the count they lower.
The answer is the pipe whose sleepers are woken. -/
def closeEnd (lower : Pipe → Pipe) (pipes : Pipes) (idx : Int) : Option (Fin pipeMax) × Pipes :=
  match pipeIndex idx with
  | some i =>
    if (pipes i).inUse then (some i, Function.update pipes i (lower (pipes i))) else (none, pipes)
  | none => (none, pipes)

def pipeCloseReader : Pipes → Int → Option (Fin pipeMax) × Pipes := closeEnd Pipe.closeReader
def pipeCloseWriter : Pipes → Int → Option (Fin pipeMax) × Pipes := closeEnd Pipe.closeWriter

/-- `pipe_read` and `pipe_write` take their turns on the pipe with the index. -/
def turnAt (turn : Pipe → Turn × Pipe) (pipes : Pipes) (idx : Int) : Turn × Pipes :=
  match pipeIndex idx with
  | some i => ((turn (pipes i)).1, Function.update pipes i (turn (pipes i)).2)
  | none => (.answer (-1), pipes)

def pipeRead (pipes : Pipes) (idx : Int) (len : Nat) : Turn × Pipes :=
  turnAt (fun p => p.readTurn len) pipes idx

def pipeWrite (pipes : Pipes) (idx : Int) (src : List UInt8) : Turn × Pipes :=
  turnAt (fun p => p.writeTurn src) pipes idx

/-! ## What a turn can do -/

/-- The bytes in the pipe, oldest first. -/
def Pipe.contents (p : Pipe) : List UInt8 := window p.buf p.readPos p.count

/-- The ring of a pipe in use: the write position is `count` cells on from the
read position. -/
structure Pipe.Sound (p : Pipe) : Prop where
  fits : p.count ≤ pipeBufSize
  ends : p.writePos = forward p.readPos p.count
  readers : 0 ≤ p.readers
  writers : 0 ≤ p.writers

theorem Pipe.length_contents (p : Pipe) : p.contents.length = p.count := Lib.Ring.length_window ..

theorem Pipe.opened_sound (p : Pipe) : p.opened.Sound :=
  ⟨Nat.zero_le _, rfl, Int.one_nonneg, Int.one_nonneg⟩

/-- A reading turn hands out the oldest bytes, or changes nothing. -/
theorem Pipe.readTurn_cases (p : Pipe) (len : Nat) :
    (∃ n ≤ p.count, 0 < p.count ∧ (0 < len → 0 < n) ∧ p.inUse = true ∧
      p.readTurn len = (.moved (window p.buf p.readPos n),
        { p with readPos := forward p.readPos n, count := p.count - n })) ∨
    ((p.inUse = true → p.count = 0) ∧
      p.readTurn len =
        (if p.inUse = false then .answer (-1) else if p.writers ≤ 0 then .answer 0 else .sleep,
          p)) := by
  unfold Pipe.readTurn
  cases used : p.inUse with
  | false => exact Or.inr ⟨nofun, by simp⟩
  | true =>
    rw [if_neg (by simp)]
    cases Nat.eq_zero_or_pos p.count with
    | inl empty =>
      refine Or.inr ⟨fun _ => empty, ?_⟩
      rw [if_neg (by omega), if_neg (by simp : ¬ true = false)]
      split <;> rfl
    | inr some =>
      refine Or.inl ⟨if p.count < len then p.count else len, ?_, some, ?_, rfl, ?_⟩
      · split <;> omega
      · intro positive
        split <;> omega
      · rw [if_pos some]

/-- A writing turn takes the first bytes of its source, as far as there is room,
or changes nothing. -/
theorem Pipe.writeTurn_cases (p : Pipe) (src : List UInt8) :
    (∃ n ≤ src.length, p.count + n ≤ pipeBufSize ∧ p.count < pipeBufSize ∧ p.inUse = true ∧
      0 < p.readers ∧
      p.writeTurn src = (.moved (src.take n),
        { p with
          buf := store p.buf p.writePos (src.take n)
          writePos := forward p.writePos n
          count := p.count + n })) ∨
    ((p.inUse = true → 0 < p.readers → pipeBufSize ≤ p.count) ∧
      p.writeTurn src =
        (if p.inUse = false ∨ p.readers ≤ 0 then .answer (-1) else .sleep, p)) := by
  unfold Pipe.writeTurn
  cases used : p.inUse with
  | false => exact Or.inr ⟨nofun, by simp⟩
  | true =>
    rw [if_neg (by simp)]
    cases lt_or_ge 0 p.readers with
    | inr broken => exact Or.inr ⟨fun _ h => by omega, by simp [broken]⟩
    | inl read =>
      rw [if_neg (by omega)]
      cases Nat.lt_or_ge p.count pipeBufSize with
      | inl room =>
        let n := if pipeBufSize - p.count < src.length then pipeBufSize - p.count else src.length
        have bounds : n ≤ src.length ∧ p.count + n ≤ pipeBufSize := by
          change (if _ then _ else _) ≤ _ ∧ _ + (if _ then _ else _) ≤ _
          split <;> omega
        refine Or.inl ⟨n, bounds.1, bounds.2, room, rfl, read, ?_⟩
        rw [if_pos (by omega)]
      | inr full =>
        refine Or.inr ⟨fun _ _ => full, ?_⟩
        rw [if_neg (by omega), if_neg (by simp [read])]

theorem Pipe.readTurn_sound {p : Pipe} (sound : p.Sound) (len : Nat) :
    (p.readTurn len).2.Sound ∧
      p.contents = (p.readTurn len).1.bytes ++ (p.readTurn len).2.contents := by
  rcases p.readTurn_cases len with ⟨n, upto, _, _, _, turn⟩ | ⟨_, turn⟩
  · rw [turn]
    have split : p.count = n + (p.count - n) := by omega
    refine ⟨⟨?_, ?_, sound.readers, sound.writers⟩, ?_⟩
    · exact Nat.le_trans (Nat.sub_le _ _) sound.fits
    · rw [sound.ends, ← Lib.Ring.forward_add, ← split]
    · change window p.buf p.readPos p.count = _ ++ window p.buf (forward p.readPos n) (p.count - n)
      rw [split, Lib.Ring.window_append]
      simp [Turn.bytes]
  · rw [turn]
    refine ⟨sound, ?_⟩
    split
    · rfl
    · split <;> rfl

theorem Pipe.writeTurn_sound {p : Pipe} (sound : p.Sound) (src : List UInt8) :
    (p.writeTurn src).2.Sound ∧
      (p.writeTurn src).2.contents = p.contents ++ (p.writeTurn src).1.bytes := by
  rcases p.writeTurn_cases src with ⟨n, upto, room, _, _, _, turn⟩ | ⟨_, turn⟩
  · rw [turn]
    have taken : (src.take n).length = n := by rw [List.length_take, Nat.min_eq_left upto]
    refine ⟨⟨room, ?_, sound.readers, sound.writers⟩, ?_⟩
    · rw [sound.ends, ← Lib.Ring.forward_add]
    · have stored := Lib.Ring.window_store p.buf p.readPos p.count (src.take n) (by omega)
      rw [taken, ← sound.ends] at stored
      exact stored
  · rw [turn]
    refine ⟨sound, ?_⟩
    split <;> simp [Turn.bytes]

theorem Pipe.maybeFree_sound {p : Pipe} (sound : p.Sound) : p.maybeFree.Sound := by
  unfold Pipe.maybeFree
  split
  · exact ⟨sound.fits, sound.ends, sound.readers, sound.writers⟩
  · exact sound

theorem Pipe.maybeFree_contents (p : Pipe) : p.maybeFree.contents = p.contents := by
  unfold Pipe.maybeFree
  split <;> rfl

theorem Pipe.closeReader_sound {p : Pipe} (sound : p.Sound) :
    p.closeReader.Sound ∧ p.closeReader.contents = p.contents := by
  refine ⟨Pipe.maybeFree_sound ⟨sound.fits, sound.ends, ?_, sound.writers⟩,
    Pipe.maybeFree_contents _⟩
  have := sound.readers
  change 0 ≤ if p.readers > 0 then p.readers - 1 else p.readers
  split <;> omega

theorem Pipe.closeWriter_sound {p : Pipe} (sound : p.Sound) :
    p.closeWriter.Sound ∧ p.closeWriter.contents = p.contents := by
  refine ⟨Pipe.maybeFree_sound ⟨sound.fits, sound.ends, sound.readers, ?_⟩,
    Pipe.maybeFree_contents _⟩
  have := sound.writers
  change 0 ≤ if p.writers > 0 then p.writers - 1 else p.writers
  split <;> omega

theorem Pipe.addReader_sound {p : Pipe} (sound : p.Sound) :
    p.addReader.Sound ∧ p.addReader.contents = p.contents :=
  ⟨⟨sound.fits, sound.ends, Int.le_add_one sound.readers, sound.writers⟩, rfl⟩

theorem Pipe.addWriter_sound {p : Pipe} (sound : p.Sound) :
    p.addWriter.Sound ∧ p.addWriter.contents = p.contents :=
  ⟨⟨sound.fits, sound.ends, sound.readers, Int.le_add_one sound.writers⟩, rfl⟩

end MiniKernel.Ipc
