import MiniKernel.Ipc.Pipe

/-!
# A pipe is one stream

Source: kernel/core/pipe.c. Any number of threads call on the table of pipes, a
sleeping thread once for every turn it takes. Between the creation of a pipe and
its release the bytes handed out are the bytes taken in, in order, less those
still in the ring.
-/
namespace MiniKernel.Ipc
open Lib.Machine (run Meets)

inductive PipeCall where
  | create
  | addReader (idx : Int)
  | addWriter (idx : Int)
  | closeReader (idx : Int)
  | closeWriter (idx : Int)
  | read (idx : Int) (len : Nat)
  | write (idx : Int) (src : List UInt8)

def pipeCall (pipes : Pipes) : PipeCall → Turn × Pipes
  | .create => (.answer (pipeCreate pipes).1, (pipeCreate pipes).2)
  | .addReader idx => (.answer (pipeAddReader pipes idx).1, (pipeAddReader pipes idx).2)
  | .addWriter idx => (.answer (pipeAddWriter pipes idx).1, (pipeAddWriter pipes idx).2)
  | .closeReader idx => (.answer 0, (pipeCloseReader pipes idx).2)
  | .closeWriter idx => (.answer 0, (pipeCloseWriter pipes idx).2)
  | .read idx len => pipeRead pipes idx len
  | .write idx src => pipeWrite pipes idx src

def pipeStep (pipes : Pipes) (c : PipeCall) : Option Pipes := some (pipeCall pipes c).2

/-- The bytes a call reads from pipe `i`. -/
def readBy (i : Fin pipeMax) (pipes : Pipes) : PipeCall → List UInt8
  | .read idx len => if pipeIndex idx = some i then (pipeRead pipes idx len).1.bytes else []
  | _ => []

/-- The bytes of its source that a call puts into pipe `i`. -/
def writtenBy (i : Fin pipeMax) (pipes : Pipes) : PipeCall → List UInt8
  | .write idx src => if pipeIndex idx = some i then (pipeWrite pipes idx src).1.bytes else []
  | _ => []

/-- All bytes the calls read from pipe `i`, in order. -/
def bytesRead (i : Fin pipeMax) : Pipes → List PipeCall → List UInt8
  | _, [] => []
  | pipes, c :: cs => readBy i pipes c ++ bytesRead i (pipeCall pipes c).2 cs

/-- All bytes the calls put into pipe `i`, in order. -/
def bytesWritten (i : Fin pipeMax) : Pipes → List PipeCall → List UInt8
  | _, [] => []
  | pipes, c :: cs => writtenBy i pipes c ++ bytesWritten i (pipeCall pipes c).2 cs

/-- Pipe `i` is in use whenever a call is made. -/
def InUseThroughout (i : Fin pipeMax) : Pipes → List PipeCall → Prop :=
  Meets pipeStep fun pipes _ => (pipes i).inUse = true

variable {pipes after : Pipes} {i : Fin pipeMax}

theorem pipeIndex_some {idx : Int} {i : Fin pipeMax} : pipeIndex idx = some i ↔ idx = i.val := by
  unfold pipeIndex
  split
  · next range =>
    rw [Option.some.injEq, Fin.ext_iff]
    change idx.toNat = i.val ↔ _
    omega
  · next outside =>
    have := i.isLt
    constructor
    · intro h
      cases h
    · intro h
      exact absurd ⟨by omega, by omega⟩ outside

@[simp] theorem pipeIndex_val (i : Fin pipeMax) : pipeIndex i.val = some i := pipeIndex_some.mpr rfl

/-! ## One pipe under the calls on all of them -/

/-- `pipe_create` opens a free slot, if there is one, and answers its index. -/
theorem pipeCreate_cases (pipes : Pipes) :
    (∃ i, (pipes i).inUse = false ∧
      pipeCreate pipes = ((i.val : Int), Function.update pipes i (pipes i).opened)) ∨
    ((∀ i, (pipes i).inUse = true) ∧ pipeCreate pipes = (-1, pipes)) := by
  unfold pipeCreate
  cases found : (List.finRange pipeMax).find? fun i => (pipes i).inUse = false with
  | some i =>
    have free := List.find?_some found
    exact Or.inl ⟨i, of_decide_eq_true free, rfl⟩
  | none =>
    refine Or.inr ⟨fun i => ?_, rfl⟩
    have used := List.find?_eq_none.mp found i (List.mem_finRange i)
    simpa using used

theorem pipeCreate_opened (created : pipeCreate pipes = ((i.val : Int), after)) :
    (pipes i).inUse = false ∧ after = Function.update pipes i (pipes i).opened := by
  rcases pipeCreate_cases pipes with ⟨j, free, opens⟩ | ⟨_, full⟩
  · rw [opens, Prod.mk.injEq] at created
    have same : j = i := Fin.ext (by omega)
    rw [same] at free created
    exact ⟨free, created.2.symm⟩
  · rw [full, Prod.mk.injEq] at created
    omega

theorem pipeCreate_keeps (pipes : Pipes) (used : (pipes i).inUse = true) :
    (pipeCreate pipes).2 i = pipes i := by
  rcases pipeCreate_cases pipes with ⟨j, free, opens⟩ | ⟨_, full⟩
  · have other : i ≠ j := by
      intro same
      rw [same, free] at used
      cases used
    rw [opens]
    exact Function.update_of_ne other ..
  · rw [full]

theorem update_at (change : Pipe → Pipe) (pipes : Pipes) (i j : Fin pipeMax) :
    Function.update pipes j (change (pipes j)) i = change (pipes i) ∨
      Function.update pipes j (change (pipes j)) i = pipes i := by
  cases Decidable.em (i = j) with
  | inl same =>
    rw [same]
    exact Or.inl (Function.update_self ..)
  | inr other => exact Or.inr (Function.update_of_ne other ..)

/-- A change of one end's count happens to the pipe it names, or to none. -/
theorem addEnd_at (raise : Pipe → Pipe) (pipes : Pipes) (idx : Int) (i : Fin pipeMax) :
    (addEnd raise pipes idx).2 i = raise (pipes i) ∨ (addEnd raise pipes idx).2 i = pipes i := by
  unfold addEnd
  cases pipeIndex idx with
  | none => exact Or.inr rfl
  | some j =>
    simp only
    split
    · exact update_at raise pipes i j
    · exact Or.inr rfl

theorem closeEnd_at (lower : Pipe → Pipe) (pipes : Pipes) (idx : Int) (i : Fin pipeMax) :
    (closeEnd lower pipes idx).2 i = lower (pipes i) ∨ (closeEnd lower pipes idx).2 i = pipes i := by
  unfold closeEnd
  cases pipeIndex idx with
  | none => exact Or.inr rfl
  | some j =>
    simp only
    split
    · exact update_at lower pipes i j
    · exact Or.inr rfl

/-- A turn is taken on the pipe with the index, and leaves the others alone. -/
theorem turnAt_at (turn : Pipe → Turn × Pipe) (pipes : Pipes) (idx : Int) (i : Fin pipeMax) :
    (pipeIndex idx = some i ∧ (turnAt turn pipes idx).1 = (turn (pipes i)).1 ∧
      (turnAt turn pipes idx).2 i = (turn (pipes i)).2) ∨
    (pipeIndex idx ≠ some i ∧ (turnAt turn pipes idx).2 i = pipes i) := by
  unfold turnAt
  cases pipeIndex idx with
  | none => exact Or.inr ⟨nofun, rfl⟩
  | some j =>
    cases Decidable.em (i = j) with
    | inl same =>
      rw [same]
      exact Or.inl ⟨rfl, rfl, Function.update_self ..⟩
    | inr other =>
      refine Or.inr ⟨fun h => other (Option.some.inj h).symm, ?_⟩
      exact Function.update_of_ne other ..

/-- What one call takes in and hands out, beside what the ring holds before and
after it. -/
theorem pipeCall_stream (c : PipeCall) (used : (pipes i).inUse = true)
    (sound : (pipes i).Sound) :
    ((pipeCall pipes c).2 i).Sound ∧
      (pipes i).contents ++ writtenBy i pipes c =
        readBy i pipes c ++ ((pipeCall pipes c).2 i).contents := by
  -- the calls that move no byte
  have counts (p : Pipe) (kept : p.Sound ∧ p.contents = (pipes i).contents) :
      p.Sound ∧ (pipes i).contents ++ [] = [] ++ p.contents := by
    rw [List.append_nil, List.nil_append]
    exact ⟨kept.1, kept.2.symm⟩
  have same (p : Pipe) (h : p = pipes i) : p.Sound ∧ p.contents = (pipes i).contents := by
    rw [h]
    exact ⟨sound, rfl⟩
  cases c with
  | create => exact counts _ (same _ (pipeCreate_keeps pipes used))
  | addReader idx =>
    apply counts
    rcases addEnd_at Pipe.addReader pipes idx i with raised | unchanged
    · exact raised ▸ Pipe.addReader_sound sound
    · exact same _ unchanged
  | addWriter idx =>
    apply counts
    rcases addEnd_at Pipe.addWriter pipes idx i with raised | unchanged
    · exact raised ▸ Pipe.addWriter_sound sound
    · exact same _ unchanged
  | closeReader idx =>
    apply counts
    rcases closeEnd_at Pipe.closeReader pipes idx i with lowered | unchanged
    · exact lowered ▸ Pipe.closeReader_sound sound
    · exact same _ unchanged
  | closeWriter idx =>
    apply counts
    rcases closeEnd_at Pipe.closeWriter pipes idx i with lowered | unchanged
    · exact lowered ▸ Pipe.closeWriter_sound sound
    · exact same _ unchanged
  | read idx len =>
    simp only [writtenBy, readBy, pipeCall, pipeRead, List.append_nil]
    rcases turnAt_at (fun p => p.readTurn len) pipes idx i with ⟨here, bytes, next⟩ | ⟨other, next⟩
    · rw [if_pos here, bytes, next]
      exact Pipe.readTurn_sound sound len
    · rw [if_neg other, next]
      exact ⟨sound, rfl⟩
  | write idx src =>
    simp only [writtenBy, readBy, pipeCall, pipeWrite, List.nil_append]
    rcases turnAt_at (fun p => p.writeTurn src) pipes idx i with ⟨here, bytes, next⟩ | ⟨other, next⟩
    · rw [if_pos here, bytes, next]
      have written := Pipe.writeTurn_sound sound src
      exact ⟨written.1, written.2.symm⟩
    · rw [if_neg other, next]
      exact ⟨sound, List.append_nil _⟩

/-- The same over any calls made while the pipe is in use. -/
theorem pipeCalls_stream (calls : List PipeCall) (sound : (pipes i).Sound)
    (used : InUseThroughout i pipes calls) (ran : run pipeStep pipes calls = some after) :
    (after i).Sound ∧
      (pipes i).contents ++ bytesWritten i pipes calls =
        bytesRead i pipes calls ++ (after i).contents := by
  induction calls generalizing pipes with
  | nil =>
    cases ran
    exact ⟨sound, List.append_nil _⟩
  | cons c calls ih =>
    obtain ⟨next, stepped, rest⟩ := Lib.Machine.run_cons.mp ran
    cases stepped
    have first := pipeCall_stream c used.1 sound
    have others := ih first.1 (used.2 _ rfl) rest
    refine ⟨others.1, ?_⟩
    rw [bytesWritten, bytesRead, ← List.append_assoc, first.2, List.append_assoc, others.2,
      List.append_assoc]

/-- A reading turn answers 0 only on an empty pipe without writers. -/
theorem Pipe.readTurn_zero {p : Pipe} {len : Nat} (sound : p.Sound) (positive : 0 < len)
    (zero : (p.readTurn len).1.value = some 0) : p.contents = [] ∧ p.writers = 0 := by
  rcases p.readTurn_cases len with ⟨n, _, _, some, _, turn⟩ | ⟨empty, turn⟩
  · rw [turn] at zero
    simp only [Turn.value, Lib.Ring.length_window, Option.some.injEq] at zero
    have := some positive
    omega
  · rw [turn] at zero
    cases used : p.inUse with
    | false => simp [used, Turn.value] at zero
    | true =>
      have nobody : p.writers ≤ 0 := by
        by_contra writing
        simp [used, writing, Turn.value] at zero
      have length := p.length_contents
      rw [empty used] at length
      exact ⟨List.eq_nil_of_length_eq_zero length, by have := sound.writers; omega⟩

/-! ## From the creation to the release -/

/-- Over all calls made while the pipe is in use, from its creation on: what was
written is what was read followed by what the ring holds, at most its size, and
the next read of positive length answers 0 only when all is read and no writer
is left. -/
theorem pipe_stream (pipes opened after : Pipes) (i : Fin pipeMax) (calls : List PipeCall)
    (created : pipeCreate pipes = ((i.val : Int), opened))
    (used : InUseThroughout i opened calls)
    (ran : run pipeStep opened calls = some after) :
    bytesWritten i opened calls = bytesRead i opened calls ++ (after i).contents ∧
      (after i).contents.length = (after i).count ∧ (after i).count ≤ 1024 ∧
      ∀ len, 0 < len → (pipeRead after i.val len).1.value = some 0 →
        bytesWritten i opened calls = bytesRead i opened calls ∧ (after i).writers = 0 := by
  obtain ⟨_, rfl⟩ := pipeCreate_opened created
  have fresh : Function.update pipes i (pipes i).opened i = (pipes i).opened :=
    Function.update_self ..
  have sound : (Function.update pipes i (pipes i).opened i).Sound := by
    rw [fresh]
    exact Pipe.opened_sound (pipes i)
  have empty : (Function.update pipes i (pipes i).opened i).contents = [] := by
    rw [fresh]
    rfl
  obtain ⟨soundAfter, stream⟩ := pipeCalls_stream calls sound used ran
  rw [empty, List.nil_append] at stream
  refine ⟨stream, Pipe.length_contents _, soundAfter.fits, fun len positive zero => ?_⟩
  simp only [pipeRead, turnAt, pipeIndex_val] at zero
  have last := Pipe.readTurn_zero soundAfter positive zero
  rw [last.1, List.append_nil] at stream
  exact ⟨stream, last.2⟩

/-- No pipe in use, as at boot. -/
def noPipes : Pipes := fun _ =>
  { inUse := false, buf := fun _ => 0, readPos := 0, writePos := 0, count := 0, readers := 0,
    writers := 0 }

/-- Two writes and a short read, then the writer closes and the rest is read. -/
def shortRead : List PipeCall :=
  [.write 0 [104, 105], .read 0 1, .write 0 [33], .closeWriter 0, .read 0 4096]

theorem pipe_stream_closed :
    bytesWritten 0 (pipeCreate noPipes).2 shortRead = bytesRead 0 (pipeCreate noPipes).2 shortRead ∧
      bytesRead 0 (pipeCreate noPipes).2 shortRead = [104, 105, 33] := by
  obtain ⟨after, ran⟩ : ∃ after, run pipeStep (pipeCreate noPipes).2 shortRead = some after :=
    ⟨_, rfl⟩
  have ended : ∀ u ∈ run pipeStep (pipeCreate noPipes).2 shortRead,
      (pipeRead u 0 1).1.value = some 0 := by decide +kernel
  have stream := pipe_stream noPipes (pipeCreate noPipes).2 after 0 shortRead rfl
    (by unfold InUseThroughout; decide +kernel) ran
  exact ⟨(stream.2.2.2 1 Nat.one_pos (ended after ran)).1, by decide +kernel⟩

end MiniKernel.Ipc
