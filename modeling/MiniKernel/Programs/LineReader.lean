import MiniKernel.Ipc.Pipe

/-!
# The line readers of the programs

Source: src/programs/lang.c:239-261, sh.c:54-82, edit.c:104-129 and login.c:24-68.
They are one loop: it asks for a byte, does not look at the result of the call,
and acts on what `c` then holds. `c` is never given a value, so a call that stores
nothing leaves what the variable held before.
-/
namespace MiniKernel.Programs.LineReader

abbrev Word := BitVec 64

def newline : UInt8 := 0x0A
def backspace : UInt8 := 0x08

/-- What `sys_read` does when there are no more bytes. -/
inductive InputEnd where
  /-- It returns 0. -/
  | endOfFile
  /-- It returns -1. -/
  | error
  /-- The console: it waits for the next key. -/
  | waits
  deriving DecidableEq, Repr

structure Stdin where
  bytes : List UInt8
  ending : InputEnd
  deriving DecidableEq, Repr

/-- `sys_read(STDIN, &c, 1)`: the result, what `c` holds then, and the input left;
nothing where the call does not return. -/
def Stdin.sysRead (input : Stdin) (c : UInt8) : Option (Int × UInt8 × Stdin) :=
  match input.bytes with
  | b :: rest => some (1, b, { input with bytes := rest })
  | [] =>
    match input.ending with
    | .endOfFile => some (0, c, input)
    | .error => some (-1, c, input)
    | .waits => none

/-- What the readers differ in. -/
structure Reader where
  /-- Whether another byte fits behind `len` of them, in a buffer of `max`. -/
  fits : Nat → Word → Bool
  /-- What is written when a byte is kept, and when one is removed. -/
  echo : UInt8 → List UInt8
  rubOut : List UInt8

/-- `read_line_stdin` of lang.c. -/
def readLineStdin : Reader where
  fits len max := len + 1 < max.toNat
  echo c := [c]
  rubOut := [backspace]

/-- `read_line` of edit.c. -/
def editReadLine : Reader where
  fits len max := len + 1 < max.toNat
  echo c := [c]
  rubOut := [backspace]

/-- `read_line` of sh.c. -/
def shReadLine : Reader where
  fits len max := len < (max - 1).toNat
  echo c := [c]
  rubOut := [backspace]

def readLineEcho : Reader where
  fits len max := len + 1 < max.toNat
  echo c := [c]
  rubOut := [backspace, 0x20, backspace]

def readLineMasked : Reader where
  fits len max := len + 1 < max.toNat
  echo _ := [0x2A]
  rubOut := [backspace, 0x20, backspace]

def readers : List Reader :=
  [readLineStdin, editReadLine, shReadLine, readLineEcho, readLineMasked]

/-- In the loop: the bytes kept in the buffer, the variable, the input, the output. -/
structure Reading where
  buf : List UInt8
  c : UInt8
  input : Stdin
  output : List UInt8
  deriving DecidableEq, Repr

/-- The loop; nothing when it has not returned after `fuel` rounds. The buffer then
has the NUL behind its bytes. -/
def Reader.loop (reader : Reader) (max : Word) : Nat → Reading → Option Reading
  | 0, _ => none
  | fuel + 1, s =>
    match s.input.sysRead s.c with
    | none => none
    | some (_, c, input) =>
      if c = newline then some { s with c := c, input := input, output := s.output ++ [newline] }
      else if c = backspace then
        if s.buf.length > 0 then
          reader.loop max fuel
            { buf := s.buf.dropLast, c := c, input := input, output := s.output ++ reader.rubOut }
        else reader.loop max fuel { s with c := c, input := input }
      else if reader.fits s.buf.length max then
        reader.loop max fuel
          { buf := s.buf ++ [c], c := c, input := input, output := s.output ++ reader.echo c }
      else reader.loop max fuel { s with c := c, input := input }

/-- Called when `c` happens to hold `garbage`. -/
def Reading.start (garbage : UInt8) (input : Stdin) : Reading :=
  { buf := [], c := garbage, input := input, output := [] }

/-! ## What a line is -/

/-- A typed byte and the line so far: a backspace removes the last byte, and a byte
that does not fit beside the NUL is dropped. -/
def typed (max : Word) (line : List UInt8) (b : UInt8) : List UInt8 :=
  if b = backspace then line.dropLast
  else if line.length + 1 < max.toNat then line ++ [b]
  else line

/-- The line that the bytes up to the newline or the end of the input make. -/
def lineOf (max : Word) (bytes : List UInt8) : List UInt8 :=
  (bytes.takeWhile (· ≠ newline)).foldl (typed max) []

/-- The reader comes back with that line, whatever `c` held. -/
def ReturnsLine (reader : Reader) (max : Word) (input : Stdin) : Prop :=
  ∀ garbage, ∃ fuel s, reader.loop max fuel (.start garbage input) = some s ∧
    s.buf = lineOf max input.bytes

/-! ## A pipe as standard input -/

/-- What a pipe is for its reader when nobody writes to it any more. -/
def pipeStdin (p : Ipc.Pipe) : Stdin :=
  if p.inUse then ⟨p.contents, .endOfFile⟩ else ⟨[], .error⟩

/-- `pipe_read` for one byte, as long as the pipe has no writer. -/
theorem pipe_sysRead {p : Ipc.Pipe} (alone : p.writers ≤ 0) (c : UInt8) :
    ∃ n, (p.readTurn 1).1.value = some n ∧ (pipeStdin p).sysRead c =
      some (n, (p.readTurn 1).1.bytes.headD c, pipeStdin (p.readTurn 1).2) := by
  cases used : p.inUse with
  | false =>
    have turn : p.readTurn 1 = (.answer (-1), p) := if_pos used
    exact ⟨-1, by rw [turn]; rfl, by simp [turn, pipeStdin, used, Stdin.sysRead, Ipc.Turn.bytes]⟩
  | true =>
    cases count : p.count with
    | zero =>
      have turn : p.readTurn 1 = (.answer 0, p) := by
        unfold Ipc.Pipe.readTurn
        rw [if_neg (by simp [used]), if_neg (by omega), if_pos alone]
      have none_ : p.contents = [] := by
        rw [Ipc.Pipe.contents, count]
        rfl
      exact ⟨0, by rw [turn]; rfl,
        by simp [turn, pipeStdin, used, none_, Stdin.sysRead, Ipc.Turn.bytes]⟩
    | succ n =>
      have one : (if p.count < 1 then p.count else 1) = 1 := if_neg (by omega)
      have turn : p.readTurn 1 = (.moved (Lib.Ring.window p.buf p.readPos 1),
          { p with readPos := Lib.Ring.forward p.readPos 1, count := p.count - 1 }) := by
        unfold Ipc.Pipe.readTurn
        rw [if_neg (by simp [used]), if_pos (by omega), one]
      exact ⟨1, by rw [turn]; rfl, by
        simp [turn, pipeStdin, used, count, Stdin.sysRead, Ipc.Turn.bytes, Lib.Ring.window,
          Lib.Ring.forward, Ipc.Pipe.contents]⟩

/-! ## The loop -/

/-- In a buffer that holds at least the NUL, what fits is what fits beside it. -/
structure Reader.Honest (reader : Reader) : Prop where
  fits : ∀ len (max : Word), max ≠ 0 → reader.fits len max = decide (len + 1 < max.toNat)

theorem readers_honest {reader : Reader} (member : reader ∈ readers) : reader.Honest := by
  have shell : shReadLine.Honest := by
    constructor
    intro len max positive
    have less : len < (max - 1).toNat ↔ len + 1 < max.toNat := by
      have some_ : max.toNat ≠ 0 := fun none => positive (BitVec.eq_of_toNat_eq none)
      have before : (max - 1).toNat = max.toNat - 1 := by bv_omega
      omega
    exact decide_eq_decide.mpr less
  simp only [readers, List.mem_cons, List.not_mem_nil, or_false] at member
  rcases member with rfl | rfl | rfl | rfl | rfl
  · exact ⟨fun _ _ _ => rfl⟩
  · exact ⟨fun _ _ _ => rfl⟩
  · exact shell
  · exact ⟨fun _ _ _ => rfl⟩
  · exact ⟨fun _ _ _ => rfl⟩

variable {reader : Reader} {max : Word} {bytes rest : List UInt8} {s : Reading} {fuel : Nat}

/-- A round for a byte that is no newline. -/
theorem loop_typed (fuel : Nat) (honest : reader.Honest) (positive : max ≠ 0) {b : UInt8}
    {input : Stdin} {n : Int} (read : s.input.sysRead s.c = some (n, b, input)) (plain : b ≠ newline) :
    ∃ output, reader.loop max (fuel + 1) s = reader.loop max fuel
      { buf := typed max s.buf b, c := b, input := input, output := output } := by
  rw [Reader.loop, read, typed]
  dsimp only
  rw [if_neg plain]
  by_cases back : b = backspace
  · rw [if_pos back, if_pos back]
    split
    · exact ⟨_, rfl⟩
    · next empty =>
      have nothing : s.buf = [] := List.eq_nil_of_length_eq_zero (by omega)
      exact ⟨s.output, by rw [nothing]; rfl⟩
  · rw [if_neg back, if_neg back, honest.fits _ _ positive]
    by_cases fits : s.buf.length + 1 < max.toNat
    · rw [if_pos (decide_eq_true fits), if_pos fits]
      exact ⟨_, rfl⟩
    · rw [if_neg (by rw [decide_eq_false fits]; exact Bool.false_ne_true), if_neg fits]
      exact ⟨s.output, rfl⟩

theorem loop_newline {input : Stdin} {n : Int}
    (read : s.input.sysRead s.c = some (n, newline, input)) :
    reader.loop max (fuel + 1) s =
      some { s with c := newline, input := input, output := s.output ++ [newline] } := by
  rw [Reader.loop, read]
  exact if_pos rfl

/-- By induction on the bytes before the newline. -/
theorem loop_returns (honest : reader.Honest) (positive : max ≠ 0) (fuel : Nat) (s : Reading)
    (plain : newline ∉ bytes) (here : s.input.bytes = bytes ++ newline :: rest)
    (enough : bytes.length < fuel) :
    ∃ output, reader.loop max fuel s =
      some { buf := bytes.foldl (typed max) s.buf, c := newline,
             input := { s.input with bytes := rest }, output := output } := by
  obtain ⟨fuel, rfl⟩ := Nat.exists_eq_add_one_of_ne_zero (Nat.ne_zero_of_lt enough)
  induction bytes generalizing s fuel with
  | nil =>
    have read : s.input.sysRead s.c = some (1, newline, { s.input with bytes := rest }) := by
      rw [Stdin.sysRead, here]
      rfl
    exact ⟨_, loop_newline read⟩
  | cons b bytes ih =>
    have read : s.input.sysRead s.c =
        some (1, b, { s.input with bytes := bytes ++ newline :: rest }) := by
      rw [Stdin.sysRead, here]
      rfl
    rw [List.mem_cons, not_or] at plain
    rw [List.length_cons] at enough
    obtain ⟨fuel, rfl⟩ := Nat.exists_eq_add_one_of_ne_zero (by omega : fuel ≠ 0)
    obtain ⟨output, step⟩ := loop_typed (fuel + 1) honest positive read (Ne.symm plain.1)
    rw [step, List.foldl_cons]
    exact ih _ plain.2 rfl fuel (by omega)

theorem typed_fits {line : List UInt8} (fits : line.length < max.toNat)
    (b : UInt8) : (typed max line b).length < max.toNat := by
  unfold typed
  split
  · rw [List.length_dropLast]
    omega
  split
  · rw [List.length_append, List.length_singleton]
    omega
  · exact fits

/-- The bytes kept leave room for the NUL. -/
theorem loop_fits (honest : reader.Honest) (positive : max ≠ 0) (fuel : Nat) (s r : Reading)
    (fits : s.buf.length < max.toNat) (returns : reader.loop max fuel s = some r) :
    r.buf.length < max.toNat := by
  induction fuel generalizing s with
  | zero => cases returns
  | succ fuel ih =>
    cases read : s.input.sysRead s.c with
    | none =>
      rw [Reader.loop, read] at returns
      cases returns
    | some answer =>
      obtain ⟨n, c, input⟩ := answer
      by_cases ends : c = newline
      · rw [ends] at read
        rw [loop_newline read] at returns
        cases returns
        exact fits
      · obtain ⟨output, step⟩ := loop_typed fuel honest positive read ends
        rw [step] at returns
        exact ih _ (typed_fits fits c) returns

/-- Bytes without a backspace that fit are the line. -/
theorem foldl_typed {line : List UInt8} (plain : backspace ∉ bytes)
    (fits : line.length + bytes.length < max.toNat) :
    bytes.foldl (typed max) line = line ++ bytes := by
  induction bytes generalizing line with
  | nil => exact (List.append_nil line).symm
  | cons b bytes ih =>
    rw [List.mem_cons, not_or] at plain
    rw [List.length_cons] at fits
    have kept : typed max line b = line ++ [b] := by
      rw [typed, if_neg (Ne.symm plain.1), if_pos (by omega)]
    rw [List.foldl_cons, kept, ih plain.2 (by rw [List.length_append, List.length_singleton]; omega),
      List.append_assoc, List.singleton_append]

theorem lineOf_append (plain : newline ∉ bytes) :
    lineOf max (bytes ++ newline :: rest) = bytes.foldl (typed max) [] := by
  have others : ∀ b ∈ bytes, decide (b ≠ newline) = true := fun b member =>
    decide_eq_true fun same => plain (same ▸ member)
  rw [lineOf, List.takeWhile_append_of_pos others, List.takeWhile_cons_of_neg (by simp),
    List.append_nil]

/-- Behind the last byte the loop acts on that byte for ever, or the call waits. By
induction on the fuel. -/
theorem loop_stuck (honest : reader.Honest) (positive : max ≠ 0) (fuel : Nat) (s : Reading)
    (done : s.input.bytes = []) (stuck : s.c ≠ newline ∨ s.input.ending = .waits) :
    reader.loop max fuel s = none := by
  induction fuel generalizing s with
  | zero => rfl
  | succ fuel ih =>
    cases read : s.input.sysRead s.c with
    | none => rw [Reader.loop, read]
    | some answer =>
      obtain ⟨n, c, input⟩ := answer
      have same : c = s.c ∧ input = s.input ∧ s.input.ending ≠ .waits := by
        rw [Stdin.sysRead, done] at read
        cases ending : s.input.ending with
        | endOfFile =>
          rw [ending] at read
          cases read
          exact ⟨rfl, rfl, nofun⟩
        | error =>
          rw [ending] at read
          cases read
          exact ⟨rfl, rfl, nofun⟩
        | waits =>
          rw [ending] at read
          cases read
      rw [same.1, same.2.1] at read
      have plain := stuck.resolve_right same.2.2
      obtain ⟨output, step⟩ := loop_typed fuel honest positive read plain
      rw [step]
      exact ih _ done stuck

/-- By induction on the bytes: none of them ends the line. -/
theorem loop_never (honest : reader.Honest) (positive : max ≠ 0) (fuel : Nat) (s : Reading)
    (plain : newline ∉ s.input.bytes) (stuck : s.c ≠ newline ∨ s.input.ending = .waits) :
    reader.loop max fuel s = none := by
  induction bytes : s.input.bytes generalizing s fuel with
  | nil => exact loop_stuck honest positive fuel s bytes stuck
  | cons b bytes' ih =>
    cases fuel with
    | zero => rfl
    | succ fuel =>
      have read : s.input.sysRead s.c = some (1, b, { s.input with bytes := bytes' }) := by
        rw [Stdin.sysRead, bytes]
      rw [bytes, List.mem_cons, not_or] at plain
      obtain ⟨output, step⟩ := loop_typed fuel honest positive read (Ne.symm plain.1)
      rw [step]
      exact ih fuel _ plain.2 (Or.inl (Ne.symm plain.1)) rfl

/-- A reader that comes back has processed the bytes before the newline. -/
theorem loop_line (honest : reader.Honest) (positive : max ≠ 0) (fuel : Nat) (s r : Reading)
    (returns : reader.loop max fuel s = some r) :
    r.buf = (s.input.bytes.takeWhile (· ≠ newline)).foldl (typed max) s.buf := by
  induction fuel generalizing s with
  | zero => cases returns
  | succ fuel ih =>
    cases bytes : s.input.bytes with
    | nil =>
      by_cases ends : s.c = newline
      · cases ending : s.input.ending with
        | waits =>
          rw [loop_stuck honest positive _ s bytes (Or.inr ending)] at returns
          cases returns
        | endOfFile =>
          have read : s.input.sysRead s.c = some (0, newline, s.input) := by
            rw [Stdin.sysRead, bytes, ending, ends]
          rw [loop_newline read] at returns
          cases returns
          rfl
        | error =>
          have read : s.input.sysRead s.c = some (-1, newline, s.input) := by
            rw [Stdin.sysRead, bytes, ending, ends]
          rw [loop_newline read] at returns
          cases returns
          rfl
      · rw [loop_stuck honest positive _ s bytes (Or.inl ends)] at returns
        cases returns
    | cons b rest =>
      have read : s.input.sysRead s.c = some (1, b, { s.input with bytes := rest }) := by
        rw [Stdin.sysRead, bytes]
      by_cases ends : b = newline
      · rw [ends] at read ⊢
        rw [loop_newline read] at returns
        cases returns
        rw [List.takeWhile_cons_of_neg (by simp), List.foldl_nil]
      · obtain ⟨output, step⟩ := loop_typed fuel honest positive read ends
        rw [step] at returns
        rw [ih _ returns, List.takeWhile_cons_of_pos (by simpa using ends), List.foldl_cons]

/-- A round for each byte and one for the end are enough: a loop that has not
returned by then never does. -/
theorem loop_fuel (honest : reader.Honest) (positive : max ≠ 0) (fuel : Nat) (s : Reading)
    (enough : s.input.bytes.length < fuel) (out : reader.loop max fuel s = none) (more : Nat) :
    reader.loop max more s = none := by
  by_cases found : newline ∈ s.input.bytes
  · obtain ⟨before, rest, split, plain⟩ := List.eq_append_cons_of_mem found
    rw [split, List.length_append] at enough
    obtain ⟨output, ends⟩ := loop_returns honest positive fuel s plain split (by omega)
    rw [out] at ends
    cases ends
  · obtain ⟨fuel, rfl⟩ := Nat.exists_eq_add_one_of_ne_zero (Nat.ne_zero_of_lt enough)
    cases more with
    | zero => rfl
    | succ more =>
      cases read : s.input.sysRead s.c with
      | none => rw [Reader.loop, read]
      | some answer =>
        obtain ⟨n, c, input⟩ := answer
        have less : newline ∉ input.bytes := by
          unfold Stdin.sysRead at read
          split at read
          · next bytes =>
            cases read
            rw [bytes] at found
            exact fun member => found (List.mem_cons_of_mem _ member)
          · split at read
            · cases read
              exact found
            · cases read
              exact found
            · cases read
        by_cases same : c = newline
        · rw [same] at read
          rw [loop_newline read] at out
          cases out
        · obtain ⟨output, step⟩ := loop_typed more honest positive read same
          rw [step]
          exact loop_never honest positive more _ less (Or.inl same)

/-- A reader returns the line of its input, whatever its variable held, exactly if
there is a newline in the input; how the input ends makes no difference. -/
theorem readLine_returns_iff (member : reader ∈ readers) (positive : max ≠ 0) (input : Stdin) :
    ReturnsLine reader max input ↔ newline ∈ input.bytes := by
  have honest := readers_honest member
  constructor
  · intro returns
    by_contra plain
    obtain ⟨fuel, s, ends, -⟩ := returns 0
    have never := loop_never honest positive fuel (.start 0 input) plain
      (Or.inl (by decide : (0 : UInt8) ≠ _))
    rw [never] at ends
    cases ends
  · intro found garbage
    obtain ⟨before, rest, split, plain⟩ := List.eq_append_cons_of_mem found
    obtain ⟨output, ends⟩ := loop_returns honest positive (before.length + 1)
      (.start garbage input) plain split (Nat.lt_succ_self _)
    refine ⟨_, _, ends, ?_⟩
    rw [split, lineOf_append plain]
    rfl

/-- `x` and a backspace and `ls`, on the shell's line. -/
theorem readLine_returns_iff_typed :
    ReturnsLine shReadLine 120 ⟨[0x78, 0x08, 0x6C, 0x73, 0x0A], .waits⟩ ↔
      newline ∈ [0x78, 0x08, 0x6C, 0x73, 0x0A] :=
  readLine_returns_iff (by simp [readers]) (by decide) _

/-- `ls` from a pipe that ends without a newline. -/
theorem readLine_loops :
    ¬ ∀ reader ∈ readers, ∀ max, max ≠ 0 → ∀ input, ReturnsLine reader max input := by
  intro claim
  have member : shReadLine ∈ readers := by simp [readers]
  obtain ⟨fuel, s, ends, -⟩ := claim shReadLine member 120 (by decide) ⟨[0x6C, 0x73], .endOfFile⟩ 0
  have never := loop_never (readers_honest member) (by decide : (120 : Word) ≠ 0) fuel
    (.start 0 ⟨[0x6C, 0x73], .endOfFile⟩) (by decide : newline ∉ [0x6C, 0x73])
    (Or.inl (by decide : (0 : UInt8) ≠ newline))
  rw [never] at ends
  cases ends

end MiniKernel.Programs.LineReader
