import MiniKernel.Storage.FileMap
import MiniKernel.Storage.Fd

/-!
# The editor's file

Source: src/programs/edit.c:15-26 and 200-269 (`load_file`, `save_file`), on
system calls that are a parameter. `save_file` looks at the result of its open
only; `load_file` reads blocks of 512 bytes while a whole one fits in `content`.
-/
namespace MiniKernel.Programs.Edit
open Storage (fdCreate fdPersist fdTrunc)

/-- The bytes of a line, without its NUL. -/
abbrev Line := List UInt8

def maxLines : Nat := 200
def maxLineLen : Nat := 120
def blockSize : Nat := 512
def contentSize : Nat := maxLines * (maxLineLen + 1)
def newline : UInt8 := 10

structure Editor where
  lines : List Line
  modified : Bool
  status : String
  deriving DecidableEq, Repr

/-- The system calls on files, for a program whose file has one name: results,
and for a read the bytes it stores. -/
structure Calls (σ : Type) where
  sysOpen : BitVec 64 → σ → Int × σ
  sysRead : Int → Nat → σ → (Int × List UInt8) × σ
  sysWrite : Int → List UInt8 → σ → Int × σ
  sysClose : Int → σ → Int × σ

variable {σ : Type}

/-- `str_len` finds the first NUL. -/
def cString (line : Line) : List UInt8 := line.takeWhile (· ≠ 0)

/-- The loop of `save_file`. -/
def saveLoop (calls : Calls σ) (fd : Int) : List Line → σ → σ
  | [], s => s
  | line :: rest, s =>
    let s := (calls.sysWrite fd (cString line) s).2
    let s := (calls.sysWrite fd [newline] s).2
    saveLoop calls fd rest s

/-- The sum it builds. -/
def savedTotal (lines : List Line) : Nat := (lines.map fun line => (cString line).length + 1).sum

def saveFile (calls : Calls σ) (ed : Editor) (s : σ) : Editor × σ :=
  let (fd, s) := calls.sysOpen (fdCreate ||| fdPersist ||| fdTrunc) s
  if fd < 0 then ({ ed with status := "save failed: could not open file" }, s)
  else
    let s := saveLoop calls fd ed.lines s
    let s := (calls.sysClose fd s).2
    ({ ed with
      modified := false
      status := "saved (" ++ toString (savedTotal ed.lines) ++ " bytes)" }, s)

/-- The reading loop of `load_file`; every round but the last reads a byte or
more, so `contentSize` of them are enough. -/
def readLoop (calls : Calls σ) (fd : Int) : Nat → List UInt8 → σ → List UInt8 × σ
  | 0, content, s => (content, s)
  | fuel + 1, content, s =>
    if content.length + blockSize ≤ contentSize then
      let ((n, bytes), s) := calls.sysRead fd blockSize s
      if n > 0 then readLoop calls fd fuel (content ++ bytes) s else (content, s)
    else (content, s)

/-- The loop of `load_file` over the bytes: the lines so far and the one it is in. -/
def splitLoop : List UInt8 → List Line → Line → List Line × Line
  | [], done, cur => (done, cur)
  | b :: rest, done, cur =>
    if done.length < maxLines then
      if b = newline then splitLoop rest (done ++ [cur]) []
      else if cur.length < maxLineLen then splitLoop rest done (cur ++ [b])
      else splitLoop rest done cur
    else (done, cur)

def splitLines (content : List UInt8) : List Line :=
  let (done, cur) := splitLoop content [] []
  if 0 < cur.length ∧ done.length < maxLines then done ++ [cur] else done

def loadFile (calls : Calls σ) (ed : Editor) (s : σ) : Editor × σ :=
  let (fd, s) := calls.sysOpen fdPersist s
  if fd < 0 then ({ ed with lines := [] }, s)
  else
    let (content, s) := readLoop calls fd contentSize [] s
    let s := (calls.sysClose fd s).2
    ({ ed with lines := splitLines content }, s)

/-! ## A file and what the calls answer -/

/-- What a write does: it succeeds, or it fails and has laid the first `stored`
bytes over the file all the same. -/
structure Answer where
  ok : Bool
  stored : Nat
  deriving DecidableEq, Repr

/-- How many bytes the write leaves in the file. -/
def Answer.count (a : Answer) (len : Nat) : Nat := if a.ok then len else min a.stored len

/-- The answers to the opens and writes, in order. -/
structure Answers where
  opens : Nat → Bool
  writes : Nat → Answer

structure Session where
  file : List UInt8
  cursor : Nat
  opened : Nat
  written : Nat
  deriving DecidableEq, Repr

def Session.put (s : Session) (a : Answer) (bytes : List UInt8) : Session :=
  { s with
    file := Storage.splice s.file s.cursor (bytes.take (a.count bytes.length))
    cursor := if a.ok then s.cursor + bytes.length else s.cursor
    written := s.written + 1 }

/-- A write that fails does not move the cursor, like `fd_write`; a read gives
what there is, like `ufs_read_at`. -/
def answered (a : Answers) : Calls Session where
  sysOpen flags s :=
    if a.opens s.opened then
      (3, { s with
        file := if flags &&& fdTrunc ≠ 0 then [] else s.file
        cursor := 0
        opened := s.opened + 1 })
    else (-1, { s with opened := s.opened + 1 })
  sysRead _ len s :=
    let bytes := (s.file.drop s.cursor).take len
    ((bytes.length, bytes), { s with cursor := s.cursor + bytes.length })
  sysWrite _ bytes s :=
    (if (a.writes s.written).ok then bytes.length else -1, s.put (a.writes s.written) bytes)
  sysClose _ s := (0, s)

/-! ## Lines -/

/-- A buffer the editor can hold. -/
structure Buffer (lines : List Line) : Prop where
  count : lines.length ≤ maxLines
  short : ∀ line ∈ lines, line.length ≤ maxLineLen
  plain : ∀ line ∈ lines, ∀ b ∈ line, b ≠ 0 ∧ b ≠ newline

/-- The bytes of a file with these lines. -/
def fileText (lines : List Line) : List UInt8 := lines.flatMap fun line => line ++ [newline]

/-- How many bytes of the file are no newline. -/
def plainCount (bytes : List UInt8) : Nat := bytes.countP (· ≠ newline)

def newlineCount (bytes : List UInt8) : Nat := bytes.count newline

variable {lines done : List Line} {line cur : Line} {bytes content rest : List UInt8} {b : UInt8}

@[simp] theorem fileText_nil : fileText [] = [] := rfl

@[simp] theorem fileText_cons (line : Line) (lines : List Line) :
    fileText (line :: lines) = line ++ newline :: fileText lines := by
  simp [fileText]

@[simp] theorem plainCount_nil : plainCount [] = 0 := rfl

@[simp] theorem plainCount_append (a b : List UInt8) :
    plainCount (a ++ b) = plainCount a + plainCount b := List.countP_append ..

@[simp] theorem plainCount_newline (bytes : List UInt8) :
    plainCount (newline :: bytes) = plainCount bytes := List.countP_cons_of_neg (by decide)

theorem plainCount_cons (h : b ≠ newline) : plainCount (b :: bytes) = plainCount bytes + 1 :=
  List.countP_cons_of_pos (decide_eq_true h)

@[simp] theorem newlineCount_nil : newlineCount [] = 0 := rfl

@[simp] theorem newlineCount_append (a b : List UInt8) :
    newlineCount (a ++ b) = newlineCount a + newlineCount b := List.count_append ..

@[simp] theorem newlineCount_newline (bytes : List UInt8) :
    newlineCount (newline :: bytes) = newlineCount bytes + 1 := List.count_cons_self ..

theorem newlineCount_cons (h : b ≠ newline) : newlineCount (b :: bytes) = newlineCount bytes :=
  List.count_cons_of_ne h

theorem length_eq_counts (bytes : List UInt8) :
    bytes.length = plainCount bytes + newlineCount bytes := by
  induction bytes with
  | nil => rfl
  | cons b bytes ih =>
    by_cases same : b = newline
    · rw [same, plainCount_newline, newlineCount_newline, List.length_cons, ih]
      omega
    · rw [plainCount_cons same, newlineCount_cons same, List.length_cons, ih]
      omega

theorem cString_eq (plain : ∀ b ∈ line, b ≠ 0) : cString line = line := by
  have whole : (line ++ []).takeWhile (fun b => decide (b ≠ 0)) = line ++ [] :=
    List.takeWhile_append_of_pos fun b h => decide_eq_true (plain b h)
  rwa [List.append_nil] at whole

theorem cString_plain (plain : ∀ b ∈ line, b ≠ 0 ∧ b ≠ newline) : cString line = line :=
  cString_eq fun b h => (plain b h).1

theorem plainCount_line (plain : ∀ b ∈ line, b ≠ 0 ∧ b ≠ newline) :
    plainCount line = line.length :=
  List.countP_eq_length.mpr fun b h => decide_eq_true (plain b h).2

theorem newlineCount_line (plain : ∀ b ∈ line, b ≠ 0 ∧ b ≠ newline) : newlineCount line = 0 :=
  List.count_eq_zero_of_not_mem fun h => (plain newline h).2 rfl

theorem fileText_counts (plain : ∀ line ∈ lines, ∀ b ∈ line, b ≠ 0 ∧ b ≠ newline) :
    plainCount (fileText lines) = (lines.map List.length).sum ∧
      newlineCount (fileText lines) = lines.length := by
  induction lines with
  | nil => exact ⟨rfl, rfl⟩
  | cons line lines ih =>
    have here := plain line List.mem_cons_self
    obtain ⟨plains, newlines⟩ := ih fun l h => plain l (List.mem_cons_of_mem line h)
    constructor
    · rw [fileText_cons, plainCount_append, plainCount_newline, plainCount_line here, plains,
        List.map_cons, List.sum_cons]
    · rw [fileText_cons, newlineCount_append, newlineCount_newline, newlineCount_line here,
        newlines, Nat.zero_add, List.length_cons]

/-! ## What `load_file` makes of the bytes -/

/-- The text ends with a newline. -/
def EndsLine (bytes : List UInt8) : Prop := ∃ before, bytes = before ++ [newline]

theorem splitLoop_line (plain : ∀ b ∈ line, b ≠ 0 ∧ b ≠ newline)
    (fits : cur.length + line.length ≤ maxLineLen) (room : done.length < maxLines)
    (rest : List UInt8) :
    splitLoop (line ++ rest) done cur = splitLoop rest done (cur ++ line) := by
  induction line generalizing cur with
  | nil => rw [List.nil_append, List.append_nil]
  | cons b line ih =>
    have other := (plain b List.mem_cons_self).2
    rw [List.length_cons] at fits
    have short : cur.length < maxLineLen := by omega
    rw [List.cons_append, splitLoop, if_pos room, if_neg other, if_pos short,
      ih (fun c h => plain c (List.mem_cons_of_mem b h)) (by simp; omega),
      List.append_assoc, List.singleton_append]

theorem splitLoop_newline (room : done.length < maxLines) :
    splitLoop (newline :: rest) done cur = splitLoop rest (done ++ [cur]) [] := by
  rw [splitLoop, if_pos room, if_pos rfl]

theorem splitLoop_fileText (lines done : List Line) (rest : List UInt8)
    (short : ∀ line ∈ lines, line.length ≤ maxLineLen)
    (plain : ∀ line ∈ lines, ∀ b ∈ line, b ≠ 0 ∧ b ≠ newline)
    (room : done.length + lines.length ≤ maxLines) :
    splitLoop (fileText lines ++ rest) done [] = splitLoop rest (done ++ lines) [] := by
  induction lines generalizing done with
  | nil => rw [fileText_nil, List.nil_append, List.append_nil]
  | cons line lines ih =>
    rw [List.length_cons] at room
    have here : done.length < maxLines := by omega
    have fits : ([] : Line).length + line.length ≤ maxLineLen := by
      simpa using short line List.mem_cons_self
    rw [fileText_cons, List.append_assoc, List.cons_append,
      splitLoop_line (plain line List.mem_cons_self) fits here, List.nil_append,
      splitLoop_newline here,
      ih _ (fun l h => short l (List.mem_cons_of_mem line h))
        (fun l h => plain l (List.mem_cons_of_mem line h)) (by simp; omega),
      List.append_assoc, List.singleton_append]

theorem splitLines_fileText (buffer : Buffer lines) : splitLines (fileText lines) = lines := by
  have split := splitLoop_fileText lines [] [] buffer.short buffer.plain
    (by simpa using buffer.count)
  rw [List.append_nil, List.nil_append] at split
  rw [splitLines, split]
  rfl

/-- The last line may lack its newline, unless it is empty. -/
theorem splitLines_open (buffer : Buffer (lines ++ [line])) (nonempty : line ≠ []) :
    splitLines (fileText lines ++ line) = lines ++ [line] := by
  have count := buffer.count
  rw [List.length_append, List.length_singleton] at count
  have last : line ∈ lines ++ [line] := List.mem_append_right _ List.mem_cons_self
  have split := splitLoop_fileText lines [] line
    (fun l h => buffer.short l (List.mem_append_left _ h))
    (fun l h => buffer.plain l (List.mem_append_left _ h)) (by simp; omega)
  have fits : ([] : Line).length + line.length ≤ maxLineLen := by simpa using buffer.short line last
  have room : lines.length < maxLines := by omega
  have tail := splitLoop_line (buffer.plain line last) fits room []
  rw [List.append_nil, List.nil_append] at tail
  rw [splitLines, split, List.nil_append, tail]
  exact if_pos ⟨List.length_pos_of_ne_nil nonempty, room⟩

theorem splitLoop_fits (content : List UInt8) (done : List Line) (cur : Line)
    (few : done.length ≤ maxLines) (short : ∀ line ∈ cur :: done, line.length ≤ maxLineLen) :
    (splitLoop content done cur).1.length ≤ maxLines ∧
      ∀ line ∈ (splitLoop content done cur).2 :: (splitLoop content done cur).1,
        line.length ≤ maxLineLen := by
  induction content generalizing done cur with
  | nil => exact ⟨few, short⟩
  | cons b content ih =>
    rw [splitLoop]
    split
    · next room =>
      split
      · apply ih
        · rw [List.length_append]
          exact room
        · intro line member
          rcases List.mem_cons.mp member with rfl | member
          · exact Nat.zero_le _
          · rcases List.mem_append.mp member with old | new
            · exact short line (List.mem_cons_of_mem cur old)
            · exact short line (List.mem_singleton.mp new ▸ List.mem_cons_self)
      split
      · next fits =>
        apply ih _ _ few
        intro line member
        rcases List.mem_cons.mp member with rfl | member
        · rw [List.length_append]
          exact fits
        · exact short line (List.mem_cons_of_mem cur member)
      · exact ih _ _ few short
    · exact ⟨few, short⟩

/-- No more lines than there are rows, none longer than a row. -/
theorem splitLines_fits (content : List UInt8) : (splitLines content).length ≤ maxLines ∧
    ∀ line ∈ splitLines content, line.length ≤ maxLineLen := by
  obtain ⟨few, short⟩ := splitLoop_fits content [] [] (Nat.zero_le _) (by simp)
  simp only [splitLines]
  split
  · next opened =>
    constructor
    · rw [List.length_append]
      exact opened.2
    · intro line member
      rcases List.mem_append.mp member with old | new
      · exact short line (List.mem_cons_of_mem _ old)
      · exact short line (List.mem_singleton.mp new ▸ List.mem_cons_self)
  · exact ⟨few, fun line member => short line (List.mem_cons_of_mem _ member)⟩

/-- Bytes and newlines of the file that the lines account for. -/
theorem splitLoop_counts (content : List UInt8) (done : List Line) (cur : Line) :
    ((splitLoop content done cur).1.map List.length).sum + (splitLoop content done cur).2.length ≤
        (done.map List.length).sum + cur.length + plainCount content ∧
      (splitLoop content done cur).1.length ≤ done.length + newlineCount content := by
  induction content generalizing done cur with
  | nil => exact ⟨Nat.le_refl _, Nat.le_refl _⟩
  | cons b content ih =>
    simp only [splitLoop]
    split
    · split
      · next same =>
        obtain ⟨plains, newlines⟩ := ih (done ++ [cur]) []
        rw [same, plainCount_newline, newlineCount_newline]
        simp only [List.map_append, List.map_cons, List.map_nil, List.sum_append, List.sum_cons,
          List.sum_nil, List.length_append, List.length_cons, List.length_nil] at plains newlines
        omega
      · next other =>
        rw [plainCount_cons other, newlineCount_cons other]
        split
        · obtain ⟨plains, newlines⟩ := ih done (cur ++ [b])
          rw [List.length_append, List.length_singleton] at plains
          omega
        · obtain ⟨plains, newlines⟩ := ih done cur
          omega
    · dsimp only
      omega

/-- Behind a final newline no line is open. -/
theorem splitLoop_ends (before : List UInt8) (done : List Line) (cur : Line)
    (room : (splitLoop (before ++ [newline]) done cur).1.length < maxLines) :
    (splitLoop (before ++ [newline]) done cur).2 = [] := by
  induction before generalizing done cur with
  | nil =>
    revert room
    simp only [List.nil_append, splitLoop]
    split
    · exact fun _ => rfl
    · next full => exact fun room => absurd room full
  | cons b before ih =>
    revert room
    simp only [List.cons_append, splitLoop]
    split
    · split
      · exact ih _ _
      · split
        · exact ih _ _
        · exact ih _ _
    · next full => exact fun room => absurd room full

/-- The lines `load_file` finds use up the bytes of the file; there are as many
as newlines, or one more, not empty, that is still open. -/
theorem splitLines_counts (content : List UInt8) :
    ((splitLines content).map List.length).sum ≤ plainCount content ∧
      ((splitLines content).length ≤ newlineCount content ∨
        ((splitLines content).length ≤ newlineCount content + 1 ∧ ¬ EndsLine content ∧
          content ≠ [] ∧ ∃ before last, splitLines content = before ++ [last] ∧ last ≠ [])) := by
  obtain ⟨plains, newlines⟩ := splitLoop_counts content [] []
  simp only [List.map_nil, List.sum_nil, List.length_nil, Nat.zero_add] at plains newlines
  simp only [splitLines]
  split
  · next opened =>
    simp only [List.map_append, List.map_cons, List.map_nil, List.sum_append, List.sum_cons,
      List.sum_nil, List.length_append, List.length_singleton, Nat.add_zero]
    refine ⟨plains, Or.inr ⟨by omega, ?_, ?_, _, _, rfl, List.ne_nil_of_length_pos opened.1⟩⟩
    · rintro ⟨before, rfl⟩
      rw [splitLoop_ends before [] [] opened.2] at opened
      exact absurd opened.1 (Nat.lt_irrefl 0)
    · rintro rfl
      exact absurd opened.1 (Nat.lt_irrefl 0)
  · exact ⟨by omega, Or.inl newlines⟩

end MiniKernel.Programs.Edit
