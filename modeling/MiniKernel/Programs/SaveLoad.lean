import MiniKernel.Programs.Edit

/-!
# Saving and loading

Source: src/programs/edit.c:200-269, kernel/core/ufs.c:366-416 (`ufs_write_at`).
A write that fails may have laid some or all of its bytes over the file before it
failed, and the next write begins where it began. What `load_file` gets back can
be told from the answers because no byte of the file counts twice: the lines have
all their bytes and newlines again only if none was lost.
-/
namespace MiniKernel.Programs.Edit
open Storage (splice fdCreate fdPersist fdTrunc)

variable {a : Answers} {s : Session} {answer : Answer} {bytes : List UInt8}
  {lines rest : List Line} {line : Line} {fd : Int}

/-- The write leaves all its bytes in the file. -/
def Answer.Stores (a : Answer) (len : Nat) : Prop := a.ok = true ∨ len ≤ a.stored

instance (a : Answer) (len : Nat) : Decidable (a.Stores len) :=
  inferInstanceAs (Decidable (_ ∨ _))

/-- The last line and its newline: a stored text that its newline does not
overwrite, or one that is still there without a newline. -/
def LastKept (line : Line) (text nl : Answer) : Prop :=
  text.Stores line.length ∧
    if nl.Stores 1 then line = [] ∨ text.ok = true else line ≠ []

/-- The answers to the writes of a save, from the `k`th on: all succeed, but the
empty ones and at the last line. -/
def Kept (writes : Nat → Answer) : Nat → List Line → Prop
  | _, [] => True
  | k, [line] => LastKept line (writes k) (writes (k + 1))
  | k, line :: next :: rest =>
    (line = [] ∨ (writes k).ok = true) ∧ (writes (k + 1)).ok = true ∧
      Kept writes (k + 2) (next :: rest)

/-- The length of the saved text is what `load_file` reads, or a newline more. -/
def Fits (lines : List Line) : Prop :=
  savedTotal lines ≤ 24064 ∨
    (savedTotal lines = 24065 ∧ ∃ before last, lines = before ++ [last] ∧ last ≠ [])

/-- The save and the load that follows get what they need. -/
structure Served (a : Answers) (lines : List Line) : Prop where
  writes : Kept a.writes 0 lines
  fits : Fits lines
  reopened : lines ≠ [] → a.opens 1 = true

/-- If saving the editor's lines clears `modified`, loading restores them. -/
def Restores (a : Answers) (file : List UInt8) (lines : List Line) : Prop :=
  let saved := saveFile (answered a) ⟨lines, true, ""⟩ ⟨file, 0, 0, 0⟩
  saved.1.modified = false → (loadFile (answered a) saved.1 saved.2).1.lines = lines

/-! ## One write -/

theorem Answer.count_le (a : Answer) (len : Nat) : a.count len ≤ len := by
  unfold Answer.count
  split
  · exact Nat.le_refl len
  · exact Nat.min_le_right _ _

theorem Answer.stores_iff (a : Answer) (len : Nat) : a.Stores len ↔ a.count len = len := by
  unfold Answer.Stores Answer.count
  split
  · next ok => exact ⟨fun _ => rfl, fun _ => Or.inl ok⟩
  · next failed =>
    rw [or_iff_right failed]
    omega

theorem put_length (answer : Answer) (bytes : List UInt8) (inFile : s.cursor ≤ s.file.length) :
    (s.put answer bytes).file.length +
        min (answer.count bytes.length) (s.file.length - s.cursor) =
      s.file.length + answer.count bytes.length := by
  have count := answer.count_le bytes.length
  simp only [Session.put, splice, List.length_append, List.length_take, List.length_drop]
  omega

theorem put_cursor_le (answer : Answer) (bytes : List UInt8)
    (inFile : s.cursor ≤ s.file.length) :
    (s.put answer bytes).cursor ≤ (s.put answer bytes).file.length := by
  have length := put_length answer bytes inFile
  change (if answer.ok = true then s.cursor + bytes.length else s.cursor) ≤
    (s.put answer bytes).file.length
  split
  · next ok =>
    rw [(answer.stores_iff bytes.length).mp (Or.inl ok)] at length
    omega
  · omega

theorem put_length_le (answer : Answer) (bytes : List UInt8) (inFile : s.cursor ≤ s.file.length) :
    (s.put answer bytes).file.length ≤ s.file.length + bytes.length := by
  have length := put_length answer bytes inFile
  have count := answer.count_le bytes.length
  omega

theorem put_plainCount (answer : Answer) (bytes : List UInt8) :
    plainCount (s.put answer bytes).file ≤ plainCount s.file + plainCount bytes := by
  have split : plainCount (s.file.take s.cursor) + plainCount (s.file.drop s.cursor) =
      plainCount s.file := by rw [← plainCount_append, List.take_append_drop]
  have behind : plainCount
      (s.file.drop (s.cursor + (bytes.take (answer.count bytes.length)).length)) ≤
        plainCount (s.file.drop s.cursor) :=
    (List.drop_sublist_drop_left s.file (Nat.le_add_right _ _)).countP_le
  have part : plainCount (bytes.take (answer.count bytes.length)) ≤ plainCount bytes :=
    (List.take_sublist _ _).countP_le
  simp only [Session.put, splice, plainCount_append]
  omega

theorem put_newlineCount (answer : Answer) (bytes : List UInt8) :
    newlineCount (s.put answer bytes).file ≤ newlineCount s.file + newlineCount bytes := by
  have split : newlineCount (s.file.take s.cursor) + newlineCount (s.file.drop s.cursor) =
      newlineCount s.file := by rw [← newlineCount_append, List.take_append_drop]
  have behind : newlineCount
      (s.file.drop (s.cursor + (bytes.take (answer.count bytes.length)).length)) ≤
        newlineCount (s.file.drop s.cursor) :=
    (List.drop_sublist_drop_left s.file (Nat.le_add_right _ _)).count_le newline
  have part : newlineCount (bytes.take (answer.count bytes.length)) ≤ newlineCount bytes :=
    (List.take_sublist _ _).count_le newline
  simp only [Session.put, splice, newlineCount_append]
  omega

/-- A file that grows by all the bytes has them at its end. -/
theorem put_appends (inFile : s.cursor ≤ s.file.length)
    (full : (s.put answer bytes).file.length = s.file.length + bytes.length) :
    answer.Stores bytes.length ∧ (bytes = [] ∨ s.cursor = s.file.length) ∧
      (s.put answer bytes).file = s.file ++ bytes := by
  have length := put_length answer bytes inFile
  have count := answer.count_le bytes.length
  have all : answer.count bytes.length = bytes.length := by omega
  have atEnd : bytes = [] ∨ s.cursor = s.file.length := by
    cases bytes with
    | nil => exact Or.inl rfl
    | cons b bytes =>
      rw [List.length_cons] at length full all
      exact Or.inr (by omega)
  refine ⟨(answer.stores_iff _).mpr all, atEnd, ?_⟩
  simp only [Session.put, splice, all, List.take_length]
  rcases atEnd with rfl | same
  · rw [List.append_nil, List.append_nil, List.length_nil, Nat.add_zero, List.take_append_drop]
  · rw [same, List.take_length, List.drop_eq_nil_of_le (Nat.le_add_right _ _), List.append_nil]

/-- After such a write the cursor is at the end if it was and the write succeeded. -/
theorem put_atEnd (inFile : s.cursor ≤ s.file.length)
    (full : (s.put answer bytes).file.length = s.file.length + bytes.length)
    (atEnd : (s.put answer bytes).cursor = (s.put answer bytes).file.length) :
    s.cursor = s.file.length ∧ (bytes = [] ∨ answer.ok = true) := by
  rw [full] at atEnd
  simp only [Session.put] at atEnd
  split at atEnd
  · next ok => exact ⟨by omega, Or.inr ok⟩
  · have empty : bytes.length = 0 := by omega
    exact ⟨by omega, Or.inl (List.eq_nil_of_length_eq_zero empty)⟩

/-! ## The writes of a save -/

/-- A line and its newline. -/
def Session.putLine (s : Session) (a : Answers) (line : Line) : Session :=
  (s.put (a.writes s.written) line).put (a.writes (s.written + 1)) [newline]

theorem saveLoop_cons (plain : ∀ b ∈ line, b ≠ 0 ∧ b ≠ newline) :
    saveLoop (answered a) fd (line :: rest) s =
      saveLoop (answered a) fd rest (s.putLine a line) := by
  simp only [saveLoop, cString_plain plain]
  rfl

theorem putLine_cursor_le (a : Answers) (line : Line) (inFile : s.cursor ≤ s.file.length) :
    (s.putLine a line).cursor ≤ (s.putLine a line).file.length :=
  put_cursor_le _ _ (put_cursor_le _ _ inFile)

/-- No byte counts twice. -/
theorem saveLoop_counts (a : Answers) (fd : Int)
    (plain : ∀ line ∈ lines, ∀ b ∈ line, b ≠ 0 ∧ b ≠ newline)
    (inFile : s.cursor ≤ s.file.length) :
    plainCount (saveLoop (answered a) fd lines s).file ≤
        plainCount s.file + plainCount (fileText lines) ∧
      newlineCount (saveLoop (answered a) fd lines s).file ≤
        newlineCount s.file + newlineCount (fileText lines) := by
  induction lines generalizing s with
  | nil => exact ⟨Nat.le_refl _, Nat.le_refl _⟩
  | cons line lines ih =>
    have here := plain line List.mem_cons_self
    obtain ⟨plains, newlines⟩ := ih (fun l h => plain l (List.mem_cons_of_mem line h))
      (putLine_cursor_le a line inFile)
    have text := put_plainCount (s := s) (a.writes s.written) line
    have text' := put_newlineCount (s := s) (a.writes s.written) line
    have ends := put_plainCount (s := s.put (a.writes s.written) line)
      (a.writes (s.written + 1)) [newline]
    have ends' := put_newlineCount (s := s.put (a.writes s.written) line)
      (a.writes (s.written + 1)) [newline]
    rw [saveLoop_cons here]
    simp only [fileText_cons, plainCount_append, plainCount_newline, newlineCount_append,
      newlineCount_newline, plainCount_nil, newlineCount_nil, Session.putLine]
      at plains newlines text text' ends ends' ⊢
    omega

theorem saveLoop_length_le (a : Answers) (fd : Int)
    (plain : ∀ line ∈ lines, ∀ b ∈ line, b ≠ 0 ∧ b ≠ newline)
    (inFile : s.cursor ≤ s.file.length) :
    (saveLoop (answered a) fd lines s).file.length ≤
      s.file.length + (fileText lines).length := by
  have counts := saveLoop_counts a fd plain inFile
  simp only [length_eq_counts]
  omega

theorem Kept.cons {writes : Nat → Answer} {k : Nat} (nonempty : rest ≠ [])
    (text : line = [] ∨ (writes k).ok = true) (ends : (writes (k + 1)).ok = true)
    (kept : Kept writes (k + 2) rest) : Kept writes k (line :: rest) := by
  cases rest with
  | nil => exact absurd rfl nonempty
  | cons next rest => exact ⟨text, ends, kept⟩

/-- A line that is stored whole, with its newline. -/
structure LineStored (s : Session) (a : Answers) (line : Line) : Prop where
  file : (s.putLine a line).file = s.file ++ (line ++ [newline])
  atEnd : s.cursor = s.file.length
  text : line = [] ∨ (a.writes s.written).ok = true
  stores : (a.writes s.written).Stores line.length
  ends : (a.writes (s.written + 1)).Stores 1
  /-- The next line begins behind it only if the newline's write succeeded. -/
  ok : (s.putLine a line).cursor = (s.putLine a line).file.length →
    (a.writes (s.written + 1)).ok = true

theorem lineStored (a : Answers) (line : Line) (inFile : s.cursor ≤ s.file.length)
    (full : (s.putLine a line).file.length = s.file.length + line.length + 1) :
    LineStored s a line := by
  have inFile' := put_cursor_le (a.writes s.written) line inFile
  have first := put_length_le (a.writes s.written) line inFile
  have second := put_length_le (a.writes (s.written + 1)) [newline] inFile'
  rw [Session.putLine] at full
  rw [List.length_singleton] at second
  have textFull : (s.put (a.writes s.written) line).file.length =
      s.file.length + line.length := by omega
  have endFull : ((s.put (a.writes s.written) line).put (a.writes (s.written + 1))
      [newline]).file.length =
        (s.put (a.writes s.written) line).file.length + [newline].length := by
    rw [List.length_singleton]
    omega
  obtain ⟨ends, atEnd, file⟩ := put_appends inFile' endFull
  obtain ⟨stores, _, file'⟩ := put_appends inFile textFull
  obtain ⟨start, text⟩ := put_atEnd inFile textFull
    (atEnd.resolve_left (List.cons_ne_nil newline []))
  refine ⟨?_, start, text, stores, ends, fun atEnd' => ?_⟩
  · rw [Session.putLine, file, file', List.append_assoc]
  · exact (put_atEnd inFile' endFull atEnd').2.resolve_left (List.cons_ne_nil newline [])

/-- If no byte is lost, the file is the text, and every write was as it should be. -/
theorem saveLoop_full (a : Answers) (fd : Int)
    (plain : ∀ line ∈ lines, ∀ b ∈ line, b ≠ 0 ∧ b ≠ newline)
    (inFile : s.cursor ≤ s.file.length)
    (full : (saveLoop (answered a) fd lines s).file.length =
      s.file.length + (fileText lines).length) :
    (saveLoop (answered a) fd lines s).file = s.file ++ fileText lines ∧
      (lines ≠ [] → s.cursor = s.file.length) ∧ Kept a.writes s.written lines := by
  induction lines generalizing s with
  | nil => exact ⟨(List.append_nil _).symm, fun h => absurd rfl h, trivial⟩
  | cons line lines ih =>
    have here := plain line List.mem_cons_self
    have others (l : Line) (h : l ∈ lines) := plain l (List.mem_cons_of_mem line h)
    rw [saveLoop_cons here] at full ⊢
    rw [fileText_cons, List.length_append, List.length_cons] at full
    have inFile' := putLine_cursor_le a line inFile
    have behind := saveLoop_length_le a fd others inFile'
    have first := put_length_le (a.writes s.written) line inFile
    have second := put_length_le (a.writes (s.written + 1)) [newline]
      (put_cursor_le (a.writes s.written) line inFile)
    rw [List.length_singleton] at second
    change (s.putLine a line).file.length ≤ _ at second
    have stored := lineStored a line inFile (by omega)
    obtain ⟨file, atEnd, kept⟩ := ih others inFile' (by omega)
    refine ⟨?_, fun _ => stored.atEnd, ?_⟩
    · rw [file, stored.file, fileText_cons, List.append_assoc, List.append_assoc,
        List.singleton_append]
    · cases lines with
      | nil =>
        refine ⟨stored.stores, ?_⟩
        rw [if_pos stored.ends]
        exact stored.text
      | cons next rest =>
        exact ⟨stored.text, stored.ok (atEnd (List.cons_ne_nil next rest)), kept⟩

/-! ## A save that loses one newline -/

theorem EndsLine.append (before : List UInt8) (ends : EndsLine bytes) :
    EndsLine (before ++ bytes) := by
  obtain ⟨front, rfl⟩ := ends
  exact ⟨before ++ front, (List.append_assoc ..).symm⟩

theorem fileText_ends (nonempty : lines ≠ []) : EndsLine (fileText lines) := by
  induction lines with
  | nil => exact absurd rfl nonempty
  | cons line lines ih =>
    rw [fileText_cons]
    cases lines with
    | nil => exact ⟨line, rfl⟩
    | cons next rest =>
      have behind := (ih (List.cons_ne_nil next rest)).append (line ++ [newline])
      rwa [List.append_assoc, List.singleton_append] at behind

/-- A newline laid over a byte of the file, if no other byte is lost. -/
theorem put_over (inFile : s.cursor < s.file.length) (stores : answer.Stores 1)
    (plains : plainCount (s.put answer [newline]).file = plainCount s.file) :
    (s.put answer [newline]).file = s.file ∧ s.file[s.cursor] = newline := by
  have count : answer.count 1 = 1 := (answer.stores_iff 1).mp stores
  have cut : s.file.take s.cursor ++ s.file[s.cursor] :: s.file.drop (s.cursor + 1) = s.file := by
    rw [List.getElem_cons_drop, List.take_append_drop]
  have file : (s.put answer [newline]).file =
      s.file.take s.cursor ++ newline :: s.file.drop (s.cursor + 1) := by
    simp [Session.put, splice, count]
  have same : s.file[s.cursor] = newline := by
    by_contra other
    have whole := congrArg plainCount cut
    rw [plainCount_append, plainCount_cons other] at whole
    rw [file, plainCount_append, plainCount_newline] at plains
    omega
  exact ⟨by rw [file, ← same, cut], same⟩

/-- The last line of such a save. -/
theorem lastKept_of_lost (plain : ∀ b ∈ line, b ≠ 0 ∧ b ≠ newline)
    (inFile : s.cursor ≤ s.file.length) (starts : s.file = [] ∨ EndsLine s.file)
    (lost : (s.putLine a line).file.length = s.file.length + line.length)
    (plains : plainCount (s.putLine a line).file = plainCount s.file + plainCount line)
    (something : (s.putLine a line).file ≠ []) (opened : ¬ EndsLine (s.putLine a line).file) :
    s.cursor = s.file.length ∧
      LastKept line (a.writes s.written) (a.writes (s.written + 1)) := by
  have inFile' := put_cursor_le (a.writes s.written) line inFile
  have first := put_length_le (a.writes s.written) line inFile
  have count := put_plainCount (s := s) (a.writes s.written) line
  have count' := put_plainCount (s := s.put (a.writes s.written) line)
    (a.writes (s.written + 1)) [newline]
  have behind := put_length (a.writes (s.written + 1)) [newline] inFile'
  rw [Session.putLine] at lost plains something opened
  rw [plainCount_newline, plainCount_nil, Nat.add_zero] at count'
  rw [List.length_singleton] at behind
  -- the text is there
  have textFull : (s.put (a.writes s.written) line).file.length =
      s.file.length + line.length := by
    by_contra short
    have endFull : ((s.put (a.writes s.written) line).put (a.writes (s.written + 1))
        [newline]).file.length =
          (s.put (a.writes s.written) line).file.length + [newline].length := by
      have one := (a.writes (s.written + 1)).count_le 1
      rw [List.length_singleton]
      omega
    exact opened ⟨_, (put_appends inFile' endFull).2.2⟩
  obtain ⟨stores, atEnd, file⟩ := put_appends inFile textFull
  have nonempty (same : ((s.put (a.writes s.written) line).put (a.writes (s.written + 1))
      [newline]).file = (s.put (a.writes s.written) line).file) : line ≠ [] := by
    rintro rfl
    rw [same, file, List.append_nil] at something opened
    exact starts.elim something opened
  -- its newline is not: it would lie over the first byte of the text
  have lostEnd : ¬ (a.writes (s.written + 1)).Stores 1 := by
    intro ends
    have one := ((a.writes (s.written + 1)).stores_iff 1).mp ends
    rw [one] at behind
    have before : (s.put (a.writes s.written) line).cursor <
        (s.put (a.writes s.written) line).file.length := by omega
    obtain ⟨same, byte⟩ := put_over before ends (by omega)
    have start := atEnd.resolve_left (nonempty same)
    have failed : (s.put (a.writes s.written) line).cursor = s.file.length := by
      rw [textFull] at before
      simp only [Session.put] at before ⊢
      split at before
      · omega
      · next failed => rw [if_neg failed, start]
    have here := List.getElem?_eq_getElem before
    rw [byte, failed, file, List.getElem?_append_right (Nat.le_refl _), Nat.sub_self] at here
    exact (plain newline (List.mem_of_getElem? here)).2 rfl
  have none : (a.writes (s.written + 1)).count 1 = 0 := by
    have one := (a.writes (s.written + 1)).count_le 1
    rw [Answer.stores_iff] at lostEnd
    omega
  have same : ((s.put (a.writes s.written) line).put (a.writes (s.written + 1))
      [newline]).file = (s.put (a.writes s.written) line).file := by
    simp [Session.put, splice, none]
  refine ⟨atEnd.resolve_left (nonempty same), stores, ?_⟩
  rw [if_neg lostEnd]
  exact nonempty same

/-- If only a newline is lost, and it shows at the end, it is the last one. -/
theorem saveLoop_short (plain : ∀ line ∈ lines, ∀ b ∈ line, b ≠ 0 ∧ b ≠ newline)
    (inFile : s.cursor ≤ s.file.length) (starts : s.file = [] ∨ EndsLine s.file)
    (lost : (saveLoop (answered a) fd lines s).file.length + 1 =
      s.file.length + (fileText lines).length)
    (plains : plainCount (saveLoop (answered a) fd lines s).file =
      plainCount s.file + plainCount (fileText lines))
    (something : (saveLoop (answered a) fd lines s).file ≠ [])
    (opened : ¬ EndsLine (saveLoop (answered a) fd lines s).file) :
    s.cursor = s.file.length ∧ Kept a.writes s.written lines := by
  induction lines generalizing s with
  | nil =>
    rw [fileText_nil, List.length_nil] at lost
    simp only [saveLoop] at lost
    omega
  | cons line lines ih =>
    have here := plain line List.mem_cons_self
    have others (l : Line) (h : l ∈ lines) := plain l (List.mem_cons_of_mem line h)
    rw [saveLoop_cons here] at lost plains something opened
    rw [fileText_cons, List.length_append, List.length_cons] at lost
    rw [fileText_cons, plainCount_append, plainCount_newline] at plains
    have inFile' := putLine_cursor_le a line inFile
    have behind := saveLoop_length_le a fd others inFile'
    have counts := (saveLoop_counts a fd others inFile').1
    have first := put_length_le (a.writes s.written) line inFile
    have second := put_length_le (a.writes (s.written + 1)) [newline]
      (put_cursor_le (a.writes s.written) line inFile)
    have text := put_plainCount (s := s) (a.writes s.written) line
    have ends := put_plainCount (s := s.put (a.writes s.written) line)
      (a.writes (s.written + 1)) [newline]
    rw [List.length_singleton] at second
    rw [plainCount_newline, plainCount_nil, Nat.add_zero] at ends
    change (s.putLine a line).file.length ≤ _ at second
    change plainCount (s.putLine a line).file ≤ _ at ends
    by_cases whole : (s.putLine a line).file.length = s.file.length + line.length + 1
    · have stored := lineStored a line inFile whole
      have nonempty : lines ≠ [] := by
        rintro rfl
        rw [fileText_nil, List.length_nil] at lost
        simp only [saveLoop] at lost
        omega
      have ended : EndsLine (s.putLine a line).file :=
        ⟨s.file ++ line, by rw [stored.file, List.append_assoc]⟩
      obtain ⟨atEnd, kept⟩ := ih others inFile' (Or.inr ended) (by omega) (by omega) something
        opened
      exact ⟨stored.atEnd, kept.cons nonempty stored.text (stored.ok atEnd)⟩
    · -- the lines behind are all there, so they are none
      obtain ⟨file, _, _⟩ := saveLoop_full a fd others inFile' (by omega)
      cases lines with
      | nil =>
        simp only [saveLoop, fileText_nil, List.length_nil, plainCount_nil] at lost plains
        simp only [saveLoop] at something opened
        exact lastKept_of_lost here inFile starts (by omega) (by omega) something opened
      | cons next rest =>
        rw [file] at opened
        exact absurd ((fileText_ends (List.cons_ne_nil next rest)).append _) opened

/-! ## Reading the file back -/

theorem readLoop_end (fuel : Nat) (content : List UInt8) (over' : s.file.length ≤ s.cursor) :
    (readLoop (answered a) fd fuel content s).1 = content := by
  cases fuel with
  | zero => rfl
  | succ fuel =>
    have nothing : s.file.drop s.cursor = [] := List.drop_eq_nil_of_le over'
    simp only [readLoop, answered, nothing, List.take_nil, List.length_nil]
    split
    · rfl
    · rfl

/-- One round of the loop. -/
theorem readLoop_round (fuel : Nat) (content : List UInt8)
    (fits : content.length + blockSize ≤ contentSize) (more : s.cursor < s.file.length) :
    readLoop (answered a) fd (fuel + 1) content s =
      readLoop (answered a) fd fuel (content ++ (s.file.drop s.cursor).take blockSize)
        { s with cursor := s.cursor + min blockSize (s.file.length - s.cursor) } := by
  have length : ((s.file.drop s.cursor).take blockSize).length =
      min blockSize (s.file.length - s.cursor) := by rw [List.length_take, List.length_drop]
  have some : ((min blockSize (s.file.length - s.cursor) : Nat) : Int) > 0 := by
    simp only [blockSize]
    omega
  simp only [readLoop, if_pos fits, answered, length, if_pos some]

/-- After 47 blocks another one does not fit. -/
theorem readLoop_blocks (fuel k : Nat) (content : List UInt8) (enough : 48 ≤ k + fuel)
    (few : k ≤ 47) (cursor : s.cursor = 512 * k) (inFile : 512 * k ≤ s.file.length)
    (sofar : content = s.file.take (512 * k)) :
    (readLoop (answered a) fd fuel content s).1 = s.file.take 24064 := by
  induction fuel generalizing k s content with
  | zero => omega
  | succ fuel ih =>
    have length : content.length = 512 * k := by
      rw [sofar, List.length_take, Nat.min_eq_left inFile]
    cases Nat.lt_or_ge (512 * k) s.file.length with
    | inr ended =>
      rw [readLoop_end _ _ (by omega), sofar, List.take_of_length_le (by omega),
        List.take_of_length_le (by omega)]
    | inl more =>
      cases Nat.lt_or_ge k 47 with
      | inr last =>
        have full : ¬ content.length + blockSize ≤ contentSize := by
          simp only [blockSize, contentSize, maxLines, maxLineLen]
          omega
        have all : k = 47 := by omega
        simp only [readLoop, if_neg full]
        rw [sofar, all]
      | inl fewer =>
        have fits : content.length + blockSize ≤ contentSize := by
          simp only [blockSize, contentSize, maxLines, maxLineLen]
          omega
        have next : content ++ (s.file.drop s.cursor).take blockSize =
            s.file.take (512 * k + 512) := by
          rw [sofar, cursor, List.take_add]
          rfl
        rw [readLoop_round fuel content fits (by omega), next]
        simp only [blockSize]
        cases Nat.lt_or_ge s.file.length (512 * k + 512) with
        | inl short =>
          rw [readLoop_end _ _ (by dsimp only; omega), List.take_of_length_le (by omega),
            List.take_of_length_le (by omega)]
        | inr long =>
          refine ih (k + 1) _ (by omega) (by omega) ?_ long rfl
          dsimp only
          omega

theorem saveLoop_opened (lines : List Line) (s : Session) :
    (saveLoop (answered a) fd lines s).opened = s.opened := by
  induction lines generalizing s with
  | nil => rfl
  | cons line lines ih => exact ih _

theorem answered_open (flags : BitVec 64) (ok : a.opens s.opened = true) :
    (answered a).sysOpen flags s =
      (3, { s with
        file := if flags &&& fdTrunc ≠ 0 then [] else s.file
        cursor := 0
        opened := s.opened + 1 }) := if_pos ok

theorem answered_refused (flags : BitVec 64) (refused : ¬ a.opens s.opened = true) :
    (answered a).sysOpen flags s = (-1, { s with opened := s.opened + 1 }) := if_neg refused

/-- The session after the writes of a save. -/
def written (a : Answers) (lines : List Line) : Session :=
  saveLoop (answered a) 3 lines ⟨[], 0, 1, 0⟩

/-- What the load sees of the save. -/
theorem restores_iff (a : Answers) (file : List UInt8) (lines : List Line) :
    Restores a file lines ↔
      (a.opens 0 = true →
        (if a.opens 1 = true then splitLines ((written a lines).file.take 24064) else []) =
          lines) := by
  have opened : (written a lines).opened = 1 := saveLoop_opened lines _
  have read : (readLoop (answered a) 3 contentSize []
      ⟨(written a lines).file, 0, 2, (written a lines).written⟩).1 =
        (written a lines).file.take 24064 :=
    readLoop_blocks contentSize 0 [] (by decide) (by decide) rfl (Nat.zero_le _) rfl
  have loaded (ed : Editor) : (loadFile (answered a) ed (written a lines)).1.lines =
      if a.opens 1 = true then splitLines ((written a lines).file.take 24064) else [] := by
    rw [loadFile]
    by_cases second : a.opens 1 = true
    · rw [answered_open fdPersist (opened ▸ second), if_pos second, ← read, opened]
      rfl
    · rw [answered_refused fdPersist (opened ▸ second), if_neg second]
      rfl
  rw [Restores, saveFile]
  by_cases first : a.opens 0 = true
  · rw [answered_open _ first]
    exact ⟨fun h _ => (loaded _).symm.trans (h rfl), fun h _ => (loaded _).trans (h first)⟩
  · rw [answered_refused _ first]
    exact ⟨fun _ h => absurd h first, fun _ h => by cases h⟩

/-! ## The round trip -/

theorem savedTotal_eq (plain : ∀ line ∈ lines, ∀ b ∈ line, b ≠ 0 ∧ b ≠ newline) :
    savedTotal lines = (fileText lines).length := by
  induction lines with
  | nil => rfl
  | cons line lines ih =>
    have rest := ih fun l h => plain l (List.mem_cons_of_mem line h)
    rw [savedTotal] at rest ⊢
    rw [List.map_cons, List.sum_cons, rest, cString_plain (plain line List.mem_cons_self),
      fileText_cons, List.length_append, List.length_cons]
    omega

/-- A stored write at the end of the file. -/
theorem put_end (bytes : List UInt8) (atEnd : s.cursor = s.file.length)
    (stores : answer.Stores bytes.length) :
    (s.put answer bytes).file = s.file ++ bytes ∧
      (bytes = [] ∨ answer.ok = true →
        (s.put answer bytes).cursor = (s.put answer bytes).file.length) := by
  have file : (s.put answer bytes).file = s.file ++ bytes := by
    simp only [Session.put, splice, (answer.stores_iff _).mp stores, List.take_length, atEnd]
    rw [List.drop_eq_nil_of_le (Nat.le_add_right _ _), List.append_nil]
  refine ⟨file, fun moves => ?_⟩
  rw [file, List.length_append]
  simp only [Session.put, atEnd]
  split
  · rfl
  · next failed =>
    rw [moves.resolve_right failed, List.length_nil]
    rfl

theorem saveLoop_kept (a : Answers) (fd : Int) (atEnd : s.cursor = s.file.length)
    (plain : ∀ line ∈ lines, ∀ b ∈ line, b ≠ 0 ∧ b ≠ newline)
    (kept : Kept a.writes s.written lines) :
    (saveLoop (answered a) fd lines s).file = s.file ++ fileText lines ∨
      ∃ before last, lines = before ++ [last] ∧ last ≠ [] ∧
        (saveLoop (answered a) fd lines s).file = s.file ++ (fileText before ++ last) := by
  induction lines generalizing s with
  | nil => exact Or.inl (List.append_nil _).symm
  | cons line lines ih =>
    rw [saveLoop_cons (plain line List.mem_cons_self)]
    cases lines with
    | nil =>
      obtain ⟨stores, ends⟩ := kept
      obtain ⟨file, moved⟩ := put_end line atEnd stores
      split at ends
      · next stored =>
        obtain ⟨file', _⟩ := put_end [newline] (moved ends) stored
        refine Or.inl ?_
        rw [saveLoop, Session.putLine, file', file, fileText_cons, fileText_nil,
          List.append_assoc]
      · next lost =>
        have none : (a.writes (s.written + 1)).count 1 = 0 := by
          have one := (a.writes (s.written + 1)).count_le 1
          rw [Answer.stores_iff] at lost
          omega
        refine Or.inr ⟨[], line, rfl, ends, ?_⟩
        rw [saveLoop, Session.putLine, fileText_nil, List.nil_append, ← file]
        simp [Session.put, splice, none]
    | cons next rest =>
      obtain ⟨text, ends, kept'⟩ := kept
      have stores : (a.writes s.written).Stores line.length :=
        text.elim (fun empty => Or.inr (by rw [empty]; exact Nat.zero_le _)) Or.inl
      obtain ⟨file, moved⟩ := put_end line atEnd stores
      obtain ⟨file', moved'⟩ := put_end [newline] (moved text)
        (Or.inl ends : (a.writes (s.written + 1)).Stores 1)
      have whole : (s.putLine a line).file = s.file ++ (line ++ [newline]) := by
        rw [Session.putLine, file', file, List.append_assoc]
      have others (l : Line) (h : l ∈ next :: rest) := plain l (List.mem_cons_of_mem line h)
      rcases ih (s := s.putLine a line) (moved' (Or.inr ends)) others kept' with
        all | ⟨before, last, split, nonempty, short⟩
      · refine Or.inl ?_
        rw [all, whole, fileText_cons line, List.append_assoc, List.append_assoc,
          List.singleton_append]
      · refine Or.inr ⟨line :: before, last, by rw [split, List.cons_append], nonempty, ?_⟩
        rw [short, whole, fileText_cons]
        simp

theorem fileText_append (before : List Line) (last : Line) :
    fileText (before ++ [last]) = (fileText before ++ last) ++ [newline] := by
  simp [fileText]

theorem restored_of_served (buffer : Buffer lines) (served : Served a lines) :
    (if a.opens 1 = true then splitLines ((written a lines).file.take 24064) else []) = lines := by
  by_cases empty : lines = []
  · subst empty
    split
    · rfl
    · rfl
  rw [if_pos (served.reopened empty)]
  have fits := served.fits
  rw [Fits, savedTotal_eq buffer.plain] at fits
  rcases saveLoop_kept a 3 (s := ⟨[], 0, 1, 0⟩) rfl buffer.plain served.writes with
    all | ⟨before, last, split, nonempty, short⟩
  · rw [List.nil_append] at all
    rw [written, all]
    rcases fits with small | ⟨large, before, last, split, nonempty⟩
    · rw [List.take_of_length_le small]
      exact splitLines_fileText buffer
    · subst split
      rw [fileText_append, List.length_append, List.length_singleton] at large
      rw [fileText_append, List.take_left' (by omega)]
      exact splitLines_open buffer nonempty
  · subst split
    have bound : (fileText before ++ last).length ≤ 24064 := by
      rw [fileText_append, List.length_append, List.length_singleton] at fits
      omega
    rw [List.nil_append] at short
    rw [written, short, List.take_of_length_le bound]
    exact splitLines_open buffer nonempty

theorem served_of_restored (buffer : Buffer lines)
    (restored : (if a.opens 1 = true then splitLines ((written a lines).file.take 24064) else []) =
      lines) : Served a lines := by
  by_cases empty : lines = []
  · subst empty
    exact ⟨trivial, Or.inl (Nat.zero_le _), fun h => absurd rfl h⟩
  by_cases reopened : a.opens 1 = true
  swap
  · rw [if_neg reopened] at restored
    exact absurd restored.symm empty
  rw [if_pos reopened] at restored
  obtain ⟨plains, newlines⟩ := fileText_counts buffer.plain
  obtain ⟨atMost, atMost'⟩ := saveLoop_counts a 3 (s := ⟨[], 0, 1, 0⟩) buffer.plain (Nat.le_refl 0)
  obtain ⟨used, ends⟩ := splitLines_counts ((written a lines).file.take 24064)
  have part : plainCount ((written a lines).file.take 24064) ≤ plainCount (written a lines).file :=
    (List.take_sublist _ _).countP_le
  have part' : newlineCount ((written a lines).file.take 24064) ≤
      newlineCount (written a lines).file := (List.take_sublist _ _).count_le newline
  have loaded : ((written a lines).file.take 24064).length =
      min 24064 (written a lines).file.length := List.length_take ..
  have total := savedTotal_eq buffer.plain
  rw [restored] at used ends
  change plainCount (written a lines).file ≤ _ at atMost
  change newlineCount (written a lines).file ≤ _ at atMost'
  rw [plainCount_nil, Nat.zero_add] at atMost
  rw [newlineCount_nil, Nat.zero_add] at atMost'
  rw [length_eq_counts, length_eq_counts (written a lines).file] at loaded
  rw [length_eq_counts (fileText lines)] at total
  -- the writes, if no newline is lost
  have all (h : newlineCount (written a lines).file = lines.length) :
      Kept a.writes 0 lines := by
    refine (saveLoop_full a 3 (s := ⟨[], 0, 1, 0⟩) buffer.plain (Nat.le_refl 0) ?_).2.2
    change (written a lines).file.length = 0 + _
    rw [length_eq_counts, length_eq_counts (fileText lines)]
    omega
  rcases ends with enough | ⟨lessOne, opened, something, before, last, split, nonempty⟩
  · exact ⟨all (by omega), Or.inl (by omega), fun _ => reopened⟩
  · have fits : Fits lines := by
      by_cases small : savedTotal lines ≤ 24064
      · exact Or.inl small
      · exact Or.inr ⟨by omega, before, last, split, nonempty⟩
    refine ⟨?_, fits, fun _ => reopened⟩
    by_cases whole : newlineCount (written a lines).file = lines.length
    · exact all whole
    · -- the load has read the file to its end
      have same : (written a lines).file.take 24064 = (written a lines).file := by
        refine List.take_of_length_le ?_
        rw [length_eq_counts]
        omega
      rw [same] at opened something lessOne used
      refine (saveLoop_short (a := a) (s := ⟨[], 0, 1, 0⟩) buffer.plain (Nat.le_refl 0)
        (Or.inl rfl) ?_ ?_ something opened).2
      · change (written a lines).file.length + 1 = 0 + _
        rw [length_eq_counts, length_eq_counts (fileText lines)]
        omega
      · change plainCount (written a lines).file = 0 + _
        omega

/-! ## The kernel's answers -/

open Storage in
/-- On a drive that does not fail, `ufs_write_at` at the cursor is answered like
this: it stores all bytes, or none when there is no room. -/
theorem ufsWriteAt_answer {u : Ufs} (vol : Volume u) {handle : Int}
    (valid : handleValid u handle = true) (offset len : BitVec 32) (buf : Lib.Buffer)
    (within : offset.toNat ≤ entrySize u.directory handle.toNat) (few : len.toNat ≤ 4096)
    (cursor : s.cursor = offset.toNat) (file : s.file = (fileAt u handle.toNat).bytes) :
    ∃ answer : Answer,
      (ufsWriteAt handle offset.toNat buf len.toNat u).1 =
          (if answer.ok = true then (len.toNat : Int) else -1) ∧
        fileMap (perform (.writeAt handle offset buf len) u)
            (nameAt u.directory handle.toNat) =
          some { fileAt u handle.toNat with
            bytes := (s.put answer ((List.range len.toNat).map buf)).file } := by
  obtain ⟨hh, used, _, here⟩ := handle_file vol valid
  rcases ufsWriteAt_rewrites buf vol.laid vol.faultless valid within few with
    ⟨_, refused⟩ | ⟨_, result, rewritten⟩
  · refine ⟨⟨false, 0⟩, ?_, ?_⟩
    · rw [refused, if_neg Bool.false_ne_true]
    · rw [perform, refused, here]
      simp [Session.put, Answer.count, splice, file]
  · refine ⟨⟨true, 0⟩, ?_, ?_⟩
    · rw [result, if_pos rfl]
    · rw [perform, (rewritten.refines vol hh used).2, Function.update_self,
        overlay_eq_splice _ _ _ within]
      simp only [Session.put, Answer.count, file, cursor, if_true, List.take_length]
      rfl

/-- After a save that cleared `modified`, loading restores the lines exactly if
the writes left the text in the file, `load_file` reads that much and can open
the file. -/
theorem save_load_iff (a : Answers) (file : List UInt8) (lines : List Line)
    (buffer : Buffer lines) : Restores a file lines ↔ (a.opens 0 = true → Served a lines) := by
  rw [restores_iff]
  exact ⟨fun restored first => served_of_restored buffer (restored first),
    fun served first => restored_of_served buffer (served first)⟩

/-- Every call succeeds. -/
def noFailure : Answers := ⟨fun _ => true, fun _ => ⟨true, 0⟩⟩

/-- `ab`, an empty line, and `c`. -/
def someLines : List Line := [[97, 98], [], [99]]

theorem save_load_iff_three : Restores noFailure [120] someLines := by
  have buffer : Buffer someLines := ⟨by decide, by decide, by decide +kernel⟩
  have kept : Kept noFailure.writes 0 someLines :=
    ⟨Or.inr rfl, rfl, Or.inl rfl, rfl, Or.inl rfl, by decide⟩
  exact (save_load_iff noFailure [120] someLines buffer).mpr fun _ =>
    ⟨kept, Or.inl (by decide), fun _ => rfl⟩

/-- The first write fails and nothing shows it. -/
def firstFails : Answers := ⟨fun _ => true, fun i => if i = 0 then ⟨false, 0⟩ else ⟨true, 0⟩⟩

/-- The line whose write failed comes back empty. -/
theorem failed_write_clears_modified :
    ¬ ∀ a file lines, Buffer lines → Restores a file lines := by
  intro claim
  have buffer : Buffer [[97]] := ⟨by decide, by decide, by decide +kernel⟩
  have restored := claim firstFails [] [[97]] buffer
  rw [restores_iff] at restored
  exact absurd (restored rfl) (by decide)

end MiniKernel.Programs.Edit
