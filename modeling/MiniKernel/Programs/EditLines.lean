import Mathlib.Data.List.TakeWhile
import MiniKernel.Programs.EditCommands

/-!
# Commands with a line number

Source: src/programs/edit.c:65-83 (`parse_uint`), 299-366 (`cmd_insert`,
`cmd_replace`, `cmd_delete`) and 399-456 (the loop of `_start`).
-/
namespace MiniKernel.Programs.Edit
open Lib (CString.read CString.copy CString.ofBytes)
open LineReader (Stdin)

inductive NumberedEdit where
  | insert
  | replace
  | delete
  deriving DecidableEq, Repr

namespace NumberedEdit

def letter : NumberedEdit → UInt8
  | .insert => Lang.ch 'i'
  | .replace => Lang.ch 'r'
  | .delete => Lang.ch 'd'

def usage : NumberedEdit → String
  | .insert => "usage: i<line number>"
  | .replace => "usage: r<line number>"
  | .delete => "usage: d<line number>"

def done : NumberedEdit → String
  | .insert => "inserted"
  | .replace => "replaced"
  | .delete => "deleted"

/-- The function that `_start` calls. -/
def act {σ : Type} (garbage : Nat → UInt8) :
    NumberedEdit → BitVec 32 → Editing σ → Except Fault (Editing σ)
  | .insert => Editing.cmdInsert garbage
  | .replace => Editing.cmdReplace garbage
  | .delete => Editing.cmdDelete

/-- The numbers for which there is something to do, in a buffer of `count` lines. -/
def InRange : NumberedEdit → Nat → Nat → Prop
  | .insert, n, count => 1 ≤ n ∧ n ≤ count + 1 ∧ count < maxLines
  | .replace, n, count => 1 ≤ n ∧ n ≤ count
  | .delete, n, count => 1 ≤ n ∧ n ≤ count

instance : ∀ kind n count, Decidable (InRange kind n count)
  | .insert, n, count => inferInstanceAs (Decidable (1 ≤ n ∧ n ≤ count + 1 ∧ count < maxLines))
  | .replace, n, count => inferInstanceAs (Decidable (1 ≤ n ∧ n ≤ count))
  | .delete, n, count => inferInstanceAs (Decidable (1 ≤ n ∧ n ≤ count))

/-- What becomes of the lines. -/
def result : NumberedEdit → Nat → Line → List Line → List Line
  | .insert, n, line, ts => ts.insertIdx (n - 1) line
  | .replace, n, line, ts => ts.set (n - 1) line
  | .delete, n, _, ts => ts.eraseIdx (n - 1)

end NumberedEdit

/-- The line is typed, and the end of line behind it. -/
structure Types (input : Stdin) (line : Line) : Prop where
  typed : ∃ rest, input.bytes = line ++ LineReader.newline :: rest
  short : line.length ≤ maxLineLen
  plain : ∀ b ∈ line, b ≠ 0 ∧ b ≠ LineReader.newline ∧ b ≠ LineReader.backspace

variable {σ : Type}

/-- The command does to the lines what it says, or it is rejected and changes none. -/
def Obeys (kind : NumberedEdit) (n : Nat) (line : Line) (ts : List Line) (e e' : Editing σ) : Prop :=
  if kind.InRange n ts.length then Shows e' (kind.result n line ts)
  else Shows e' ts ∧ e'.modified = e.modified ∧
    e'.screen statusRow ∈ [text "bad line number", text kind.usage]

/-- The number is in range, or it is negative in 64 bits, or out of range in 32. -/
def KeepsRange (kind : NumberedEdit) (n count : Nat) : Prop :=
  kind.InRange n count ∨ 2 ^ 63 ≤ n % 2 ^ 64 ∨ ¬ kind.InRange (n % 2 ^ 32) count

instance (kind : NumberedEdit) (n count : Nat) : Decidable (KeepsRange kind n count) :=
  inferInstanceAs (Decidable (_ ∨ _ ∨ _))

/-! ## The three commands -/

variable {e e₁ : Editing σ} {ts : List Line} {line buf : Line} {garbage : Nat → UInt8}
  {at_ : BitVec 32}

namespace Editing

theorem cmdInsert_accepts (shows : Shows e ts) (inside : at_.toNat ≤ ts.length)
    (room : ts.length < maxLines) (read : e.readLine rowSize (garbage 1) = .ok (buf, e₁)) :
    ∃ rows input, e.cmdInsert garbage at_ = .ok (({ e with
        lines := rows
        lineCount := e.lineCount + 1
        modified := true
        input := input }.ensureVisible at_).status "inserted") ∧
      Shows { e with lines := rows, lineCount := e.lineCount + 1 }
        (ts.insertIdx at_.toNat (cString buf)) := by
  have few := shows.few
  have count := shows.count
  obtain ⟨fits, input, rfl⟩ := readLine_fits (by decide) (by decide) read
  have total : at_.toNat + (e.lineCount - at_.toNat) = ts.length := by omega
  obtain ⟨rows, moved, same, shifted⟩ := openGap_ok at_.toNat (e.lineCount - at_.toNat)
    { e with input := input } (by omega) (fun i before => shows.held (by omega))
  obtain ⟨row, reads, put⟩ := putLine_ok (i := at_.toNat) (by omega)
    (Lib.CString.read_ofBytes fits) { e with lines := rows, input := input }
  refine ⟨Function.update rows at_.toNat row, input, ?_, ?_, ?_, ?_⟩
  · rw [cmdInsert, if_neg (fun guard => (insert_guard shows at_).mp guard ⟨inside, room⟩), read]
    dsimp only [bind, Except.bind]
    rw [moved]
    dsimp only
    rw [put]
  · dsimp only
    rw [List.length_insertIdx_of_le_length inside, count]
  · rw [List.length_insertIdx_of_le_length inside]
    exact room
  · intro i before
    rw [List.length_insertIdx_of_le_length inside] at before
    dsimp only at same shifted ⊢
    rw [total] at same shifted
    rw [List.getElem?_insertIdx]
    by_cases here : i = at_.toNat
    · rw [here, Function.update_self, reads, if_neg (Nat.lt_irrefl _), if_pos rfl, if_pos inside]
      rfl
    · rw [Function.update_of_ne here, if_neg here]
      by_cases less : i < at_.toNat
      · rw [if_pos less, same i (by omega), shows.lines i (by omega)]
      · obtain ⟨j, rfl⟩ := Nat.exists_eq_add_one_of_ne_zero (by omega : i ≠ 0)
        rw [if_neg less, shifted j (by omega) (by omega), shows.lines j (by omega),
          Nat.add_sub_cancel]

theorem cmdReplace_accepts (shows : Shows e ts) (inside : at_.toNat < ts.length)
    (read : e.readLine rowSize (garbage 1) = .ok (buf, e₁)) :
    ∃ rows input, e.cmdReplace garbage at_ = .ok (({ e with
        lines := rows
        modified := true
        input := input }.ensureVisible at_).status "replaced") ∧
      Shows { e with lines := rows } (ts.set at_.toNat (cString buf)) := by
  have few := shows.few
  obtain ⟨fits, input, rfl⟩ := readLine_fits (by decide) (by decide) read
  obtain ⟨row, reads, put⟩ := putLine_ok (i := at_.toNat) (by omega)
    (Lib.CString.read_ofBytes fits) { e with input := input }
  refine ⟨Function.update e.lines at_.toNat row, input, ?_, ?_, ?_, ?_⟩
  · rw [cmdReplace, if_neg (fun guard => (row_guard shows at_).mp guard inside), read]
    dsimp only [bind, Except.bind]
    rw [put]
  · rw [List.length_set]
    exact shows.count
  · rw [List.length_set]
    exact few
  · intro i before
    rw [List.length_set] at before
    dsimp only
    rw [List.getElem?_set]
    by_cases here : at_.toNat = i
    · rw [← here, Function.update_self, reads, if_pos rfl, if_pos inside]
      rfl
    · rw [Function.update_of_ne (Ne.symm here), if_neg here, shows.lines i before]

theorem cmdDelete_accepts (shows : Shows e ts) (inside : at_.toNat < ts.length) :
    ∃ rows, e.cmdDelete at_ = .ok ({ e with
        lines := rows
        lineCount := e.lineCount - 1
        modified := true }.status "deleted") ∧
      Shows { e with lines := rows, lineCount := e.lineCount - 1 } (ts.eraseIdx at_.toNat) := by
  have few := shows.few
  have count := shows.count
  have total : at_.toNat + (e.lineCount - 1 - at_.toNat) = ts.length - 1 := by omega
  have length := List.length_eraseIdx_of_lt inside
  obtain ⟨rows, moved, same, shifted⟩ := closeGap_ok at_.toNat (e.lineCount - 1 - at_.toNat) e
    (by omega) (fun j before => shows.held (by omega))
  refine ⟨rows, ?_, ?_, ?_, ?_⟩
  · rw [cmdDelete, if_neg (fun guard => (row_guard shows at_).mp guard inside), moved]
    rfl
  · rw [length]
    dsimp only
    rw [count]
  · omega
  · intro i before
    rw [length] at before
    rw [total] at shifted
    dsimp only
    rw [List.getElem?_eraseIdx]
    by_cases less : i < at_.toNat
    · rw [if_pos less, same i less, shows.lines i (by omega)]
    · rw [if_neg less, shifted i (by omega) before, shows.lines (i + 1) (by omega)]

end Editing

namespace NumberedEdit

/-- In range, the lines are edited. -/
theorem act_accepts (kind : NumberedEdit) (shows : Shows e ts)
    (inRange : kind.InRange (at_.toNat + 1) ts.length)
    (read : e.readLine rowSize (garbage 1) = .ok (buf, e₁)) :
    ∃ e', kind.act garbage at_ e = .ok e' ∧
      Shows e' (kind.result (at_.toNat + 1) (cString buf) ts) ∧
      e'.screen statusRow = text kind.done := by
  cases kind with
  | insert =>
    obtain ⟨-, inside, room⟩ := inRange
    obtain ⟨rows, input, runs, edited⟩ :=
      Editing.cmdInsert_accepts shows (Nat.le_of_succ_le_succ inside) room read
    exact ⟨_, runs, edited.congr (Editing.ensureVisible_lines _ _)
      (Editing.ensureVisible_lineCount _ _), Editing.status_shown _ _⟩
  | replace =>
    obtain ⟨-, inside⟩ := inRange
    obtain ⟨rows, input, runs, edited⟩ := Editing.cmdReplace_accepts shows inside read
    exact ⟨_, runs, edited.congr (Editing.ensureVisible_lines _ _)
      (Editing.ensureVisible_lineCount _ _), Editing.status_shown _ _⟩
  | delete =>
    obtain ⟨-, inside⟩ := inRange
    obtain ⟨rows, runs, edited⟩ := Editing.cmdDelete_accepts shows inside
    exact ⟨_, runs, edited.congr rfl rfl, Editing.status_shown _ _⟩

/-- Out of range, it is said so. -/
theorem act_rejects (kind : NumberedEdit) (shows : Shows e ts)
    (outside : ¬ kind.InRange (at_.toNat + 1) ts.length) :
    kind.act garbage at_ e = .ok (e.status "bad line number") := by
  cases kind with
  | insert =>
    have guard := (Editing.insert_guard shows at_).mpr fun both =>
      outside ⟨Nat.succ_pos _, Nat.succ_le_succ both.1, both.2⟩
    exact if_pos guard
  | replace =>
    have guard := (Editing.row_guard shows at_).mpr fun inside =>
      outside ⟨Nat.succ_pos _, inside⟩
    exact if_pos guard
  | delete =>
    have guard := (Editing.row_guard shows at_).mpr fun inside =>
      outside ⟨Nat.succ_pos _, inside⟩
    exact if_pos guard

/-- The index is in range when the lower half of the number is. -/
theorem inRange_narrowed (kind : NumberedEdit) (n : Nat) {count : Nat} (few : count ≤ maxLines) :
    kind.InRange (((BitVec.ofNat 64 n).setWidth 32 - 1).toNat + 1) count ↔
      kind.InRange (n % 2 ^ 32) count := by
  unfold maxLines at few
  have here := Lib.Words.narrowed_lt_iff n count (by omega)
  have behind := Lib.Words.narrowed_lt_iff n (count + 1) (by omega)
  cases kind with
  | insert =>
    unfold InRange
    omega
  | replace =>
    unfold InRange
    omega
  | delete =>
    unfold InRange
    omega

theorem InRange.bounds {kind : NumberedEdit} {n count : Nat} (inRange : kind.InRange n count) :
    1 ≤ n ∧ n ≤ count + 1 := by
  cases kind with
  | insert => exact ⟨inRange.1, inRange.2.1⟩
  | replace => exact ⟨inRange.1, Nat.le_succ_of_le inRange.2⟩
  | delete => exact ⟨inRange.1, Nat.le_succ_of_le inRange.2⟩

/-- Nothing that was done is said to be rejected. -/
theorem done_other (kind : NumberedEdit) :
    text kind.done ∉ [text "bad line number", text kind.usage] := by
  cases kind with
  | insert => decide +kernel
  | replace => decide +kernel
  | delete => decide +kernel

end NumberedEdit

/-! ## The command line -/

theorem lineNumber_literal {digits : Line} (literal : Lang.IsLiteral digits) :
    lineNumber digits = some (Lang.decimal digits) := by
  have first := literal.first []
  rw [List.append_nil] at first
  have digit : digits.dropWhile (· = Lang.ch ' ') = digits := by
    cases digits with
    | nil => rfl
    | cons c digits =>
      refine List.dropWhile_cons_of_neg ?_
      intro blank
      have space : c = Lang.ch ' ' := of_decide_eq_true blank
      have digit : Lang.isDigit c = true := first
      rw [space] at digit
      cases digit
  have whole : digits.takeWhile Lang.isDigit = digits :=
    List.takeWhile_eq_self_iff.mpr literal.digit
  rw [lineNumber, digit, if_pos first, whole]

/-- The command line is its letter and its number. -/
theorem command_numbered (calls : Calls σ) (garbage : Nat → UInt8) (kind : NumberedEdit)
    {digits : Line} (literal : Lang.IsLiteral digits) (e : Editing σ) :
    e.command calls garbage (kind.letter :: digits) = (do
      .ok (.redraw, ← e.numbered kind.usage (kind.letter :: digits) (kind.act garbage))) := by
  have plain : cString (kind.letter :: digits) = kind.letter :: digits := by
    refine cString_eq fun b member => ?_
    rcases List.mem_cons.mp member with rfl | digit
    · cases kind with
      | insert => decide
      | replace => decide
      | delete => decide
    · have range := Lang.isDigit_range (literal.digit b digit)
      intro zero
      rw [zero] at range
      exact absurd range (by decide)
  have other (s : String) (apart : (text s).head? ≠ some kind.letter) :
      kind.letter :: digits ≠ text s := by
    intro same
    rw [← same] at apart
    exact apart rfl
  unfold Editing.command
  rw [plain]
  dsimp only
  rw [if_neg (other "q" (by cases kind <;> decide +kernel)),
    if_neg (other "q!" (by cases kind <;> decide +kernel)),
    if_neg (other "wq" (by cases kind <;> decide +kernel)),
    if_neg (other "w" (by cases kind <;> decide +kernel)),
    if_neg (other "a" (by cases kind <;> decide +kernel))]
  cases kind with
  | insert => rfl
  | replace => rfl
  | delete => rfl

theorem Types.reads (types : Types e.input line) (garbage : UInt8) : ∃ e₁, e.readLine rowSize garbage = .ok (line, e₁) := by
  obtain ⟨rest, bytes⟩ := types.typed
  have noNewline : LineReader.newline ∉ line := fun member => (types.plain _ member).2.1 rfl
  have noBackspace : LineReader.backspace ∉ line := fun member => (types.plain _ member).2.2 rfl
  have size : (BitVec.ofNat 64 rowSize).toNat = rowSize := by decide
  have enough : line.length < e.input.bytes.length + 1 := by
    rw [bytes, List.length_append]
    omega
  obtain ⟨output, returns⟩ := LineReader.loop_returns Editing.editReadLine_honest
    (by decide : BitVec.ofNat 64 rowSize ≠ 0) (e.input.bytes.length + 1) (.start garbage e.input)
    noNewline bytes enough
  have kept : line.foldl (LineReader.typed (BitVec.ofNat 64 rowSize)) [] = [] ++ line := by
    apply LineReader.foldl_typed noBackspace
    have short := types.short
    unfold maxLineLen at short
    rw [size, rowSize, maxLineLen, List.length_nil]
    omega
  refine ⟨{ e with input := { e.input with bytes := rest } }, ?_⟩
  rw [Editing.readLine, returns]
  dsimp only [LineReader.Reading.start]
  rw [kept, List.nil_append]

/-- For every buffer, every number and every typed line, the command does to the
lines what it says, or is rejected, exactly under the condition on the number. -/
theorem numbered_edit_iff (calls : Calls σ) (garbage : Nat → UInt8) (kind : NumberedEdit)
    {digits : Line} (literal : Lang.IsLiteral digits) (shows : Shows e ts)
    (types : Types e.input line) :
    (∃ e', e.command calls garbage (kind.letter :: digits) = .ok (.redraw, e') ∧
        Obeys kind (Lang.decimal digits) line ts e e') ↔
      KeepsRange kind (Lang.decimal digits) ts.length := by
  obtain ⟨e₁, read⟩ := types.reads (garbage 1)
  have plain : cString line = line := cString_eq fun b member => (types.plain b member).1
  have few := shows.few
  unfold maxLines at few
  rw [command_numbered calls garbage kind literal, Editing.numbered_eq, List.tail_cons,
    lineNumber_literal literal]
  generalize Lang.decimal digits = n
  have narrowed := kind.inRange_narrowed n shows.few
  dsimp only
  by_cases large : 2 ^ 63 ≤ n % 2 ^ 64
  · have outside : ¬ kind.InRange n ts.length := by
      intro inRange
      have less := inRange.bounds
      omega
    rw [if_pos large]
    refine iff_of_true ⟨e.status kind.usage, rfl, ?_⟩ (Or.inr (Or.inl large))
    rw [Obeys, if_neg outside]
    exact ⟨shows.congr rfl rfl, rfl, by simp⟩
  rw [if_neg large]
  by_cases lands : kind.InRange (n % 2 ^ 32) ts.length
  · obtain ⟨e', runs, edited, done⟩ := kind.act_accepts shows (narrowed.mpr lands) read
    rw [runs]
    by_cases inRange : kind.InRange n ts.length
    · have less := inRange.bounds
      have same : n % 2 ^ 32 = n := Nat.mod_eq_of_lt (by omega)
      have index : ((BitVec.ofNat 64 n).setWidth 32 - 1).toNat + 1 = n := by
        rw [Lib.Words.narrowed_toNat, same, if_neg (by omega)]
        omega
      rw [index, plain] at edited
      refine iff_of_true ⟨e', rfl, ?_⟩ (Or.inl inRange)
      rw [Obeys, if_pos inRange]
      exact edited
    · refine iff_of_false ?_ ?_
      · intro obeys
        obtain ⟨e'', same, obeys⟩ := obeys
        cases same
        rw [Obeys, if_neg inRange] at obeys
        exact kind.done_other (done ▸ obeys.2.2)
      · intro keeps
        rcases keeps with here | negative | outside
        · exact inRange here
        · exact large negative
        · exact outside lands
  · have outside : ¬ kind.InRange n ts.length := by
      intro inRange
      have less := inRange.bounds
      have same : n % 2 ^ 32 = n := Nat.mod_eq_of_lt (by omega)
      rw [same] at lands
      exact lands inRange
    rw [kind.act_rejects shows fun inside => lands (narrowed.mp inside)]
    refine iff_of_true ⟨e.status "bad line number", rfl, ?_⟩ (Or.inr (Or.inr lands))
    rw [Obeys, if_neg outside]
    exact ⟨shows.congr rfl rfl, rfl, by simp⟩

/-- The editor with these lines, `text` and the end of line behind it being typed. -/
def someEditing (ts : List Line) (line : Line) : Editing Unit where
  lines i := CString.ofBytes (ts.getD i [])
  lineCount := ts.length
  modified := false
  topLine := 0
  filename := text "notes"
  screen _ := []
  input := ⟨line ++ [LineReader.newline], .waits⟩
  files := ()

def noCalls : Calls Unit := ⟨fun _ s => (-1, s), fun _ _ s => ((-1, []), s), fun _ _ s => (-1, s),
  fun _ s => (-1, s)⟩

theorem someEditing_shows :
    Shows (someEditing [text "a", text "b"] (text "x")) [text "a", text "b"] := by
  constructor
  · rfl
  · decide
  · intro i before
    match i, before with
    | 0, _ => decide +kernel
    | 1, _ => decide +kernel

theorem someEditing_types : Types (someEditing [text "a", text "b"] (text "x")).input (text "x") := by
  constructor
  · exact ⟨[], rfl⟩
  · decide +kernel
  · decide +kernel

theorem numbered_edit_second :
    ∃ e', (someEditing [text "a", text "b"] (text "x")).command noCalls (fun _ => 0)
        (NumberedEdit.insert.letter :: text "2") = .ok (.redraw, e') ∧
      Obeys .insert (Lang.decimal (text "2")) (text "x") [text "a", text "b"]
        (someEditing [text "a", text "b"] (text "x")) e' :=
  (numbered_edit_iff noCalls (fun _ => 0) .insert ⟨by decide +kernel, by decide +kernel⟩
    someEditing_shows someEditing_types).mpr (by decide +kernel)

/-- `d4294967297` deletes line 1. -/
theorem delete_wraps :
    ¬ ∀ (calls : Calls Unit) garbage kind digits e ts line, Lang.IsLiteral digits → Shows e ts →
      Types e.input line →
        ∃ e', e.command calls garbage (NumberedEdit.letter kind :: digits) = .ok (.redraw, e') ∧
          Obeys kind (Lang.decimal digits) line ts e e' := by
  intro claim
  obtain ⟨e', runs, obeys⟩ := claim noCalls (fun _ => 0) .delete (text "4294967297") _ _ _
    ⟨by decide +kernel, by decide +kernel⟩ someEditing_shows someEditing_types
  have counts : ∀ r ∈ ((someEditing [text "a", text "b"] (text "x")).command noCalls (fun _ => 0)
      (NumberedEdit.delete.letter :: text "4294967297")).toOption, r.2.lineCount = 1 := by
    decide +kernel
  have outside : ¬ NumberedEdit.delete.InRange (Lang.decimal (text "4294967297"))
      [text "a", text "b"].length := by decide +kernel
  rw [Obeys, if_neg outside] at obeys
  rw [runs] at counts
  have one := counts _ rfl
  have two := obeys.1.count
  rw [one] at two
  cases two

end MiniKernel.Programs.Edit
