import MiniKernel.Lib.Machine
import MiniKernel.Programs.EditLines

/-!
# The screen of the editor

Source: src/programs/edit.c:138-198 (`redraw`, `ensure_visible`), 271-297
(`cmd_append`) and 368-461 (`_start`). One event is a round of the loop of
`_start`, with what the variable of `read_line` holds at each of its calls.
-/
namespace MiniKernel.Programs.Edit
open Lib (CString.read CString.copy CString.ofBytes)
open Lib.Machine (run Meets)
open LineReader (Stdin editReadLine)

inductive Ending where
  | quit
  | fault (fault : Fault)
  deriving DecidableEq, Repr

structure EditRun (σ : Type) where
  editing : Editing σ
  ended : Option Ending

variable {σ : Type}

namespace EditRun

/-- `redraw` at the end of a round. -/
def afterRedraw (e : Editing σ) : EditRun σ :=
  match e.redraw with
  | .ok e => ⟨e, none⟩
  | .error fault => ⟨e, some (.fault fault)⟩

/-- `_start` up to its loop, for the argument it is given. -/
def start (calls : Calls σ) (arg : Line) (input : Stdin) (files : σ) : EditRun σ :=
  let filename := (arg.takeWhile fun c => c ≠ 0 ∧ c ≠ Lang.ch ' ').take 63
  let (ed, files) := loadFile calls ⟨[], false, ""⟩ files
  let e : Editing σ :=
    { lines := fun i => CString.ofBytes (ed.lines.getD i [])
      lineCount := ed.lines.length
      modified := ed.modified
      topLine := 0
      filename := filename
      screen := fun _ => []
      input := input
      files := files }
  if filename = [] then ⟨e, some .quit⟩ else afterRedraw (e.status "loaded")

/-- A round; none after the end, or where the console has no key yet. -/
def round (calls : Calls σ) (s : EditRun σ) (garbage : Nat → UInt8) : Option (EditRun σ) :=
  if s.ended ≠ none then none
  else
    let done := do
      let (cmd, e) ← s.editing.readLine cmdMax (garbage 0)
      e.command calls garbage cmd
    match done with
    | .error .waits => none
    | .error fault => some { s with ended := some (.fault fault) }
    | .ok (.next, e) => some ⟨e, none⟩
    | .ok (.redraw, e) => some (afterRedraw e)
    | .ok (.quit, e) => some ⟨e, some .quit⟩

/-- `top_line` is not negative, `redraw` keeps to the lines and to its buffers, and no
call before has left them. -/
structure OnScreen (s : EditRun σ) : Prop where
  top : 0 ≤ s.editing.topLine.toInt
  redraws : ∃ e, s.editing.redraw = .ok e
  ended : ∀ fault, s.ended = some (.fault fault) → fault = .readsForever

/-- The next line is no `g<n>` whose number, positive in 64 bits, is 0 or negative in 32;
-2^31 alone becomes positive once more, by the subtraction of 1. -/
def GotoFits (s : EditRun σ) : Prop :=
  let cmd := cString (LineReader.lineOf (BitVec.ofNat 64 cmdMax) s.editing.input.bytes)
  Lang.peek cmd = Lang.ch 'g' → ∀ n ∈ lineNumber cmd.tail,
    2 ^ 63 ≤ n % 2 ^ 64 ∨ (1 ≤ n % 2 ^ 32 ∧ n % 2 ^ 32 ≤ 2 ^ 31)

instance (s : EditRun σ) : Decidable s.GotoFits := by
  unfold GotoFits
  infer_instance

end EditRun

/-! ## Buffers -/

variable {buf cs : Line} {size : Nat}

theorem pushAll_ok (buf cs : Line) (fits : buf.length + cs.length ≤ size) :
    pushAll size buf cs = .ok (buf ++ cs) := by
  induction cs generalizing buf with
  | nil => rw [pushAll, List.append_nil]
  | cons c cs ih =>
    rw [List.length_cons] at fits
    have here : push size buf c = .ok (buf ++ [c]) := if_pos (by omega)
    have rest := ih (buf ++ [c]) (by rw [List.length_append, List.length_singleton]; omega)
    rw [pushAll, here]
    dsimp only [bind, Except.bind]
    rw [rest, List.append_assoc, List.singleton_append]

theorem terminate_ok (fits : buf.length < size) : terminate size buf = .ok buf := if_pos fits

/-- A number below `10 ^ k` has `k` digits at most. -/
theorem utoaDigits_ok (k room value : Nat) (digits : Line) (small : value < 10 ^ k)
    (enough : k ≤ room) :
    ∃ all, utoaDigits room value digits = .ok all ∧ all.length ≤ digits.length + k := by
  induction k generalizing room value digits with
  | zero =>
    have zero : value = 0 := by omega
    exact ⟨digits, by rw [zero, utoaDigits], Nat.le_refl _⟩
  | succ k ih =>
    cases value with
    | zero => exact ⟨digits, by rw [utoaDigits], Nat.le_add_right _ _⟩
    | succ value =>
      obtain ⟨room, rfl⟩ := Nat.exists_eq_add_one_of_ne_zero (by omega : room ≠ 0)
      have less : (value + 1) / 10 < 10 ^ k := by
        rw [Nat.pow_succ] at small
        omega
      obtain ⟨all, counted, short⟩ := ih room ((value + 1) / 10)
        (digits ++ [UInt8.ofNat (48 + (value + 1) % 10)]) less (by omega)
      rw [List.length_append, List.length_singleton] at short
      exact ⟨all, by rw [utoaDigits]; exact counted, by omega⟩

/-- A line number fits `num`. -/
theorem utoa_ok {value : BitVec 64} (small : value.toNat < 1000) :
    ∃ num, utoa value 8 3 = .ok num ∧ num.length ≤ 3 := by
  have digits : ∃ all : Line, (if value = 0 then .ok [48] else utoaDigits 20 value.toNat [] :
      Except Fault Line) = .ok all ∧ all.length ≤ 3 := by
    split
    · exact ⟨[48], rfl, by decide⟩
    · exact utoaDigits_ok 3 20 value.toNat [] small (by decide)
  obtain ⟨all, counted, short⟩ := digits
  have length : (List.replicate (3 - all.length) (48 : UInt8) ++ all.reverse).length = 3 := by
    rw [List.length_append, List.length_replicate, List.length_reverse]
    omega
  refine ⟨List.replicate (3 - all.length) 48 ++ all.reverse, ?_, Nat.le_of_eq length⟩
  unfold utoa
  rw [counted]
  dsimp only [bind, Except.bind]
  rw [pushAll_ok [] _ (by rw [length]; decide), List.nil_append]
  exact terminate_ok (by rw [length]; decide)

/-! ## What every command keeps -/

/-- The window starts at a line that an `int` can be behind, all its rows counted. -/
def Window (e : Editing σ) : Prop := e.topLine.toNat + textRowsVisible ≤ 2 ^ 31

structure EditSound (e : Editing σ) : Prop where
  shows : ∃ ts, Shows e ts
  window : Window e

/-- A result with the property, or a reader that has not come back. -/
def Safe {α : Type} (P : α → Prop) : Except Fault α → Prop
  | .ok a => P a
  | .error fault => fault = .waits ∨ fault = .readsForever

theorem Safe.bind {α β : Type} {P : α → Prop} {Q : β → Prop} {r : Except Fault α}
    {f : α → Except Fault β} (first : Safe P r) (next : ∀ a, P a → Safe Q (f a)) :
    Safe Q (r >>= f) := by
  cases r with
  | error fault => exact first
  | ok a => exact next a first

theorem Safe.ite {α : Type} {P : α → Prop} {c : Prop} [Decidable c] {r r' : Except Fault α}
    (yes : c → Safe P r) (no : ¬ c → Safe P r') : Safe P (if c then r else r') := by
  by_cases h : c
  · rw [if_pos h]
    exact yes h
  · rw [if_neg h]
    exact no h

variable {e e' : Editing σ} {ts : List Line}

theorem EditSound.congr (sound : EditSound e) (lines : e'.lines = e.lines)
    (count : e'.lineCount = e.lineCount) (top : e'.topLine = e.topLine) : EditSound e' := by
  obtain ⟨ts, shows⟩ := sound.shows
  constructor
  · exact ⟨ts, shows.congr lines count⟩
  · rw [Window, top]
    exact sound.window

/-- The window that ends with the line starts 20 before it. -/
theorem last_toNat (line : BitVec 32) :
    (line - BitVec.ofNat 32 textRowsVisible + 1).toNat = (line.toNat + (2 ^ 32 - 20)) % 2 ^ 32 := by
  have rows : textRowsVisible = 21 := rfl
  rw [rows]
  bv_omega

/-- `ensure_visible` for a line from 0 on: above the window it becomes its first line,
below it its last. -/
theorem ensureVisible_window (window : Window e) {line : BitVec 32} (small : line.toNat < 2 ^ 31) :
    Window (e.ensureVisible line) := by
  have rows : textRowsVisible = 21 := rfl
  unfold Window at *
  unfold Editing.ensureVisible
  split
  · next above =>
    rw [Lib.Words.toInt_of_small small, Lib.Words.toInt_of_small (by omega)] at above
    dsimp only
    omega
  split
  · dsimp only
    split
    · decide
    · next from0 =>
      rw [BitVec.toInt_eq_toNat_cond, last_toNat] at from0
      rw [last_toNat]
      split at from0
      · omega
      · omega
  · exact window

/-- A row of the window, whatever line it shows. -/
theorem textRow_ok (sound : EditSound e) {row : Nat} (visible : row < textRowsVisible) :
    ∃ shown, e.textRow row = .ok shown := by
  obtain ⟨ts, shows⟩ := sound.shows
  have window := sound.window
  have rows : textRowsVisible = 21 := rfl
  unfold Window at window
  have index : (e.topLine + BitVec.ofNat 32 row).toNat = e.topLine.toNat + row := by
    rw [BitVec.toNat_add, BitVec.toNat_ofNat]
    omega
  have signed := Lib.Words.toInt_of_small (x := e.topLine + BitVec.ofNat 32 row) (by omega)
  unfold Editing.textRow
  generalize e.topLine + BitVec.ofNat 32 row = lineIndex at index signed ⊢
  dsimp only
  by_cases inside : lineIndex.toInt < e.lineCount
  · have few := shows.few
    have count := shows.count
    unfold maxLines at few
    rw [signed, count] at inside
    have less : lineIndex.toNat < ts.length := by omega
    obtain ⟨line, held⟩ := shows.held less
    have short := (Lib.CString.read_fits held).1
    unfold rowSize maxLineLen at short
    have number : ((lineIndex + 1).signExtend 64).toNat < 1000 := by
      rw [Lib.Words.signExtend_succ lineIndex (by omega)]
      omega
    obtain ⟨num, counted, three⟩ := utoa_ok number
    have bar : (text "| ").length = 2 := by decide +kernel
    have here : e.lineAt lineIndex = .ok line := by
      rw [Editing.lineAt, if_pos (by omega), held]
    rw [if_pos (by omega), counted]
    dsimp only [bind, Except.bind]
    rw [pushAll_ok [] _ (by rw [List.length_nil, List.length_append, bar, maxLineLen]; omega), here]
    dsimp only
    rw [pushAll_ok _ _ (by simp only [List.length_append, List.length_nil, bar, maxLineLen]; omega)]
    exact ⟨_, terminate_ok (by simp only [List.length_append, List.length_nil, bar, maxLineLen]; omega)⟩
  · exact ⟨_, if_neg inside⟩

theorem title_ok (e : Editing σ) : ∃ shown, e.title = .ok shown := by
  have name : (text "MiniKernel editor - ").length = 20 := by decide +kernel
  have mark : (text " [modified]").length = 11 := by decide +kernel
  have taken : (e.filename.take (96 - 12 - 20)).length ≤ 64 := List.length_take_le ..
  unfold Editing.title
  rw [pushAll_ok [] _ (by rw [List.length_nil, name]; decide), List.nil_append]
  dsimp only [bind, Except.bind]
  rw [name, pushAll_ok _ _ (by rw [name]; omega)]
  dsimp only
  cases e.modified with
  | false =>
    exact ⟨_, terminate_ok (by rw [List.length_append, name]; omega)⟩
  | true =>
    rw [if_pos rfl, pushAll_ok _ _ (by rw [List.length_append, name, mark]; omega)]
    exact ⟨_, terminate_ok (by rw [List.length_append, List.length_append, name, mark]; omega)⟩

theorem drawText_ok (n : Nat) (sound : EditSound e) (visible : n ≤ textRowsVisible) :
    ∃ screen, e.drawText n = .ok { e with screen := screen } := by
  induction n with
  | zero => exact ⟨e.screen, rfl⟩
  | succ n ih =>
    obtain ⟨screen, before⟩ := ih (Nat.le_of_succ_le visible)
    have same : EditSound { e with screen := screen } := sound.congr rfl rfl rfl
    obtain ⟨shown, here⟩ := textRow_ok same visible
    refine ⟨Function.update screen (textTop + n) shown, ?_⟩
    rw [Editing.drawText, before]
    dsimp only [bind, Except.bind]
    rw [here]
    rfl

theorem redraw_ok (sound : EditSound e) : ∃ screen, e.redraw = .ok { e with screen := screen } := by
  obtain ⟨title, top⟩ := title_ok e
  have same : EditSound ((e.drawRow titleRow title).drawRow hintRow Editing.hint) :=
    sound.congr rfl rfl rfl
  obtain ⟨screen, drawn⟩ := drawText_ok textRowsVisible same (Nat.le_refl _)
  refine ⟨screen, ?_⟩
  rw [Editing.redraw, top]
  exact drawn

theorem redraw_safe (sound : EditSound e) :
    Safe (fun e' => EditSound e' ∧ e'.lineCount = e.lineCount) e.redraw := by
  obtain ⟨screen, drawn⟩ := redraw_ok sound
  rw [drawn]
  exact ⟨sound.congr rfl rfl rfl, rfl⟩

/-! ## The commands -/

theorem readLine_safe (sound : EditSound e) {max : Nat} (positive : 0 < max) (small : max < 2 ^ 64)
    (garbage : UInt8) :
    Safe (fun r => r.1.length < max ∧ EditSound r.2 ∧ r.2.lineCount = e.lineCount)
      (e.readLine max garbage) := by
  cases read : e.readLine max garbage with
  | error fault =>
    unfold Editing.readLine at read
    split at read
    · cases read
    · cases read
      change (if _ then Fault.waits else .readsForever) = .waits ∨ _ = Fault.readsForever
      split
      · exact Or.inl rfl
      · exact Or.inr rfl
  | ok r =>
    obtain ⟨buf, e'⟩ := r
    obtain ⟨fits, input, rfl⟩ := Editing.readLine_fits positive small read
    exact ⟨fits, sound.congr rfl rfl rfl, rfl⟩

/-- One more line behind the others. -/
theorem append_shows (shows : Shows e ts) (room : ts.length < maxLines) {line : Line}
    {row : Lib.Buffer} (reads : CString.read rowSize row = some line) :
    Shows { e with
      lines := Function.update e.lines e.lineCount row
      lineCount := e.lineCount + 1 } (ts ++ [line]) := by
  have count := shows.count
  constructor
  · rw [List.length_append, List.length_singleton]
    exact congrArg (· + 1) count
  · rw [List.length_append, List.length_singleton]
    exact room
  · intro i before
    rw [List.length_append, List.length_singleton] at before
    dsimp only
    by_cases last : i = ts.length
    · rw [last, count, Function.update_self, reads, List.getElem?_concat_length]
    · rw [Function.update_of_ne (by omega), List.getElem?_append_left (by omega),
        shows.lines i (by omega)]

/-- The editor behind a line that was appended. -/
theorem append_sound (sound : EditSound e) (shows : Shows e ts) (room : ts.length < maxLines)
    {line : Line} {row : Lib.Buffer} (reads : CString.read rowSize row = some line) :
    EditSound (({ e with
      lines := Function.update e.lines e.lineCount row
      lineCount := e.lineCount + 1
      modified := true } : Editing σ).ensureVisible (BitVec.ofNat 32 (e.lineCount + 1 - 1))) := by
  have few := shows.few
  have count := shows.count
  have window : Window ({ e with
      lines := Function.update e.lines e.lineCount row
      lineCount := e.lineCount + 1
      modified := true } : Editing σ) := sound.window
  have small : (BitVec.ofNat 32 (e.lineCount + 1 - 1)).toNat < 2 ^ 31 := by
    unfold maxLines at few
    rw [BitVec.toNat_ofNat]
    omega
  constructor
  · exact ⟨_, (append_shows shows room reads).congr (Editing.ensureVisible_lines _ _)
      (Editing.ensureVisible_lineCount _ _)⟩
  · exact ensureVisible_window window small

/-- By induction on the room that is left. -/
theorem appendLoop_safe (garbage : Nat → UInt8) (turn room : Nat) (sound : EditSound e)
    (left : room = maxLines - e.lineCount) : Safe EditSound (e.appendLoop garbage turn room) := by
  induction room generalizing turn e with
  | zero =>
    unfold Editing.appendLoop
    refine (readLine_safe sound (by decide) (by decide) _).bind fun r read => ?_
    obtain ⟨-, same, -⟩ := read
    dsimp only
    split
    · exact same
    · exact same.congr rfl rfl rfl
  | succ room ih =>
    unfold Editing.appendLoop
    refine (readLine_safe sound (by decide) (by decide) _).bind fun r read => ?_
    obtain ⟨fits, same, count⟩ := read
    obtain ⟨buf, e₁⟩ := r
    dsimp only at fits same count ⊢
    split
    · exact same
    obtain ⟨ts, shows⟩ := same.shows
    have total := shows.count
    obtain ⟨row, reads, put⟩ := Editing.putLine_ok (i := e₁.lineCount) (by omega)
      (Lib.CString.read_ofBytes fits) e₁
    rw [put]
    dsimp only [bind, Except.bind]
    have longer := append_sound same shows (by omega) reads
    refine Safe.bind (redraw_safe longer) fun e₂ drawn => ?_
    obtain ⟨sound₂, count₂⟩ := drawn
    refine ih (turn + 1) sound₂ ?_
    rw [count₂, Editing.ensureVisible_lineCount]
    dsimp only
    omega

theorem cmdAppend_safe (garbage : Nat → UInt8) (sound : EditSound e) :
    Safe EditSound (e.cmdAppend garbage) := by
  have same : EditSound (e.status "append mode: type lines, blank line to stop") :=
    sound.congr rfl rfl rfl
  obtain ⟨screen, drawn⟩ := redraw_ok same
  unfold Editing.cmdAppend
  rw [drawn]
  dsimp only [bind, Except.bind]
  refine Safe.bind (appendLoop_safe garbage 1 _ (same.congr rfl rfl rfl) rfl) fun e' sound' => ?_
  exact sound'.congr rfl rfl rfl

/-- The end of a command that has edited a line: the line is shown. -/
theorem EditSound.shown (sound : EditSound e) (msg : String) {line : BitVec 32}
    (small : line.toNat < 2 ^ 31) : EditSound ((e.ensureVisible line).status msg) := by
  obtain ⟨ts, shows⟩ := sound.shows
  constructor
  · exact ⟨ts, shows.congr (Editing.ensureVisible_lines line e)
      (Editing.ensureVisible_lineCount line e)⟩
  · exact ensureVisible_window sound.window small

variable {garbage : Nat → UInt8} {at_ : BitVec 32}

/-- The three commands, whatever the index. -/
theorem numberedEdit_safe (garbage : Nat → UInt8) (kind : NumberedEdit) (sound : EditSound e) :
    Safe EditSound (kind.act garbage at_ e) := by
  obtain ⟨ts, shows⟩ := sound.shows
  have few := shows.few
  unfold maxLines at few
  by_cases inRange : kind.InRange (at_.toNat + 1) ts.length
  · have bounds := inRange.bounds
    have small : at_.toNat < 2 ^ 31 := by omega
    have reads := readLine_safe sound (by decide : 0 < rowSize) (by decide) (garbage 1)
    cases kind with
    | insert =>
      cases read : e.readLine rowSize (garbage 1) with
      | error fault =>
        rw [read] at reads
        have guard : ¬ _ := fun guard =>
          (Editing.insert_guard shows at_).mp guard ⟨Nat.le_of_succ_le_succ inRange.2.1, inRange.2.2⟩
        change Safe EditSound (e.cmdInsert garbage at_)
        rw [Editing.cmdInsert, if_neg guard, read]
        exact reads
      | ok r =>
        obtain ⟨rows, input, runs, edited⟩ :=
          Editing.cmdInsert_accepts shows (Nat.le_of_succ_le_succ inRange.2.1) inRange.2.2 read
        change Safe EditSound (e.cmdInsert garbage at_)
        rw [runs]
        have sound' : EditSound _ := ⟨⟨_, edited⟩, sound.window⟩
        refine EditSound.shown ?_ _ small
        exact sound'.congr rfl rfl rfl
    | replace =>
      cases read : e.readLine rowSize (garbage 1) with
      | error fault =>
        rw [read] at reads
        have guard : ¬ _ := fun guard => (Editing.row_guard shows at_).mp guard inRange.2
        change Safe EditSound (e.cmdReplace garbage at_)
        rw [Editing.cmdReplace, if_neg guard, read]
        exact reads
      | ok r =>
        obtain ⟨rows, input, runs, edited⟩ := Editing.cmdReplace_accepts shows inRange.2 read
        change Safe EditSound (e.cmdReplace garbage at_)
        rw [runs]
        have sound' : EditSound _ := ⟨⟨_, edited⟩, sound.window⟩
        refine EditSound.shown ?_ _ small
        exact sound'.congr rfl rfl rfl
    | delete =>
      obtain ⟨rows, runs, edited⟩ := Editing.cmdDelete_accepts shows inRange.2
      change Safe EditSound (e.cmdDelete at_)
      rw [runs]
      exact ⟨⟨_, edited.congr rfl rfl⟩, sound.window⟩
  · rw [kind.act_rejects shows inRange]
    exact sound.congr rfl rfl rfl

/-- A command with a line number, where what it does is safe for the index. -/
theorem numbered_safe (usage : String) (cmd : Line)
    {act : BitVec 32 → Editing σ → Except Fault (Editing σ)} (sound : EditSound e)
    (safe : ∀ n ∈ lineNumber cmd.tail, ¬ 2 ^ 63 ≤ n % 2 ^ 64 →
      Safe EditSound (act ((BitVec.ofNat 64 n).setWidth 32 - 1) e)) :
    Safe EditSound (e.numbered usage cmd act) := by
  rw [Editing.numbered_eq]
  cases number : lineNumber cmd.tail with
  | none => exact sound.congr rfl rfl rfl
  | some n =>
    dsimp only
    split
    · exact sound.congr rfl rfl rfl
    · next other => exact safe n number other

theorem save_sound (calls : Calls σ) (sound : EditSound e) : EditSound (e.save calls) :=
  sound.congr rfl rfl rfl

/-- Every command but a `g` that leaves the lines. -/
theorem command_safe (calls : Calls σ) (garbage : Nat → UInt8) (cmd : Line) (sound : EditSound e)
    (fits : Lang.peek (cString cmd) = Lang.ch 'g' → ∀ n ∈ lineNumber (cString cmd).tail,
      2 ^ 63 ≤ n % 2 ^ 64 ∨ (1 ≤ n % 2 ^ 32 ∧ n % 2 ^ 32 ≤ 2 ^ 31)) :
    Safe (fun r => EditSound r.2) (e.command calls garbage cmd) := by
  have lift {r : Except Fault (Editing σ)} (safe : Safe EditSound r) :
      Safe (fun r : Flow × Editing σ => EditSound r.2) (do .ok (.redraw, ← r)) :=
    Safe.bind safe fun e' sound' => sound'
  unfold Editing.command
  dsimp only
  refine Safe.ite (fun _ => ?q) fun _ => ?_
  case q => exact Safe.ite (fun _ => sound.congr rfl rfl rfl) fun _ => sound
  refine Safe.ite (fun _ => sound) fun _ => ?_
  refine Safe.ite (fun _ => save_sound calls sound) fun _ => ?_
  refine Safe.ite (fun _ => save_sound calls sound) fun _ => ?_
  refine Safe.ite (fun _ => lift (cmdAppend_safe garbage sound)) fun _ => ?_
  refine Safe.ite (fun _ => ?i) fun _ => ?_
  case i => exact lift (numbered_safe _ _ sound fun n _ _ => numberedEdit_safe _ .insert sound)
  refine Safe.ite (fun _ => ?r) fun _ => ?_
  case r => exact lift (numbered_safe _ _ sound fun n _ _ => numberedEdit_safe _ .replace sound)
  refine Safe.ite (fun _ => ?d) fun _ => ?_
  case d =>
    exact lift (numbered_safe _ _ sound fun n _ _ => numberedEdit_safe garbage .delete sound)
  refine Safe.ite (fun goto => ?g) fun _ => ?_
  case g =>
    refine lift (numbered_safe _ _ sound fun n number other => ?_)
    have range := (fits goto n number).resolve_left other
    have small : ((BitVec.ofNat 64 n).setWidth 32 - 1).toNat < 2 ^ 31 := by
      rw [Lib.Words.narrowed_toNat, if_neg (by omega)]
      omega
    obtain ⟨ts, shows⟩ := sound.shows
    exact ⟨⟨ts, shows.congr (Editing.ensureVisible_lines _ e)
      (Editing.ensureVisible_lineCount _ e)⟩, ensureVisible_window sound.window small⟩
  exact Safe.ite (fun _ => sound) fun _ => sound.congr rfl rfl rfl

/-! ## Runs -/

/-- Sound, unless a call has not come back. -/
structure RunSound (s : EditRun σ) : Prop where
  editing : EditSound s.editing
  ended : ∀ fault, s.ended = some (.fault fault) → fault = .readsForever

theorem afterRedraw_sound (sound : EditSound e) : RunSound (EditRun.afterRedraw e) := by
  obtain ⟨screen, drawn⟩ := redraw_ok sound
  rw [EditRun.afterRedraw, drawn]
  exact ⟨sound.congr rfl rfl rfl, nofun⟩

/-- The rows after `load_file` hold its lines, up to their first NUL. -/
theorem start_sound (calls : Calls σ) (arg : Line) (input : Stdin) (files : σ) :
    RunSound (EditRun.start calls arg input files) := by
  have loaded : (loadFile calls ⟨[], false, ""⟩ files).1.lines.length ≤ maxLines ∧
      ∀ line ∈ (loadFile calls ⟨[], false, ""⟩ files).1.lines, line.length ≤ maxLineLen := by
    unfold loadFile
    dsimp only
    split
    · exact ⟨Nat.zero_le _, nofun⟩
    · exact splitLines_fits _
  unfold EditRun.start
  dsimp only
  generalize loadFile calls ⟨[], false, ""⟩ files = r at loaded ⊢
  obtain ⟨few, short⟩ := loaded
  have sound : EditSound ({
      lines := fun i => CString.ofBytes (r.1.lines.getD i [])
      lineCount := r.1.lines.length
      modified := r.1.modified
      topLine := 0
      filename := (arg.takeWhile fun c => c ≠ 0 ∧ c ≠ Lang.ch ' ').take 63
      screen := fun _ => []
      input := input
      files := r.2 } : Editing σ) := by
    have window : (0 : BitVec 32).toNat + textRowsVisible ≤ 2 ^ 31 := by decide
    refine ⟨⟨r.1.lines.map cString, ?_, ?_, fun i before => ?_⟩, window⟩
    · exact (List.length_map _).symm
    · rw [List.length_map]
      exact few
    · rw [List.length_map] at before
      have member : r.1.lines[i] ∈ r.1.lines := List.getElem_mem before
      have fits : r.1.lines[i].length < rowSize := Nat.lt_succ_of_le (short _ member)
      dsimp only
      rw [List.getD_eq_getElem _ _ before, Lib.CString.read_ofBytes fits, List.getElem?_map,
        List.getElem?_eq_getElem before]
      rfl
  split
  · exact ⟨sound, nofun⟩
  · exact afterRedraw_sound (sound.congr rfl rfl rfl)

theorem round_sound (calls : Calls σ) (s : EditRun σ) (garbage : Nat → UInt8) (t : EditRun σ)
    (sound : RunSound s) (fits : s.GotoFits) (h : s.round calls garbage = some t) : RunSound t := by
  unfold EditRun.round at h
  split at h
  · cases h
  have safe : Safe (fun r : Flow × Editing σ => EditSound r.2) (do
      let (cmd, e) ← s.editing.readLine cmdMax (garbage 0)
      e.command calls garbage cmd) := by
    cases read : s.editing.readLine cmdMax (garbage 0) with
    | error fault =>
      have reads := readLine_safe sound.editing (by decide : 0 < cmdMax) (by decide) (garbage 0)
      rw [read] at reads
      exact reads
    | ok r =>
      obtain ⟨cmd, e⟩ := r
      have line := Editing.readLine_line read
      obtain ⟨-, input, rfl⟩ := Editing.readLine_fits (by decide) (by decide) read
      refine command_safe calls garbage cmd (sound.editing.congr rfl rfl rfl) ?_
      rw [line]
      exact fits
  dsimp only at h
  generalize (do
      let (cmd, e) ← s.editing.readLine cmdMax (garbage 0)
      e.command calls garbage cmd) = done at safe h
  split at h
  · cases h
  · next other =>
    cases h
    refine ⟨sound.editing, fun fault ended => ?_⟩
    cases ended
    exact safe.resolve_left other
  · cases h
    exact ⟨safe, nofun⟩
  · cases h
    exact afterRedraw_sound safe
  · cases h
    exact ⟨safe, nofun⟩

theorem RunSound.onScreen {s : EditRun σ} (sound : RunSound s) : s.OnScreen := by
  have window := sound.editing.window
  have rows : textRowsVisible = 21 := rfl
  unfold Window at window
  obtain ⟨screen, drawn⟩ := redraw_ok sound.editing
  constructor
  · rw [Lib.Words.toInt_of_small (by omega)]
    exact Int.natCast_nonneg _
  · exact ⟨_, drawn⟩
  · exact sound.ended

/-- In every run of the editor in which no `g` leaves the lines, on any files and any
input. -/
theorem editor_stays_on_screen (calls : Calls σ) (arg : Line) (input : Stdin) (files : σ)
    (es : List (Nat → UInt8)) (s : EditRun σ)
    (ok : Meets (EditRun.round calls) (fun s _ => s.GotoFits)
      (EditRun.start calls arg input files) es)
    (ran : run (EditRun.round calls) (EditRun.start calls arg input files) es = some s) :
    s.OnScreen :=
  (Lib.Machine.run_invariant (round_sound calls) (start_sound calls arg input files) ok ran).onScreen

/-- A line is appended, deleted and looked for. -/
def someTyping : Stdin := ⟨text "a\nx\n\nd1\ng9\n", .waits⟩

theorem editor_stays_on_screen_some :
    ∃ s, run (EditRun.round noCalls) (EditRun.start noCalls (text "notes") someTyping ())
        (List.replicate 3 fun _ => 0) = some s ∧ s.OnScreen := by
  have runs : (run (EditRun.round noCalls) (EditRun.start noCalls (text "notes") someTyping ())
      (List.replicate 3 fun _ => 0)).isSome := by decide +kernel
  obtain ⟨s, ran⟩ := Option.isSome_iff_exists.mp runs
  exact ⟨s, ran, editor_stays_on_screen noCalls (text "notes") someTyping () _ s
    (by decide +kernel) ran⟩

/-- `g0` -/
theorem goto_zero_leaves_lines :
    ¬ ∀ (calls : Calls Unit) arg input files es s,
      run (EditRun.round calls) (EditRun.start calls arg input files) es = some s → s.OnScreen := by
  intro claim
  have runs : (run (EditRun.round noCalls) (EditRun.start noCalls (text "notes")
      ⟨text "g0\n", .waits⟩ ()) [fun _ => 0]).isSome := by decide +kernel
  obtain ⟨s, ran⟩ := Option.isSome_iff_exists.mp runs
  have ends : ∀ s ∈ run (EditRun.round noCalls) (EditRun.start noCalls (text "notes")
      ⟨text "g0\n", .waits⟩ ()) [fun _ => 0], s.ended = some (.fault .outsideLines) := by
    decide +kernel
  have fault := (claim _ _ _ _ _ s ran).ended _ (ends s ran)
  cases fault

end MiniKernel.Programs.Edit
