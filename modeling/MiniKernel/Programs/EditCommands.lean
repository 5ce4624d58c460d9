import MiniKernel.Drivers.Video
import MiniKernel.Lib.CString
import MiniKernel.Lib.Words
import MiniKernel.Programs.Edit
import MiniKernel.Programs.LineReader
import MiniKernel.Programs.Trees

/-!
# The commands of the editor

Source: src/programs/edit.c:15-198 and 271-456. The rows of `lines` are buffers of
their own size; an access outside a row, outside `lines` or outside one of the
buffers of `redraw` is a fault. What the calls draw is kept by rows of the screen.
-/
namespace MiniKernel.Programs.Edit
open Lib (CString.read CString.copy CString.ofBytes)
open LineReader (Stdin editReadLine)

def rowSize : Nat := maxLineLen + 1
def cmdMax : Nat := 128

/-- What `sys_screen_info` answers. -/
def screenRows : Nat := Drivers.Video.vgaRows

def titleRow : Nat := 0
def hintRow : Nat := 1
def textTop : Nat := 2
def statusRow : Nat := screenRows - 2
def textRowsVisible : Nat := statusRow - textTop

def text (s : String) : Line := s.toList.map Lang.ch

inductive Fault where
  /-- `lines[i]` where `i` is none of the lines, or no row. -/
  | outsideLines
  /-- No NUL in the row. -/
  | outsideRow
  /-- A write behind the end of a buffer of `redraw`. -/
  | outsideBuffer
  /-- `read_line` goes round at the end of its input. -/
  | readsForever
  /-- The console has no key yet. -/
  | waits
  deriving DecidableEq, Repr

structure Editing (σ : Type) where
  lines : Nat → Lib.Buffer
  lineCount : Nat
  modified : Bool
  topLine : BitVec 32
  filename : Line
  screen : Nat → Line
  input : Stdin
  files : σ

/-! ## Buffers of `redraw` -/

/-- `buf[i++] = c`, in a buffer of `size` bytes. -/
def push (size : Nat) (buf : Line) (c : UInt8) : Except Fault Line :=
  if buf.length < size then .ok (buf ++ [c]) else .error .outsideBuffer

def pushAll (size : Nat) : Line → Line → Except Fault Line
  | buf, [] => .ok buf
  | buf, c :: cs => do
    let buf ← push size buf c
    pushAll size buf cs

/-- `buf[i] = '\0'`. -/
def terminate (size : Nat) (buf : Line) : Except Fault Line :=
  if buf.length < size then .ok buf else .error .outsideBuffer

/-- The loop of `utoa` over the digits, the last one first, with `room` bytes left. -/
def utoaDigits : Nat → Nat → Line → Except Fault Line
  | _, 0, digits => .ok digits
  | 0, _ + 1, _ => .error .outsideBuffer
  | room + 1, value + 1, digits =>
    utoaDigits room ((value + 1) / 10) (digits ++ [UInt8.ofNat (48 + (value + 1) % 10)])

/-- `utoa`, into a buffer of `size` bytes. -/
def utoa (value : BitVec 64) (size minDigits : Nat) : Except Fault Line := do
  let digits ← (if value = 0 then .ok [48] else utoaDigits 20 value.toNat [])
  let out ← pushAll size [] (List.replicate (minDigits - digits.length) 48 ++ digits.reverse)
  terminate size out

variable {σ : Type}

namespace Editing

def drawRow (row : Nat) (shown : Line) (e : Editing σ) : Editing σ :=
  { e with screen := Function.update e.screen row shown }

def status (msg : String) (e : Editing σ) : Editing σ := e.drawRow statusRow (text msg)

def title (e : Editing σ) : Except Fault Line := do
  let buf ← pushAll 96 [] (text "MiniKernel editor - ")
  let buf ← pushAll 96 buf (e.filename.take (96 - 12 - buf.length))
  let buf ← (if e.modified then pushAll 96 buf (text " [modified]") else .ok buf)
  terminate 96 buf

def hint : Line :=
  text ("a=append  i<n> r<n> d<n>=insert/replace/delete line  " ++
    "g<n>=goto  w=save  q=quit  wq  q!=discard")

/-- The string in `lines[line_index]`. -/
def lineAt (e : Editing σ) (lineIndex : BitVec 32) : Except Fault Line :=
  if 0 ≤ lineIndex.toInt ∧ lineIndex.toInt < e.lineCount then
    match CString.read rowSize (e.lines lineIndex.toNat) with
    | some line => .ok line
    | none => .error .outsideRow
  else .error .outsideLines

/-- What `redraw` shows in a row of the text. -/
def textRow (e : Editing σ) (row : Nat) : Except Fault Line :=
  let lineIndex := e.topLine + BitVec.ofNat 32 row
  if lineIndex.toInt < e.lineCount then do
    let num ← utoa ((lineIndex + 1).signExtend 64) 8 3
    let buf ← pushAll (maxLineLen + 8) [] (num ++ text "| ")
    let line ← e.lineAt lineIndex
    let buf ← pushAll (maxLineLen + 8) buf line
    terminate (maxLineLen + 8) buf
  else .ok (text "~")

/-- The loop of `redraw` over the first `n` rows. -/
def drawText : Nat → Editing σ → Except Fault (Editing σ)
  | 0, e => .ok e
  | n + 1, e => do
    let e ← drawText n e
    let shown ← e.textRow n
    .ok (e.drawRow (textTop + n) shown)

def redraw (e : Editing σ) : Except Fault (Editing σ) := do
  let title ← e.title
  drawText textRowsVisible ((e.drawRow titleRow title).drawRow hintRow hint)

def ensureVisible (line : BitVec 32) (e : Editing σ) : Editing σ :=
  if line.toInt < e.topLine.toInt then { e with topLine := line }
  else if line.toInt ≥ (e.topLine + BitVec.ofNat 32 textRowsVisible).toInt then
    let top := line - BitVec.ofNat 32 textRowsVisible + 1
    { e with topLine := if top.toInt < 0 then 0 else top }
  else e

/-! ## Lines -/

/-- `read_line` into a buffer of `max` bytes. -/
def readLine (max : Nat) (garbage : UInt8) (e : Editing σ) : Except Fault (Line × Editing σ) :=
  match editReadLine.loop (BitVec.ofNat 64 max) (e.input.bytes.length + 1)
      (.start garbage e.input) with
  | some r => .ok (r.buf, { e with input := r.input })
  | none => .error (if e.input.ending = .waits then .waits else .readsForever)

/-- The string in `src` copied to `lines[i]`. -/
def putLine (i : Nat) (src : Lib.Buffer) (e : Editing σ) : Except Fault (Editing σ) :=
  if i < maxLines then
    match CString.copy rowSize src (e.lines i) with
    | some row => .ok { e with lines := Function.update e.lines i row }
    | none => .error .outsideRow
  else .error .outsideLines

/-- The loop of `cmd_insert`: the `n` rows from `first` on move one down, the last
of them first. -/
def openGap (first : Nat) : Nat → Editing σ → Except Fault (Editing σ)
  | 0, e => .ok e
  | n + 1, e => do
    let e ← e.putLine (first + n + 1) (e.lines (first + n))
    openGap first n e

/-- The loop of `cmd_delete`: the `n` rows behind `i` move one up. -/
def closeGap : Nat → Nat → Editing σ → Except Fault (Editing σ)
  | _, 0, e => .ok e
  | i, n + 1, e => do
    let e ← e.putLine i (e.lines (i + 1))
    closeGap (i + 1) n e

/-- The loop of `cmd_append`; `room` is what `line_count` lacks to `MAX_LINES`. -/
def appendLoop (garbage : Nat → UInt8) (turn room : Nat) (e : Editing σ) :
    Except Fault (Editing σ) := do
  let (buf, e) ← e.readLine rowSize (garbage turn)
  if buf.length = 0 then .ok e
  else
    match room with
    | 0 => .ok (e.status "file full, can't append more lines")
    | room + 1 => do
      let e ← e.putLine e.lineCount (CString.ofBytes buf)
      let e : Editing σ := { e with lineCount := e.lineCount + 1, modified := true }
      let e ← (e.ensureVisible (BitVec.ofNat 32 (e.lineCount - 1))).redraw
      appendLoop garbage (turn + 1) room e

def cmdAppend (garbage : Nat → UInt8) (e : Editing σ) : Except Fault (Editing σ) := do
  let e ← (e.status "append mode: type lines, blank line to stop").redraw
  let e ← e.appendLoop garbage 1 (maxLines - e.lineCount)
  .ok (e.status "append finished")

def cmdInsert (garbage : Nat → UInt8) (at_ : BitVec 32) (e : Editing σ) :
    Except Fault (Editing σ) :=
  if at_.toInt < 0 ∨ at_.toInt > e.lineCount ∨ e.lineCount ≥ maxLines then
    .ok (e.status "bad line number")
  else do
    let (buf, e) ← e.readLine rowSize (garbage 1)
    let e ← e.openGap at_.toNat (e.lineCount - at_.toNat)
    let e ← e.putLine at_.toNat (CString.ofBytes buf)
    let e : Editing σ := { e with lineCount := e.lineCount + 1, modified := true }
    .ok ((e.ensureVisible at_).status "inserted")

def cmdReplace (garbage : Nat → UInt8) (at_ : BitVec 32) (e : Editing σ) :
    Except Fault (Editing σ) :=
  if at_.toInt < 0 ∨ at_.toInt ≥ e.lineCount then .ok (e.status "bad line number")
  else do
    let (buf, e) ← e.readLine rowSize (garbage 1)
    let e ← e.putLine at_.toNat (CString.ofBytes buf)
    .ok (({ e with modified := true }.ensureVisible at_).status "replaced")

def cmdDelete (at_ : BitVec 32) (e : Editing σ) : Except Fault (Editing σ) :=
  if at_.toInt < 0 ∨ at_.toInt ≥ e.lineCount then .ok (e.status "bad line number")
  else do
    let e ← e.closeGap at_.toNat (e.lineCount - 1 - at_.toNat)
    .ok ({ e with lineCount := e.lineCount - 1, modified := true }.status "deleted")

end Editing

/-! ## `_start` -/

/-- `parse_uint`, as far as the loop of `_start` uses it. -/
def parseUint (s : Line) : BitVec 64 :=
  let s := s.dropWhile (· = Lang.ch ' ')
  if Lang.isDigit (Lang.peek s) then (Lang.readNumber 0 s).1 else -1

/-- The number at the start of the text, as it is written. -/
def lineNumber (s : Line) : Option Nat :=
  let s := s.dropWhile (· = Lang.ch ' ')
  if Lang.isDigit (Lang.peek s) then some (Lang.decimal (s.takeWhile Lang.isDigit)) else none

/-- Where the loop goes on after a command. -/
inductive Flow where
  /-- `continue` -/
  | next
  | redraw
  | quit
  deriving DecidableEq, Repr

namespace Editing

/-- The lines as `save_file` finds them. -/
def editor (e : Editing σ) : Editor where
  lines := (List.range e.lineCount).map fun i => (CString.read rowSize (e.lines i)).getD []
  modified := e.modified
  status := ""

def save (calls : Calls σ) (e : Editing σ) : Editing σ :=
  let (ed, files) := saveFile calls e.editor e.files
  { e with modified := ed.modified, files := files }.status ed.status

/-- A command with a line number: its usage, or what it does with the index. -/
def numbered (usage : String) (cmd : Line) (act : BitVec 32 → Editing σ → Except Fault (Editing σ))
    (e : Editing σ) : Except Fault (Editing σ) :=
  let n := parseUint cmd.tail
  if n.toInt < 0 then .ok (e.status usage) else act (n.setWidth 32 - 1) e

/-- What the loop does with a line; `garbage i` is what the variable of `read_line`
holds at its `i`th call since the last command. -/
def command (calls : Calls σ) (garbage : Nat → UInt8) (cmd : Line) (e : Editing σ) :
    Except Fault (Flow × Editing σ) :=
  let cmd := cString cmd
  if cmd = text "q" then
    if e.modified then
      .ok (.next, e.status "unsaved changes - use 'wq' to save, or 'q!' to discard")
    else .ok (.quit, e)
  else if cmd = text "q!" then .ok (.quit, e)
  else if cmd = text "wq" then .ok (.quit, e.save calls)
  else if cmd = text "w" then .ok (.redraw, e.save calls)
  else if cmd = text "a" then do .ok (.redraw, ← e.cmdAppend garbage)
  else if Lang.peek cmd = Lang.ch 'i' then do
    .ok (.redraw, ← e.numbered "usage: i<line number>" cmd (cmdInsert garbage))
  else if Lang.peek cmd = Lang.ch 'r' then do
    .ok (.redraw, ← e.numbered "usage: r<line number>" cmd (cmdReplace garbage))
  else if Lang.peek cmd = Lang.ch 'd' then do
    .ok (.redraw, ← e.numbered "usage: d<line number>" cmd cmdDelete)
  else if Lang.peek cmd = Lang.ch 'g' then do
    .ok (.redraw, ← e.numbered "usage: g<line number>" cmd fun line e => .ok (e.ensureVisible line))
  else if cmd = [] then .ok (.redraw, e)
  else .ok (.redraw, e.status "unknown command (see hint row)")

end Editing

/-! ## What the rows hold -/

/-- The rows of `lines` hold these lines. -/
structure Shows (e : Editing σ) (ts : List Line) : Prop where
  count : e.lineCount = ts.length
  few : ts.length ≤ maxLines
  lines : ∀ i < ts.length, CString.read rowSize (e.lines i) = ts[i]?

variable {e : Editing σ} {ts : List Line}

/-- The lines are nowhere but in the rows. -/
theorem Shows.congr {e' : Editing σ} (shows : Shows e ts) (lines : e'.lines = e.lines)
    (count : e'.lineCount = e.lineCount) : Shows e' ts := by
  constructor
  · rw [count, shows.count]
  · exact shows.few
  · rw [lines]
    exact shows.lines

theorem Shows.held (shows : Shows e ts) {i : Nat} (inside : i < ts.length) :
    ∃ line, CString.read rowSize (e.lines i) = some line :=
  ⟨ts[i], by rw [shows.lines i inside, List.getElem?_eq_getElem inside]⟩

namespace Editing

theorem putLine_ok {i : Nat} {src : Lib.Buffer} {line : Line} (inside : i < maxLines)
    (held : CString.read rowSize src = some line) (e : Editing σ) :
    ∃ row, CString.read rowSize row = some line ∧
      e.putLine i src = .ok { e with lines := Function.update e.lines i row } := by
  obtain ⟨row, copied, reads⟩ := Lib.CString.copy_read (e.lines i) held
  exact ⟨row, reads, by rw [putLine, if_pos inside, copied]⟩

/-- By induction on the rows that still move: the last one has moved, and the others
find their place as they left it. -/
theorem openGap_ok (first n : Nat) (e : Editing σ) (room : first + n < maxLines)
    (held : ∀ i < first + n, ∃ line, CString.read rowSize (e.lines i) = some line) :
    ∃ rows, e.openGap first n = .ok { e with lines := rows } ∧
      (∀ i, i ≤ first ∨ first + n < i → rows i = e.lines i) ∧
      ∀ i, first ≤ i → i < first + n →
        CString.read rowSize (rows (i + 1)) = CString.read rowSize (e.lines i) := by
  induction n generalizing e with
  | zero => exact ⟨e.lines, rfl, fun _ _ => rfl, fun i after before => by omega⟩
  | succ n ih =>
    obtain ⟨line, last⟩ := held (first + n) (by omega)
    obtain ⟨row, reads, put⟩ := putLine_ok (i := first + n + 1) (by omega) last e
    obtain ⟨rows, moved, same, shifted⟩ :=
      ih { e with lines := Function.update e.lines (first + n + 1) row } (by omega)
        (fun i inside => by
          dsimp only
          rw [Function.update_of_ne (by omega)]
          exact held i (by omega))
    dsimp only at same shifted
    refine ⟨rows, ?_, fun i outside => ?_, fun i after before => ?_⟩
    · rw [openGap, put]
      exact moved
    · rw [same i (by omega), Function.update_of_ne (by omega)]
    · by_cases here : i = first + n
      · rw [here, same (first + n + 1) (by omega), Function.update_self, reads, last]
      · rw [shifted i after (by omega), Function.update_of_ne (by omega)]

/-- By induction on the rows that still move, the first one first. -/
theorem closeGap_ok (i n : Nat) (e : Editing σ) (room : i + n < maxLines)
    (held : ∀ j ≤ i + n, ∃ line, CString.read rowSize (e.lines j) = some line) :
    ∃ rows, e.closeGap i n = .ok { e with lines := rows } ∧
      (∀ j < i, rows j = e.lines j) ∧
      ∀ j, i ≤ j → j < i + n →
        CString.read rowSize (rows j) = CString.read rowSize (e.lines (j + 1)) := by
  induction n generalizing i e with
  | zero => exact ⟨e.lines, rfl, fun _ _ => rfl, fun j after before => by omega⟩
  | succ n ih =>
    obtain ⟨line, next⟩ := held (i + 1) (by omega)
    obtain ⟨row, reads, put⟩ := putLine_ok (i := i) (by omega) next e
    obtain ⟨rows, moved, same, shifted⟩ :=
      ih (i + 1) { e with lines := Function.update e.lines i row } (by omega)
        (fun j inside => by
          dsimp only
          by_cases here : j = i
          · exact ⟨line, by rw [here, Function.update_self, reads]⟩
          · rw [Function.update_of_ne here]
            exact held j (by omega))
    dsimp only at same shifted
    refine ⟨rows, ?_, fun j before => ?_, fun j after before => ?_⟩
    · rw [closeGap, put]
      exact moved
    · rw [same j (by omega), Function.update_of_ne (by omega)]
    · by_cases here : j = i
      · rw [here, same i (by omega), Function.update_self, reads, next]
      · rw [shifted j (by omega) (by omega), Function.update_of_ne (by omega)]

@[simp] theorem status_lines (msg : String) (e : Editing σ) : (e.status msg).lines = e.lines := rfl
@[simp] theorem status_lineCount (msg : String) (e : Editing σ) :
    (e.status msg).lineCount = e.lineCount := rfl
@[simp] theorem status_shown (msg : String) (e : Editing σ) :
    (e.status msg).screen statusRow = text msg := by
  unfold status drawRow
  exact Function.update_self statusRow (text msg) e.screen

@[simp] theorem ensureVisible_lines (line : BitVec 32) (e : Editing σ) :
    (e.ensureVisible line).lines = e.lines := by
  unfold ensureVisible
  split
  · rfl
  split
  · rfl
  · rfl

@[simp] theorem ensureVisible_lineCount (line : BitVec 32) (e : Editing σ) :
    (e.ensureVisible line).lineCount = e.lineCount := by
  unfold ensureVisible
  split
  · rfl
  split
  · rfl
  · rfl

theorem editReadLine_honest : editReadLine.Honest :=
  LineReader.readers_honest (by simp [LineReader.readers])

/-- What `read_line` returns leaves room for the NUL. -/
theorem readLine_fits {max : Nat} (positive : 0 < max) (small : max < 2 ^ 64) {garbage : UInt8}
    {buf : Line} {e' : Editing σ} (read : e.readLine max garbage = .ok (buf, e')) :
    buf.length < max ∧ ∃ input, e' = { e with input := input } := by
  have size : (BitVec.ofNat 64 max).toNat = max := by
    rw [BitVec.toNat_ofNat, Nat.mod_eq_of_lt small]
  have some_ : BitVec.ofNat 64 max ≠ 0 := by
    intro none_
    rw [none_] at size
    exact Nat.ne_of_lt positive size
  unfold readLine at read
  split at read
  · next r returns =>
    cases read
    have fits := LineReader.loop_fits editReadLine_honest some_ _ _ r
      (by rw [size]; exact positive) returns
    rw [size] at fits
    exact ⟨fits, r.input, rfl⟩
  · cases read

/-- What `read_line` returns is the line of its input. -/
theorem readLine_line {garbage : UInt8} {buf : Line} {e' : Editing σ}
    (read : e.readLine cmdMax garbage = .ok (buf, e')) :
    buf = LineReader.lineOf (BitVec.ofNat 64 cmdMax) e.input.bytes := by
  unfold readLine at read
  split at read
  · next r returns =>
    cases read
    exact LineReader.loop_line editReadLine_honest (by decide) _ _ r returns
  · cases read

/-- `parse_uint` counts the number up modulo 2^64. -/
theorem parseUint_eq (s : Line) :
    parseUint s = match lineNumber s with
      | some n => BitVec.ofNat 64 n
      | none => -1 := by
  unfold parseUint lineNumber
  dsimp only
  split
  · exact congrArg Prod.fst (Lang.readNumber_eq _ 0)
  · rfl

/-- A command with a line number, by the number. -/
theorem numbered_eq (usage : String) (cmd : Line)
    (act : BitVec 32 → Editing σ → Except Fault (Editing σ)) (e : Editing σ) :
    e.numbered usage cmd act = match lineNumber cmd.tail with
      | some n =>
        if 2 ^ 63 ≤ n % 2 ^ 64 then .ok (e.status usage)
        else act ((BitVec.ofNat 64 n).setWidth 32 - 1) e
      | none => .ok (e.status usage) := by
  unfold numbered
  rw [parseUint_eq]
  cases lineNumber cmd.tail with
  | none => rfl
  | some n =>
    dsimp only
    by_cases large : 2 ^ 63 ≤ n % 2 ^ 64
    · rw [if_pos large, if_pos ((Lib.Words.negative_iff n).mpr large)]
    · rw [if_neg large, if_neg fun negative => large ((Lib.Words.negative_iff n).mp negative)]

/-- The test of `cmd_insert`. -/
theorem insert_guard (shows : Shows e ts) (at_ : BitVec 32) :
    (at_.toInt < 0 ∨ at_.toInt > e.lineCount ∨ e.lineCount ≥ maxLines) ↔
      ¬ (at_.toNat ≤ ts.length ∧ ts.length < maxLines) := by
  have few := shows.few
  have range := Lib.Words.inRange_iff at_ (ts.length + 1)
    (Nat.le_trans (Nat.succ_le_succ few) (by decide))
  rw [shows.count]
  omega

/-- The test of `cmd_replace` and `cmd_delete`. -/
theorem row_guard (shows : Shows e ts) (at_ : BitVec 32) :
    (at_.toInt < 0 ∨ at_.toInt ≥ e.lineCount) ↔ ¬ at_.toNat < ts.length := by
  have range := Lib.Words.inRange_iff at_ _ (Nat.le_trans shows.few (by decide))
  rw [shows.count]
  omega

end Editing

end MiniKernel.Programs.Edit
