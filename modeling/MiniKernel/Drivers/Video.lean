import Mathlib.Tactic
import MiniKernel.Lib.LittleEndian

/-!
# The text screen

Source: kernel/drivers/video.c. Every call runs with interrupts off. The text
area is memory that goes on behind the screen: a store is noted with the cell it
goes to, and nothing but the code keeps that cell below `VGA_EXTENT`.
-/
namespace MiniKernel.Drivers.Video
open Lib (Buffer)

def vgaCols : Nat := 80
def vgaRows : Nat := 25
def vgaExtent : Nat := vgaCols * vgaRows
def styleWb : UInt8 := 0x0F
def inputStartRow : Nat := 3
def tabWidth : Nat := 4

/-- `unsigned int`. -/
abbrev UInt := BitVec 32

structure VgaChar where
  character : UInt8
  style : UInt8
  deriving DecidableEq, Repr

structure Screen where
  textArea : Nat → VgaChar
  cursorRow : UInt
  cursorCol : UInt
  /-- What the last `update_hardware_cursor` sent to the two CRTC registers. -/
  crtcCursor : BitVec 16
  /-- The cells that were stored to, in order. -/
  stores : List Nat

def blank : UInt8 := 0x20
def newline : UInt8 := 0x0A
def backspace : UInt8 := 0x08
def tab : UInt8 := 0x09

namespace Screen

/-- `TEXT_AREA[pos] = cell`. -/
def store (pos : Nat) (cell : VgaChar) (s : Screen) : Screen :=
  { s with textArea := Function.update s.textArea pos cell, stores := s.stores ++ [pos] }

/-- `for (i = 0; i < n; i++) TEXT_AREA[pos(i)] = cell(i)`, the cell computed when
its turn comes. -/
def storeEach (pos : Nat → Nat) (cell : Screen → Nat → VgaChar) : Nat → Screen → Screen
  | 0, s => s
  | n + 1, s =>
    let s := storeEach pos cell n s
    s.store (pos n) (cell s n)

def updateHardwareCursor (s : Screen) : Screen :=
  { s with crtcCursor := (s.cursorRow * BitVec.ofNat 32 vgaCols + s.cursorCol).setWidth 16 }

def clearwin (s : Screen) : Screen :=
  s.storeEach id (fun _ _ => ⟨blank, styleWb⟩) vgaExtent

def writeCell (row col : UInt) (c : UInt8) (s : Screen) : Screen :=
  let pos := row * BitVec.ofNat 32 vgaCols + col
  if pos.toNat ≥ vgaExtent then s else s.store pos.toNat ⟨c, styleWb⟩

/-- The rows from `INPUT_START_ROW + 1` on, `n` of them, each copied one up. -/
def copyRows : Nat → Screen → Screen
  | 0, s => s
  | n + 1, s =>
    let row := inputStartRow + 1 + n
    (copyRows n s).storeEach (fun col => (row - 1) * vgaCols + col)
      (fun s col => s.textArea (row * vgaCols + col)) vgaCols

def scrollUp (s : Screen) : Screen :=
  (s.copyRows (vgaRows - (inputStartRow + 1))).storeEach
    (fun col => (vgaRows - 1) * vgaCols + col) (fun _ _ => ⟨blank, styleWb⟩) vgaCols

def videoResetCursor (s : Screen) : Screen :=
  updateHardwareCursor { s with cursorRow := BitVec.ofNat 32 inputStartRow, cursorCol := 0 }

def videoSetCursor (row col : UInt) (s : Screen) : Screen :=
  updateHardwareCursor
    { s with
      cursorRow := if row.toNat < vgaRows then row else s.cursorRow
      cursorCol := if col.toNat < vgaCols then col else s.cursorCol }

def videoDrawRow (row : UInt) (buf : Buffer) (len : UInt) (s : Screen) : Screen :=
  if row.toNat ≥ vgaRows then s
  else
    s.storeEach (fun col => row.toNat * vgaCols + col)
      (fun _ col => ⟨if col < len.toNat then buf col else blank, styleWb⟩) vgaCols

/-- The end of a cell that was written: the next column, or the next line. -/
def wrapLine (s : Screen) : Screen :=
  if s.cursorCol.toNat ≥ vgaCols then { s with cursorCol := 0, cursorRow := s.cursorRow + 1 }
  else s

/-- The loop of a tab, in at most `fuel` turns. -/
def tabLoop (nextStop : UInt) : Nat → Screen → Screen
  | 0, s => s
  | fuel + 1, s =>
    if s.cursorCol < nextStop ∧ s.cursorCol.toNat < vgaCols then
      let s := s.writeCell s.cursorRow s.cursorCol blank
      tabLoop nextStop fuel { s with cursorCol := s.cursorCol + 1 }
    else s

/-- What the character itself does. -/
def putGlyph (c : UInt8) (s : Screen) : Screen :=
  if c = newline then { s with cursorRow := s.cursorRow + 1, cursorCol := 0 }
  else if c = backspace then
    if s.cursorCol > 0 then
      let s := { s with cursorCol := s.cursorCol - 1 }
      s.writeCell s.cursorRow s.cursorCol blank
    else if s.cursorRow.toNat > inputStartRow then
      let s := { s with
        cursorRow := s.cursorRow - 1
        cursorCol := BitVec.ofNat 32 (vgaCols - 1) }
      s.writeCell s.cursorRow s.cursorCol blank
    else s
  else if c = tab then
    let nextStop := BitVec.ofNat 32 ((s.cursorCol.toNat / tabWidth + 1) * tabWidth)
    (s.tabLoop nextStop (nextStop - s.cursorCol).toNat).wrapLine
  else
    let s := s.writeCell s.cursorRow s.cursorCol c
    wrapLine { s with cursorCol := s.cursorCol + 1 }

/-- `while (cursor_row >= VGA_ROWS)`: each turn takes a row away, so `cursor_row`
turns are enough. -/
def scrollLoop : Nat → Screen → Screen
  | 0, s => s
  | fuel + 1, s =>
    if s.cursorRow.toNat ≥ vgaRows then
      let s := s.scrollUp
      scrollLoop fuel { s with cursorRow := s.cursorRow - 1 }
    else s

def putcharAtCursor (c : UInt8) (s : Screen) : Screen :=
  let s := s.putGlyph c
  (s.scrollLoop s.cursorRow.toNat).updateHardwareCursor

end Screen

inductive VideoCall where
  | putchar (c : UInt8)
  | setCursor (row col : UInt)
  | drawRow (row : UInt) (buf : Buffer) (len : UInt)
  | clearwin
  | resetCursor

def videoCall (s : Screen) : VideoCall → Screen
  | .putchar c => s.putcharAtCursor c
  | .setCursor row col => s.videoSetCursor row col
  | .drawRow row buf len => s.videoDrawRow row buf len
  | .clearwin => s.clearwin
  | .resetCursor => s.videoResetCursor

/-- The driver as it is loaded, over whatever the text area holds. -/
def loaded (textArea : Nat → VgaChar) (crtcCursor : BitVec 16) : Screen where
  textArea := textArea
  cursorRow := BitVec.ofNat 32 inputStartRow
  cursorCol := 0
  crtcCursor := crtcCursor
  stores := []

/-- The call puts the cursor above the first row of input. -/
def PlacesAbove : VideoCall → Prop
  | .setCursor row _ => row.toNat < inputStartRow
  | _ => False

instance : DecidablePred PlacesAbove := fun c => by
  unfold PlacesAbove
  split <;> infer_instance

/-! ## What is stored where -/

/-- From `s` to `t` there were stores, all of them from cell `low` on and on the
screen; the cursor is set aside. -/
structure Draws (low : Nat) (s t : Screen) : Prop where
  kept : ∀ p < low, t.textArea p = s.textArea p
  stored : ∃ ps, t.stores = s.stores ++ ps ∧ ∀ p ∈ ps, low ≤ p ∧ p < vgaExtent

variable {low : Nat} {s t u : Screen} {row col : UInt}

theorem Draws.refl (low : Nat) (s : Screen) : Draws low s s :=
  ⟨fun _ _ => rfl, [], (List.append_nil _).symm, nofun⟩

theorem Draws.trans (first : Draws low s t) (second : Draws low t u) : Draws low s u := by
  obtain ⟨ps, stored, inside⟩ := first.stored
  obtain ⟨qs, stored', inside'⟩ := second.stored
  constructor
  · intro p hp
    rw [second.kept p hp, first.kept p hp]
  · exact ⟨ps ++ qs, by rw [stored', stored, List.append_assoc],
      fun p hp => (List.mem_append.mp hp).elim (inside p) (inside' p)⟩

theorem Draws.mono {low' : Nat} (draws : Draws low s t) (le : low' ≤ low) : Draws low' s t := by
  obtain ⟨ps, stored, inside⟩ := draws.stored
  constructor
  · intro p hp
    exact draws.kept p (by omega)
  · exact ⟨ps, stored, fun p hp => ⟨Nat.le_trans le (inside p hp).1, (inside p hp).2⟩⟩

theorem draws_store {pos : Nat} (cell : VgaChar) (s : Screen) (above : low ≤ pos)
    (inside : pos < vgaExtent) : Draws low s (s.store pos cell) := by
  constructor
  · intro p hp
    have other : p ≠ pos := by omega
    simp [Screen.store, other]
  · exact ⟨[pos], rfl, fun p hp => by rw [List.mem_singleton.mp hp]; exact ⟨above, inside⟩⟩

/-- The cursor stands still while cells are stored. -/
def SameCursor (s t : Screen) : Prop := t.cursorRow = s.cursorRow ∧ t.cursorCol = s.cursorCol

theorem storeEach_draws (low : Nat) (pos : Nat → Nat) (cell : Screen → Nat → VgaChar) {n : Nat}
    (range : ∀ i < n, low ≤ pos i ∧ pos i < vgaExtent) (s : Screen) :
    Draws low s (s.storeEach pos cell n) ∧ SameCursor s (s.storeEach pos cell n) := by
  induction n with
  | zero => exact ⟨Draws.refl low s, rfl, rfl⟩
  | succ n ih =>
    obtain ⟨draws, same⟩ := ih fun i hi => range i (by omega)
    have last := range n (Nat.lt_succ_self n)
    rw [Screen.storeEach]
    exact ⟨draws.trans (draws_store _ _ last.1 last.2), same⟩

theorem copyRows_draws {n : Nat} (rows : inputStartRow + n < vgaRows) (s : Screen) :
    Draws (inputStartRow * vgaCols) s (s.copyRows n) ∧ SameCursor s (s.copyRows n) := by
  induction n with
  | zero => exact ⟨Draws.refl _ s, rfl, rfl⟩
  | succ n ih =>
    obtain ⟨draws, same⟩ := ih (by omega)
    have range : ∀ col < vgaCols, inputStartRow * vgaCols ≤
        (inputStartRow + 1 + n - 1) * vgaCols + col ∧
          (inputStartRow + 1 + n - 1) * vgaCols + col < vgaExtent := by
      intro col hcol
      unfold vgaExtent vgaRows vgaCols inputStartRow at *
      omega
    obtain ⟨draws', same'⟩ := storeEach_draws _ _
      (fun s col => s.textArea ((inputStartRow + 1 + n) * vgaCols + col)) range (s.copyRows n)
    exact ⟨draws.trans draws', same'.1.trans same.1, same'.2.trans same.2⟩

/-- Scrolling leaves the rows above the input alone. -/
theorem scrollUp_draws (s : Screen) :
    Draws (inputStartRow * vgaCols) s s.scrollUp ∧ SameCursor s s.scrollUp := by
  obtain ⟨draws, same⟩ := copyRows_draws (n := vgaRows - (inputStartRow + 1)) (by decide) s
  obtain ⟨draws', same'⟩ := storeEach_draws (inputStartRow * vgaCols)
    (fun col => (vgaRows - 1) * vgaCols + col) (fun _ _ => ⟨blank, styleWb⟩)
    (n := vgaCols) (by decide) (s.copyRows (vgaRows - (inputStartRow + 1)))
  exact ⟨draws.trans draws', same'.1.trans same.1, same'.2.trans same.2⟩

/-! ## The cursor -/

structure OnScreen (s : Screen) : Prop where
  row : s.cursorRow.toNat < vgaRows
  col : s.cursorCol.toNat < vgaCols

/-- A cell is written at or behind the start of its row. -/
theorem writeCell_draws (c : UInt8) (s : Screen) (inRow : row.toNat < vgaRows)
    (inCol : col.toNat < vgaCols) (above : low ≤ row.toNat * vgaCols) :
    Draws low s (s.writeCell row col c) ∧ SameCursor s (s.writeCell row col c) := by
  have pos : (row * BitVec.ofNat 32 vgaCols + col).toNat = row.toNat * vgaCols + col.toNat := by
    rw [BitVec.toNat_add, BitVec.toNat_mul, BitVec.toNat_ofNat]
    unfold vgaRows vgaCols at *
    omega
  have inside : row.toNat * vgaCols + col.toNat < vgaExtent := by
    unfold vgaExtent vgaRows vgaCols at *
    omega
  unfold Screen.writeCell
  simp only [pos, if_neg (Nat.not_le.mpr inside)]
  exact ⟨draws_store _ _ (by omega) inside, rfl, rfl⟩

/-- The cursor has moved from a place on the screen: no further up than `top`, and
down by at most the one line that makes the screen scroll. -/
structure Moved (top : Nat) (s t : Screen) : Prop where
  draws : Draws (top * vgaCols) s t
  above : top ≤ t.cursorRow.toNat
  below : t.cursorRow.toNat ≤ vgaRows
  col : t.cursorCol.toNat < vgaCols

variable {top : Nat}

theorem toNat_succ {a : UInt} (small : a.toNat ≤ vgaExtent) : (a + 1).toNat = a.toNat + 1 := by
  rw [BitVec.toNat_add]
  unfold vgaExtent vgaRows vgaCols at small
  exact Nat.mod_eq_of_lt (by simp; omega)

theorem toNat_pred {a : UInt} (positive : 0 < a.toNat) : (a - 1).toNat = a.toNat - 1 := by
  bv_omega

/-- One column on, into the next line at the end of this one. -/
theorem wrapLine_moved (draws : Draws (top * vgaCols) s t) (above : top ≤ t.cursorRow.toNat)
    (row : t.cursorRow.toNat < vgaRows) : Moved top s t.wrapLine := by
  have next : (t.cursorRow + 1).toNat = t.cursorRow.toNat + 1 :=
    toNat_succ (by unfold vgaExtent vgaRows vgaCols at *; omega)
  unfold Screen.wrapLine
  split
  · constructor
    · exact ⟨draws.kept, draws.stored⟩
    · change top ≤ (t.cursorRow + 1).toNat
      omega
    · change (t.cursorRow + 1).toNat ≤ vgaRows
      omega
    · exact Nat.zero_lt_succ 79
  · next inLine =>
    constructor
    · exact draws
    · exact above
    · exact Nat.le_of_lt row
    · omega

/-- By induction on the turns: the column does not pass the end of the line. -/
theorem tabLoop_draws (nextStop : UInt) (fuel : Nat) (s : Screen)
    (row : s.cursorRow.toNat < vgaRows) (col : s.cursorCol.toNat ≤ vgaCols)
    (above : low ≤ s.cursorRow.toNat * vgaCols) :
    Draws low s (s.tabLoop nextStop fuel) ∧ (s.tabLoop nextStop fuel).cursorRow = s.cursorRow ∧
      (s.tabLoop nextStop fuel).cursorCol.toNat ≤ vgaCols := by
  induction fuel generalizing s with
  | zero => exact ⟨Draws.refl low s, rfl, col⟩
  | succ fuel ih =>
    rw [Screen.tabLoop]
    split
    · next turn =>
      obtain ⟨draws, sameRow, sameCol⟩ := writeCell_draws blank s row turn.2 above
      have step : (s.cursorCol + 1).toNat = s.cursorCol.toNat + 1 :=
        toNat_succ (by unfold vgaExtent vgaRows vgaCols at *; omega)
      simp only [sameCol]
      obtain ⟨rest, rowAfter, colAfter⟩ := ih
        { s.writeCell s.cursorRow s.cursorCol blank with cursorCol := s.cursorCol + 1 }
        (by rw [sameRow]; exact row) (by rw [step]; omega) (by rw [sameRow]; exact above)
      have here : Draws low s
          { s.writeCell s.cursorRow s.cursorCol blank with cursorCol := s.cursorCol + 1 } :=
        ⟨draws.kept, draws.stored⟩
      exact ⟨here.trans rest, rowAfter.trans sameRow, colAfter⟩
    · exact ⟨Draws.refl low s, rfl, col⟩

theorem putGlyph_moved (c : UInt8) (onScreen : OnScreen s) (above : top ≤ s.cursorRow.toNat)
    (input : top ≤ inputStartRow) : Moved top s (s.putGlyph c) := by
  have row := onScreen.row
  have col := onScreen.col
  have start : top * vgaCols ≤ s.cursorRow.toNat * vgaCols := Nat.mul_le_mul_right vgaCols above
  have down : (s.cursorRow + 1).toNat = s.cursorRow.toNat + 1 :=
    toNat_succ (by unfold vgaExtent vgaRows vgaCols at *; omega)
  unfold Screen.putGlyph
  split
  · -- a new line
    constructor
    · exact ⟨fun _ _ => rfl, (Draws.refl (top * vgaCols) s).stored⟩
    · change top ≤ (s.cursorRow + 1).toNat
      omega
    · change (s.cursorRow + 1).toNat ≤ vgaRows
      omega
    · exact Nat.zero_lt_succ 79
  split
  · split
    · next inside =>
      have back : (s.cursorCol - 1).toNat = s.cursorCol.toNat - 1 :=
        toNat_pred (BitVec.lt_def.mp inside)
      have left : (s.cursorCol - 1).toNat < vgaCols := by omega
      obtain ⟨draws, sameRow, sameCol⟩ := writeCell_draws blank
        { s with cursorCol := s.cursorCol - 1 } row left start
      constructor
      · exact ⟨draws.kept, draws.stored⟩
      · rw [sameRow]
        exact above
      · rw [sameRow]
        exact Nat.le_of_lt row
      · rw [sameCol]
        exact left
    · split
      · next lower =>
        have up : (s.cursorRow - 1).toNat = s.cursorRow.toNat - 1 := toNat_pred (by omega)
        have still : top ≤ (s.cursorRow - 1).toNat := by omega
        have rowAbove : (s.cursorRow - 1).toNat < vgaRows := by omega
        obtain ⟨draws, sameRow, sameCol⟩ := writeCell_draws blank
          { s with cursorRow := s.cursorRow - 1, cursorCol := BitVec.ofNat 32 (vgaCols - 1) }
          rowAbove (by decide : (BitVec.ofNat 32 (vgaCols - 1)).toNat < vgaCols)
          (Nat.mul_le_mul_right vgaCols still)
        constructor
        · exact ⟨draws.kept, draws.stored⟩
        · rw [sameRow]
          exact still
        · rw [sameRow]
          exact Nat.le_of_lt rowAbove
        · rw [sameCol]
          exact (by decide : (BitVec.ofNat 32 (vgaCols - 1)).toNat < vgaCols)
      · exact ⟨Draws.refl _ s, above, Nat.le_of_lt row, col⟩
  split
  · obtain ⟨draws, sameRow, line⟩ := tabLoop_draws
      (BitVec.ofNat 32 ((s.cursorCol.toNat / tabWidth + 1) * tabWidth))
      (BitVec.ofNat 32 ((s.cursorCol.toNat / tabWidth + 1) * tabWidth) - s.cursorCol).toNat s row
      (Nat.le_of_lt col) start
    exact wrapLine_moved draws (by rw [sameRow]; exact above) (by rw [sameRow]; exact row)
  · obtain ⟨draws, sameRow, sameCol⟩ := writeCell_draws c s row col start
    simp only [sameCol]
    have draws' : Draws (top * vgaCols) s
        { s.writeCell s.cursorRow s.cursorCol c with cursorCol := s.cursorCol + 1 } :=
      ⟨draws.kept, draws.stored⟩
    exact wrapLine_moved draws' (by rw [sameRow]; exact above) (by rw [sameRow]; exact row)

/-- By induction on the turns: they end on the screen. -/
theorem scrollLoop_moved (fuel : Nat) (above : top ≤ s.cursorRow.toNat)
    (input : top ≤ inputStartRow) (enough : s.cursorRow.toNat < vgaRows + fuel)
    (col : s.cursorCol.toNat < vgaCols) :
    Draws (top * vgaCols) s (s.scrollLoop fuel) ∧ OnScreen (s.scrollLoop fuel) ∧
      top ≤ (s.scrollLoop fuel).cursorRow.toNat := by
  induction fuel generalizing s with
  | zero => exact ⟨Draws.refl _ s, ⟨enough, col⟩, above⟩
  | succ fuel ih =>
    rw [Screen.scrollLoop]
    split
    · next beyond =>
      obtain ⟨draws, sameRow, sameCol⟩ := scrollUp_draws s
      have up : (s.cursorRow - 1).toNat = s.cursorRow.toNat - 1 :=
        toNat_pred (Nat.lt_of_lt_of_le (by decide) beyond)
      have lines : inputStartRow < vgaRows := by decide
      simp only [sameRow]
      obtain ⟨rest, onScreen, still⟩ := ih (s := { s.scrollUp with cursorRow := s.cursorRow - 1 })
        (by change top ≤ (s.cursorRow - 1).toNat; omega)
        (by change (s.cursorRow - 1).toNat < _; omega) (by rw [sameCol]; exact col)
      have scrolled : Draws (top * vgaCols) s { s.scrollUp with cursorRow := s.cursorRow - 1 } :=
        have draws := draws.mono (Nat.mul_le_mul_right vgaCols input)
        ⟨draws.kept, draws.stored⟩
      exact ⟨scrolled.trans rest, onScreen, still⟩
    · next inside => exact ⟨Draws.refl _ s, ⟨Nat.lt_of_not_le inside, col⟩, above⟩

/-! ## The calls -/

/-- A character stays below the row that the cursor has been below. -/
theorem putchar_spec (c : UInt8) (onScreen : OnScreen s) (above : top ≤ s.cursorRow.toNat)
    (input : top ≤ inputStartRow) :
    Draws (top * vgaCols) s (s.putcharAtCursor c) ∧ OnScreen (s.putcharAtCursor c) ∧
      top ≤ (s.putcharAtCursor c).cursorRow.toNat := by
  have moved := putGlyph_moved c onScreen above input
  obtain ⟨draws, onScreen', above'⟩ := scrollLoop_moved (s.putGlyph c).cursorRow.toNat moved.above
    input (Nat.lt_add_of_pos_left (by decide)) moved.col
  have both := moved.draws.trans draws
  exact ⟨⟨both.kept, both.stored⟩, ⟨onScreen'.row, onScreen'.col⟩, above'⟩

theorem clearwin_draws (s : Screen) : Draws 0 s s.clearwin ∧ SameCursor s s.clearwin :=
  storeEach_draws _ _ _ (fun i hi => ⟨Nat.zero_le i, hi⟩) s

theorem videoDrawRow_draws (row : UInt) (buf : Buffer) (len : UInt) (s : Screen) :
    Draws 0 s (s.videoDrawRow row buf len) ∧ SameCursor s (s.videoDrawRow row buf len) := by
  unfold Screen.videoDrawRow
  split
  · exact ⟨Draws.refl 0 s, rfl, rfl⟩
  · next inside =>
    apply storeEach_draws
    intro col hcol
    unfold vgaExtent vgaRows vgaCols at *
    omega

theorem OnScreen.same (onScreen : OnScreen s) (same : SameCursor s t) : OnScreen t := by
  constructor
  · rw [same.1]
    exact onScreen.row
  · rw [same.2]
    exact onScreen.col

/-- Wherever the cursor was, each call stores on the screen and leaves it there. -/
theorem videoCall_onScreen (call : VideoCall) (onScreen : OnScreen s) :
    OnScreen (videoCall s call) ∧ Draws 0 s (videoCall s call) := by
  cases call with
  | putchar c =>
    obtain ⟨draws, onScreen', -⟩ := putchar_spec c onScreen (Nat.zero_le _) (Nat.zero_le _)
    exact ⟨onScreen', draws.mono (Nat.zero_le _)⟩
  | setCursor row col =>
    have there : OnScreen (s.videoSetCursor row col) := by
      constructor
      · change (if row.toNat < vgaRows then row else s.cursorRow).toNat < vgaRows
        split
        · assumption
        · exact onScreen.row
      · change (if col.toNat < vgaCols then col else s.cursorCol).toNat < vgaCols
        split
        · assumption
        · exact onScreen.col
    exact ⟨there, fun _ _ => rfl, (Draws.refl 0 s).stored⟩
  | drawRow row buf len =>
    obtain ⟨draws, same⟩ := videoDrawRow_draws row buf len s
    exact ⟨onScreen.same same, draws⟩
  | clearwin =>
    obtain ⟨draws, same⟩ := clearwin_draws s
    exact ⟨onScreen.same same, draws⟩
  | resetCursor =>
    have there : OnScreen s.videoResetCursor :=
      ⟨(by decide : (BitVec.ofNat 32 inputStartRow).toNat < vgaRows), Nat.zero_lt_succ 79⟩
    exact ⟨there, fun _ _ => rfl, (Draws.refl 0 s).stored⟩

/-- Below the title rows the cursor stays there, unless `video_set_cursor` is told
otherwise. -/
theorem videoCall_below (call : VideoCall) (onScreen : OnScreen s)
    (below : inputStartRow ≤ s.cursorRow.toNat) (placed : ¬ PlacesAbove call) :
    inputStartRow ≤ (videoCall s call).cursorRow.toNat := by
  cases call with
  | putchar c => exact (putchar_spec c onScreen below (Nat.le_refl _)).2.2
  | setCursor row col =>
    change inputStartRow ≤ (if row.toNat < vgaRows then row else s.cursorRow).toNat
    split
    · exact Nat.le_of_not_lt placed
    · exact below
  | drawRow row buf len =>
    rw [videoCall, (videoDrawRow_draws row buf len s).2.1]
    exact below
  | clearwin =>
    rw [videoCall, (clearwin_draws s).2.1]
    exact below
  | resetCursor => exact (by decide : inputStartRow ≤ (BitVec.ofNat 32 inputStartRow).toNat)

/-! ## Runs -/

/-- The run lemma, by induction on the calls. -/
theorem videoCalls_onScreen (calls : List VideoCall) (onScreen : OnScreen s) :
    OnScreen (calls.foldl videoCall s) ∧ Draws 0 s (calls.foldl videoCall s) := by
  induction calls generalizing s with
  | nil => exact ⟨onScreen, Draws.refl 0 s⟩
  | cons call calls ih =>
    obtain ⟨onScreen', draws⟩ := videoCall_onScreen call onScreen
    obtain ⟨ends, rest⟩ := ih onScreen'
    exact ⟨ends, draws.trans rest⟩

theorem videoCalls_below (calls : List VideoCall) (onScreen : OnScreen s)
    (below : inputStartRow ≤ s.cursorRow.toNat) (placed : ∀ call ∈ calls, ¬ PlacesAbove call) :
    inputStartRow ≤ (calls.foldl videoCall s).cursorRow.toNat := by
  induction calls generalizing s with
  | nil => exact below
  | cons call calls ih =>
    have here := videoCall_below call onScreen below (placed call List.mem_cons_self)
    exact ih (videoCall_onScreen call onScreen).1 here fun c h =>
      placed c (List.mem_cons_of_mem call h)

theorem loaded_onScreen (textArea : Nat → VgaChar) (crtcCursor : BitVec 16) :
    OnScreen (loaded textArea crtcCursor) :=
  ⟨(by decide : (BitVec.ofNat 32 inputStartRow).toNat < vgaRows), Nat.zero_lt_succ 79⟩

/-- After any calls the cursor and every cell that was stored to are on the screen;
and if none of them has placed the cursor above the input, the next character
neither changes nor stores a cell of the three rows there. -/
theorem cursor_stays_on_screen (textArea : Nat → VgaChar) (crtcCursor : BitVec 16)
    (calls : List VideoCall) :
    OnScreen (calls.foldl videoCall (loaded textArea crtcCursor)) ∧
      (∀ p ∈ (calls.foldl videoCall (loaded textArea crtcCursor)).stores, p < vgaExtent) ∧
      ((∀ call ∈ calls, ¬ PlacesAbove call) → ∀ c, Draws (inputStartRow * vgaCols)
        (calls.foldl videoCall (loaded textArea crtcCursor))
        (videoCall (calls.foldl videoCall (loaded textArea crtcCursor)) (.putchar c))) := by
  have start := loaded_onScreen textArea crtcCursor
  obtain ⟨onScreen, draws⟩ := videoCalls_onScreen calls start
  obtain ⟨ps, stored, inside⟩ := draws.stored
  constructor
  · exact onScreen
  constructor
  · intro p hp
    rw [stored] at hp
    exact (inside p hp).2
  · intro placed c
    have first : inputStartRow ≤ (loaded textArea crtcCursor).cursorRow.toNat :=
      (by decide : inputStartRow ≤ (BitVec.ofNat 32 inputStartRow).toNat)
    have below := videoCalls_below calls start first placed
    exact (putchar_spec c onScreen below (Nat.le_refl _)).1

end MiniKernel.Drivers.Video
