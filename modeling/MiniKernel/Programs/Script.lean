import MiniKernel.Lib.Machine
import MiniKernel.Lib.Words
import MiniKernel.Programs.Edit
import MiniKernel.Programs.Statements

/-!
# Running a script

Source: src/programs/lang.c:263-272 (`parse_line_number`), 345-376 (`if` and `goto`)
and 388-445 (`load_script` and `run_script`). One event is a round of the loop of
`run_script`.
-/
namespace MiniKernel.Programs.Lang
open LineReader (newline)
open Lib.Machine (run)

def maxLines : Nat := 200
def maxLineLen : Nat := 120
def stepLimit : Nat := 2000000

/-- `lines` and `line_count`. -/
structure Script where
  lines : List Text
  few : lines.length ≤ maxLines
  rows : ∀ line ∈ lines, line.length ≤ maxLineLen

/-- `load_script`, for the content of the file; its loop is that of `load_file` in
edit.c. -/
def loadScript (content : Text) : Script where
  lines := Edit.splitLines content
  few := (Edit.splitLines_fits content).1
  rows := (Edit.splitLines_fits content).2

inductive Ending where
  /-- The condition of the loop is false. -/
  | finished
  | stepLimit
  /-- A statement does not come to its end. -/
  | stopped (stop : Stop)
  /-- `lines[pc]` is not one of the lines. -/
  | outside
  deriving DecidableEq, Repr

structure ScriptRun where
  pc : BitVec 32
  running : Bool
  steps : Nat
  interp : Interp
  ended : Option Ending
  /-- The lines executed so far. -/
  executed : List Nat
  deriving DecidableEq, Repr

namespace ScriptRun

/-- The condition of the loop. -/
def inLoop (script : Script) (s : ScriptRun) : Bool :=
  s.running ∧ 0 ≤ s.pc.toInt ∧ s.pc.toInt < script.lines.length

def limitMessage : Text := str "lang: step limit exceeded (possible infinite loop)" ++ [newline]

/-- A round; none where the loop is over or a statement waits for a key. -/
def round (script : Script) (s : ScriptRun) (garbage : UInt8) : Option ScriptRun :=
  if s.ended ≠ none then none
  else if s.inLoop script then
    if s.steps + 1 > Lang.stepLimit then
      some { s with
        steps := s.steps + 1
        interp := s.interp.print limitMessage
        ended := some .stepLimit }
    else
      match script.lines[s.pc.toNat]? with
      | none => some { s with ended := some .outside }
      | some line =>
        match execLine s.interp ⟨false, -1, s.running⟩ line ((s.pc + 1).signExtend 64) garbage with
        | .error .waits => none
        | .error stop =>
          some { s with
            steps := s.steps + 1
            ended := some (.stopped stop)
            executed := s.executed ++ [s.pc.toNat] }
        | .ok (it, control) =>
          some { s with
            pc := if control.jumped then control.target.setWidth 32 - 1 else s.pc + 1
            running := control.running
            steps := s.steps + 1
            interp := it
            executed := s.executed ++ [s.pc.toNat] }
  else some { s with ended := some .finished }

def init (it : Interp) : ScriptRun where
  pc := 0
  running := true
  steps := 0
  interp := it
  ended := none
  executed := []

/-- The index of the line that comes next, if the loop goes on. -/
def next (script : Script) (s : ScriptRun) : Option Nat :=
  if s.inLoop script then some s.pc.toNat else none

/-- The line that the next round executes. -/
def line (script : Script) (s : ScriptRun) : Option Text :=
  if s.ended = none ∧ s.inLoop script ∧ s.steps < Lang.stepLimit then script.lines[s.pc.toNat]?
  else none

/-- No access outside the loaded lines, and no more lines executed than the limit. -/
structure Within (script : Script) (s : ScriptRun) : Prop where
  inside : s.ended ≠ some .outside
  executed : ∀ i ∈ s.executed, i < script.lines.length
  few : s.executed.length ≤ Lang.stepLimit

end ScriptRun

/-! ## Jumps -/

/-- `goto ` and a literal, with anything behind it. -/
def GotoText (s digits : Text) : Prop :=
  ∃ ws rest, s = str "goto " ++ (ws ++ (digits ++ rest)) ∧ Blank ws ∧ IsLiteral digits ∧
    isDigit (peek rest) = false

/-- The line is a jump that is taken. -/
inductive TakenGoto (vars : List Var) (line digits : Text) : Prop where
  | always (goto : GotoText (skipWs line) digits)
  | compared {t s₁ s₂ s₃ : Text} {lhs rhs : Word} {op : Nat}
      (here : skipWs line = str "if " ++ t) (left : evalExpr vars t = .ok (lhs, s₁))
      (operator : readCmpOp s₁ = (op, s₂)) (right : evalExpr vars s₂ = .ok (rhs, s₃))
      (holds : evalCmp lhs op rhs = true) (goto : GotoText (skipWs s₃) digits)

namespace ScriptRun

/-- What comes after a jump to line `n`: that line; in order for 0; nothing for a
line that does not exist. -/
def target (script : Script) (s : ScriptRun) (n : Nat) : Option Nat :=
  if 1 ≤ n ∧ n ≤ script.lines.length then some (n - 1)
  else if n = 0 ∧ s.pc.toNat + 1 < script.lines.length then some (s.pc.toNat + 1)
  else none

def GoesRight (script : Script) (s : ScriptRun) (n : Nat) : Prop :=
  ∀ garbage, ∃ t, s.round script garbage = some t ∧ t.next script = s.target script n

/-- The literal denotes a line, or 0; or what is left of it in 64 bits is a positive
number that ends in 32 bits with 0 or the number of no line; or what is left of it
is no positive number, and the jump stands in the last line. -/
def KeepsLine (script : Script) (s : ScriptRun) (n : Nat) : Prop :=
  n ≤ script.lines.length ∨
  (0 < n % 2 ^ 64 ∧ n % 2 ^ 64 < 2 ^ 63 ∧
    (n % 2 ^ 32 = 0 ∨ script.lines.length < n % 2 ^ 32)) ∨
  ((n % 2 ^ 64 = 0 ∨ 2 ^ 63 ≤ n % 2 ^ 64) ∧ s.pc.toNat + 1 = script.lines.length)

instance (script : Script) (s : ScriptRun) (n : Nat) : Decidable (s.KeepsLine script n) :=
  inferInstanceAs (Decidable (_ ∨ _ ∨ _))

end ScriptRun

/-! ## What a jump does -/

variable {vars : List Var} {s t line digits : Text} {it : Interp} {control : Control}

/-- The literal at the position is read whole, modulo 2^64. -/
theorem parseLineNumber_literal {ws rest : Text} (blank : Blank ws) (literal : IsLiteral digits)
    (ends : isDigit (peek rest) = false) :
    parseLineNumber (skipWs (ws ++ (digits ++ rest))) = BitVec.ofNat 64 (decimal digits) := by
  have first := literal.first rest
  have plain : isBlank (peek (digits ++ rest)) = false :=
    (isIdentChar_plain (isIdentChar_of_isDigit first)).1
  rw [skipWs_blank blank, skipWs_of_peek plain, parseLineNumber, if_pos first]
  exact readNumber_literal literal ends

theorem execLine_taken (taken : TakenGoto it.vars line digits) (lineNo : Word) (garbage : UInt8) :
    execLine it control line lineNo garbage =
      .ok (it, control.jumpTo (BitVec.ofNat 64 (decimal digits))) := by
  cases taken with
  | always goto =>
    obtain ⟨ws, rest, here, blank, literal, ends⟩ := goto
    rw [execLine_goto here, parseLineNumber_literal blank literal ends]
  | compared here left operator right holds goto =>
    obtain ⟨ws, rest, behind, blank, literal, ends⟩ := goto
    have starts := (startsWith_iff _ _).mpr ⟨_, behind⟩
    rw [execLine_if here, execIf, left]
    dsimp only [bind, Except.bind]
    rw [operator, right]
    dsimp only
    rw [if_pos starts, keyword_rest behind (by decide +kernel),
      parseLineNumber_literal blank literal ends, if_pos holds]

namespace ScriptRun

variable {script : Script} {s t : ScriptRun} {garbage : UInt8}

theorem inLoop_iff : s.inLoop script = true ↔
    s.running = true ∧ s.pc.toNat < script.lines.length := by
  have few : script.lines.length ≤ 2 ^ 31 := Nat.le_trans script.few (by decide)
  rw [inLoop, decide_eq_true_eq, Lib.Words.inRange_iff s.pc _ few]

theorem next_eq (running : s.running = true) : s.next script =
    if s.pc.toNat < script.lines.length then some s.pc.toNat else none := by
  rw [next]
  by_cases here : s.pc.toNat < script.lines.length
  · rw [if_pos (inLoop_iff.mpr ⟨running, here⟩), if_pos here]
  · rw [if_neg fun loop => here (inLoop_iff.mp loop).2, if_neg here]

/-- Where the round goes from a jump to the literal `n`. -/
def jumpPc (s : ScriptRun) (n : Nat) : BitVec 32 :=
  if (1 : Word).sle (BitVec.ofNat 64 n) then (BitVec.ofNat 64 n).setWidth 32 - 1 else s.pc + 1

/-- The round in which a jump is taken. -/
theorem round_taken {line : Text} (here : s.line script = some line)
    (taken : TakenGoto s.interp.vars line digits) :
    s.pc.toNat < script.lines.length ∧ ∃ t : ScriptRun,
      (∀ garbage, s.round script garbage = some t) ∧ t.running = true ∧
        t.pc = s.jumpPc (decimal digits) := by
  unfold ScriptRun.line at here
  split at here
  · next goes =>
    obtain ⟨alive, loop, few⟩ := goes
    obtain ⟨running, inside⟩ := inLoop_iff.mp loop
    have room : ¬ s.steps + 1 > Lang.stepLimit := by omega
    refine ⟨inside, { s with
      pc := s.jumpPc (decimal digits)
      steps := s.steps + 1
      executed := s.executed ++ [s.pc.toNat] }, fun garbage => ?_, running, rfl⟩
    rw [round, if_neg (not_not.mpr alive), if_pos loop, if_neg room, here]
    dsimp only
    rw [execLine_taken taken]
    dsimp only
    rw [Control.jumpTo, jumpPc]
    split
    · rfl
    · rfl
  · cases here

theorem target_line {n : Nat} (line : 1 ≤ n ∧ n ≤ script.lines.length) :
    s.target script n = some (n - 1) := if_pos line

theorem target_none {n : Nat} (large : script.lines.length < n) : s.target script n = none := by
  rw [target, if_neg (by omega), if_neg (by omega)]

/-- A jump that is taken, by what 64 and 32 bits leave of the literal. -/
theorem jumped_iff (script : Script) (s : ScriptRun) (n : Nat)
    (positive : 0 < n % 2 ^ 64 ∧ n % 2 ^ 64 < 2 ^ 63) :
    ((if ((BitVec.ofNat 64 n).setWidth 32 - 1).toNat < script.lines.length then
        some ((BitVec.ofNat 64 n).setWidth 32 - 1).toNat else none) = s.target script n) ↔
      s.KeepsLine script n := by
  have few := script.few
  have narrowed := Lib.Words.narrowed_toNat n
  generalize ((BitVec.ofNat 64 n).setWidth 32 - 1).toNat = pc at narrowed ⊢
  unfold maxLines at few
  unfold KeepsLine
  by_cases small : n ≤ script.lines.length
  · have same : n % 2 ^ 32 = n := Nat.mod_eq_of_lt (by omega)
    rw [same, if_neg (by omega)] at narrowed
    rw [narrowed, if_pos (by omega), target_line ⟨by omega, small⟩]
    exact iff_of_true rfl (Or.inl small)
  · rw [target_none (Nat.lt_of_not_le small)]
    by_cases zero : n % 2 ^ 32 = 0
    · rw [if_pos zero] at narrowed
      rw [if_neg (by omega)]
      exact iff_of_true rfl (Or.inr (Or.inl ⟨positive.1, positive.2, Or.inl zero⟩))
    · rw [if_neg zero] at narrowed
      by_cases lands : pc < script.lines.length
      · rw [if_pos lands]
        exact iff_of_false nofun (by omega)
      · rw [if_neg lands]
        exact iff_of_true rfl (by omega)

/-- A jump that is not taken after all. -/
theorem passed_iff (script : Script) (s : ScriptRun) (n : Nat)
    (here : s.pc.toNat < script.lines.length)
    (other : ¬ (0 < n % 2 ^ 64 ∧ n % 2 ^ 64 < 2 ^ 63)) :
    ((if (s.pc + 1).toNat < script.lines.length then some (s.pc + 1).toNat else none) =
      s.target script n) ↔ s.KeepsLine script n := by
  have few := script.few
  unfold maxLines at few
  have one : (1 : BitVec 32).toNat = 1 := by decide
  have after : (s.pc + 1).toNat = s.pc.toNat + 1 := by
    rw [BitVec.toNat_add, one]
    omega
  rw [after, KeepsLine]
  by_cases zero : n = 0
  · have order : s.target script n = if s.pc.toNat + 1 < script.lines.length then
        some (s.pc.toNat + 1) else none := by
      rw [target, if_neg (by omega)]
      simp only [zero, true_and]
    rw [order]
    exact iff_of_true rfl (Or.inl (by omega))
  · rw [target_none (by omega)]
    by_cases last : s.pc.toNat + 1 < script.lines.length
    · rw [if_pos last]
      exact iff_of_false nofun (by omega)
    · rw [if_neg last]
      exact iff_of_true rfl (by omega)

/-- A jump goes where its literal says exactly under the condition. -/
theorem goesRight_iff {line digits : Text} (here : s.line script = some line)
    (taken : TakenGoto s.interp.vars line digits) :
    s.GoesRight script (decimal digits) ↔ s.KeepsLine script (decimal digits) := by
  obtain ⟨inside, t, step, running, pc⟩ := round_taken here taken
  have decides : s.GoesRight script (decimal digits) ↔
      (if (s.jumpPc (decimal digits)).toNat < script.lines.length then
        some (s.jumpPc (decimal digits)).toNat else none) = s.target script (decimal digits) := by
    rw [← pc, ← next_eq running]
    constructor
    · intro right
      obtain ⟨t', round, lands⟩ := right 0
      rw [step 0] at round
      cases round
      exact lands
    · intro lands garbage
      exact ⟨t, step garbage, lands⟩
  rw [decides, jumpPc]
  by_cases positive : (1 : Word).sle (BitVec.ofNat 64 (decimal digits)) = true
  · rw [if_pos positive]
    exact jumped_iff script s _ ((Lib.Words.positive_iff _).mp positive)
  · rw [if_neg positive]
    exact passed_iff script s _ inside fun range => positive ((Lib.Words.positive_iff _).mpr range)

/-! ## The bounds of the loop -/

/-- No more lines than steps, each of them a line of the script. -/
structure Counted (script : Script) (s : ScriptRun) : Prop where
  inside : s.ended ≠ some .outside
  executed : ∀ i ∈ s.executed, i < script.lines.length
  steps : s.executed.length ≤ s.steps
  few : s.executed.length ≤ Lang.stepLimit

theorem Counted.execute (counted : Counted script s)
    (here : s.pc.toNat < script.lines.length) (room : s.steps + 1 ≤ Lang.stepLimit)
    {t : ScriptRun} (ended : t.ended ≠ some .outside) (steps : t.steps = s.steps + 1)
    (executed : t.executed = s.executed ++ [s.pc.toNat]) : Counted script t := by
  have length : t.executed.length = s.executed.length + 1 := by
    rw [executed, List.length_append, List.length_singleton]
  have before := counted.steps
  constructor
  · exact ended
  · intro i member
    rw [executed] at member
    rcases List.mem_append.mp member with old | new
    · exact counted.executed i old
    · rw [List.mem_singleton.mp new]
      exact here
  · omega
  · omega

theorem counted_round (s : ScriptRun) (garbage : UInt8) (t : ScriptRun) (counted : Counted script s)
    (_ : True) (h : s.round script garbage = some t) : Counted script t := by
  unfold round at h
  split at h
  · cases h
  next alive =>
  rw [not_not] at alive
  split at h
  · next loop =>
    have here := (inLoop_iff.mp loop).2
    split at h
    · cases h
      exact ⟨nofun, counted.executed, Nat.le_succ_of_le counted.steps, counted.few⟩
    next room =>
    rw [Nat.not_lt] at room
    split at h
    · next absent =>
      rw [List.getElem?_eq_none_iff] at absent
      omega
    split at h
    · cases h
    · cases h
      exact counted.execute here room nofun rfl rfl
    · cases h
      exact counted.execute here room (by rw [alive]; exact nofun) rfl rfl
  · cases h
    exact ⟨nofun, counted.executed, counted.steps, counted.few⟩

theorem counted_init (script : Script) (it : Interp) : Counted script (.init it) := by
  constructor
  · exact nofun
  · exact nofun
  · exact Nat.le_refl 0
  · exact Nat.zero_le _

end ScriptRun

open ScriptRun

/-- In every state of every run of a script: the loop has kept to the lines and to
its limit, and a jump that is taken goes where its literal says exactly if the
literal keeps its line. -/
theorem gotos_keep_lines_iff (script : Script) (it : Interp) (es : List UInt8) (s : ScriptRun)
    (ran : run (round script) (.init it) es = some s) :
    s.Within script ∧ ∀ line digits, s.line script = some line →
      TakenGoto s.interp.vars line digits →
        (s.GoesRight script (decimal digits) ↔ s.KeepsLine script (decimal digits)) := by
  have counted := Lib.Machine.run_invariant counted_round (counted_init script it)
    (Lib.Machine.meets_always _ es) ran
  constructor
  · exact ⟨counted.inside, counted.executed, counted.few⟩
  · intro line digits here taken
    exact goesRight_iff here taken

/-- A script whose first line jumps to the literal. -/
def jumpScript (digits : String) : Script :=
  loadScript (str ("goto " ++ digits) ++ newline :: str "end")

theorem jumpScript_taken (digits : String) (vars : List Var)
    (here : skipWs (str ("goto " ++ digits)) = str "goto " ++ ([] ++ (str digits ++ [])))
    (literal : IsLiteral (str digits)) : TakenGoto vars (str ("goto " ++ digits)) (str digits) :=
  .always ⟨[], [], here, nofun, literal, rfl⟩

theorem gotos_keep_lines_second :
    (ScriptRun.init ⟨[], ⟨[], .waits⟩, []⟩).GoesRight (jumpScript "2") (decimal (str "2")) := by
  have taken := jumpScript_taken "2" [] (by decide +kernel)
    ⟨by decide +kernel, by decide +kernel⟩
  exact ((gotos_keep_lines_iff (jumpScript "2") ⟨[], ⟨[], .waits⟩, []⟩ [] _ rfl).2 _ _
    (by decide +kernel) taken).mpr (by decide +kernel)

/-- `goto 4294967298` goes to line 2. -/
theorem goto_wraps :
    ¬ ∀ script it es s, run (round script) (.init it) es = some s →
      ∀ line digits, s.line script = some line → TakenGoto s.interp.vars line digits →
        s.GoesRight script (decimal digits) := by
  intro claim
  have taken := jumpScript_taken "4294967298" [] (by decide +kernel)
    ⟨by decide +kernel, by decide +kernel⟩
  obtain ⟨t, round, lands⟩ := claim (jumpScript "4294967298") ⟨[], ⟨[], .waits⟩, []⟩ [] _ rfl _ _
    (by decide +kernel) taken 0
  have second : ∀ t ∈ ScriptRun.round (jumpScript "4294967298") (.init ⟨[], ⟨[], .waits⟩, []⟩) 0,
      t.next (jumpScript "4294967298") = some 1 := by decide +kernel
  have denotes : (ScriptRun.init ⟨[], ⟨[], .waits⟩, []⟩).target (jumpScript "4294967298")
      (decimal (str "4294967298")) = none := by decide +kernel
  rw [second t round, denotes] at lands
  cases lands

end MiniKernel.Programs.Lang
