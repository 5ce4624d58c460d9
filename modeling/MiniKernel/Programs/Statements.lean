import MiniKernel.Programs.Trees
import MiniKernel.Programs.LineReader

/-!
# The statements of the script language

Source: src/programs/lang.c:70-90 and 200-386. A line is what stands before its NUL
in its row of `lines`.
-/
namespace MiniKernel.Programs.Lang
open LineReader (Stdin Reading readLineStdin newline)

def str (s : String) : Text := s.toList.map ch

/-- `str_starts_with`. -/
def startsWith (s start : Text) : Bool := start.isPrefixOf s

/-- `print_int`: what it writes. -/
def printInt (value : Word) : Text :=
  let v := if value.slt 0 then -value else value
  (if value.slt 0 then [ch '-'] else []) ++ (Nat.toDigits 10 v.toNat).map ch

/-- What ends a statement before its time. -/
inductive Stop where
  | divideError
  /-- The store through the null pointer of `var_ref`. -/
  | nullStore
  /-- `read_line_stdin` goes round at the end of its input. -/
  | readsForever
  /-- The console has no key yet. -/
  | waits
  deriving DecidableEq, Repr

structure Interp where
  vars : List Var
  input : Stdin
  output : Text
  deriving DecidableEq, Repr

/-- `*jumped`, `*target` and `*running`. -/
structure Control where
  jumped : Bool
  target : Word
  running : Bool
  deriving DecidableEq, Repr

def Interp.print (it : Interp) (t : Text) : Interp := { it with output := it.output ++ t }

/-- The three `print` of a syntax error. -/
def Interp.syntaxError (it : Interp) (what : String) (lineNo : Word) : Interp :=
  it.print (str what ++ printInt lineNo ++ [newline])

def badName : String := "syntax error (bad name) on line "
def expectedEquals : String := "syntax error (expected '=') on line "
def expectedGoto : String := "syntax error (expected 'goto') on line "
def unknownStatement : String := "syntax error (unknown statement) on line "

/-- `parse_expr` at the position; it always comes to an end, see `evalExpr_eq`. -/
def evalExpr (vars : List Var) (s : Text) : Except Stop (Word × Text) :=
  match parseExpr vars (depth s) s with
  | .ok result => .ok result
  | .error _ => .error .divideError

/-- `*var_ref(name, 1) = value`. -/
def assign (vars : List Var) (name : Text) (value : Word) : Except Stop (List Var) :=
  match varRef vars name true with
  | (some i, vars) => .ok (vars.modify i fun v => { v with value := value })
  | (none, _) => .error .nullStore

/-- `read_line_stdin(buf, sizeof(buf))`, when its `c` happens to hold `garbage`. -/
def Interp.readLine (it : Interp) (garbage : UInt8) : Except Stop (Text × Interp) :=
  match readLineStdin.loop 32 (it.input.bytes.length + 1) (.start garbage it.input) with
  | some r => .ok (r.buf, { it with input := r.input, output := it.output ++ r.output })
  | none => .error (if it.input.ending = .waits then .waits else .readsForever)

def readCmpOp (s : Text) : Nat × Text :=
  let s := skipWs s
  let a := peek s
  let b := peek s.tail
  if a ∈ [ch '=', ch '!', ch '<', ch '>'] ∧ b = ch '=' then
    (a.toNat ||| (b.toNat <<< 8), s.tail.tail)
  else if a = ch '<' ∨ a = ch '>' then (a.toNat, s.tail)
  else (0, s)

def evalCmp (lhs : Word) (op : Nat) (rhs : Word) : Bool :=
  if op = (ch '=').toNat ||| ((ch '=').toNat <<< 8) then lhs == rhs
  else if op = (ch '!').toNat ||| ((ch '=').toNat <<< 8) then lhs != rhs
  else if op = (ch '<').toNat ||| ((ch '=').toNat <<< 8) then lhs.sle rhs
  else if op = (ch '>').toNat ||| ((ch '=').toNat <<< 8) then rhs.sle lhs
  else if op = (ch '<').toNat then lhs.slt rhs
  else if op = (ch '>').toNat then rhs.slt lhs
  else false

def parseLineNumber (s : Text) : Word := if isDigit (peek s) then (readNumber 0 s).1 else -1

/-! ## `exec_line` -/

/-- Behind `let `. -/
def execLet (it : Interp) (s : Text) (lineNo : Word) : Except Stop Interp :=
  let (name, s) := readIdent (skipWs s)
  if name = [] then .ok (it.syntaxError badName lineNo)
  else
    let s := skipWs s
    if peek s ≠ ch '=' then .ok (it.syntaxError expectedEquals lineNo)
    else do
      let (value, _) ← evalExpr it.vars s.tail
      let vars ← assign it.vars name value
      .ok { it with vars := vars }

/-- Behind `print `. -/
def execPrint (it : Interp) (s : Text) : Except Stop Interp :=
  let s := skipWs s
  if peek s = ch '"' then
    .ok (it.print (s.tail.takeWhile (fun c => c ≠ 0 ∧ c ≠ ch '"') ++ [newline]))
  else do
    let (v, _) ← evalExpr it.vars s
    .ok (it.print (printInt v ++ [newline]))

/-- Behind `input `. -/
def execInput (it : Interp) (s : Text) (lineNo : Word) (garbage : UInt8) : Except Stop Interp :=
  let (name, _) := readIdent (skipWs s)
  if name = [] then .ok (it.syntaxError badName lineNo)
  else do
    let (buf, it) ← (it.print (str "? ")).readLine garbage
    let (value, _) ← evalExpr it.vars (skipWs buf)
    let vars ← assign it.vars name value
    .ok { it with vars := vars }

/-- `*jumped = 1; *target = tgt` for a target from 1 on. -/
def Control.jumpTo (control : Control) (tgt : Word) : Control :=
  if (1 : Word).sle tgt then { control with jumped := true, target := tgt } else control

/-- Behind `if `. -/
def execIf (it : Interp) (control : Control) (s : Text) (lineNo : Word) :
    Except Stop (Interp × Control) := do
  let (lhs, s) ← evalExpr it.vars s
  let (op, s) := readCmpOp s
  let (rhs, s) ← evalExpr it.vars s
  let s := skipWs s
  if startsWith s (str "goto ") then
    let tgt := parseLineNumber (skipWs (s.drop 5))
    .ok (it, if evalCmp lhs op rhs then control.jumpTo tgt else control)
  else .ok (it.syntaxError expectedGoto lineNo, control)

def execLine (it : Interp) (control : Control) (line : Text) (lineNo : Word) (garbage : UInt8) :
    Except Stop (Interp × Control) :=
  let s := skipWs line
  if peek s = 0 ∨ peek s = ch '#' then .ok (it, control)
  else if startsWith s (str "let ") then do .ok (← execLet it (s.drop 4) lineNo, control)
  else if startsWith s (str "print ") then do .ok (← execPrint it (s.drop 6), control)
  else if startsWith s (str "input ") then do
    .ok (← execInput it (s.drop 6) lineNo garbage, control)
  else if startsWith s (str "if ") then execIf it control (s.drop 3) lineNo
  else if startsWith s (str "goto ") then
    .ok (it, control.jumpTo (parseLineNumber (skipWs (s.drop 5))))
  else if s.takeWhile (· ≠ 0) = str "end" then .ok (it, { control with running := false })
  else .ok (it.syntaxError unknownStatement lineNo, control)

/-! ## The parts -/

variable {s t line : Text} {it : Interp} {control : Control} {lineNo : Word} {garbage : UInt8}

theorem evalExpr_eq (vars : List Var) (s : Text) : evalExpr vars s =
    if (readExpr s).1.Divides vars then .ok ((readExpr s).1.value vars, (readExpr s).2)
    else .error .divideError := by
  have ends := parseExpr_ends vars s 0
  rw [Nat.add_zero, outcome, Expr.evaluate] at ends
  rw [evalExpr, ends]
  by_cases safe : (readExpr s).1.Divides vars
  · rw [if_pos safe, if_pos safe]
    rfl
  · rw [if_neg safe, if_neg safe]
    rfl

theorem readLineStdin_honest : readLineStdin.Honest :=
  LineReader.readers_honest (by simp [LineReader.readers])

/-- Where the input has a newline, the line before it is read. -/
theorem readLine_of_newline (it : Interp) (ended : newline ∈ it.input.bytes) (garbage : UInt8) :
    ∃ input output, it.readLine garbage = .ok (LineReader.lineOf 32 it.input.bytes,
      { it with input := input, output := it.output ++ output }) := by
  obtain ⟨before, rest, split, plain⟩ := List.eq_append_cons_of_mem ended
  have enough : before.length < it.input.bytes.length + 1 := by
    rw [split, List.length_append]
    omega
  obtain ⟨output, returns⟩ := LineReader.loop_returns readLineStdin_honest (by decide : (32 : Word) ≠ 0)
    _ (.start garbage it.input) plain split enough
  refine ⟨{ it.input with bytes := rest }, output, ?_⟩
  rw [Interp.readLine, returns, split, LineReader.lineOf_append plain]
  rfl

/-- On a console without an end of line, the reader waits for the next key. -/
theorem readLine_waits (it : Interp) (plain : newline ∉ it.input.bytes)
    (console : it.input.ending = .waits) (garbage : UInt8) :
    it.readLine garbage = .error .waits := by
  have never := LineReader.loop_never readLineStdin_honest (by decide : (32 : Word) ≠ 0)
    (it.input.bytes.length + 1) (.start garbage it.input) plain (Or.inr console)
  rw [Interp.readLine, never]
  exact congrArg Except.error (if_pos console)

/-- Where the model stops, the program never comes back. -/
theorem readLine_stops {it : Interp} {garbage : UInt8} {stop : Stop}
    (stops : it.readLine garbage = .error stop) (fuel : Nat) :
    readLineStdin.loop 32 fuel (.start garbage it.input) = none := by
  unfold Interp.readLine at stops
  split at stops
  · cases stops
  · next out =>
    exact LineReader.loop_fuel readLineStdin_honest (by decide) _ _ (Nat.lt_succ_self _) out fuel

/-! ## Which statement a line is -/

theorem startsWith_iff (s t : Text) : startsWith s t = true ↔ ∃ rest, s = t ++ rest := by
  rw [startsWith, List.isPrefixOf_iff_prefix]
  constructor
  · intro starts
    obtain ⟨rest, whole⟩ := starts
    exact ⟨rest, whole.symm⟩
  · intro starts
    obtain ⟨rest, whole⟩ := starts
    exact ⟨rest, whole.symm⟩

/-- A line starts with no keyword but its own. -/
theorem startsWith_other {own other : Text} (here : s = own ++ t)
    (apart : ¬ (own <+: other ∨ other <+: own)) : ¬ startsWith s other = true := by
  intro starts
  rw [here] at starts
  exact apart (List.prefix_or_prefix_of_prefix (List.prefix_append own t)
    (List.isPrefixOf_iff_prefix.mp starts))

/-- Behind a keyword. -/
theorem keyword_rest {own : Text} {n : Nat} (here : s = own ++ t) (length : own.length = n) :
    s.drop n = t := by
  rw [here]
  exact List.drop_left' length

theorem peek_keyword {own : Text} {c : UInt8} (here : s = own ++ t) (first : own.head? = some c) :
    peek s = c := by
  rw [here, peek, List.headD_eq_head?_getD, List.head?_append, first]
  rfl

theorem execLine_let (here : skipWs line = str "let " ++ t) :
    execLine it control line lineNo garbage =
      (do .ok (← execLet it t lineNo, control)) := by
  have starts := (startsWith_iff _ _).mpr ⟨t, here⟩
  have first : peek (skipWs line) = ch 'l' := peek_keyword here (by decide +kernel)
  rw [execLine, if_neg (by rw [first]; decide), if_pos starts, keyword_rest here (by decide +kernel)]

theorem execLine_input (here : skipWs line = str "input " ++ t) :
    execLine it control line lineNo garbage =
      (do .ok (← execInput it t lineNo garbage, control)) := by
  have starts := (startsWith_iff _ _).mpr ⟨t, here⟩
  have first : peek (skipWs line) = ch 'i' := peek_keyword here (by decide +kernel)
  rw [execLine, if_neg (by rw [first]; decide), if_neg (startsWith_other here (by decide +kernel)),
    if_neg (startsWith_other here (by decide +kernel)), if_pos starts,
    keyword_rest here (by decide +kernel)]

theorem execLine_if (here : skipWs line = str "if " ++ t) :
    execLine it control line lineNo garbage = execIf it control t lineNo := by
  have starts := (startsWith_iff _ _).mpr ⟨t, here⟩
  have first : peek (skipWs line) = ch 'i' := peek_keyword here (by decide +kernel)
  rw [execLine, if_neg (by rw [first]; decide), if_neg (startsWith_other here (by decide +kernel)),
    if_neg (startsWith_other here (by decide +kernel)),
    if_neg (startsWith_other here (by decide +kernel)), if_pos starts,
    keyword_rest here (by decide +kernel)]

theorem execLine_goto (here : skipWs line = str "goto " ++ t) :
    execLine it control line lineNo garbage =
      .ok (it, control.jumpTo (parseLineNumber (skipWs t))) := by
  have starts := (startsWith_iff _ _).mpr ⟨t, here⟩
  have first : peek (skipWs line) = ch 'g' := peek_keyword here (by decide +kernel)
  rw [execLine, if_neg (by rw [first]; decide), if_neg (startsWith_other here (by decide +kernel)),
    if_neg (startsWith_other here (by decide +kernel)),
    if_neg (startsWith_other here (by decide +kernel)),
    if_neg (startsWith_other here (by decide +kernel)), if_pos starts,
    keyword_rest here (by decide +kernel)]
end MiniKernel.Programs.Lang
