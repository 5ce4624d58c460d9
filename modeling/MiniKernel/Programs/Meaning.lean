import MiniKernel.Lib.Goto
import MiniKernel.Programs.Grammar
import MiniKernel.Programs.Variables

/-!
# What a script means

Source: src/programs/lang.c:10-25, the comment that describes the language. Here are
its statements without their spelling, what each one does where the variables are a
map of all names, and the rules for assertions about them. How a statement is
written is `Line`; a jump to line 0 goes on in order.
-/
namespace MiniKernel.Programs.Lang
open LineReader (newline backspace lineOf typed)
open Lib.Goto (Flow Wp)

/-- `==`, `!=`, `<`, `>`, `<=` and `>=`. -/
inductive Cmp where
  | eq
  | ne
  | lt
  | gt
  | le
  | ge
  deriving DecidableEq, Repr

inductive Stmt where
  /-- A comment or a blank line. -/
  | skip
  | set (name : Text) (e : Expr)
  | print (e : Expr)
  | printText (t : Text)
  | input (name : Text)
  | ifGoto (l : Expr) (cmp : Cmp) (r : Expr) (line : Nat)
  | goto (line : Nat)
  | stop
  deriving DecidableEq, Repr

structure World where
  /-- 0 for a name that was never assigned to. -/
  store : Text → Word
  /-- What is typed at the console from here on. -/
  typed : List UInt8
  output : Text

/-! ## What a statement does -/

/-- No division of -2^63 by -1. -/
def Expr.DividesIn (store : Text → Word) : Expr → Prop
  | .lit _ => True
  | .var _ => True
  | .neg e => e.DividesIn store
  | .bin op l r => l.DividesIn store ∧ r.DividesIn store ∧
      ¬ (op = .div ∧ l.valueIn store = BitVec.intMin 64 ∧ r.valueIn store = -1)

instance decidableDividesIn (store : Text → Word) : ∀ e : Expr, Decidable (e.DividesIn store)
  | .lit _ => .isTrue trivial
  | .var _ => .isTrue trivial
  | .neg e => decidableDividesIn store e
  | .bin op l r =>
    have : Decidable (l.DividesIn store) := decidableDividesIn store l
    have : Decidable (r.DividesIn store) := decidableDividesIn store r
    inferInstanceAs (Decidable (l.DividesIn store ∧ r.DividesIn store ∧
      ¬ (op = .div ∧ l.valueIn store = BitVec.intMin 64 ∧ r.valueIn store = -1)))

def Expr.compute (store : Text → Word) (e : Expr) : Except Stop Word :=
  if e.DividesIn store then .ok (e.valueIn store) else .error .divideError

/-- The comparison of signed numbers. -/
def Cmp.holds : Cmp → Word → Word → Bool
  | .eq, x, y => x = y
  | .ne, x, y => x ≠ y
  | .lt, x, y => x.toInt < y.toInt
  | .gt, x, y => y.toInt < x.toInt
  | .le, x, y => x.toInt ≤ y.toInt
  | .ge, x, y => y.toInt ≤ x.toInt

/-- What is typed behind the first end of line. -/
def behindLine (bytes : List UInt8) : List UInt8 := (bytes.dropWhile (· ≠ newline)).tail

/-- The expression that is typed. -/
def answer (bytes : List UInt8) : Expr := (readExpr (skipWs (lineOf 32 bytes))).1

/-- What the typing of a line shows, `line` being typed already. -/
def echo (max : LineReader.Word) : List UInt8 → List UInt8 → Text
  | _, [] => []
  | line, b :: bytes =>
    if b = newline then [newline]
    else
      (if b = backspace then if line = [] then [] else [backspace]
        else if line.length + 1 < max.toNat then [b] else []) ++ echo max (typed max line b) bytes

def World.print (w : World) (t : Text) : World := { w with output := w.output ++ t }

def World.assign (w : World) (name : Text) (value : Word) : World :=
  { w with store := Function.update w.store name value }

/-- The world when a line has been typed in answer to an `input`. -/
def World.afterLine (w : World) : World :=
  { w with
    typed := behindLine w.typed
    output := w.output ++ str "? " ++ echo 32 [] w.typed }

/-- A jump to a line as the script counts them, from 1. -/
def lineTo (n : Nat) : Flow := if n = 0 then .next else .jump (n - 1)

def Stmt.exec : Stmt → World → Except Stop (Flow × World)
  | .skip, w => .ok (.next, w)
  | .set name e, w => do
    let value ← e.compute w.store
    .ok (.next, w.assign name value)
  | .print e, w => do
    let value ← e.compute w.store
    .ok (.next, w.print (printInt value ++ [newline]))
  | .printText t, w => .ok (.next, w.print (t ++ [newline]))
  | .input name, w =>
    if newline ∈ w.typed then do
      let value ← (answer w.typed).compute w.store
      .ok (.next, w.afterLine.assign name value)
    else .error .waits
  | .ifGoto l cmp r line, w => do
    let x ← l.compute w.store
    let y ← r.compute w.store
    .ok (if cmp.holds x y then lineTo line else .next, w)
  | .goto line, w => .ok (lineTo line, w)
  | .stop, w => .ok (.stop, w)

def Stmt.assigns : Stmt → Option Text
  | .set name _ => some name
  | .input name => some name
  | _ => none

def Stmt.target : Stmt → Option Nat
  | .ifGoto _ _ _ line => some line
  | .goto line => some line
  | _ => none

/-- The names a program assigns to. -/
def assignedNames (p : List Stmt) : List Text := (p.filterMap Stmt.assigns).dedup

/-! ## How it is written -/

def Cmp.text : Cmp → Text
  | .eq => str "=="
  | .ne => str "!="
  | .lt => str "<"
  | .gt => str ">"
  | .le => str "<="
  | .ge => str ">="

/-- `text` is a spelling of the statement: blanks between its words, one of them a
space, and expressions in any of their spellings. -/
inductive Line : Stmt → Text → Prop
  | blank {ws : Text} (blank : Blank ws) : Line .skip ws
  | comment {ws : Text} (t : Text) (blank : Blank ws) : Line .skip (ws ++ ch '#' :: t)
  | set {ws ws₁ name ws₂ t : Text} {e : Expr} (blank : Blank ws) (blank₁ : Blank ws₁)
      (isName : IsName name) (blank₂ : Blank ws₂) (written : Written e t) :
      Line (.set name e) (ws ++ (str "let " ++ (ws₁ ++ (name ++ (ws₂ ++ ch '=' :: t)))))
  | print {ws t : Text} {e : Expr} (blank : Blank ws) (written : Written e t) :
      Line (.print e) (ws ++ (str "print " ++ t))
  | printText {ws ws₁ t ws₂ : Text} (blank : Blank ws) (blank₁ : Blank ws₁)
      (plain : ∀ c ∈ t, c ≠ 0 ∧ c ≠ ch '"') (blank₂ : Blank ws₂) :
      Line (.printText t) (ws ++ (str "print " ++ (ws₁ ++ ch '"' :: (t ++ ch '"' :: ws₂))))
  | input {ws ws₁ name ws₂ : Text} (blank : Blank ws) (blank₁ : Blank ws₁) (isName : IsName name)
      (blank₂ : Blank ws₂) : Line (.input name) (ws ++ (str "input " ++ (ws₁ ++ (name ++ ws₂))))
  | ifGoto {ws ws₁ t₁ ws₂ ws₃ t₂ ws₄ ws₅ digits ws₆ : Text} {l r : Expr} (cmp : Cmp)
      (blank : Blank ws) (blank₁ : Blank ws₁) (left : Spells .expr l t₁) (blank₂ : Blank ws₂)
      (blank₃ : Blank ws₃) (right : Spells .expr r t₂) (blank₄ : Blank ws₄) (apart : ws₄ ≠ [])
      (blank₅ : Blank ws₅) (literal : IsLiteral digits) (blank₆ : Blank ws₆) :
      Line (.ifGoto l cmp r (decimal digits))
        (ws ++ (str "if " ++ (ws₁ ++ (t₁ ++ (ws₂ ++ (cmp.text ++ (ws₃ ++ (t₂ ++ (ws₄ ++
          (str "goto " ++ (ws₅ ++ (digits ++ ws₆))))))))))))
  | goto {ws ws₁ digits ws₂ : Text} (blank : Blank ws) (blank₁ : Blank ws₁)
      (literal : IsLiteral digits) (blank₂ : Blank ws₂) :
      Line (.goto (decimal digits)) (ws ++ (str "goto " ++ (ws₁ ++ (digits ++ ws₂))))
  | stop {ws : Text} (blank : Blank ws) : Line .stop (ws ++ str "end")

/-- The lines spell the program. It assigns to no more names than there are
variables, and the lines it names are numbers of an `int`. -/
structure Spelled (p : List Stmt) (lines : List Text) : Prop where
  lines : List.Forall₂ Line p lines
  names : (assignedNames p).length ≤ maxVars
  targets : ∀ stmt ∈ p, ∀ line ∈ stmt.target, line < 2 ^ 31

@[simp] theorem World.assign_store (w : World) (name : Text) (value : Word) (other : Text) :
    (w.assign name value).store other = if other = name then value else w.store other :=
  Function.update_apply ..

/-! ## Rules -/

variable {post : Flow → World → Prop} {w : World} {name t : Text} {e l r : Expr} {cmp : Cmp}
  {line : Nat}

theorem Expr.compute_ok (safe : e.DividesIn w.store) :
    e.compute w.store = .ok (e.valueIn w.store) := if_pos safe

@[simp] theorem wp_skip : Wp Stmt.exec .skip post w ↔ post .next w := Lib.Goto.wp_ok rfl

@[simp] theorem wp_printText : Wp Stmt.exec (.printText t) post w ↔
    post .next (w.print (t ++ [newline])) := Lib.Goto.wp_ok rfl

/-- A line has to be typed, and to be computable. -/
theorem wp_input : Wp Stmt.exec (.input name) post w ↔
    newline ∈ w.typed ∧ (answer w.typed).DividesIn w.store ∧
      post .next (w.afterLine.assign name ((answer w.typed).valueIn w.store)) := by
  by_cases ended : newline ∈ w.typed
  · by_cases safe : (answer w.typed).DividesIn w.store
    · have runs : Stmt.exec (.input name) w = .ok (.next,
          w.afterLine.assign name ((answer w.typed).valueIn w.store)) := by
        rw [Stmt.exec, if_pos ended, Expr.compute_ok safe]
        rfl
      rw [Lib.Goto.wp_ok runs]
      exact ⟨fun holds => ⟨ended, safe, holds⟩, fun all => all.2.2⟩
    · refine iff_of_false ?_ fun all => safe all.2.1
      rintro ⟨flow, u, runs, -⟩
      rw [Stmt.exec, if_pos ended, Expr.compute, if_neg safe] at runs
      cases runs
  · refine iff_of_false ?_ fun all => ended all.1
    rintro ⟨flow, u, runs, -⟩
    rw [Stmt.exec, if_neg ended] at runs
    cases runs

@[simp] theorem wp_goto : Wp Stmt.exec (.goto line) post w ↔ post (lineTo line) w :=
  Lib.Goto.wp_ok rfl

@[simp] theorem wp_stop : Wp Stmt.exec .stop post w ↔ post .stop w := Lib.Goto.wp_ok rfl

end MiniKernel.Programs.Lang
