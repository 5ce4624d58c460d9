import MiniKernel.Lib.Words

/-!
# The expressions of the script language

Source: src/programs/lang.c:7-25 (what an expression is), 88-108 (`var_ref`) and
110-198 (`skip_ws` to `parse_expr`). The parser evaluates as it reads: each
function takes the text from the current position on and returns a value and the
text behind what it has read. A text ends at its NUL; beyond a Lean list there
are only NULs.

The recursion of the source takes a `fuel` here, one unit for each call and each
round of a loop. The one trap is that of the processor's division.
-/
namespace MiniKernel.Programs.Lang

abbrev Word := BitVec 64
abbrev Text := List UInt8

def ch (c : Char) : UInt8 := UInt8.ofNat c.toNat

/-! ## The parser -/

def maxVars : Nat := 32
def varNameLen : Nat := 16

/-- `var_t`; the name is the bytes before its NUL. -/
structure Var where
  name : Text
  value : Word
  deriving DecidableEq, Repr

inductive Halt where
  /-- -2^63 divided by -1. -/
  | divideError
  | outOfFuel
  deriving DecidableEq, Repr

abbrev Parsed := Except Halt (Word × Text)

/-- `var_ref`: the index of the variable, and the table it leaves. -/
def varRef (vars : List Var) (name : Text) (create : Bool) : Option Nat × List Var :=
  match vars.findIdx? fun v => v.name = name with
  | some i => (some i, vars)
  | none =>
    if create = false ∨ maxVars ≤ vars.length then (none, vars)
    else (some vars.length, vars ++ [⟨name.take (varNameLen - 1), 0⟩])

/-- `**s`. -/
def peek (s : Text) : UInt8 := s.headD 0

def isBlank (c : UInt8) : Bool := c = ch ' ' || c = ch '\t'

def skipWs (s : Text) : Text := s.dropWhile isBlank

def isDigit (c : UInt8) : Bool := ch '0' ≤ c && c ≤ ch '9'

def isIdentChar (c : UInt8) : Bool :=
  (ch 'a' ≤ c && c ≤ ch 'z') || (ch 'A' ≤ c && c ≤ ch 'Z') || isDigit c || c = ch '_'

/-- `read_ident`: what it stores in `out`, and the text behind the identifier. -/
def readIdent (s : Text) : Text × Text :=
  ((s.takeWhile isIdentChar).take (varNameLen - 1), s.dropWhile isIdentChar)

/-- The loop over the digits of a number. -/
def readNumber (v : Word) : Text → Word × Text
  | [] => (v, [])
  | c :: s =>
    if isDigit c then readNumber (v * 10 + BitVec.ofNat 64 (c.toNat - 48)) s else (v, c :: s)

/-- `(rhs != 0) ? v / rhs : 0`, as the processor divides. -/
def divide (v rhs : Word) : Except Halt Word :=
  if rhs = 0 then .ok 0
  else if v = BitVec.intMin 64 ∧ rhs = -1 then .error .divideError
  else .ok (v.sdiv rhs)

/-- What a round of the loop of `parse_term` does with its operator. -/
def mulOrDiv (op : UInt8) (v rhs : Word) : Except Halt Word :=
  if op = ch '*' then .ok (v * rhs) else divide v rhs

def addOrSub (op : UInt8) (v rhs : Word) : Word := if op = ch '+' then v + rhs else v - rhs

/-- A number, or a variable, or nothing. -/
def parseAtom (vars : List Var) (s : Text) : Word × Text :=
  if isDigit (peek s) then readNumber 0 s
  else
    let (name, rest) := readIdent s
    if name = [] then (0, rest)
    else
      match (varRef vars name false).1 with
      | some i => ((vars[i]?.map Var.value).getD 0, rest)
      | none => (0, rest)

mutual

def parseFactor (vars : List Var) : Nat → Text → Parsed
  | 0, _ => .error .outOfFuel
  | fuel + 1, s =>
    let s := skipWs s
    if peek s = ch '(' then do
      let (v, s) ← parseExpr vars fuel s.tail
      let s := skipWs s
      if peek s = ch ')' then .ok (v, s.tail) else .ok (v, s)
    else if peek s = ch '-' then do
      let (v, s) ← parseFactor vars fuel s.tail
      .ok (-v, s)
    else .ok (parseAtom vars s)

def parseTerm (vars : List Var) : Nat → Text → Parsed
  | 0, _ => .error .outOfFuel
  | fuel + 1, s => do
    let (v, s) ← parseFactor vars fuel s
    termLoop vars fuel v (skipWs s)

/-- The loop of `parse_term`. -/
def termLoop (vars : List Var) : Nat → Word → Text → Parsed
  | 0, _, _ => .error .outOfFuel
  | fuel + 1, v, s =>
    if peek s = ch '*' ∨ peek s = ch '/' then do
      let (rhs, rest) ← parseFactor vars fuel s.tail
      let v ← mulOrDiv (peek s) v rhs
      termLoop vars fuel v (skipWs rest)
    else .ok (v, s)

def parseExpr (vars : List Var) : Nat → Text → Parsed
  | 0, _ => .error .outOfFuel
  | fuel + 1, s => do
    let (v, s) ← parseTerm vars fuel s
    exprLoop vars fuel v (skipWs s)

/-- The loop of `parse_expr`. -/
def exprLoop (vars : List Var) : Nat → Word → Text → Parsed
  | 0, _, _ => .error .outOfFuel
  | fuel + 1, v, s =>
    if peek s = ch '+' ∨ peek s = ch '-' then do
      let (rhs, rest) ← parseTerm vars fuel s.tail
      exprLoop vars fuel (addOrSub (peek s) v rhs) (skipWs rest)
    else .ok (v, s)

end

/-! ## Expressions and how they are written -/

inductive Op where
  | add
  | sub
  | mul
  | div
  deriving DecidableEq, Repr

inductive Expr where
  | lit (n : Nat)
  | var (name : Text)
  | neg (e : Expr)
  | bin (op : Op) (l r : Expr)
  deriving DecidableEq, Repr

/-- Two's complement, and division toward zero with `x / 0 = 0`. -/
def Op.apply : Op → Word → Word → Word
  | .add, x, y => x + y
  | .sub, x, y => x - y
  | .mul, x, y => x * y
  | .div, x, y => BitVec.ofInt 64 (x.toInt.tdiv y.toInt)

/-- The value of a variable; one that was never set is 0. -/
def valueOf (vars : List Var) (name : Text) : Word :=
  ((vars.find? fun v => v.name = name).map Var.value).getD 0

def Expr.value (vars : List Var) : Expr → Word
  | .lit n => BitVec.ofNat 64 n
  | .var name => valueOf vars name
  | .neg e => -e.value vars
  | .bin op l r => op.apply (l.value vars) (r.value vars)

/-- No division of -2^63 by -1. -/
def Expr.Divides (vars : List Var) : Expr → Prop
  | .lit _ => True
  | .var _ => True
  | .neg e => e.Divides vars
  | .bin op l r => l.Divides vars ∧ r.Divides vars ∧
      ¬ (op = .div ∧ l.value vars = BitVec.intMin 64 ∧ r.value vars = -1)

instance decidableDivides (vars : List Var) : ∀ e : Expr, Decidable (e.Divides vars)
  | .lit _ => .isTrue trivial
  | .var _ => .isTrue trivial
  | .neg e => decidableDivides vars e
  | .bin op l r =>
    have : Decidable (l.Divides vars) := decidableDivides vars l
    have : Decidable (r.Divides vars) := decidableDivides vars r
    inferInstanceAs (Decidable (l.Divides vars ∧ r.Divides vars ∧
      ¬ (op = .div ∧ l.value vars = BitVec.intMin 64 ∧ r.value vars = -1)))

def Blank (ws : Text) : Prop := ∀ c ∈ ws, isBlank c = true

instance (ws : Text) : Decidable (Blank ws) := inferInstanceAs (Decidable (∀ c ∈ ws, _))

/-- The number that decimal digits denote. -/
def decimal (digits : Text) : Nat := digits.foldl (fun n c => n * 10 + (c.toNat - 48)) 0

structure IsNumber (digits : Text) : Prop where
  nonempty : digits ≠ []
  digit : ∀ c ∈ digits, isDigit c = true
  small : decimal digits < 2 ^ 63

structure IsName (name : Text) : Prop where
  nonempty : name ≠ []
  first : isDigit (peek name) = false
  ident : ∀ c ∈ name, isIdentChar c = true
  short : name.length ≤ 15

/-- How tightly an expression holds together. -/
inductive Level where
  | factor
  | term
  | expr

/-- `text` is a spelling of the expression that may stand at this level: blanks
between the tokens, parentheses wherever one likes, but at least where the
operators would bind otherwise. -/
inductive Spells : Level → Expr → Text → Prop
  | lit {digits : Text} (number : IsNumber digits) : Spells .factor (.lit (decimal digits)) digits
  | var {name : Text} (isName : IsName name) : Spells .factor (.var name) name
  | neg {e : Expr} {ws t : Text} (blank : Blank ws) (operand : Spells .factor e t) :
      Spells .factor (.neg e) (ch '-' :: (ws ++ t))
  | paren {e : Expr} {ws t ws' : Text} (blank : Blank ws) (inner : Spells .expr e t)
      (blank' : Blank ws') : Spells .factor e (ch '(' :: (ws ++ (t ++ (ws' ++ [ch ')']))))
  | factor {e : Expr} {t : Text} (whole : Spells .factor e t) : Spells .term e t
  | mul {op : Op} {c : UInt8} {l r : Expr} {t ws ws' u : Text}
      (operator : (op, c) ∈ [(Op.mul, ch '*'), (Op.div, ch '/')])
      (left : Spells .term l t) (blank : Blank ws) (blank' : Blank ws')
      (right : Spells .factor r u) : Spells .term (.bin op l r) (t ++ (ws ++ c :: (ws' ++ u)))
  | term {e : Expr} {t : Text} (whole : Spells .term e t) : Spells .expr e t
  | add {op : Op} {c : UInt8} {l r : Expr} {t ws ws' u : Text}
      (operator : (op, c) ∈ [(Op.add, ch '+'), (Op.sub, ch '-')])
      (left : Spells .expr l t) (blank : Blank ws) (blank' : Blank ws')
      (right : Spells .term r u) : Spells .expr (.bin op l r) (t ++ (ws ++ c :: (ws' ++ u)))

/-- `text` is the expression with blanks around it. -/
def Written (e : Expr) (text : Text) : Prop :=
  ∃ ws t ws', Blank ws ∧ Spells .expr e t ∧ Blank ws' ∧ text = ws ++ (t ++ ws')

/-! ## Characters and blanks -/

variable {vars : List Var} {c : UInt8} {s t u ws rest : Text} {e : Expr}

/-- The text is not continued as a number or a name. -/
def Stops (rest : Text) : Prop := isIdentChar (peek rest) = false

@[simp] theorem peek_cons (c : UInt8) (s : Text) : peek (c :: s) = c := rfl

theorem isDigit_range (digit : isDigit c = true) : 48 ≤ c.toNat ∧ c.toNat ≤ 57 := by
  simp only [isDigit, Bool.and_eq_true, decide_eq_true_eq, UInt8.le_iff_toNat_le] at digit
  exact digit

theorem isIdentChar_range (ident : isIdentChar c = true) :
    48 ≤ c.toNat ∧ (c.toNat ≤ 57 ∨ 65 ≤ c.toNat) := by
  simp only [isIdentChar, Bool.or_eq_true, Bool.and_eq_true, decide_eq_true_eq,
    UInt8.le_iff_toNat_le] at ident
  rcases ident with ((lower | upper) | digit) | underscore
  · have low : 97 ≤ c.toNat := lower.1
    omega
  · have low : 65 ≤ c.toNat := upper.1
    omega
  · have range := isDigit_range digit
    omega
  · rw [underscore]
    decide

/-- What starts a number or a name is no blank and opens nothing else. -/
theorem isIdentChar_plain (ident : isIdentChar c = true) :
    isBlank c = false ∧ c ≠ ch '(' ∧ c ≠ ch '-' := by
  have range := isIdentChar_range ident
  have other (d : UInt8) (h : d.toNat < 48) : c ≠ d := by
    intro same
    rw [same] at range
    omega
  refine ⟨?_, other _ (by decide), other _ (by decide)⟩
  simp only [isBlank, Bool.or_eq_false_iff, decide_eq_false_iff_not]
  exact ⟨other _ (by decide), other _ (by decide)⟩

theorem isIdentChar_of_isDigit (digit : isDigit c = true) : isIdentChar c = true := by
  simp [isIdentChar, digit]

theorem skipWs_of_peek (h : isBlank (peek s) = false) : skipWs s = s := by
  cases s with
  | nil => rfl
  | cons c s => exact List.dropWhile_cons_of_neg (by simpa using h)

theorem skipWs_blank (blank : Blank ws) (s : Text) : skipWs (ws ++ s) = skipWs s :=
  List.dropWhile_append_of_pos blank

theorem skipWs_skipWs (s : Text) : skipWs (skipWs s) = skipWs s := by
  induction s with
  | nil => rfl
  | cons c s ih =>
    cases blank : isBlank c with
    | true =>
      have drops : skipWs (c :: s) = skipWs s := List.dropWhile_cons_of_pos blank
      rw [drops, ih]
    | false =>
      have stays : skipWs (c :: s) = c :: s := skipWs_of_peek (s := c :: s) blank
      rw [stays, stays]

/-- The next token stops what stands before the blanks. -/
theorem stops_token (blank : Blank ws) (h : isIdentChar c = false) : Stops (ws ++ c :: s) := by
  cases ws with
  | nil => exact h
  | cons w ws =>
    refine Bool.eq_false_iff.mpr fun ident => ?_
    have plain : isBlank w = false := (isIdentChar_plain ident).1
    rw [blank w List.mem_cons_self] at plain
    cases plain

/-! ## Numbers and names -/

theorem readNumber_eq (s : Text) (n : Nat) : readNumber (BitVec.ofNat 64 n) s =
    (BitVec.ofNat 64 ((s.takeWhile isDigit).foldl (fun n c => n * 10 + (c.toNat - 48)) n),
      s.dropWhile isDigit) := by
  induction s generalizing n with
  | nil => rfl
  | cons c s ih =>
    cases digit : isDigit c with
    | true =>
      rw [readNumber, if_pos digit, Lib.Words.ofNat_digit, ih, List.takeWhile_cons_of_pos digit,
        List.dropWhile_cons_of_pos digit, List.foldl_cons]
    | false =>
      have stops : ¬ isDigit c = true := by rw [digit]; exact Bool.false_ne_true
      rw [readNumber, if_neg stops, List.takeWhile_cons_of_neg stops,
        List.dropWhile_cons_of_neg stops, List.foldl_nil]

theorem readNumber_digits (digits : ∀ c ∈ t, isDigit c = true) (stops : Stops rest) (n : Nat) :
    readNumber (BitVec.ofNat 64 n) (t ++ rest) =
      (BitVec.ofNat 64 (t.foldl (fun n c => n * 10 + (c.toNat - 48)) n), rest) := by
  have stopped : rest.takeWhile isDigit = [] ∧ rest.dropWhile isDigit = rest := by
    cases rest with
    | nil => exact ⟨rfl, rfl⟩
    | cons c rest =>
      have notDigit : ¬ isDigit c = true := fun digit =>
        Bool.eq_false_iff.mp stops (isIdentChar_of_isDigit digit)
      exact ⟨List.takeWhile_cons_of_neg notDigit, List.dropWhile_cons_of_neg notDigit⟩
  rw [readNumber_eq, List.takeWhile_append_of_pos digits, List.dropWhile_append_of_pos digits,
    stopped.1, stopped.2, List.append_nil]

/-- An identifier of any length is read to its end; what is kept are 15 characters. -/
theorem readIdent_ident (ident : ∀ c ∈ t, isIdentChar c = true) (stops : Stops rest) :
    readIdent (t ++ rest) = (t.take (varNameLen - 1), rest) := by
  have stopped : rest.takeWhile isIdentChar = [] ∧ rest.dropWhile isIdentChar = rest := by
    cases rest with
    | nil => exact ⟨rfl, rfl⟩
    | cons c rest =>
      have notIdent : ¬ isIdentChar c = true := Bool.eq_false_iff.mp stops
      exact ⟨List.takeWhile_cons_of_neg notIdent, List.dropWhile_cons_of_neg notIdent⟩
  rw [readIdent, List.takeWhile_append_of_pos ident, List.dropWhile_append_of_pos ident,
    stopped.1, stopped.2, List.append_nil]

theorem varRef_index (vars : List Var) (name : Text) :
    (varRef vars name false).1 = vars.findIdx? fun v => v.name = name := by
  unfold varRef
  split
  · next i found => exact found.symm
  · next absent => simp [absent]

/-- What the index of `var_ref` leads to is what the variable holds. -/
theorem varRef_value (vars : List Var) (name : Text) :
    (match (varRef vars name false).1 with
      | some i => (vars[i]?.map Var.value).getD 0
      | none => 0) = valueOf vars name := by
  rw [varRef_index, valueOf]
  induction vars with
  | nil => rfl
  | cons v vars ih =>
    rw [List.findIdx?_cons, List.find?_cons]
    cases decide (v.name = name) with
    | true => rfl
    | false =>
      rw [← ih]
      cases vars.findIdx? fun v => v.name = name <;> rfl

theorem parseAtom_number (number : IsNumber t) (stops : Stops rest) :
    parseAtom vars (t ++ rest) = (BitVec.ofNat 64 (decimal t), rest) := by
  have first : isDigit (peek (t ++ rest)) = true := by
    cases t with
    | nil => exact absurd rfl number.nonempty
    | cons c t => exact number.digit c List.mem_cons_self
  rw [parseAtom, if_pos first]
  exact readNumber_digits number.digit stops 0

theorem parseAtom_ident (nonempty : t ≠ []) (first : isDigit (peek t) = false)
    (ident : ∀ c ∈ t, isIdentChar c = true) (stops : Stops rest) :
    parseAtom vars (t ++ rest) = (valueOf vars (t.take (varNameLen - 1)), rest) := by
  cases t with
  | nil => exact absurd rfl nonempty
  | cons c t =>
    have first' : isDigit (peek (c :: t ++ rest)) = false := first
    have kept : (c :: t).take (varNameLen - 1) ≠ [] := nofun
    rw [parseAtom, first', readIdent_ident ident stops, ← varRef_value]
    simp only [Bool.false_eq_true, if_false, if_neg kept]
    split
    · rfl
    · rfl

theorem parseAtom_name (name : IsName t) (stops : Stops rest) :
    parseAtom vars (t ++ rest) = (valueOf vars t, rest) := by
  have short : t.take (varNameLen - 1) = t := List.take_of_length_le name.short
  rw [parseAtom_ident name.nonempty name.first name.ident stops, short]

/-! ## The operators -/

theorem divide_apply {x y : Word} (safe : ¬ (x = BitVec.intMin 64 ∧ y = -1)) :
    divide x y = .ok (Op.div.apply x y) := by
  have quotient : Op.div.apply x y = x.sdiv y := by
    apply BitVec.eq_of_toInt_eq
    rw [Op.apply, BitVec.toInt_ofInt, BitVec.toInt_sdiv]
  by_cases zero : y = 0
  · have nothing : x.sdiv 0 = 0 := BitVec.sdiv_zero
    rw [divide, quotient, if_pos zero, zero, nothing]
  · rw [divide, quotient, if_neg zero, if_neg safe]

theorem termLoop_stops (fuel : Nat) (v : Word) (h : peek s ≠ ch '*' ∧ peek s ≠ ch '/') :
    termLoop vars (fuel + 1) v s = .ok (v, s) := by
  rw [termLoop, if_neg fun operator => operator.elim h.1 h.2]

theorem exprLoop_stops (fuel : Nat) (v : Word) (h : peek s ≠ ch '+' ∧ peek s ≠ ch '-') :
    exprLoop vars (fuel + 1) v s = .ok (v, s) := by
  rw [exprLoop, if_neg fun operator => operator.elim h.1 h.2]

/-! ## Reading what is written -/

/-- The text of an expression, at its level, is read to its end with the right
value; a loop then goes on behind it, with whatever result. -/
def Reads (vars : List Var) : Level → Expr → Text → Prop
  | .factor, e, t => ∀ ws rest fuel, Blank ws → Stops rest →
      4 * (ws.length + t.length) + 1 ≤ fuel →
        parseFactor vars fuel (ws ++ (t ++ rest)) = .ok (e.value vars, rest)
  | .term, e, t => ∀ ws rest result least, Blank ws → Stops rest →
      (∀ fuel, least ≤ fuel → termLoop vars fuel (e.value vars) (skipWs rest) = result) →
        ∀ fuel, least + 4 * (ws.length + t.length) + 2 ≤ fuel →
          parseTerm vars fuel (ws ++ (t ++ rest)) = result
  | .expr, e, t => ∀ ws rest result least, Blank ws → Stops rest →
      (peek (skipWs rest) ≠ ch '*' ∧ peek (skipWs rest) ≠ ch '/') →
      (∀ fuel, least ≤ fuel → exprLoop vars fuel (e.value vars) (skipWs rest) = result) →
        ∀ fuel, least + 4 * (ws.length + t.length) + 4 ≤ fuel →
          parseExpr vars fuel (ws ++ (t ++ rest)) = result

theorem reads_atom (text : Text) (first : isIdentChar (peek text) = true)
    (atom : parseAtom vars text = (e.value vars, rest)) (blank : Blank ws) (fuel : Nat) :
    parseFactor vars (fuel + 1) (ws ++ text) = .ok (e.value vars, rest) := by
  obtain ⟨notBlank, notOpen, notMinus⟩ := isIdentChar_plain first
  rw [parseFactor, skipWs_blank blank, skipWs_of_peek notBlank]
  simp only [if_neg notOpen, if_neg notMinus, atom]

theorem reads_lit (number : IsNumber t) : Reads vars .factor (.lit (decimal t)) t := by
  intro ws rest fuel blank stops enough
  obtain ⟨fuel, rfl⟩ := Nat.exists_eq_add_of_le' (Nat.le_trans (Nat.le_add_left 1 _) enough)
  refine reads_atom (t ++ rest) ?_ (parseAtom_number number stops) blank fuel
  cases t with
  | nil => exact absurd rfl number.nonempty
  | cons c t => exact isIdentChar_of_isDigit (number.digit c List.mem_cons_self)

theorem reads_var (name : IsName t) : Reads vars .factor (.var t) t := by
  intro ws rest fuel blank stops enough
  obtain ⟨fuel, rfl⟩ := Nat.exists_eq_add_of_le' (Nat.le_trans (Nat.le_add_left 1 _) enough)
  refine reads_atom (t ++ rest) ?_ (parseAtom_name name stops) blank fuel
  cases t with
  | nil => exact absurd rfl name.nonempty
  | cons c t => exact name.ident c List.mem_cons_self

theorem reads_neg (blank : Blank ws) (operand : Reads vars .factor e t) :
    Reads vars .factor (.neg e) (ch '-' :: (ws ++ t)) := by
  intro ws₀ rest fuel blank₀ stops enough
  obtain ⟨fuel, rfl⟩ := Nat.exists_eq_add_of_le' (Nat.le_trans (Nat.le_add_left 1 _) enough)
  simp only [List.length_cons, List.length_append] at enough
  have inner := operand ws rest fuel blank stops (by omega)
  rw [parseFactor, skipWs_blank blank₀, skipWs_of_peek (by rfl)]
  simp only [List.cons_append, List.append_assoc, peek_cons, List.tail_cons]
  rw [if_neg (by decide), if_pos trivial, inner]
  rfl

theorem skipWs_token (blank : Blank ws) (token : isBlank c = false) :
    skipWs (ws ++ c :: s) = c :: s := by
  rw [skipWs_blank blank]
  exact skipWs_of_peek token

theorem reads_paren {ws' : Text} (blank : Blank ws) (inner : Reads vars .expr e t)
    (blank' : Blank ws') :
    Reads vars .factor e (ch '(' :: (ws ++ (t ++ (ws' ++ [ch ')'])))) := by
  intro ws₀ rest fuel blank₀ _ enough
  obtain ⟨fuel, rfl⟩ := Nat.exists_eq_add_of_le' (Nat.le_trans (Nat.le_add_left 1 _) enough)
  simp only [List.length_cons, List.length_append, List.length_nil] at enough
  have skips : skipWs (ws' ++ ch ')' :: rest) = ch ')' :: rest := skipWs_token blank' (by decide)
  have body := inner ws (ws' ++ ch ')' :: rest) (.ok (e.value vars, ch ')' :: rest)) 1 blank
    (stops_token blank' (by decide))
    (by
      rw [skips]
      exact ⟨(by decide : ch ')' ≠ ch '*'), (by decide : ch ')' ≠ ch '/')⟩)
    (fun fuel positive => by
      obtain ⟨fuel, rfl⟩ := Nat.exists_eq_add_of_le' positive
      rw [skips]
      exact exprLoop_stops fuel _
        ⟨(by decide : ch ')' ≠ ch '+'), (by decide : ch ')' ≠ ch '-')⟩)
    fuel (by omega)
  rw [parseFactor, skipWs_blank blank₀, skipWs_of_peek (by rfl)]
  simp only [List.cons_append, List.append_assoc, List.nil_append, peek_cons, List.tail_cons]
  rw [if_pos trivial, body]
  have close : skipWs (ch ')' :: rest) = ch ')' :: rest := skipWs_of_peek (by rfl)
  simp only [bind, Except.bind, close, peek_cons, if_true, List.tail_cons]

theorem reads_factor (whole : Reads vars .factor e t) : Reads vars .term e t := by
  intro ws rest result least blank stops goes fuel enough
  obtain ⟨fuel, rfl⟩ := Nat.exists_eq_add_of_le' (Nat.le_trans (by omega : 1 ≤ _) enough)
  rw [parseTerm, whole ws rest fuel blank stops (by omega)]
  exact goes fuel (by omega)

theorem mulOrDiv_apply {op : Op} {x y : Word}
    (operator : (op, c) ∈ [(Op.mul, ch '*'), (Op.div, ch '/')])
    (safe : ¬ (op = .div ∧ x = BitVec.intMin 64 ∧ y = -1)) :
    mulOrDiv c x y = .ok (op.apply x y) := by
  simp only [List.mem_cons, List.not_mem_nil, or_false, Prod.mk.injEq] at operator
  rcases operator with ⟨rfl, rfl⟩ | ⟨rfl, rfl⟩
  · exact if_pos rfl
  · rw [mulOrDiv, if_neg (by decide)]
    exact divide_apply fun both => safe ⟨rfl, both⟩

/-- One round of the loop of `parse_term`. -/
theorem termLoop_round {op : Op} {l r : Expr} {ws' : Text}
    (operator : (op, c) ∈ [(Op.mul, ch '*'), (Op.div, ch '/')])
    (safe : ¬ (op = .div ∧ l.value vars = BitVec.intMin 64 ∧ r.value vars = -1))
    (blank' : Blank ws') (right : Reads vars .factor r u) (stops : Stops rest)
    {fuel : Nat} (enough : 4 * (ws'.length + u.length) + 1 ≤ fuel) :
    termLoop vars (fuel + 1) (l.value vars) (c :: (ws' ++ (u ++ rest))) =
      termLoop vars fuel ((Expr.bin op l r).value vars) (skipWs rest) := by
  have operand := right ws' rest fuel blank' stops enough
  have isOperator : c = ch '*' ∨ c = ch '/' := by
    simp only [List.mem_cons, List.not_mem_nil, or_false, Prod.mk.injEq] at operator
    exact operator.imp And.right And.right
  rw [termLoop, peek_cons, if_pos isOperator, List.tail_cons, operand]
  simp only [bind, Except.bind, mulOrDiv_apply operator safe]
  rfl

theorem reads_mul {op : Op} {l r : Expr} {ws' : Text}
    (operator : (op, c) ∈ [(Op.mul, ch '*'), (Op.div, ch '/')])
    (safe : ¬ (op = .div ∧ l.value vars = BitVec.intMin 64 ∧ r.value vars = -1))
    (left : Reads vars .term l t) (blank : Blank ws) (blank' : Blank ws')
    (right : Reads vars .factor r u) :
    Reads vars .term (.bin op l r) (t ++ (ws ++ c :: (ws' ++ u))) := by
  intro ws₀ rest result least blank₀ stops goes fuel enough
  have token : isBlank c = false ∧ isIdentChar c = false := by
    revert operator
    simp only [List.mem_cons, List.not_mem_nil, or_false, Prod.mk.injEq]
    rintro (⟨-, rfl⟩ | ⟨-, rfl⟩) <;> decide
  simp only [List.length_cons, List.length_append] at enough
  simp only [List.append_assoc, List.cons_append]
  refine left ws₀ (ws ++ c :: (ws' ++ (u ++ rest))) result
    (least + 4 * (ws'.length + u.length) + 2) blank₀ (stops_token blank token.2)
    (fun fuel enough => ?_) fuel (by omega)
  obtain ⟨fuel, rfl⟩ := Nat.exists_eq_add_of_le' (Nat.le_trans (by omega : 1 ≤ _) enough)
  rw [skipWs_token blank token.1,
    termLoop_round operator safe blank' right stops (by omega)]
  exact goes fuel (by omega)

theorem reads_term (whole : Reads vars .term e t) : Reads vars .expr e t := by
  intro ws rest result least blank stops noTerm goes fuel enough
  obtain ⟨fuel, rfl⟩ := Nat.exists_eq_add_of_le' (Nat.le_trans (by omega : 1 ≤ _) enough)
  have first := whole ws rest (.ok (e.value vars, skipWs rest)) 1 blank stops
    (fun fuel positive => by
      obtain ⟨fuel, rfl⟩ := Nat.exists_eq_add_of_le' positive
      exact termLoop_stops fuel _ noTerm)
    fuel (by omega)
  rw [parseExpr, first]
  simp only [bind, Except.bind, skipWs_skipWs]
  exact goes fuel (by omega)

/-- One round of the loop of `parse_expr`. -/
theorem exprLoop_round {op : Op} {l r : Expr} {ws' : Text}
    (operator : (op, c) ∈ [(Op.add, ch '+'), (Op.sub, ch '-')])
    (blank' : Blank ws') (right : Reads vars .term r u) (stops : Stops rest)
    (noTerm : peek (skipWs rest) ≠ ch '*' ∧ peek (skipWs rest) ≠ ch '/')
    {fuel : Nat} (enough : 4 * (ws'.length + u.length) + 3 ≤ fuel) :
    exprLoop vars (fuel + 1) (l.value vars) (c :: (ws' ++ (u ++ rest))) =
      exprLoop vars fuel ((Expr.bin op l r).value vars) (skipWs rest) := by
  have operand := right ws' rest (.ok (r.value vars, skipWs rest)) 1 blank' stops
    (fun fuel positive => by
      obtain ⟨fuel, rfl⟩ := Nat.exists_eq_add_of_le' positive
      exact termLoop_stops fuel _ noTerm)
    fuel (by omega)
  simp only [List.mem_cons, List.not_mem_nil, or_false, Prod.mk.injEq] at operator
  have isOperator : c = ch '+' ∨ c = ch '-' := operator.imp And.right And.right
  have sum : addOrSub c (l.value vars) (r.value vars) = (Expr.bin op l r).value vars := by
    rcases operator with ⟨rfl, rfl⟩ | ⟨rfl, rfl⟩
    · exact if_pos rfl
    · exact if_neg (by decide)
  rw [exprLoop, peek_cons, if_pos isOperator, List.tail_cons, operand]
  simp only [bind, Except.bind, sum, skipWs_skipWs]

theorem reads_add {op : Op} {l r : Expr} {ws' : Text}
    (operator : (op, c) ∈ [(Op.add, ch '+'), (Op.sub, ch '-')])
    (left : Reads vars .expr l t) (blank : Blank ws) (blank' : Blank ws')
    (right : Reads vars .term r u) :
    Reads vars .expr (.bin op l r) (t ++ (ws ++ c :: (ws' ++ u))) := by
  intro ws₀ rest result least blank₀ stops noTerm goes fuel enough
  have token : isBlank c = false ∧ isIdentChar c = false ∧ c ≠ ch '*' ∧ c ≠ ch '/' := by
    revert operator
    simp only [List.mem_cons, List.not_mem_nil, or_false, Prod.mk.injEq]
    rintro (⟨-, rfl⟩ | ⟨-, rfl⟩) <;> decide
  have skips : skipWs (ws ++ c :: (ws' ++ (u ++ rest))) = c :: (ws' ++ (u ++ rest)) :=
    skipWs_token blank token.1
  simp only [List.length_cons, List.length_append] at enough
  simp only [List.append_assoc, List.cons_append]
  refine left ws₀ (ws ++ c :: (ws' ++ (u ++ rest))) result
    (least + 4 * (ws'.length + u.length) + 4) blank₀ (stops_token blank token.2.1)
    (by
      rw [skips]
      exact token.2.2)
    (fun fuel enough => ?_) fuel (by omega)
  obtain ⟨fuel, rfl⟩ := Nat.exists_eq_add_of_le' (Nat.le_trans (by omega : 1 ≤ _) enough)
  rw [skips, exprLoop_round operator blank' right stops noTerm (by omega)]
  exact goes fuel (by omega)

/-- By induction on the spelling. -/
theorem reads_of_spells {level : Level} (spells : Spells level e t) (safe : e.Divides vars) :
    Reads vars level e t := by
  induction spells with
  | lit number => exact reads_lit number
  | var name => exact reads_var name
  | neg blank _ ih => exact reads_neg blank (ih safe)
  | paren blank _ blank' ih => exact reads_paren blank (ih safe) blank'
  | factor _ ih => exact reads_factor (ih safe)
  | mul operator _ blank blank' _ left right =>
    exact reads_mul operator safe.2.2 (left safe.1) blank blank' (right safe.2.1)
  | term _ ih => exact reads_term (ih safe)
  | add operator _ blank blank' _ left right =>
    exact reads_add operator (left safe.1) blank blank' (right safe.2.1)

/-- `parse_expr` reads an expression at the end of a line, however it is written,
to the NUL, and returns its value; the depth of its recursion is bounded by the
length of the text. -/
theorem parseExpr_written (vars : List Var) (e : Expr) (text after : Text)
    (written : Written e text) (safe : e.Divides vars) (fuel : Nat)
    (enough : 4 * text.length + 5 ≤ fuel) :
    parseExpr vars fuel (text ++ 0 :: after) = .ok (e.value vars, 0 :: after) := by
  obtain ⟨ws, t, ws', blank, spells, blank', rfl⟩ := written
  simp only [List.length_append] at enough
  have skips : skipWs (ws' ++ 0 :: after) = 0 :: after := skipWs_token blank' (by decide)
  have reads := reads_of_spells spells safe ws (ws' ++ 0 :: after)
    (.ok (e.value vars, 0 :: after)) 1 blank (stops_token blank' (by decide))
    (by
      rw [skips]
      exact ⟨(by decide : (0 : UInt8) ≠ ch '*'), (by decide : (0 : UInt8) ≠ ch '/')⟩)
    (fun fuel positive => by
      obtain ⟨fuel, rfl⟩ := Nat.exists_eq_add_of_le' positive
      rw [skips]
      exact exprLoop_stops fuel _
        ⟨(by decide : (0 : UInt8) ≠ ch '+'), (by decide : (0 : UInt8) ≠ ch '-')⟩)
    fuel (by omega)
  rw [List.append_assoc, List.append_assoc]
  exact reads

/-- `x - 2 - -3*(4 /x)` and a tab. -/
def someText : Text :=
  ['x', ' ', '-', ' ', '2', ' ', '-', ' ', '-', '3', '*', '(', '4', ' ', '/', 'x', ')', '\t'].map ch

def someExpr : Expr :=
  .bin .sub (.bin .sub (.var [ch 'x']) (.lit 2))
    (.bin .mul (.neg (.lit 3)) (.bin .div (.lit 4) (.var [ch 'x'])))

theorem someExpr_written : Written someExpr someText := by
  have blank : Blank [ch ' '] := by decide +kernel
  have noBlank : Blank [] := nofun
  have minus : (Op.sub, ch '-') ∈ [(Op.add, ch '+'), (Op.sub, ch '-')] := by decide
  have times : (Op.mul, ch '*') ∈ [(Op.mul, ch '*'), (Op.div, ch '/')] := by decide
  have slash : (Op.div, ch '/') ∈ [(Op.mul, ch '*'), (Op.div, ch '/')] := by decide
  have x : Spells .factor (.var [ch 'x']) [ch 'x'] :=
    .var ⟨by decide, by decide, by decide +kernel, by decide⟩
  have number (c : UInt8) (digit : isDigit c = true) (small : decimal [c] < 2 ^ 63) :
      Spells .factor (.lit (decimal [c])) [c] :=
    .lit ⟨nofun, fun d h => (List.mem_singleton.mp h) ▸ digit, small⟩
  have two := number (ch '2') (by decide) (by decide)
  have three := number (ch '3') (by decide) (by decide)
  have four := number (ch '4') (by decide) (by decide)
  have quotient := Spells.paren noBlank (.term (.mul slash (.factor four) blank noBlank x)) noBlank
  have product := Spells.mul times (.factor (.neg noBlank three)) noBlank noBlank quotient
  have difference := Spells.add minus (.term (.factor x)) blank blank (.factor two)
  have tab : Blank [ch '\t'] := by decide +kernel
  exact ⟨[], _, [ch '\t'], noBlank, .add minus difference blank blank product, tab, rfl⟩

theorem parseExpr_written_x :
    parseExpr [⟨[ch 'x'], 2⟩] 100 (someText ++ [0]) = .ok (6, [0]) :=
  parseExpr_written [⟨[ch 'x'], 2⟩] someExpr someText [] someExpr_written (by decide) 100
    (by decide)

end MiniKernel.Programs.Lang
