import MiniKernel.Programs.Lang

/-!
# What any text is read as

Source: src/programs/lang.c:133-198. The parser takes every text, well-formed or
not: a missing operand is 0, a missing parenthesis is no loss. Here is the
expression it takes the text for, by the same recursion without the values, and
what evaluating while reading makes of it.
-/
namespace MiniKernel.Programs.Lang

/-- The leaf at the start of the text. -/
def treeAtom (s : Text) : Expr × Text :=
  if isDigit (peek s) then (.lit (decimal (s.takeWhile isDigit)), s.dropWhile isDigit)
  else
    let (name, rest) := readIdent s
    if name = [] then (.lit 0, rest) else (.var name, rest)

def mulOp (c : UInt8) : Op := if c = ch '*' then .mul else .div
def addOp (c : UInt8) : Op := if c = ch '+' then .add else .sub

mutual

def treeFactor : Nat → Text → Option (Expr × Text)
  | 0, _ => none
  | fuel + 1, s =>
    let s := skipWs s
    if peek s = ch '(' then do
      let (e, s) ← treeExpr fuel s.tail
      let s := skipWs s
      if peek s = ch ')' then some (e, s.tail) else some (e, s)
    else if peek s = ch '-' then do
      let (e, s) ← treeFactor fuel s.tail
      some (.neg e, s)
    else some (treeAtom s)

def treeTerm : Nat → Text → Option (Expr × Text)
  | 0, _ => none
  | fuel + 1, s => do
    let (e, s) ← treeFactor fuel s
    treeTermLoop fuel e (skipWs s)

def treeTermLoop : Nat → Expr → Text → Option (Expr × Text)
  | 0, _, _ => none
  | fuel + 1, e, s =>
    if peek s = ch '*' ∨ peek s = ch '/' then do
      let (rhs, rest) ← treeFactor fuel s.tail
      treeTermLoop fuel (.bin (mulOp (peek s)) e rhs) (skipWs rest)
    else some (e, s)

def treeExpr : Nat → Text → Option (Expr × Text)
  | 0, _ => none
  | fuel + 1, s => do
    let (e, s) ← treeTerm fuel s
    treeExprLoop fuel e (skipWs s)

def treeExprLoop : Nat → Expr → Text → Option (Expr × Text)
  | 0, _, _ => none
  | fuel + 1, e, s =>
    if peek s = ch '+' ∨ peek s = ch '-' then do
      let (rhs, rest) ← treeTerm fuel s.tail
      treeExprLoop fuel (.bin (addOp (peek s)) e rhs) (skipWs rest)
    else some (e, s)

end

/-- Enough for the recursion of `parse_expr`: see `treeExpr_ends`. -/
def depth (s : Text) : Nat := 4 * s.length + 3

/-- The expression a text is read as, and what is left of the text. -/
def readExpr (s : Text) : Expr × Text := (treeExpr (depth s) s).getD (.lit 0, s)

/-- The value of an expression, unless a division in it traps. -/
def Expr.evaluate (vars : List Var) (e : Expr) : Except Halt Word :=
  if e.Divides vars then .ok (e.value vars) else .error .divideError

/-! ## Reading ends -/

variable {vars : List Var} {s rest : Text} {e l r : Expr} {fuel : Nat}

theorem length_skipWs (s : Text) : (skipWs s).length ≤ s.length := (List.dropWhile_sublist _).length_le

theorem length_tail {c : UInt8} (here : peek s = c) (some_ : c ≠ 0) :
    s.tail.length + 1 = s.length := by
  cases s with
  | nil => exact absurd here.symm some_
  | cons d s => rfl

theorem length_treeAtom (s : Text) : (treeAtom s).2.length ≤ s.length := by
  unfold treeAtom
  split
  · exact (List.dropWhile_sublist _).length_le
  · dsimp only [readIdent]
    split
    · exact (List.dropWhile_sublist _).length_le
    · exact (List.dropWhile_sublist _).length_le

/-- A result, with no more text left than there was. -/
def Ends (s : Text) (t : Option (Expr × Text)) : Prop :=
  ∃ e rest, t = some (e, rest) ∧ rest.length ≤ s.length

/-- By induction on the fuel; each level of the grammar takes one unit, and a
token has four units to spend. -/
theorem tree_ends (fuel : Nat) :
    (∀ s, 4 * s.length + 1 ≤ fuel → Ends s (treeFactor fuel s)) ∧
    (∀ s, 4 * s.length + 2 ≤ fuel → Ends s (treeTerm fuel s)) ∧
    (∀ e s, 4 * s.length + 1 ≤ fuel → Ends s (treeTermLoop fuel e s)) ∧
    (∀ s, 4 * s.length + 3 ≤ fuel → Ends s (treeExpr fuel s)) ∧
    (∀ e s, 4 * s.length + 2 ≤ fuel → Ends s (treeExprLoop fuel e s)) := by
  induction fuel with
  | zero => exact ⟨by omega, by omega, by omega, by omega, by omega⟩
  | succ fuel ih =>
    obtain ⟨factor, term, termLoop, expr, exprLoop⟩ := ih
    refine ⟨fun s enough => ?_, fun s enough => ?_, fun e s enough => ?_, fun s enough => ?_,
      fun e s enough => ?_⟩
    case refine_1 =>
      have blanks := length_skipWs s
      rw [treeFactor]
      dsimp only
      generalize skipWs s = s' at blanks ⊢
      split
      · next opens =>
        have shorter := length_tail opens (by decide)
        obtain ⟨e, rest, inner, less⟩ := expr s'.tail (by omega)
        have blanks' := length_skipWs rest
        rw [inner]
        simp only [Option.bind_eq_bind, Option.bind_some]
        split
        · next closes =>
          have shorter' := length_tail closes (by decide)
          exact ⟨e, _, rfl, by omega⟩
        · exact ⟨e, _, rfl, by omega⟩
      split
      · next minus =>
        have shorter := length_tail minus (by decide)
        obtain ⟨e, rest, inner, less⟩ := factor s'.tail (by omega)
        rw [inner]
        exact ⟨.neg e, rest, rfl, by omega⟩
      · exact ⟨_, _, rfl, Nat.le_trans (length_treeAtom s') blanks⟩
    case refine_2 =>
      obtain ⟨e, rest, first, less⟩ := factor s (by omega)
      have blanks := length_skipWs rest
      obtain ⟨e', rest', tail, less'⟩ := termLoop e (skipWs rest) (by omega)
      rw [treeTerm, first]
      exact ⟨e', rest', tail, by omega⟩
    case refine_3 =>
      rw [treeTermLoop]
      split
      · next operator =>
        have shorter : s.tail.length + 1 = s.length :=
          operator.elim (length_tail · (by decide)) (length_tail · (by decide))
        obtain ⟨rhs, rest, operand, less⟩ := factor s.tail (by omega)
        have blanks := length_skipWs rest
        obtain ⟨e', rest', tail, less'⟩ :=
          termLoop (.bin (mulOp (peek s)) e rhs) (skipWs rest) (by omega)
        rw [operand]
        exact ⟨e', rest', tail, by omega⟩
      · exact ⟨e, s, rfl, Nat.le_refl _⟩
    case refine_4 =>
      obtain ⟨e, rest, first, less⟩ := term s (by omega)
      have blanks := length_skipWs rest
      obtain ⟨e', rest', tail, less'⟩ := exprLoop e (skipWs rest) (by omega)
      rw [treeExpr, first]
      exact ⟨e', rest', tail, by omega⟩
    case refine_5 =>
      rw [treeExprLoop]
      split
      · next operator =>
        have shorter : s.tail.length + 1 = s.length :=
          operator.elim (length_tail · (by decide)) (length_tail · (by decide))
        obtain ⟨rhs, rest, operand, less⟩ := term s.tail (by omega)
        have blanks := length_skipWs rest
        obtain ⟨e', rest', tail, less'⟩ :=
          exprLoop (.bin (addOp (peek s)) e rhs) (skipWs rest) (by omega)
        rw [operand]
        exact ⟨e', rest', tail, by omega⟩
      · exact ⟨e, s, rfl, Nat.le_refl _⟩

theorem treeExpr_ends (s : Text) : ∃ e rest, treeExpr (depth s) s = some (e, rest) := by
  obtain ⟨e, rest, ends, -⟩ := (tree_ends (depth s)).2.2.2.1 s (Nat.le_refl _)
  exact ⟨e, rest, ends⟩

/-! ## Reading and evaluating at once -/

theorem evaluate_neg (e : Expr) : (Expr.neg e).evaluate vars = (e.evaluate vars).map (- ·) := by
  unfold Expr.evaluate
  by_cases safe : e.Divides vars
  · rw [if_pos safe, if_pos (show (Expr.neg e).Divides vars from safe)]
    rfl
  · rw [if_neg safe, if_neg (show ¬ (Expr.neg e).Divides vars from safe)]
    rfl

/-- The operands first, then the operation, which traps for one pair of values. -/
theorem evaluate_bin (op : Op) (l r : Expr) :
    (Expr.bin op l r).evaluate vars = (do
      let x ← l.evaluate vars
      let y ← r.evaluate vars
      if op = .div ∧ x = BitVec.intMin 64 ∧ y = -1 then .error .divideError
      else .ok (op.apply x y)) := by
  have whole : (Expr.bin op l r).Divides vars ↔ l.Divides vars ∧ r.Divides vars ∧
      ¬ (op = .div ∧ l.value vars = BitVec.intMin 64 ∧ r.value vars = -1) := Iff.rfl
  unfold Expr.evaluate
  simp only [whole]
  by_cases left : l.Divides vars
  · by_cases right : r.Divides vars
    · by_cases traps : op = .div ∧ l.value vars = BitVec.intMin 64 ∧ r.value vars = -1
      · simp only [left, right, traps, if_true]
        rfl
      · simp only [left, right, traps, not_false_iff, and_true, if_true]
        exact (if_neg traps).symm
    · simp only [left, right, false_and, and_false, if_false, if_true]
      rfl
  · simp only [left, false_and, if_false]
    rfl

theorem addOp_ne_div (c : UInt8) : ¬ addOp c = .div := by
  unfold addOp
  split
  · intro div
    cases div
  · intro div
    cases div

theorem mulOrDiv_eq (c : UInt8) (x y : Word) : mulOrDiv c x y =
    if mulOp c = .div ∧ x = BitVec.intMin 64 ∧ y = -1 then .error .divideError
    else .ok ((mulOp c).apply x y) := by
  by_cases star : c = ch '*'
  · rw [mulOrDiv, mulOp, if_pos star, if_pos star, if_neg fun both => by cases both.1]
    rfl
  · rw [mulOrDiv, mulOp, if_neg star, if_neg star]
    by_cases traps : x = BitVec.intMin 64 ∧ y = -1
    · rw [if_pos ⟨rfl, traps⟩, divide, if_neg (by rw [traps.2]; decide), if_pos traps]
    · rw [if_neg fun both => traps both.2, divide_apply traps]

theorem addOrSub_eq (c : UInt8) (x y : Word) : addOrSub c x y = (addOp c).apply x y := by
  unfold addOrSub addOp
  split <;> rfl

/-- A number as it is written, of any length. -/
structure IsLiteral (digits : Text) : Prop where
  nonempty : digits ≠ []
  digit : ∀ c ∈ digits, isDigit c = true

theorem IsLiteral.first {digits : Text} (literal : IsLiteral digits) (rest : Text) :
    isDigit (peek (digits ++ rest)) = true := by
  cases digits with
  | nil => exact absurd rfl literal.nonempty
  | cons c digits => exact literal.digit c List.mem_cons_self

/-- A literal is read whole, modulo 2^64. -/
theorem readNumber_literal {digits : Text} (literal : IsLiteral digits)
    (ends : isDigit (peek rest) = false) :
    (readNumber 0 (digits ++ rest)).1 = BitVec.ofNat 64 (decimal digits) := by
  have whole : (digits ++ rest).takeWhile isDigit = digits := by
    rw [List.takeWhile_append_of_pos literal.digit]
    cases rest with
    | nil => exact List.append_nil digits
    | cons c rest =>
      have other : ¬ isDigit c = true := Bool.eq_false_iff.mp ends
      rw [List.takeWhile_cons_of_neg other, List.append_nil]
  have read := congrArg Prod.fst (readNumber_eq (digits ++ rest) 0)
  rw [whole] at read
  exact read

theorem parseAtom_tree (s : Text) :
    parseAtom vars s = ((treeAtom s).1.value vars, (treeAtom s).2) := by
  unfold parseAtom treeAtom
  split
  · exact readNumber_eq s 0
  · dsimp only
    split
    · rfl
    · change _ = (valueOf vars (readIdent s).1, (readIdent s).2)
      rw [← varRef_value]
      split <;> rfl

theorem treeAtom_divides (vars : List Var) (s : Text) : (treeAtom s).1.Divides vars := by
  unfold treeAtom
  split
  · trivial
  · dsimp only
    split <;> trivial

/-- What the parser answers where it reads `e` and leaves `rest`. -/
def outcome (vars : List Var) (e : Expr) (rest : Text) : Parsed :=
  (e.evaluate vars).map fun v => (v, rest)

/-- By induction on the fuel: where there is a tree, the parser evaluates it. A loop
goes on from the value of what stands to the left. -/
theorem parse_tree (vars : List Var) (fuel : Nat) :
    (∀ s e rest, treeFactor fuel s = some (e, rest) →
      parseFactor vars fuel s = outcome vars e rest) ∧
    (∀ s e rest, treeTerm fuel s = some (e, rest) →
      parseTerm vars fuel s = outcome vars e rest) ∧
    (∀ l s e rest, treeTermLoop fuel l s = some (e, rest) →
      (l.evaluate vars >>= fun v => termLoop vars fuel v s) = outcome vars e rest) ∧
    (∀ s e rest, treeExpr fuel s = some (e, rest) →
      parseExpr vars fuel s = outcome vars e rest) ∧
    (∀ l s e rest, treeExprLoop fuel l s = some (e, rest) →
      (l.evaluate vars >>= fun v => exprLoop vars fuel v s) = outcome vars e rest) := by
  induction fuel with
  | zero => exact ⟨nofun, nofun, nofun, nofun, nofun⟩
  | succ fuel ih =>
    obtain ⟨factor, term, loop, expr, exprLoop⟩ := ih
    refine ⟨fun s e rest tree => ?_, fun s e rest tree => ?_, fun l s e rest tree => ?_,
      fun s e rest tree => ?_, fun l s e rest tree => ?_⟩
    case refine_1 =>
      rw [treeFactor] at tree
      rw [parseFactor]
      dsimp only at tree ⊢
      generalize skipWs s = s' at tree ⊢
      split at tree
      · next opens =>
        obtain ⟨⟨e', rest'⟩, inner, tree⟩ := Option.bind_eq_some_iff.mp tree
        rw [if_pos opens, expr _ _ _ inner, outcome]
        dsimp only at tree
        cases value : e'.evaluate vars with
        | error h =>
          split at tree <;> cases tree <;> rw [outcome, value] <;> rfl
        | ok v =>
          split at tree
          · next closes =>
            cases tree
            simp only [Except.map, bind, Except.bind, if_pos closes, outcome, value]
          · next opened =>
            cases tree
            simp only [Except.map, bind, Except.bind, if_neg opened, outcome, value]
      · next other =>
        rw [if_neg other]
        split at tree
        · next minus =>
          obtain ⟨⟨e', rest'⟩, inner, tree⟩ := Option.bind_eq_some_iff.mp tree
          cases tree
          rw [if_pos minus, factor _ _ _ inner, outcome, outcome, evaluate_neg]
          cases e'.evaluate vars <;> rfl
        · next atom =>
          have leaf := Option.some.inj tree
          have safe := treeAtom_divides vars s'
          rw [leaf] at safe
          rw [if_neg atom, parseAtom_tree, leaf, outcome, Expr.evaluate, if_pos safe]
          rfl
    case refine_2 =>
      rw [treeTerm] at tree
      obtain ⟨⟨e', rest'⟩, first, tree⟩ := Option.bind_eq_some_iff.mp tree
      rw [parseTerm, factor _ _ _ first, ← loop _ _ _ _ tree, outcome]
      cases e'.evaluate vars <;> rfl
    case refine_3 =>
      rw [treeTermLoop] at tree
      split at tree
      · next operator =>
        obtain ⟨⟨rhs, rest'⟩, operand, tree⟩ := Option.bind_eq_some_iff.mp tree
        have tail := loop _ _ _ _ tree
        rw [evaluate_bin] at tail
        simp only [termLoop, if_pos operator, factor _ _ _ operand, mulOrDiv_eq, outcome] at tail ⊢
        rw [← tail]
        cases l.evaluate vars with
        | error h => rfl
        | ok v => cases rhs.evaluate vars <;> rfl
      · next stops =>
        cases tree
        simp only [termLoop, if_neg stops, outcome]
        cases l.evaluate vars <;> rfl
    case refine_4 =>
      rw [treeExpr] at tree
      obtain ⟨⟨e', rest'⟩, first, tree⟩ := Option.bind_eq_some_iff.mp tree
      rw [parseExpr, term _ _ _ first, ← exprLoop _ _ _ _ tree, outcome]
      cases e'.evaluate vars <;> rfl
    case refine_5 =>
      rw [treeExprLoop] at tree
      split at tree
      · next operator =>
        obtain ⟨⟨rhs, rest'⟩, operand, tree⟩ := Option.bind_eq_some_iff.mp tree
        have tail := exprLoop _ _ _ _ tree
        rw [evaluate_bin] at tail
        simp only [Lang.exprLoop, if_pos operator, term _ _ _ operand, addOrSub_eq, outcome,
          addOp_ne_div, false_and, if_false] at tail ⊢
        rw [← tail]
        cases l.evaluate vars with
        | error h => rfl
        | ok v => cases rhs.evaluate vars <;> rfl
      · next stops =>
        cases tree
        simp only [Lang.exprLoop, if_neg stops, outcome]
        cases l.evaluate vars <;> rfl

/-! ## More fuel -/

/-- `r'` is what `r` would be with more fuel. -/
def Extends {α : Type} (r r' : Except Halt α) : Prop := r = .error .outOfFuel ∨ r' = r

theorem Extends.bind {α β : Type} {r r' : Except Halt α} {f f' : α → Except Halt β}
    (first : Extends r r') (next : ∀ a, Extends (f a) (f' a)) :
    Extends (r >>= f) (r' >>= f') := by
  rcases first with rfl | rfl
  · exact Or.inl rfl
  · cases r' with
    | error h => exact Or.inr rfl
    | ok a => exact next a

theorem Extends.refl {α : Type} (r : Except Halt α) : Extends r r := Or.inr rfl

/-- By induction on the fuel. -/
theorem parse_extends (vars : List Var) (fuel : Nat) :
    (∀ s, Extends (parseFactor vars fuel s) (parseFactor vars (fuel + 1) s)) ∧
    (∀ s, Extends (parseTerm vars fuel s) (parseTerm vars (fuel + 1) s)) ∧
    (∀ v s, Extends (termLoop vars fuel v s) (termLoop vars (fuel + 1) v s)) ∧
    (∀ s, Extends (parseExpr vars fuel s) (parseExpr vars (fuel + 1) s)) ∧
    (∀ v s, Extends (exprLoop vars fuel v s) (exprLoop vars (fuel + 1) v s)) := by
  induction fuel with
  | zero =>
    exact ⟨fun _ => Or.inl rfl, fun _ => Or.inl rfl, fun _ _ => Or.inl rfl, fun _ => Or.inl rfl,
      fun _ _ => Or.inl rfl⟩
  | succ fuel ih =>
    obtain ⟨factor, term, loop, expr, exprLoop⟩ := ih
    refine ⟨fun s => ?_, fun s => ?_, fun v s => ?_, fun s => ?_, fun v s => ?_⟩
    case refine_1 =>
      rw [parseFactor, parseFactor]
      dsimp only
      split
      · exact (expr _).bind fun _ => Extends.refl _
      split
      · exact (factor _).bind fun _ => Extends.refl _
      · exact Extends.refl _
    case refine_2 =>
      rw [parseTerm, parseTerm]
      exact (factor s).bind fun _ => loop _ _
    case refine_3 =>
      rw [termLoop, termLoop]
      split
      · exact (factor _).bind fun _ => (Extends.refl _).bind fun _ => loop _ _
      · exact Extends.refl _
    case refine_4 =>
      rw [parseExpr, parseExpr]
      exact (term s).bind fun _ => exprLoop _ _
    case refine_5 =>
      rw [Lang.exprLoop, Lang.exprLoop]
      split
      · exact (term _).bind fun _ => exprLoop _ _
      · exact Extends.refl _

theorem parseExpr_extends (vars : List Var) (s : Text) (fuel more : Nat) :
    Extends (parseExpr vars fuel s) (parseExpr vars (fuel + more) s) := by
  induction more with
  | zero => exact Extends.refl _
  | succ more ih =>
    have last := (parse_extends vars (fuel + more)).2.2.2.1 s
    rcases ih with out | same
    · exact Or.inl out
    · rcases last with out | next
      · exact Or.inl (same ▸ out)
      · exact Or.inr (next.trans same)

/-! ## Result -/

/-- For every text and every table, `parse_expr` comes to an end with the value of
the expression it reads, or in the trap. -/
theorem parseExpr_ends (vars : List Var) (s : Text) (more : Nat) :
    parseExpr vars (depth s + more) s = outcome vars (readExpr s).1 (readExpr s).2 := by
  obtain ⟨e, rest, tree⟩ := treeExpr_ends s
  have here := (parse_tree vars (depth s)).2.2.2.1 s e rest tree
  have read : readExpr s = (e, rest) := by rw [readExpr, tree, Option.getD_some]
  rw [read]
  rcases parseExpr_extends vars s (depth s) more with out | same
  · rw [here, outcome, Expr.evaluate] at out
    split at out <;> cases out
  · rw [same, here]

/-- No division of `parse_expr` traps exactly when none in the expression the text
is read as divides -2^63 by -1. -/
theorem parseExpr_divides_iff (vars : List Var) (s : Text) :
    (∀ fuel, parseExpr vars fuel s ≠ .error .divideError) ↔ (readExpr s).1.Divides vars := by
  have ends := parseExpr_ends vars s
  constructor
  · intro never
    by_contra traps
    have here := ends 0
    rw [outcome, Expr.evaluate, if_neg traps] at here
    exact never _ here
  · intro safe fuel traps
    have here := ends fuel
    rw [outcome, Expr.evaluate, if_pos safe, Nat.add_comm] at here
    rcases parseExpr_extends vars s fuel (depth s) with out | same
    · rw [out] at traps
      cases traps
    · rw [same, traps] at here
      cases here

/-- `(-9223372036854775807 - 1) / -1`. -/
def trappingText : Text := "(-9223372036854775807 - 1) / -1".toList.map ch

theorem parseExpr_traps :
    ¬ ∀ vars s fuel, parseExpr vars fuel s ≠ .error .divideError := by
  intro claim
  exact claim [] trappingText (depth trappingText) (by decide +kernel)

end MiniKernel.Programs.Lang
