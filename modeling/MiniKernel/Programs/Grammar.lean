import MiniKernel.Programs.Trees

/-!
# An expression has one reading

Source: src/programs/lang.c:7-25 (what an expression is) and 110-198. The parser
reads a spelling back as the expression it spells, whatever stands behind it; so no
text spells two expressions.
-/
namespace MiniKernel.Programs.Lang

variable {c : UInt8} {s t u ws ws' rest : Text} {e l r : Expr} {level : Level}

/-- The text of an expression, at its level, is read to its end as that expression;
a loop then goes on behind it, with whatever result. -/
def ReadsTree : Level → Expr → Text → Prop
  | .factor, e, t => ∀ ws rest fuel, Blank ws → Stops rest →
      4 * (ws.length + t.length) ≤ fuel + 3 →
        treeFactor fuel (ws ++ (t ++ rest)) = some (e, rest)
  | .term, e, t => ∀ ws rest result least, Blank ws → Stops rest →
      (∀ fuel, least ≤ fuel → treeTermLoop fuel e (skipWs rest) = result) →
        ∀ fuel, least + 4 * (ws.length + t.length) ≤ fuel + 2 →
          treeTerm fuel (ws ++ (t ++ rest)) = result
  | .expr, e, t => ∀ ws rest result least, Blank ws → Stops rest →
      (peek (skipWs rest) ≠ ch '*' ∧ peek (skipWs rest) ≠ ch '/') →
      (∀ fuel, least ≤ fuel → treeExprLoop fuel e (skipWs rest) = result) →
        ∀ fuel, least + 4 * (ws.length + t.length) ≤ fuel →
          treeExpr fuel (ws ++ (t ++ rest)) = result

/-! ## What a spelling starts with -/

/-- By induction on the spelling: a letter, a digit, a parenthesis or a minus. -/
theorem Spells.first (spells : Spells level e t) :
    ∃ c t', t = c :: t' ∧ (isIdentChar c = true ∨ c = ch '(' ∨ c = ch '-') := by
  have extend {t : Text} (more : Text)
      (first : ∃ c t', t = c :: t' ∧ (isIdentChar c = true ∨ c = ch '(' ∨ c = ch '-')) :
      ∃ c t', t ++ more = c :: t' ∧ (isIdentChar c = true ∨ c = ch '(' ∨ c = ch '-') := by
    obtain ⟨c, t', rfl, kind⟩ := first
    exact ⟨c, t' ++ more, rfl, kind⟩
  induction spells with
  | @lit digits number =>
    cases digits with
    | nil => exact absurd rfl number.nonempty
    | cons c digits =>
      exact ⟨c, digits, rfl, Or.inl (isIdentChar_of_isDigit (number.digit c List.mem_cons_self))⟩
  | @var name isName =>
    cases name with
    | nil => exact absurd rfl isName.nonempty
    | cons c name => exact ⟨c, name, rfl, Or.inl (isName.ident c List.mem_cons_self)⟩
  | neg _ _ _ => exact ⟨ch '-', _, rfl, Or.inr (Or.inr rfl)⟩
  | paren _ _ _ _ => exact ⟨ch '(', _, rfl, Or.inr (Or.inl rfl)⟩
  | factor _ ih => exact ih
  | mul _ _ _ _ _ left _ => exact extend _ left
  | term _ ih => exact ih
  | add _ _ _ _ _ left _ => exact extend _ left

theorem Spells.length_pos (spells : Spells level e t) : 0 < t.length := by
  obtain ⟨c, t', rfl, -⟩ := spells.first
  exact Nat.succ_pos _

/-! ## Leaves -/

theorem treeTermLoop_stops {fuel : Nat} (h : peek s ≠ ch '*' ∧ peek s ≠ ch '/') (enough : 1 ≤ fuel) :
    treeTermLoop fuel e s = some (e, s) := by
  obtain ⟨fuel, rfl⟩ := Nat.exists_eq_add_of_le' enough
  rw [treeTermLoop, if_neg fun operator => operator.elim h.1 h.2]

theorem treeExprLoop_stops {fuel : Nat} (h : peek s ≠ ch '+' ∧ peek s ≠ ch '-') (enough : 1 ≤ fuel) :
    treeExprLoop fuel e s = some (e, s) := by
  obtain ⟨fuel, rfl⟩ := Nat.exists_eq_add_of_le' enough
  rw [treeExprLoop, if_neg fun operator => operator.elim h.1 h.2]

theorem treeAtom_literal (literal : IsLiteral t) (stops : Stops rest) :
    treeAtom (t ++ rest) = (.lit (decimal t), rest) := by
  have stopped : rest.takeWhile isDigit = [] ∧ rest.dropWhile isDigit = rest := by
    cases rest with
    | nil => exact ⟨rfl, rfl⟩
    | cons c rest =>
      have notDigit : ¬ isDigit c = true := fun digit =>
        Bool.eq_false_iff.mp stops (isIdentChar_of_isDigit digit)
      exact ⟨List.takeWhile_cons_of_neg notDigit, List.dropWhile_cons_of_neg notDigit⟩
  rw [treeAtom, if_pos (literal.first rest), List.takeWhile_append_of_pos literal.digit,
    List.dropWhile_append_of_pos literal.digit, stopped.1, stopped.2, List.append_nil]

theorem treeAtom_name (name : IsName t) (stops : Stops rest) :
    treeAtom (t ++ rest) = (.var t, rest) := by
  have first : ¬ isDigit (peek (t ++ rest)) = true := by
    cases t with
    | nil => exact absurd rfl name.nonempty
    | cons c t => exact Bool.eq_false_iff.mp name.first
  have kept : t.take (varNameLen - 1) = t := List.take_of_length_le name.short
  rw [treeAtom, if_neg first, readIdent_ident name.ident stops, kept]
  exact if_neg name.nonempty

theorem readsTree_atom {text : Text} {fuel : Nat} (first : isIdentChar (peek text) = true)
    (atom : treeAtom text = (e, rest)) (blank : Blank ws) (enough : 1 ≤ fuel) :
    treeFactor fuel (ws ++ text) = some (e, rest) := by
  obtain ⟨fuel, rfl⟩ := Nat.exists_eq_add_of_le' enough
  obtain ⟨notBlank, notOpen, notMinus⟩ := isIdentChar_plain first
  rw [treeFactor, skipWs_blank blank, skipWs_of_peek notBlank]
  simp only [if_neg notOpen, if_neg notMinus, atom]

theorem readsTree_lit (literal : IsLiteral t) : ReadsTree .factor (.lit (decimal t)) t := by
  intro ws rest fuel blank stops enough
  have positive : 0 < t.length := List.length_pos_iff.mpr literal.nonempty
  exact readsTree_atom (isIdentChar_of_isDigit (literal.first rest))
    (treeAtom_literal literal stops) blank (by omega)

theorem readsTree_var (name : IsName t) : ReadsTree .factor (.var t) t := by
  intro ws rest fuel blank stops enough
  have positive : 0 < t.length := List.length_pos_iff.mpr name.nonempty
  refine readsTree_atom ?_ (treeAtom_name name stops) blank (by omega)
  cases t with
  | nil => exact absurd rfl name.nonempty
  | cons c t => exact name.ident c List.mem_cons_self

/-! ## Compound expressions -/

theorem blank_nil : Blank [] := nofun

theorem readsTree_neg (blank : Blank ws) (operand : ReadsTree .factor e t) :
    ReadsTree .factor (.neg e) (ch '-' :: (ws ++ t)) := by
  intro ws₀ rest fuel blank₀ stops enough
  simp only [List.length_cons, List.length_append] at enough
  obtain ⟨fuel, rfl⟩ := Nat.exists_eq_add_of_le' (by omega : 1 ≤ fuel)
  have inner := operand ws rest fuel blank stops (by omega)
  rw [treeFactor, skipWs_blank blank₀, skipWs_of_peek (by rfl)]
  simp only [List.cons_append, List.append_assoc, peek_cons, List.tail_cons]
  rw [if_neg (by decide), if_pos trivial, inner]
  rfl

theorem readsTree_paren (blank : Blank ws) (inner : ReadsTree .expr e t) (blank' : Blank ws') :
    ReadsTree .factor e (ch '(' :: (ws ++ (t ++ (ws' ++ [ch ')'])))) := by
  intro ws₀ rest fuel blank₀ _ enough
  simp only [List.length_cons, List.length_append, List.length_nil] at enough
  obtain ⟨fuel, rfl⟩ := Nat.exists_eq_add_of_le' (by omega : 1 ≤ fuel)
  have skips : skipWs (ws' ++ ch ')' :: rest) = ch ')' :: rest := skipWs_token blank' (by decide)
  have body := inner ws (ws' ++ ch ')' :: rest) (some (e, ch ')' :: rest)) 1 blank
    (stops_token blank' (by decide))
    (by
      rw [skips]
      exact ⟨(by decide : ch ')' ≠ ch '*'), (by decide : ch ')' ≠ ch '/')⟩)
    (fun fuel positive => by
      rw [skips]
      exact treeExprLoop_stops ⟨(by decide : ch ')' ≠ ch '+'), (by decide : ch ')' ≠ ch '-')⟩
        positive)
    fuel (by omega)
  rw [treeFactor, skipWs_blank blank₀, skipWs_of_peek (by rfl)]
  simp only [List.cons_append, List.append_assoc, List.nil_append, peek_cons, List.tail_cons]
  rw [if_pos trivial, body]
  have close : skipWs (ch ')' :: rest) = ch ')' :: rest := skipWs_of_peek (by rfl)
  simp only [bind, Option.bind, close, peek_cons, if_true, List.tail_cons]

theorem readsTree_factor (positive : 0 < t.length) (whole : ReadsTree .factor e t) :
    ReadsTree .term e t := by
  intro ws rest result least blank stops goes fuel enough
  obtain ⟨fuel, rfl⟩ := Nat.exists_eq_add_of_le' (by omega : 1 ≤ fuel)
  rw [treeTerm, whole ws rest fuel blank stops (by omega)]
  exact goes fuel (by omega)

theorem mulOp_eq {op : Op} (operator : (op, c) ∈ [(Op.mul, ch '*'), (Op.div, ch '/')]) :
    mulOp c = op ∧ (c = ch '*' ∨ c = ch '/') ∧ isBlank c = false ∧ isIdentChar c = false := by
  revert operator
  simp only [List.mem_cons, List.not_mem_nil, or_false, Prod.mk.injEq]
  rintro (⟨rfl, rfl⟩ | ⟨rfl, rfl⟩) <;> decide

theorem addOp_eq {op : Op} (operator : (op, c) ∈ [(Op.add, ch '+'), (Op.sub, ch '-')]) :
    addOp c = op ∧ (c = ch '+' ∨ c = ch '-') ∧ isBlank c = false ∧ isIdentChar c = false ∧
      c ≠ ch '*' ∧ c ≠ ch '/' := by
  revert operator
  simp only [List.mem_cons, List.not_mem_nil, or_false, Prod.mk.injEq]
  rintro (⟨rfl, rfl⟩ | ⟨rfl, rfl⟩) <;> decide

theorem readsTree_mul {op : Op} (operator : (op, c) ∈ [(Op.mul, ch '*'), (Op.div, ch '/')])
    (left : ReadsTree .term l t) (blank : Blank ws) (blank' : Blank ws')
    (right : ReadsTree .factor r u) :
    ReadsTree .term (.bin op l r) (t ++ (ws ++ c :: (ws' ++ u))) := by
  intro ws₀ rest result least blank₀ stops goes fuel enough
  obtain ⟨made, isOperator, notBlank, notIdent⟩ := mulOp_eq operator
  simp only [List.length_cons, List.length_append] at enough
  simp only [List.append_assoc, List.cons_append]
  refine left ws₀ (ws ++ c :: (ws' ++ (u ++ rest))) result
    (least + 4 * (ws'.length + u.length) + 1) blank₀ (stops_token blank notIdent)
    (fun fuel enough => ?_) fuel (by omega)
  obtain ⟨fuel, rfl⟩ := Nat.exists_eq_add_of_le' (by omega : 1 ≤ fuel)
  rw [skipWs_token blank notBlank, treeTermLoop, peek_cons, if_pos isOperator, List.tail_cons,
    right ws' rest fuel blank' stops (by omega), made]
  exact goes fuel (by omega)

theorem readsTree_term (positive : 0 < t.length) (whole : ReadsTree .term e t) :
    ReadsTree .expr e t := by
  intro ws rest result least blank stops noTerm goes fuel enough
  obtain ⟨fuel, rfl⟩ := Nat.exists_eq_add_of_le' (by omega : 1 ≤ fuel)
  have first := whole ws rest (some (e, skipWs rest)) 1 blank stops
    (fun fuel positive => treeTermLoop_stops noTerm positive) fuel (by omega)
  rw [treeExpr, first]
  simp only [bind, Option.bind, skipWs_skipWs]
  exact goes fuel (by omega)

theorem readsTree_add {op : Op} (operator : (op, c) ∈ [(Op.add, ch '+'), (Op.sub, ch '-')])
    (left : ReadsTree .expr l t) (blank : Blank ws) (blank' : Blank ws')
    (right : ReadsTree .term r u) :
    ReadsTree .expr (.bin op l r) (t ++ (ws ++ c :: (ws' ++ u))) := by
  intro ws₀ rest result least blank₀ stops noTerm goes fuel enough
  obtain ⟨made, isOperator, notBlank, notIdent, notTerm⟩ := addOp_eq operator
  have skips : skipWs (ws ++ c :: (ws' ++ (u ++ rest))) = c :: (ws' ++ (u ++ rest)) :=
    skipWs_token blank notBlank
  simp only [List.length_cons, List.length_append] at enough
  simp only [List.append_assoc, List.cons_append]
  refine left ws₀ (ws ++ c :: (ws' ++ (u ++ rest))) result
    (least + 4 * (ws'.length + u.length) + 2) blank₀ (stops_token blank notIdent)
    (by
      rw [skips]
      exact notTerm)
    (fun fuel enough => ?_) fuel (by omega)
  obtain ⟨fuel, rfl⟩ := Nat.exists_eq_add_of_le' (by omega : 1 ≤ fuel)
  have operand := right ws' rest (some (r, skipWs rest)) 1 blank' stops
    (fun fuel positive => treeTermLoop_stops noTerm positive) fuel (by omega)
  rw [skips, treeExprLoop, peek_cons, if_pos isOperator, List.tail_cons, operand, made]
  simp only [bind, Option.bind, skipWs_skipWs]
  exact goes fuel (by omega)

/-- By induction on the spelling. -/
theorem readsTree_of_spells (spells : Spells level e t) : ReadsTree level e t := by
  induction spells with
  | lit number => exact readsTree_lit ⟨number.nonempty, number.digit⟩
  | var name => exact readsTree_var name
  | neg blank _ ih => exact readsTree_neg blank ih
  | paren blank _ blank' ih => exact readsTree_paren blank ih blank'
  | factor whole ih => exact readsTree_factor whole.length_pos ih
  | mul operator _ blank blank' _ left right => exact readsTree_mul operator left blank blank' right
  | term whole ih => exact readsTree_term whole.length_pos ih
  | add operator _ blank blank' _ left right => exact readsTree_add operator left blank blank' right

/-! ## Result -/

/-- What stands behind an expression does not go on with it. -/
structure Closes (rest : Text) : Prop where
  stops : Stops rest
  plain : peek (skipWs rest) ∉ [ch '*', ch '/', ch '+', ch '-']

theorem readExpr_of_readsTree (blank : Blank ws) (tree : ReadsTree .expr e t)
    (closes : Closes rest) : readExpr (ws ++ (t ++ rest)) = (e, skipWs rest) := by
  have plain := closes.plain
  simp only [List.mem_cons, List.not_mem_nil, or_false, not_or] at plain
  obtain ⟨star, slash, plus, minus⟩ := plain
  have reads := tree ws rest (some (e, skipWs rest)) 1 blank closes.stops
    ⟨star, slash⟩ (fun fuel positive => treeExprLoop_stops ⟨plus, minus⟩ positive)
    (depth (ws ++ (t ++ rest))) (by
      simp only [depth, List.length_append]
      omega)
  rw [readExpr, reads, Option.getD_some]

theorem readExpr_spelled (blank : Blank ws) (spells : Spells .expr e t) (closes : Closes rest) :
    readExpr (ws ++ (t ++ rest)) = (e, skipWs rest) :=
  readExpr_of_readsTree blank (readsTree_of_spells spells) closes

theorem skipWs_all (blank : Blank ws) : skipWs ws = [] := by
  have skips := skipWs_blank blank []
  rw [List.append_nil] at skips
  exact skips

theorem stops_of_isBlank (blank : isBlank c = true) : Stops (c :: s) := by
  refine Bool.eq_false_iff.mpr fun ident => ?_
  have plain : isBlank c = false := (isIdentChar_plain ident).1
  rw [blank] at plain
  cases plain

theorem Closes.blank (blank : Blank ws) : Closes ws := by
  constructor
  · cases ws with
    | nil => rfl
    | cons w ws => exact stops_of_isBlank (blank w List.mem_cons_self)
  · rw [skipWs_all blank]
    decide

/-- The parser reads back the expression that was written, whatever its precedences
and parentheses, and a text is the spelling of one expression at most. -/
theorem written_read_back (e : Expr) (text : Text) (written : Written e text) :
    readExpr text = (e, []) ∧ ∀ e', Written e' text → e' = e := by
  have reads (e : Expr) (written : Written e text) : readExpr text = (e, []) := by
    obtain ⟨ws, t, ws', blank, spells, blank', rfl⟩ := written
    rw [readExpr_spelled blank spells (.blank blank'), skipWs_all blank']
  refine ⟨reads e written, fun e' written' => ?_⟩
  exact congrArg Prod.fst ((reads e' written').symm.trans (reads e written))

theorem written_read_back_some : readExpr someText = (someExpr, []) :=
  (written_read_back someExpr someText someExpr_written).1

end MiniKernel.Programs.Lang
