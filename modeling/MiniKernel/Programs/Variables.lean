import MiniKernel.Lib.Machine
import MiniKernel.Programs.Statements

/-!
# The variables of a script as a map

Source: src/programs/lang.c:92-131 (`var_ref`, `read_ident`), 284-305 and 325-343
(`let` and `input`). Beside the interpreter stands what the names, in full length,
were last assigned.
-/
namespace MiniKernel.Programs.Lang
open LineReader (newline)
open Lib.Machine (run Meets)

/-- The value of an expression where the variables are a map. -/
def Expr.valueIn (store : Text → Word) : Expr → Word
  | .lit n => BitVec.ofNat 64 n
  | .var name => store name
  | .neg e => -e.valueIn store
  | .bin op l r => op.apply (l.valueIn store) (r.valueIn store)

structure Session where
  interp : Interp
  stop : Option Stop
  /-- What each name was last assigned. -/
  assigned : Text → Option Word
  /-- Every statement that assigned nothing has written an error. -/
  reported : Bool

structure Turn where
  line : Text
  lineNo : Word
  /-- What the variable of `read_line_stdin` holds before. -/
  garbage : UInt8

def isLet (line : Text) : Bool := startsWith (skipWs line) (str "let ")
def isInput (line : Text) : Bool := startsWith (skipWs line) (str "input ")

/-- The whole name that the statement assigns to, and the text of the value. -/
def assignment (it : Interp) (line : Text) : Option (Text × Text) :=
  if isLet line then
    let s := skipWs ((skipWs line).drop 4)
    let name := s.takeWhile isIdentChar
    let s := skipWs (s.dropWhile isIdentChar)
    if name ≠ [] ∧ peek s = ch '=' then some (name, s.tail) else none
  else
    let name := (skipWs ((skipWs line).drop 6)).takeWhile isIdentChar
    if name ≠ [] then some (name, skipWs (LineReader.lineOf 32 it.input.bytes)) else none

/-- The message at the end of the output. -/
def Reports (it it' : Interp) (lineNo : Word) : Prop :=
  ∃ what ∈ [badName, expectedEquals],
    it'.output = it.output ++ (str what ++ printInt lineNo ++ [newline])

instance (it it' : Interp) (lineNo : Word) : Decidable (Reports it it' lineNo) :=
  inferInstanceAs (Decidable (∃ what ∈ [badName, expectedEquals], _))

namespace Session

def value (s : Session) (text : Text) : Word :=
  (readExpr text).1.valueIn fun name => (s.assigned name).getD 0

/-- The next `let` or `input`; none where it waits for a key, or after the end. -/
def step (s : Session) (turn : Turn) : Option Session :=
  if s.stop ≠ none ∨ (isLet turn.line = false ∧ isInput turn.line = false) then none
  else
    match execLine s.interp ⟨false, -1, true⟩ turn.line turn.lineNo turn.garbage with
    | .error .waits => none
    | .error stop => some { s with stop := some stop }
    | .ok (it, _) =>
      match assignment s.interp turn.line with
      | some (name, text) =>
        some { s with
          interp := it
          assigned := Function.update s.assigned name (some (s.value text)) }
      | none =>
        some { s with
          interp := it
          reported := s.reported && decide (Reports s.interp it turn.lineNo) }

def init (input : LineReader.Stdin) : Session where
  interp := ⟨[], input, []⟩
  stop := none
  assigned _ := none
  reported := true

end Session

structure IsIdentifier (name : Text) : Prop where
  nonempty : name ≠ []
  ident : ∀ c ∈ name, isIdentChar c = true

/-- In an expression each name has the value last assigned to it, and one that was
never assigned to is read as if there were no variables. No statement has come to
grief, and none has been passed over without a message. -/
structure BehavesAsMap (s : Session) : Prop where
  goesOn : s.stop = none
  reported : s.reported = true
  assigned : ∀ name value, s.assigned name = some value → IsIdentifier name →
    ∀ rest fuel, Stops rest →
      parseFactor s.interp.vars (fuel + 1) (name ++ rest) = .ok (value, rest)
  unassigned : ∀ name, s.assigned name = none → IsIdentifier name → ∀ rest fuel, Stops rest →
    parseFactor s.interp.vars (fuel + 1) (name ++ rest) = parseFactor [] (fuel + 1) (name ++ rest)

/-- The assignment is to a name of at most 14 characters, the first of them no
digit, that is in the table or finds room there; the value can be computed, and
what an `input` reads has an end of line. -/
def Assignable (s : Session) (turn : Turn) : Prop :=
  ∀ p ∈ assignment s.interp turn.line,
    isDigit (peek p.1) = false ∧ p.1.length < varNameLen - 1 ∧
    ((∃ v ∈ s.interp.vars, v.name = p.1) ∨ s.interp.vars.length < maxVars) ∧
    (readExpr p.2).1.Divides s.interp.vars ∧
    (isLet turn.line = true ∨ newline ∈ s.interp.input.bytes ∨ s.interp.input.ending = .waits)

instance (s : Session) (turn : Turn) : Decidable (Assignable s turn) :=
  inferInstanceAs (Decidable (∀ p ∈ assignment s.interp turn.line, _))

/-! ## The table -/

variable {vars : List Var} {name other : Text} {value : Word}

theorem value_eq_valueIn (e : Expr) : e.value vars = e.valueIn (valueOf vars) := by
  induction e with
  | lit n => rfl
  | var name => rfl
  | neg e ih => rw [Expr.value, Expr.valueIn, ih]
  | bin op l r left right => rw [Expr.value, Expr.valueIn, left, right]

theorem valueOf_cons (v : Var) : valueOf (v :: vars) other =
    if v.name = other then v.value else valueOf vars other := by
  rw [valueOf, List.find?_cons]
  by_cases here : v.name = other
  · rw [if_pos here, decide_eq_true here]
    rfl
  · rw [if_neg here, decide_eq_false here]
    rfl

/-- By induction on the table, up to the first variable of the name. -/
theorem valueOf_modify {i : Nat} (found : vars.findIdx? (fun v => v.name = name) = some i) :
    valueOf (vars.modify i fun v => { v with value := value }) other =
      if other = name then value else valueOf vars other := by
  induction vars generalizing i with
  | nil => cases found
  | cons v vars ih =>
    rw [List.findIdx?_cons] at found
    by_cases here : v.name = name
    · rw [decide_eq_true here, if_pos rfl] at found
      obtain rfl := Option.some.inj found
      rw [List.modify_zero_cons, valueOf_cons, valueOf_cons, here]
      by_cases same : other = name
      · rw [if_pos same.symm, if_pos same]
      · rw [if_neg (Ne.symm same), if_neg same]
        exact (if_neg (Ne.symm same)).symm
    · rw [decide_eq_false here, if_neg Bool.false_ne_true] at found
      obtain ⟨j, later, rfl⟩ := Option.map_eq_some_iff.mp found
      rw [List.modify_succ_cons, valueOf_cons, valueOf_cons, ih later]
      by_cases first : v.name = other
      · rw [if_pos first, if_pos first, if_neg fun same => here (first.trans same)]
      · rw [if_neg first, if_neg first]

theorem valueOf_append (absent : ∀ v ∈ vars, v.name ≠ name) :
    valueOf (vars ++ [⟨name, value⟩]) other =
      if other = name then value else valueOf vars other := by
  induction vars with
  | nil =>
    rw [List.nil_append, valueOf_cons]
    by_cases same : other = name
    · rw [if_pos same.symm, if_pos same]
    · rw [if_neg (Ne.symm same), if_neg same]
  | cons v vars ih =>
    rw [List.cons_append, valueOf_cons, valueOf_cons,
      ih fun w member => absent w (List.mem_cons_of_mem v member)]
    by_cases first : v.name = other
    · have apart := absent v List.mem_cons_self
      rw [if_pos first, if_pos first, if_neg fun same => apart (first.trans same)]
    · rw [if_neg first, if_neg first]

theorem modify_last (vars : List Var) (v : Var) (f : Var → Var) :
    (vars ++ [v]).modify vars.length f = vars ++ [f v] := by
  induction vars with
  | nil => rfl
  | cons w vars ih => rw [List.cons_append, List.length_cons, List.modify_succ_cons, ih, List.cons_append]

/-- An assignment changes one entry of the map. -/
theorem assign_ok (short : name.length ≤ varNameLen - 1)
    (room : (∃ v ∈ vars, v.name = name) ∨ vars.length < maxVars) :
    ∃ vars', assign vars name value = .ok vars' ∧
      ∀ other, valueOf vars' other = if other = name then value else valueOf vars other := by
  cases found : vars.findIdx? fun v => v.name = name with
  | some i =>
    have ref : varRef vars name true = (some i, vars) := by rw [varRef, found]
    refine ⟨_, by rw [assign, ref], fun other => ?_⟩
    exact valueOf_modify found
  | none =>
    have absent : ∀ v ∈ vars, v.name ≠ name := by
      simpa using List.findIdx?_eq_none_iff.mp found
    have free : ¬ (true = false ∨ maxVars ≤ vars.length) := by
      intro full
      rcases full with never | full
      · cases never
      · rcases room with ⟨v, member, same⟩ | room
        · exact absent v member same
        · omega
    have ref : varRef vars name true = (some vars.length, vars ++ [⟨name, 0⟩]) := by
      rw [varRef, found]
      dsimp only
      rw [if_neg free, List.take_of_length_le short]
    refine ⟨vars ++ [⟨name, value⟩], ?_, fun other => valueOf_append absent⟩
    rw [assign, ref]
    exact congrArg Except.ok (modify_last vars _ _)

/-! ## The statements -/

variable {it : Interp} {control : Control} {line text s : Text} {lineNo : Word} {garbage : UInt8}

/-- The statement is done, with one entry of the map changed. -/
def Assigned (it : Interp) (control : Control) (name : Text) (value : Word)
    (result : Except Stop (Interp × Control)) : Prop :=
  ∃ it', result = .ok (it', control) ∧
    ∀ other, valueOf it'.vars other = if other = name then value else valueOf it.vars other

theorem readIdent_eq (s : Text) (short : (s.takeWhile isIdentChar).length < varNameLen - 1) :
    readIdent s = (s.takeWhile isIdentChar, s.dropWhile isIdentChar) := by
  rw [readIdent, List.take_of_length_le (Nat.le_of_lt short)]

theorem take_ident_eq_nil (name : Text) : name.take (varNameLen - 1) = [] ↔ name = [] := by
  simp [varNameLen]

/-- `let` without a name or without the `=`. -/
theorem execLet_rejects {t : Text} (here : skipWs line = str "let " ++ t)
    (nothing : assignment it line = none) :
    ∃ it', execLine it control line lineNo garbage = .ok (it', control) ∧
      it'.vars = it.vars ∧ Reports it it' lineNo := by
  have is : isLet line = true := (startsWith_iff _ _).mpr ⟨t, here⟩
  rw [assignment, if_pos is, keyword_rest here (by decide +kernel)] at nothing
  dsimp only at nothing
  rw [execLine_let here, execLet]
  dsimp only [readIdent]
  by_cases bad : (skipWs t).takeWhile isIdentChar = []
  · rw [if_pos ((take_ident_eq_nil _).mpr bad)]
    exact ⟨it.syntaxError badName lineNo, rfl, rfl, badName, by simp, rfl⟩
  · rw [if_neg fun none => bad ((take_ident_eq_nil _).mp none)]
    have unequal : peek (skipWs ((skipWs t).dropWhile isIdentChar)) ≠ ch '=' := by
      intro equal
      rw [if_pos ⟨bad, equal⟩] at nothing
      cases nothing
    rw [if_pos unequal]
    exact ⟨it.syntaxError expectedEquals lineNo, rfl, rfl, expectedEquals, by simp, rfl⟩

theorem execLet_assigns {t : Text} (here : skipWs line = str "let " ++ t)
    (assigns : assignment it line = some (name, text)) (short : name.length < varNameLen - 1)
    (room : (∃ v ∈ it.vars, v.name = name) ∨ it.vars.length < maxVars)
    (safe : (readExpr text).1.Divides it.vars) :
    Assigned it control name ((readExpr text).1.value it.vars)
      (execLine it control line lineNo garbage) := by
  have is : isLet line = true := (startsWith_iff _ _).mpr ⟨t, here⟩
  rw [assignment, if_pos is, keyword_rest here (by decide +kernel)] at assigns
  dsimp only at assigns
  split at assigns
  · next accepted =>
    obtain ⟨rfl, rfl⟩ := Prod.mk.inj (Option.some.inj assigns)
    obtain ⟨vars', stored, map⟩ := assign_ok (Nat.le_of_lt short) room
    rw [execLine_let here, execLet, readIdent_eq _ short]
    dsimp only
    rw [if_neg accepted.1, if_neg (not_not.mpr accepted.2), evalExpr_eq, if_pos safe]
    dsimp only [bind, Except.bind]
    rw [stored]
    exact ⟨{ it with vars := vars' }, rfl, map⟩
  · cases assigns

theorem isLet_of_input {t : Text} (here : skipWs line = str "input " ++ t) :
    ¬ isLet line = true := startsWith_other here (by decide +kernel)

/-- `input` without a name. -/
theorem execInput_rejects {t : Text} (here : skipWs line = str "input " ++ t)
    (nothing : assignment it line = none) :
    ∃ it', execLine it control line lineNo garbage = .ok (it', control) ∧
      it'.vars = it.vars ∧ Reports it it' lineNo := by
  rw [assignment, if_neg (isLet_of_input here), keyword_rest here (by decide +kernel)] at nothing
  rw [execLine_input here, execInput]
  dsimp only [readIdent] at nothing ⊢
  by_cases bad : (skipWs t).takeWhile isIdentChar = []
  · rw [if_pos ((take_ident_eq_nil _).mpr bad)]
    exact ⟨it.syntaxError badName lineNo, rfl, rfl, badName, by simp, rfl⟩
  · rw [if_pos bad] at nothing
    cases nothing

theorem execInput_assigns {t : Text} (here : skipWs line = str "input " ++ t)
    (assigns : assignment it line = some (name, text)) (short : name.length < varNameLen - 1)
    (room : (∃ v ∈ it.vars, v.name = name) ∨ it.vars.length < maxVars)
    (safe : (readExpr text).1.Divides it.vars)
    (comes : newline ∈ it.input.bytes ∨ it.input.ending = .waits) :
    Assigned it control name ((readExpr text).1.value it.vars)
        (execLine it control line lineNo garbage) ∨
      execLine it control line lineNo garbage = .error .waits := by
  rw [assignment, if_neg (isLet_of_input here), keyword_rest here (by decide +kernel)] at assigns
  dsimp only at assigns
  split at assigns
  · next accepted =>
    obtain ⟨rfl, rfl⟩ := Prod.mk.inj (Option.some.inj assigns)
    obtain ⟨vars', stored, map⟩ := assign_ok (Nat.le_of_lt short) room
    rw [execLine_input here, execInput, readIdent_eq _ short]
    dsimp only
    rw [if_neg accepted]
    by_cases ended : newline ∈ it.input.bytes
    · left
      obtain ⟨input, output, read⟩ :=
        readLine_of_newline (it.print (str "? ")) ended garbage
      rw [read]
      dsimp only [bind, Except.bind, Interp.print]
      rw [evalExpr_eq, if_pos safe]
      dsimp only
      rw [stored]
      exact ⟨_, rfl, map⟩
    · right
      rw [readLine_waits (it.print (str "? ")) ended (comes.resolve_left ended)]
      rfl
  · cases assigns

/-! ## What every statement keeps -/

/-- The table holds the map, and the names in it are short ones. -/
structure MapSound (s : Session) : Prop where
  goesOn : s.stop = none
  reported : s.reported = true
  table : ∀ name, valueOf s.interp.vars name = (s.assigned name).getD 0
  short : ∀ name value, s.assigned name = some value →
    name.length < varNameLen - 1 ∧ isDigit (peek name) = false

variable {session t : Session} {turn : Turn}

theorem MapSound.value_eq (sound : MapSound session) (text : Text) :
    session.value text = (readExpr text).1.value session.interp.vars := by
  have table : (fun name => (session.assigned name).getD 0) = valueOf session.interp.vars :=
    funext fun name => (sound.table name).symm
  rw [Session.value, table, value_eq_valueIn]

theorem MapSound.assign (sound : MapSound session) {it : Interp} (value : Word)
    (short : name.length < varNameLen - 1) (first : isDigit (peek name) = false)
    (map : ∀ other, valueOf it.vars other =
      if other = name then value else valueOf session.interp.vars other) :
    MapSound { session with
      interp := it
      assigned := Function.update session.assigned name (some value) } := by
  constructor
  · exact sound.goesOn
  · exact sound.reported
  · intro other
    dsimp only
    rw [map other, sound.table other]
    by_cases same : other = name
    · rw [if_pos same, same, Function.update_self]
      rfl
    · rw [if_neg same, Function.update_of_ne same]
  · intro other value' assigned
    dsimp only at assigned
    by_cases same : other = name
    · rw [same]
      exact ⟨short, first⟩
    · rw [Function.update_of_ne same] at assigned
      exact sound.short other value' assigned

/-- What `exec_line` does with an assignment that can be made. -/
theorem execLine_assigns (kind : isLet turn.line = true ∨ isInput turn.line = true)
    (ok : Assignable session turn) (control : Control)
    (assigns : assignment session.interp turn.line = some (name, text)) :
    Assigned session.interp control name ((readExpr text).1.value session.interp.vars)
        (execLine session.interp control turn.line turn.lineNo turn.garbage) ∨
      execLine session.interp control turn.line turn.lineNo turn.garbage = .error .waits := by
  obtain ⟨-, short, room, safe, comes⟩ := ok _ assigns
  by_cases is : isLet turn.line = true
  · obtain ⟨t, here⟩ := (startsWith_iff _ _).mp is
    exact Or.inl (execLet_assigns here assigns short room safe)
  · obtain ⟨t, here⟩ := (startsWith_iff _ _).mp (kind.resolve_left is)
    exact execInput_assigns here assigns short room safe (comes.resolve_left is)

theorem execLine_rejects (kind : isLet turn.line = true ∨ isInput turn.line = true)
    (control : Control) (nothing : assignment session.interp turn.line = none) :
    ∃ it', execLine session.interp control turn.line turn.lineNo turn.garbage =
        .ok (it', control) ∧
      it'.vars = session.interp.vars ∧ Reports session.interp it' turn.lineNo := by
  rcases kind with is | is
  · obtain ⟨t, here⟩ := (startsWith_iff _ _).mp is
    exact execLet_rejects here nothing
  · obtain ⟨t, here⟩ := (startsWith_iff _ _).mp is
    exact execInput_rejects here nothing

/-- Every `let` and every `input` whose assignment can be made. -/
theorem session_step (s : Session) (turn : Turn) (t : Session) (sound : MapSound s)
    (ok : Assignable s turn) (h : s.step turn = some t) : MapSound t := by
  unfold Session.step at h
  split at h
  · cases h
  next goes =>
  have kind : isLet turn.line = true ∨ isInput turn.line = true := by
    by_contra neither
    rw [not_or, Bool.not_eq_true, Bool.not_eq_true] at neither
    exact goes (Or.inr neither)
  cases assigns : assignment s.interp turn.line with
  | none =>
    obtain ⟨it', done, same, reports⟩ :=
      execLine_rejects kind ⟨false, -1, true⟩ assigns
    rw [done] at h
    dsimp only at h
    rw [assigns] at h
    cases h
    constructor
    · exact sound.goesOn
    · rw [sound.reported, decide_eq_true reports]
      rfl
    · intro name
      rw [same]
      exact sound.table name
    · exact sound.short
  | some p =>
    obtain ⟨name, text⟩ := p
    rcases execLine_assigns kind ok ⟨false, -1, true⟩ assigns with ⟨it', done, map⟩ | waits
    · rw [done] at h
      dsimp only at h
      rw [assigns] at h
      cases h
      obtain ⟨first, short, -⟩ := ok _ assigns
      rw [sound.value_eq]
      exact sound.assign _ short first map
    · rw [waits] at h
      cases h

theorem mapSound_init (input : LineReader.Stdin) : MapSound (.init input) := by
  constructor
  · rfl
  · rfl
  · intro name
    rfl
  · intro name value none_
    cases none_

/-- A name in an expression is read by the leaf. -/
theorem parseFactor_identifier (is : IsIdentifier name) (rest : Text) (fuel : Nat) :
    parseFactor vars (fuel + 1) (name ++ rest) = .ok (parseAtom vars (name ++ rest)) := by
  cases name with
  | nil => exact absurd rfl is.nonempty
  | cons c name =>
    obtain ⟨notBlank, notOpen, notMinus⟩ := isIdentChar_plain (is.ident c List.mem_cons_self)
    have stays : skipWs (c :: name ++ rest) = c :: name ++ rest := skipWs_of_peek notBlank
    rw [parseFactor, stays]
    dsimp only
    rw [List.cons_append, peek_cons, if_neg notOpen, if_neg notMinus]

/-- A name of 15 characters or more is never assigned, nor is what is kept of it. -/
theorem MapSound.kept (sound : MapSound session) (nothing : session.assigned name = none) :
    session.assigned (name.take (varNameLen - 1)) = none := by
  by_cases short : name.length ≤ varNameLen - 1
  · rw [List.take_of_length_le short, nothing]
  · cases kept : session.assigned (name.take (varNameLen - 1)) with
    | none => rfl
    | some value =>
      have less := (sound.short _ value kept).1
      rw [List.length_take] at less
      omega

theorem MapSound.behaves (sound : MapSound session) : BehavesAsMap session := by
  constructor
  · exact sound.goesOn
  · exact sound.reported
  · intro name value assigned is rest fuel stops
    obtain ⟨short, first⟩ := sound.short name value assigned
    rw [parseFactor_identifier is, parseAtom_ident is.nonempty first is.ident stops,
      List.take_of_length_le (Nat.le_of_lt short), sound.table, assigned]
    rfl
  · intro name unassigned is rest fuel stops
    rw [parseFactor_identifier is, parseFactor_identifier is]
    cases digit : isDigit (peek name) with
    | false =>
      rw [parseAtom_ident is.nonempty digit is.ident stops,
        parseAtom_ident is.nonempty digit is.ident stops, sound.table, sound.kept unassigned]
      rfl
    | true =>
      cases name with
      | nil => exact absurd rfl is.nonempty
      | cons c name =>
        have digit' : isDigit (peek (c :: name ++ rest)) = true := digit
        rw [parseAtom, parseAtom, if_pos digit', if_pos digit']

/-- In every run of `let` and `input` in which every assignment can be made, the
variables behave as a map. -/
theorem variables_behave_as_map (input : LineReader.Stdin) (turns : List Turn) (s : Session)
    (ok : Meets Session.step Assignable (.init input) turns)
    (ran : run Session.step (.init input) turns = some s) : BehavesAsMap s :=
  (Lib.Machine.run_invariant session_step (mapSound_init input) ok ran).behaves

/-- `let x1 = 2`, `input y_` with `x1*x1` typed, `let = 3` and `let x1 = x1 + y_`. -/
def someTurns : List Turn := [⟨str "let x1 = 2", 1, 0⟩, ⟨str " input y_", 2, 7⟩,
  ⟨str "let = 3", 3, 0⟩, ⟨str "let x1 = x1 + y_", 4, 0⟩]

theorem variables_behave_as_map_some :
    ∃ s, run Session.step (.init ⟨str "x1*x1" ++ [newline], .endOfFile⟩) someTurns = some s ∧
      BehavesAsMap s := by
  have runs : (run Session.step (.init ⟨str "x1*x1" ++ [newline], .endOfFile⟩) someTurns).isSome :=
    by decide +kernel
  obtain ⟨s, ran⟩ := Option.isSome_iff_exists.mp runs
  exact ⟨s, ran, variables_behave_as_map _ someTurns s (by decide +kernel) ran⟩

/-- `let 2x = 5`, and then `2x` is 2 with an `x` behind it. -/
theorem digit_name_unreadable :
    ¬ ∀ input turns s, run Session.step (.init input) turns = some s → BehavesAsMap s := by
  intro claim
  have runs : (run Session.step (.init ⟨[], .waits⟩) [⟨str "let 2x = 5", 1, 0⟩]).isSome := by
    decide +kernel
  obtain ⟨s, ran⟩ := Option.isSome_iff_exists.mp runs
  have ends : ∀ s ∈ run Session.step (.init ⟨[], .waits⟩) [⟨str "let 2x = 5", 1, 0⟩],
      s.assigned (str "2x") = some 5 ∧
        parseFactor s.interp.vars 1 (str "2x") = .ok (2, str "x") := by decide +kernel
  obtain ⟨assigned, two⟩ := ends s ran
  have name : IsIdentifier (str "2x") := ⟨by decide +kernel, by decide +kernel⟩
  have five := (claim _ _ s ran).assigned (str "2x") 5 assigned name [] 0 rfl
  rw [List.append_nil, two] at five
  cases five

end MiniKernel.Programs.Lang
