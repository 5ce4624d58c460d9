import MiniKernel.Programs.Meaning
import MiniKernel.Programs.Script

/-!
# A script does what it means

Source: src/programs/lang.c:200-445. The interpreter re-reads each line when it comes
to it. For lines that spell a program, each round of its loop is one step of the
program, with the variables, the input and the output it has.
-/
namespace MiniKernel.Programs.Lang
open LineReader (newline backspace lineOf typed readLineStdin Reading)
open Lib.Goto (Flow Config)
open Lib.Machine (run)

/-- The interpreter holds the world: the table is the map, and has variables of these
names only. -/
structure Shows (names : List Text) (it : Interp) (w : World) : Prop where
  store : ∀ name, valueOf it.vars name = w.store name
  names : ∀ name ∈ it.vars.map Var.name, name ∈ names
  distinct : (it.vars.map Var.name).Nodup
  input : it.input = ⟨w.typed, .waits⟩
  output : it.output = w.output

/-- `*jumped`, `*target` and `*running` as a statement leaves them. -/
def controlOf : Flow → Control
  | .next => ⟨false, -1, true⟩
  | .jump line => ⟨true, BitVec.ofNat 64 (line + 1), true⟩
  | .stop => ⟨false, -1, false⟩

/-- `exec_line` has done what the statement does. -/
def Follows (names : List Text) :
    Except Stop (Interp × Control) → Except Stop (Flow × World) → Prop
  | .ok (it, control), .ok (flow, w) => Shows names it w ∧ control = controlOf flow
  | .error stop, .error stop' => stop = stop'
  | _, _ => False

/-- The loop of `run_script` is where the program is. -/
def Reaches (names : List Text) : Config Stop World → ScriptRun → Prop
  | .before line w, s =>
    s.ended = none ∧ s.running = true ∧ s.pc.toNat = line ∧ Shows names s.interp w
  | .done w, s =>
    (s.ended = some .finished ∨ s.ended = none ∧ s.running = false) ∧ Shows names s.interp w
  | .failed stop w, s =>
    stop ≠ .waits ∧ s.ended = some (.stopped stop) ∧ Shows names s.interp w

def startWorld (typed : List UInt8) : World := ⟨fun _ => 0, typed, []⟩

def startInterp (typed : List UInt8) : Interp := ⟨[], ⟨typed, .waits⟩, []⟩

/-- The program's state after `n` statements. -/
def stateAfter (p : List Stmt) (typed : List UInt8) (n : Nat) : Config Stop World :=
  Lib.Goto.after Stmt.exec p n (.before 0 (startWorld typed))

/-- What the interpreter does with the script, whatever its uninitialised bytes hold,
is what the program does: it is at the same line with the same values and the same
output as long as the program goes on; it ends where the program ends; it stops in the
trap where the program divides -2^63 by -1; it waits where the program waits for
more to be typed; and at the limit of its steps it says so. -/
structure RunsAs (p : List Stmt) (script : Script) (typed : List UInt8) : Prop where
  goesOn : ∀ n ≤ stepLimit, ∀ line w, stateAfter p typed n = .before line w →
    ∀ es : List UInt8, es.length = n →
      ∃ s, run (ScriptRun.round script) (.init (startInterp typed)) es = some s ∧
        s.ended = none ∧ s.pc.toNat = line ∧ s.interp.output = w.output ∧
        ∀ name, valueOf s.interp.vars name = w.store name
  ends : ∀ n ≤ stepLimit, ∀ w, stateAfter p typed n = .done w →
    ∀ es : List UInt8, n < es.length → ∃ k ≤ n + 1,
      ∃ s, run (ScriptRun.round script) (.init (startInterp typed)) (es.take k) = some s ∧
        s.ended = some .finished ∧ s.interp.output = w.output
  traps : ∀ n ≤ stepLimit, ∀ stop w, stateAfter p typed n = .failed stop w → stop ≠ .waits →
    ∀ es : List UInt8, n ≤ es.length → ∃ k ≤ n,
      ∃ s, run (ScriptRun.round script) (.init (startInterp typed)) (es.take k) = some s ∧
        s.ended = some (.stopped stop) ∧ s.interp.output = w.output
  waits : ∀ n ≤ stepLimit, ∀ w, stateAfter p typed n = .failed .waits w →
    ∀ es : List UInt8, n ≤ es.length →
      run (ScriptRun.round script) (.init (startInterp typed)) es = none
  limit : ∀ line w, stateAfter p typed stepLimit = .before line w → line < p.length →
    ∀ es : List UInt8, es.length = stepLimit + 1 →
      ∃ s, run (ScriptRun.round script) (.init (startInterp typed)) es = some s ∧
        s.ended = some .stepLimit ∧ s.interp.output = w.output ++ ScriptRun.limitMessage

/-! ## Expressions -/

variable {vars : List Var} {names : List Text} {it : Interp} {w : World} {name s t ws rest : Text}
  {e l r : Expr} {lineNo : Word} {garbage : UInt8}

theorem divides_iff (vars : List Var) (e : Expr) :
    e.Divides vars ↔ e.DividesIn (valueOf vars) := by
  induction e with
  | lit n => exact Iff.rfl
  | var name => exact Iff.rfl
  | neg e ih => exact ih
  | bin op l r left right =>
    rw [Expr.Divides, Expr.DividesIn, left, right, value_eq_valueIn, value_eq_valueIn]

theorem Shows.store_eq (shows : Shows names it w) : valueOf it.vars = w.store :=
  funext shows.store

/-- `parse_expr` where the text is read as `e`. -/
theorem evalExpr_read (shows : Shows names it w) (read : readExpr s = (e, rest)) :
    evalExpr it.vars s = (e.compute w.store).map fun v => (v, rest) := by
  rw [evalExpr_eq, read, Expr.compute, ← shows.store_eq]
  by_cases safe : e.Divides it.vars
  · rw [if_pos safe, if_pos ((divides_iff _ _).mp safe), value_eq_valueIn]
    rfl
  · rw [if_neg safe, if_neg (mt (divides_iff _ _).mpr safe)]
    rfl

theorem readExpr_written (written : Written e t) : readExpr t = (e, []) :=
  (written_read_back e t written).1

/-! ## The variables -/

theorem assign_names {vars' : List Var} {value : Word} (short : name.length ≤ varNameLen - 1)
    (assigned : assign vars name value = .ok vars') :
    vars'.map Var.name = vars.map Var.name ∨
      (name ∉ vars.map Var.name ∧ vars'.map Var.name = vars.map Var.name ++ [name]) := by
  have sameNames (vars : List Var) (i : Nat) :
      (vars.modify i fun v => { v with value := value }).map Var.name = vars.map Var.name := by
    induction vars generalizing i with
    | nil => rw [List.modify_nil]
    | cons v vars ih =>
      cases i with
      | zero => rfl
      | succ i => rw [List.modify_succ_cons, List.map_cons, ih, List.map_cons]
  cases found : vars.findIdx? fun v => v.name = name with
  | some i =>
    have ref : varRef vars name true = (some i, vars) := by rw [varRef, found]
    rw [assign, ref] at assigned
    cases assigned
    exact Or.inl (sameNames vars i)
  | none =>
    have absent : name ∉ vars.map Var.name := by
      intro member
      obtain ⟨v, inTable, same⟩ := List.mem_map.mp member
      have differs := List.findIdx?_eq_none_iff.mp found v inTable
      rw [decide_eq_false_iff_not] at differs
      exact differs same
    by_cases full : true = false ∨ maxVars ≤ vars.length
    · have ref : varRef vars name true = (none, vars) := by
        rw [varRef, found]
        exact if_pos full
      rw [assign, ref] at assigned
      cases assigned
    · have ref : varRef vars name true = (some vars.length, vars ++ [⟨name, 0⟩]) := by
        rw [varRef, found]
        dsimp only
        rw [if_neg full, List.take_of_length_le short]
      rw [assign, ref] at assigned
      cases assigned
      refine Or.inr ⟨absent, ?_⟩
      rw [sameNames, List.map_append, List.map_singleton]

/-- An assignment to one of the names finds its variable or room for it. -/
theorem assign_shows (shows : Shows names it w) (few : names.length ≤ maxVars)
    (member : name ∈ names) (short : name.length ≤ varNameLen - 1) (value : Word) :
    ∃ vars, assign it.vars name value = .ok vars ∧
      Shows names { it with vars := vars } (w.assign name value) := by
  have room : (∃ v ∈ it.vars, v.name = name) ∨ it.vars.length < maxVars := by
    by_cases there : name ∈ it.vars.map Var.name
    · exact Or.inl (List.mem_map.mp there)
    · right
      have subset : (name :: it.vars.map Var.name) ⊆ names := by
        intro other inList
        rcases List.mem_cons.mp inList with rfl | old
        · exact member
        · exact shows.names other old
      have distinct : (name :: it.vars.map Var.name).Nodup :=
        List.nodup_cons.mpr ⟨there, shows.distinct⟩
      have bound := (List.subperm_of_subset distinct subset).length_le
      rw [List.length_cons, List.length_map] at bound
      omega
  obtain ⟨vars, assigned, map⟩ := @assign_ok it.vars name value short room
  refine ⟨vars, assigned, ?_⟩
  have kept := assign_names short assigned
  constructor
  · intro other
    rw [map, World.assign_store]
    by_cases same : other = name
    · rw [if_pos same, if_pos same]
    · rw [if_neg same, if_neg same]
      exact shows.store other
  · intro other inTable
    rcases kept with same | ⟨-, more⟩
    · exact shows.names other (same ▸ inTable)
    · rcases List.mem_append.mp (more ▸ inTable) with old | new
      · exact shows.names other old
      · exact List.mem_singleton.mp new ▸ member
  · rcases kept with same | ⟨absent, more⟩
    · exact same ▸ shows.distinct
    · have apart : (it.vars.map Var.name ++ [name]).Nodup := by
        rw [List.nodup_append]
        refine ⟨shows.distinct, List.nodup_singleton name, ?_⟩
        intro a inTable b single equal
        rw [List.mem_singleton.mp single] at equal
        exact absent (equal ▸ inTable)
      exact more ▸ apart
  · exact shows.input
  · exact shows.output

theorem Shows.print (shows : Shows names it w) (t : Text) :
    Shows names (it.print t) (w.print t) := by
  refine ⟨shows.store, shows.names, shows.distinct, shows.input, ?_⟩
  rw [Interp.print, World.print, shows.output]

/-! ## Reading a line -/

/-- By induction on the bytes before the newline: the line, the rest of the input, and
what has been shown. -/
theorem readLine_shows {before behind : List UInt8} (fuel : Nat) (s : Reading)
    (plain : newline ∉ before) (here : s.input.bytes = before ++ newline :: behind)
    (enough : before.length < fuel) :
    readLineStdin.loop 32 fuel s = some
      { buf := before.foldl (typed 32) s.buf, c := newline,
        input := { s.input with bytes := behind },
        output := s.output ++ echo 32 s.buf (before ++ newline :: behind) } := by
  obtain ⟨fuel, rfl⟩ := Nat.exists_eq_add_one_of_ne_zero (Nat.ne_zero_of_lt enough)
  induction before generalizing s fuel with
  | nil =>
    have read : s.input.sysRead s.c = some (1, newline, { s.input with bytes := behind }) := by
      rw [LineReader.Stdin.sysRead, here]
      rfl
    rw [LineReader.loop_newline read, List.nil_append, echo, if_pos rfl]
    rfl
  | cons b before ih =>
    have read : s.input.sysRead s.c =
        some (1, b, { s.input with bytes := before ++ newline :: behind }) := by
      rw [LineReader.Stdin.sysRead, here]
      rfl
    rw [List.mem_cons, not_or] at plain
    rw [List.length_cons] at enough
    obtain ⟨fuel, rfl⟩ := Nat.exists_eq_add_one_of_ne_zero (by omega : fuel ≠ 0)
    have plain₁ : b ≠ newline := Ne.symm plain.1
    have enough₁ : before.length < fuel + 1 := Nat.lt_of_succ_lt_succ enough
    rw [LineReader.Reader.loop, read, List.cons_append, List.foldl_cons, echo, if_neg plain₁]
    dsimp only
    rw [if_neg plain₁]
    by_cases back : b = backspace
    · rw [if_pos back, if_pos back]
      have drops : typed 32 s.buf b = s.buf.dropLast := by rw [typed, if_pos back]
      rw [drops]
      by_cases empty : s.buf = []
      · have nothing : ¬ s.buf.length > 0 := by
          rw [empty]
          exact Nat.lt_irrefl 0
        rw [if_neg nothing, if_pos empty, ih _ plain.2 rfl fuel enough₁, empty]
        rfl
      · have some_ : s.buf.length > 0 := List.length_pos_iff.mpr empty
        rw [if_pos some_, if_neg empty, ih _ plain.2 rfl fuel enough₁, List.append_assoc]
        rfl
    · rw [if_neg back, if_neg back]
      by_cases fits : s.buf.length + 1 < (32 : LineReader.Word).toNat
      · have keeps : typed 32 s.buf b = s.buf ++ [b] := by
          rw [typed, if_neg back, if_pos fits]
        rw [keeps, if_pos fits, if_pos (show readLineStdin.fits s.buf.length 32 = true from
          decide_eq_true fits), ih _ plain.2 rfl fuel enough₁, List.append_assoc]
        rfl
      · have drops : typed 32 s.buf b = s.buf := by
          rw [typed, if_neg back, if_neg fits]
        rw [drops, if_neg fits, if_neg (show ¬ readLineStdin.fits s.buf.length 32 = true from
          fun kept => fits (of_decide_eq_true kept)), ih _ plain.2 rfl fuel enough₁]
        rfl

/-- `read_line_stdin` where a line has been typed. -/
theorem readLine_typed {before behind : List UInt8} (plain : newline ∉ before)
    (here : it.input.bytes = before ++ newline :: behind) (garbage : UInt8) :
    it.readLine garbage = .ok (lineOf 32 it.input.bytes, { it with
      input := { it.input with bytes := behind }
      output := it.output ++ echo 32 [] it.input.bytes }) := by
  have enough : before.length < it.input.bytes.length + 1 := by
    rw [here, List.length_append]
    omega
  have reads := readLine_shows _ (.start garbage it.input) plain here enough
  rw [Interp.readLine, reads, here, LineReader.lineOf_append plain]
  rfl

theorem behindLine_eq {before behind : List UInt8} (plain : newline ∉ before) :
    behindLine (before ++ newline :: behind) = behind := by
  have others : ∀ b ∈ before, decide (b ≠ newline) = true := fun b member =>
    decide_eq_true fun same => plain (same ▸ member)
  rw [behindLine, List.dropWhile_append_of_pos others, List.dropWhile_cons_of_neg (by simp)]
  rfl

/-- `read_line_stdin` at the console. -/
theorem Shows.readLine (shows : Shows names it w) (garbage : UInt8) :
    if newline ∈ w.typed then
      ∃ it', (it.print (str "? ")).readLine garbage = .ok (lineOf 32 w.typed, it') ∧
        Shows names it' w.afterLine
    else (it.print (str "? ")).readLine garbage = .error .waits := by
  have input : (it.print (str "? ")).input = ⟨w.typed, .waits⟩ := shows.input
  by_cases ended : newline ∈ w.typed
  · rw [if_pos ended]
    obtain ⟨before, behind, split, plain⟩ := List.eq_append_cons_of_mem ended
    have bytes : (it.print (str "? ")).input.bytes = before ++ newline :: behind := by
      rw [input]
      exact split
    refine ⟨_, (readLine_typed plain bytes garbage).trans (by rw [input]), ?_⟩
    refine ⟨shows.store, shows.names, shows.distinct, ?_, ?_⟩
    · rw [World.afterLine, split, behindLine_eq plain]
    · rw [World.afterLine, Interp.print, shows.output]
  · rw [if_neg ended]
    exact readLine_waits _ (by rw [input]; exact ended) (by rw [input]) garbage

/-! ## Comparisons -/

/-- The operator as `read_cmp_op` packs it. -/
def Cmp.code : Cmp → Nat
  | .eq => (ch '=').toNat ||| ((ch '=').toNat <<< 8)
  | .ne => (ch '!').toNat ||| ((ch '=').toNat <<< 8)
  | .lt => (ch '<').toNat
  | .gt => (ch '>').toNat
  | .le => (ch '<').toNat ||| ((ch '=').toNat <<< 8)
  | .ge => (ch '>').toNat ||| ((ch '=').toNat <<< 8)

theorem Cmp.text_eq (cmp : Cmp) :
    (∃ c ∈ [ch '=', ch '!', ch '<', ch '>'], cmp.text = [c, ch '='] ∧
      cmp.code = c.toNat ||| ((ch '=').toNat <<< 8)) ∨
    (∃ c ∈ [ch '<', ch '>'], cmp.text = [c] ∧ cmp.code = c.toNat) := by
  cases cmp <;> decide +kernel

theorem Cmp.first (cmp : Cmp) : ∃ c more, cmp.text = c :: more ∧ isBlank c = false ∧
    isIdentChar c = false ∧ c ∉ [ch '*', ch '/', ch '+', ch '-'] := by
  have kinds : ∀ c ∈ [ch '=', ch '!', ch '<', ch '>'], isBlank c = false ∧
      isIdentChar c = false ∧ c ∉ [ch '*', ch '/', ch '+', ch '-'] := by decide +kernel
  rcases cmp.text_eq with ⟨c, kind, text, -⟩ | ⟨c, kind, text, -⟩
  · exact ⟨c, [ch '='], text, kinds c kind⟩
  · have more : c ∈ [ch '=', ch '!', ch '<', ch '>'] :=
      List.mem_cons_of_mem _ (List.mem_cons_of_mem _ kind)
    exact ⟨c, [], text, kinds c more⟩

theorem readCmpOp_text (cmp : Cmp) (other : peek rest ≠ ch '=') :
    readCmpOp (cmp.text ++ rest) = (cmp.code, rest) := by
  obtain ⟨c, more, spelled, notBlank, -, -⟩ := cmp.first
  have stays : skipWs (cmp.text ++ rest) = cmp.text ++ rest :=
    skipWs_of_peek (by rw [spelled]; exact notBlank)
  rw [readCmpOp, stays]
  rcases cmp.text_eq with ⟨c, kind, text, code⟩ | ⟨c, kind, text, code⟩
  · have two : peek (cmp.text ++ rest) ∈ [ch '=', ch '!', ch '<', ch '>'] ∧
        peek (cmp.text ++ rest).tail = ch '=' := by
      rw [text]
      exact ⟨kind, rfl⟩
    rw [if_pos two, text, code]
    rfl
  · have one : ¬ (peek (cmp.text ++ rest) ∈ [ch '=', ch '!', ch '<', ch '>'] ∧
        peek (cmp.text ++ rest).tail = ch '=') := by
      rw [text]
      exact fun both => other both.2
    have angle : peek (cmp.text ++ rest) = ch '<' ∨ peek (cmp.text ++ rest) = ch '>' := by
      rw [text]
      simpa using kind
    rw [if_neg one, if_pos angle, text, code]
    rfl

theorem evalCmp_code (cmp : Cmp) (x y : Word) : evalCmp x cmp.code y = cmp.holds x y := by
  unfold evalCmp
  cases cmp with
  | eq => exact if_pos rfl
  | ne =>
    rw [if_neg (by decide)]
    exact (if_pos rfl).trans (decide_not (p := x = y)).symm
  | lt =>
    rw [if_neg (by decide), if_neg (by decide), if_neg (by decide), if_neg (by decide)]
    exact if_pos rfl
  | gt =>
    rw [if_neg (by decide), if_neg (by decide), if_neg (by decide), if_neg (by decide),
      if_neg (by decide)]
    exact if_pos rfl
  | le =>
    rw [if_neg (by decide), if_neg (by decide)]
    exact if_pos rfl
  | ge =>
    rw [if_neg (by decide), if_neg (by decide), if_neg (by decide)]
    exact if_pos rfl

/-! ## Words of a line -/

theorem skipWs_word {own : Text} (blank : Blank ws) (some_ : own ≠ [])
    (first : isBlank (peek own) = false) : skipWs (ws ++ (own ++ t)) = own ++ t := by
  cases own with
  | nil => exact absurd rfl some_
  | cons c own => exact skipWs_token blank first

theorem IsName.notBlank (isName : IsName name) : isBlank (peek name) = false := by
  cases name with
  | nil => exact absurd rfl isName.nonempty
  | cons c name => exact (isIdentChar_plain (isName.ident c List.mem_cons_self)).1

theorem readIdent_name (isName : IsName name) (stops : Stops rest) :
    readIdent (name ++ rest) = (name, rest) := by
  have kept : name.take (varNameLen - 1) = name := List.take_of_length_le isName.short
  rw [readIdent_ident isName.ident stops, kept]

/-- What an expression starts with. -/
theorem Spells.token {level : Level} (spells : Spells level e t) :
    ∃ c t', t = c :: t' ∧ isBlank c = false ∧ c ≠ ch '"' ∧ c ≠ ch '=' := by
  obtain ⟨c, t', rfl, kind⟩ := spells.first
  refine ⟨c, t', rfl, ?_⟩
  rcases kind with ident | rfl | rfl
  · have other (d : UInt8) (not : isIdentChar d = false) : c ≠ d := by
      intro same
      rw [same, not] at ident
      cases ident
    exact ⟨(isIdentChar_plain ident).1, other _ (by decide), other _ (by decide)⟩
  · decide
  · decide

/-- An expression behind `print ` starts with no quote. -/
theorem Written.trimmed (written : Written e t) :
    peek (skipWs t) ≠ ch '"' ∧ readExpr (skipWs t) = (e, []) := by
  obtain ⟨ws, t', ws', blank, spells, blank', rfl⟩ := written
  obtain ⟨c, more, rfl, notBlank, noQuote, -⟩ := spells.token
  have trimmed : skipWs (ws ++ (c :: more ++ ws')) = c :: more ++ ws' :=
    skipWs_token blank notBlank
  rw [trimmed]
  exact ⟨noQuote, readExpr_written ⟨[], c :: more, ws', nofun, spells, blank', rfl⟩⟩

theorem execLine_skip {line : Text} {control : Control}
    (nothing : peek (skipWs line) = 0 ∨ peek (skipWs line) = ch '#') :
    execLine it control line lineNo garbage = .ok (it, control) := if_pos nothing

theorem execLine_print {line : Text} {control : Control}
    (here : skipWs line = str "print " ++ t) :
    execLine it control line lineNo garbage = (do .ok (← execPrint it t, control)) := by
  have starts := (startsWith_iff _ _).mpr ⟨t, here⟩
  have first : peek (skipWs line) = ch 'p' := peek_keyword here (by decide +kernel)
  rw [execLine, if_neg (by rw [first]; decide), if_neg (startsWith_other here (by decide +kernel)),
    if_pos starts, keyword_rest here (by decide +kernel)]

theorem execLine_end {line : Text} {control : Control} (here : skipWs line = str "end") :
    execLine it control line lineNo garbage = .ok (it, { control with running := false }) := by
  rw [execLine, here, if_neg (by decide +kernel), if_neg (by decide +kernel),
    if_neg (by decide +kernel), if_neg (by decide +kernel), if_neg (by decide +kernel),
    if_neg (by decide +kernel), if_pos (by decide +kernel)]

/-- `*jumped = 1; *target = tgt` for the number of a line. -/
theorem jumpTo_lineTo {n : Nat} (small : n < 2 ^ 31) :
    (controlOf .next).jumpTo (BitVec.ofNat 64 n) = controlOf (lineTo n) := by
  have kept : n % 2 ^ 64 = n := Nat.mod_eq_of_lt (by omega)
  by_cases zero : n = 0
  · rw [zero]
    rfl
  · obtain ⟨k, rfl⟩ := Nat.exists_eq_add_one_of_ne_zero zero
    have is : (1 : Word).sle (BitVec.ofNat 64 (k + 1)) = true := by
      rw [Lib.Words.positive_iff, kept]
      omega
    rw [Control.jumpTo, if_pos is, lineTo, if_neg zero]
    rfl

/-! ## Each statement -/

variable {line : Text}

theorem follows_skip (shows : Shows names it w)
    (nothing : peek (skipWs line) = 0 ∨ peek (skipWs line) = ch '#') :
    Follows names (execLine it (controlOf .next) line lineNo garbage) (Stmt.exec .skip w) := by
  rw [execLine_skip nothing]
  exact ⟨shows, rfl⟩

theorem follows_set (shows : Shows names it w) (few : names.length ≤ maxVars)
    (member : name ∈ names) {ws₁ ws₂ : Text} (here : skipWs line =
      str "let " ++ (ws₁ ++ (name ++ (ws₂ ++ ch '=' :: t)))) (blank₁ : Blank ws₁)
    (isName : IsName name) (blank₂ : Blank ws₂) (written : Written e t) :
    Follows names (execLine it (controlOf .next) line lineNo garbage)
      (Stmt.exec (.set name e) w) := by
  have equals : skipWs (ws₂ ++ ch '=' :: t) = ch '=' :: t := skipWs_token blank₂ (by decide)
  rw [execLine_let here, execLet, skipWs_word blank₁ isName.nonempty isName.notBlank,
    readIdent_name isName (stops_token blank₂ (by decide))]
  dsimp only
  rw [if_neg isName.nonempty, equals, peek_cons, if_neg (not_not.mpr rfl), List.tail_cons,
    evalExpr_read shows (readExpr_written written), Stmt.exec]
  cases e.compute w.store with
  | error stop => rfl
  | ok value =>
    obtain ⟨vars, assigned, shown⟩ := assign_shows shows few member isName.short value
    dsimp only [Except.map, bind, Except.bind]
    rw [assigned]
    exact ⟨shown, rfl⟩

theorem follows_print (shows : Shows names it w) (here : skipWs line = str "print " ++ t)
    (written : Written e t) :
    Follows names (execLine it (controlOf .next) line lineNo garbage)
      (Stmt.exec (.print e) w) := by
  obtain ⟨noQuote, reads⟩ := written.trimmed
  rw [execLine_print here, execPrint]
  dsimp only
  rw [if_neg noQuote, evalExpr_read shows reads, Stmt.exec]
  cases e.compute w.store with
  | error stop => rfl
  | ok value => exact ⟨shows.print _, rfl⟩

theorem follows_printText (shows : Shows names it w) {ws₁ ws₂ : Text} (here : skipWs line =
      str "print " ++ (ws₁ ++ ch '"' :: (t ++ ch '"' :: ws₂))) (blank₁ : Blank ws₁)
    (plain : ∀ c ∈ t, c ≠ 0 ∧ c ≠ ch '"') :
    Follows names (execLine it (controlOf .next) line lineNo garbage)
      (Stmt.exec (.printText t) w) := by
  have opens : skipWs (ws₁ ++ ch '"' :: (t ++ ch '"' :: ws₂)) = ch '"' :: (t ++ ch '"' :: ws₂) :=
    skipWs_token blank₁ (by decide)
  have inside : ∀ c ∈ t, decide (c ≠ 0 ∧ c ≠ ch '"') = true := fun c member =>
    decide_eq_true (plain c member)
  have text : (t ++ ch '"' :: ws₂).takeWhile (fun c => c ≠ 0 ∧ c ≠ ch '"') = t := by
    rw [List.takeWhile_append_of_pos inside, List.takeWhile_cons_of_neg (by simp), List.append_nil]
  rw [execLine_print here, execPrint, opens]
  dsimp only
  rw [peek_cons, if_pos rfl, List.tail_cons, text]
  exact ⟨shows.print _, rfl⟩

theorem follows_input (shows : Shows names it w) (few : names.length ≤ maxVars)
    (member : name ∈ names) {ws₁ ws₂ : Text} (here : skipWs line =
      str "input " ++ (ws₁ ++ (name ++ ws₂))) (blank₁ : Blank ws₁) (isName : IsName name)
    (blank₂ : Blank ws₂) :
    Follows names (execLine it (controlOf .next) line lineNo garbage)
      (Stmt.exec (.input name) w) := by
  have read := shows.readLine garbage
  rw [execLine_input here, execInput, skipWs_word blank₁ isName.nonempty isName.notBlank,
    readIdent_name isName (Closes.blank blank₂).stops]
  dsimp only
  rw [if_neg isName.nonempty, Stmt.exec]
  by_cases ended : newline ∈ w.typed
  · rw [if_pos ended] at read ⊢
    obtain ⟨it', returns, shows'⟩ := read
    rw [returns]
    dsimp only [bind, Except.bind]
    have value : evalExpr it'.vars (skipWs (lineOf 32 w.typed)) =
        ((answer w.typed).compute w.store).map fun v =>
          (v, (readExpr (skipWs (lineOf 32 w.typed))).2) :=
      evalExpr_read (w := w.afterLine) shows' (by rw [answer])
    rw [value]
    cases (answer w.typed).compute w.store with
    | error stop => rfl
    | ok value =>
      obtain ⟨vars, assigned, shown⟩ := assign_shows shows' few member isName.short value
      dsimp only [Except.map]
      rw [assigned]
      exact ⟨shown, rfl⟩
  · rw [if_neg ended] at read ⊢
    rw [read]
    rfl

/-- An expression with blanks and a word behind it that does not go on with it. -/
theorem readExpr_word {ws' own more : Text} {c : UInt8} (blank : Blank ws)
    (spells : Spells .expr e t) (blank' : Blank ws') (spelled : own = c :: more)
    (notBlank : isBlank c = false) (plain : c ∉ [ch '*', ch '/', ch '+', ch '-'])
    (apart : ws' ≠ [] ∨ isIdentChar c = false) :
    readExpr (ws ++ (t ++ (ws' ++ (own ++ rest)))) = (e, own ++ rest) := by
  have stays : skipWs (ws' ++ (own ++ rest)) = own ++ rest := by
    rw [spelled]
    exact skipWs_token blank' notBlank
  have closes : Closes (ws' ++ (own ++ rest)) := by
    constructor
    · rcases apart with some_ | notIdent
      · cases ws' with
        | nil => exact absurd rfl some_
        | cons b ws' => exact stops_of_isBlank (blank' b List.mem_cons_self)
      · rw [spelled]
        exact stops_token blank' notIdent
    · rw [stays, spelled]
      exact plain
  rw [readExpr_spelled blank spells closes, stays]

theorem notDigit_of_blank (blank : Blank ws) : isDigit (peek ws) = false :=
  Bool.eq_false_iff.mpr fun digit =>
    Bool.eq_false_iff.mp (Closes.blank blank).stops (isIdentChar_of_isDigit digit)

theorem follows_goto (shows : Shows names it w) {ws₁ digits ws₂ : Text}
    (here : skipWs line = str "goto " ++ (ws₁ ++ (digits ++ ws₂))) (blank₁ : Blank ws₁)
    (literal : IsLiteral digits) (blank₂ : Blank ws₂) (small : decimal digits < 2 ^ 31) :
    Follows names (execLine it (controlOf .next) line lineNo garbage)
      (Stmt.exec (.goto (decimal digits)) w) := by
  rw [execLine_goto here, parseLineNumber_literal blank₁ literal (notDigit_of_blank blank₂),
    jumpTo_lineTo small]
  exact ⟨shows, rfl⟩

theorem follows_ifGoto (shows : Shows names it w) {ws₁ t₁ ws₂ ws₃ t₂ ws₄ ws₅ digits ws₆ : Text}
    (cmp : Cmp) (here : skipWs line = str "if " ++ (ws₁ ++ (t₁ ++ (ws₂ ++ (cmp.text ++ (ws₃ ++
      (t₂ ++ (ws₄ ++ (str "goto " ++ (ws₅ ++ (digits ++ ws₆)))))))))))
    (blank₁ : Blank ws₁) (left : Spells .expr l t₁) (blank₂ : Blank ws₂) (blank₃ : Blank ws₃)
    (right : Spells .expr r t₂) (blank₄ : Blank ws₄) (apart : ws₄ ≠ []) (blank₅ : Blank ws₅)
    (literal : IsLiteral digits) (blank₆ : Blank ws₆) (small : decimal digits < 2 ^ 31) :
    Follows names (execLine it (controlOf .next) line lineNo garbage)
      (Stmt.exec (.ifGoto l cmp r (decimal digits)) w) := by
  obtain ⟨c, more, spelled, notBlank, notIdent, plain⟩ := cmp.first
  have keyword : str "goto " = ch 'g' :: str "oto " := by decide +kernel
  have second : readExpr (ws₃ ++ (t₂ ++ (ws₄ ++ (str "goto " ++ (ws₅ ++ (digits ++ ws₆)))))) =
      (r, str "goto " ++ (ws₅ ++ (digits ++ ws₆))) :=
    readExpr_word blank₃ right blank₄ keyword (by decide) (by decide) (Or.inl apart)
  have other : peek (ws₃ ++ (t₂ ++ (ws₄ ++ (str "goto " ++ (ws₅ ++ (digits ++ ws₆)))))) ≠
      ch '=' := by
    cases ws₃ with
    | nil =>
      obtain ⟨c, t', rfl, -, -, notEquals⟩ := right.token
      exact notEquals
    | cons b ws₃ =>
      intro same
      have blank := blank₃ b List.mem_cons_self
      rw [show b = ch '=' from same] at blank
      exact absurd blank (by decide)
  have first : readExpr (ws₁ ++ (t₁ ++ (ws₂ ++ (cmp.text ++ (ws₃ ++ (t₂ ++ (ws₄ ++ (str "goto " ++
      (ws₅ ++ (digits ++ ws₆)))))))))) = (l, cmp.text ++ (ws₃ ++ (t₂ ++ (ws₄ ++ (str "goto " ++
      (ws₅ ++ (digits ++ ws₆))))))) :=
    readExpr_word blank₁ left blank₂ spelled notBlank plain (Or.inr notIdent)
  have stays : skipWs (str "goto " ++ (ws₅ ++ (digits ++ ws₆))) =
      str "goto " ++ (ws₅ ++ (digits ++ ws₆)) :=
    skipWs_of_peek (by rw [keyword]; rfl)
  have starts := (startsWith_iff (str "goto " ++ (ws₅ ++ (digits ++ ws₆))) _).mpr ⟨_, rfl⟩
  rw [execLine_if here, execIf, evalExpr_read shows first, Stmt.exec]
  cases l.compute w.store with
  | error stop => rfl
  | ok x =>
    dsimp only [Except.map, bind, Except.bind]
    rw [readCmpOp_text cmp other]
    dsimp only
    rw [evalExpr_read shows second]
    cases r.compute w.store with
    | error stop => rfl
    | ok y =>
      dsimp only [Except.map]
      rw [stays, if_pos starts, keyword_rest rfl (by decide +kernel),
        parseLineNumber_literal blank₅ literal (notDigit_of_blank blank₆), evalCmp_code,
        jumpTo_lineTo small]
      refine ⟨shows, ?_⟩
      cases cmp.holds x y <;> rfl

/-- Every statement, by how it is written. -/
theorem execLine_follows (lineNo : Word) (garbage : UInt8) {stmt : Stmt} (shows : Shows names it w) (few : names.length ≤ maxVars)
    (member : ∀ name ∈ stmt.assigns, name ∈ names) (small : ∀ n ∈ stmt.target, n < 2 ^ 31)
    (spelled : Line stmt line) :
    Follows names (execLine it (controlOf .next) line lineNo garbage) (stmt.exec w) := by
  cases spelled with
  | blank blank => exact follows_skip shows (Or.inl (by rw [skipWs_all blank]; rfl))
  | comment t blank =>
    exact follows_skip shows (Or.inr (by rw [skipWs_token blank (by decide), peek_cons]))
  | set blank blank₁ isName blank₂ written =>
    exact follows_set shows few (member _ rfl)
      (skipWs_word blank (by decide +kernel) (by decide +kernel)) blank₁ isName blank₂ written
  | print blank written =>
    exact follows_print shows (skipWs_word blank (by decide +kernel) (by decide +kernel)) written
  | printText blank blank₁ plain blank₂ =>
    exact follows_printText shows (skipWs_word blank (by decide +kernel) (by decide +kernel))
      blank₁ plain
  | input blank blank₁ isName blank₂ =>
    exact follows_input shows few (member _ rfl)
      (skipWs_word blank (by decide +kernel) (by decide +kernel)) blank₁ isName blank₂
  | ifGoto cmp blank blank₁ left blank₂ blank₃ right blank₄ apart blank₅ literal blank₆ =>
    exact follows_ifGoto shows cmp (skipWs_word blank (by decide +kernel) (by decide +kernel))
      blank₁ left blank₂ blank₃ right blank₄ apart blank₅ literal blank₆ (small _ rfl)
  | goto blank blank₁ literal blank₂ =>
    exact follows_goto shows (skipWs_word blank (by decide +kernel) (by decide +kernel)) blank₁
      literal blank₂ (small _ rfl)
  | stop blank =>
    have here := skipWs_word (t := []) blank (by decide +kernel : str "end" ≠ [])
      (by decide +kernel)
    rw [List.append_nil] at here
    rw [execLine_end here]
    exact ⟨shows, rfl⟩

/-! ## A round of the loop -/

variable {p : List Stmt} {script : Script} {s : ScriptRun} {i : Nat}

theorem Spelled.length_eq {lines : List Text} (spelled : Spelled p lines) :
    p.length = lines.length := spelled.lines.length_eq

theorem Spelled.spells {lines : List Text} (spelled : Spelled p lines) {stmt : Stmt}
    (here : p[i]? = some stmt) : ∃ text, lines[i]? = some text ∧ Line stmt text := by
  obtain ⟨inside, rfl⟩ := List.getElem?_eq_some_iff.mp here
  have inside' : i < lines.length := spelled.length_eq ▸ inside
  refine ⟨lines[i], List.getElem?_eq_getElem inside', ?_⟩
  exact (List.forall₂_iff_get.mp spelled.lines).2 i inside inside'

theorem assigned_of_line {stmt : Stmt} (here : p[i]? = some stmt) :
    ∀ name ∈ stmt.assigns, name ∈ assignedNames p := by
  intro name assigns
  rw [assignedNames, List.mem_dedup, List.mem_filterMap]
  exact ⟨stmt, List.mem_of_getElem? here, assigns⟩

/-- A jump leads to a line that the statement names. -/
theorem exec_jump {stmt : Stmt} {w' : World} {target : Nat}
    (jumps : stmt.exec w = .ok (.jump target, w')) : target + 1 ∈ stmt.target := by
  have lands {n : Nat} (leads : lineTo n = .jump target) : n = target + 1 := by
    unfold lineTo at leads
    split at leads
    · cases leads
    · have same := Flow.jump.inj leads
      omega
  cases stmt with
  | skip => cases jumps
  | set name e =>
    rw [Stmt.exec] at jumps
    cases value : e.compute w.store with
    | error stop => rw [value] at jumps; cases jumps
    | ok v => rw [value] at jumps; cases jumps
  | print e =>
    rw [Stmt.exec] at jumps
    cases value : e.compute w.store with
    | error stop => rw [value] at jumps; cases jumps
    | ok v => rw [value] at jumps; cases jumps
  | printText t => cases jumps
  | input name =>
    rw [Stmt.exec] at jumps
    split at jumps
    · cases value : (answer w.typed).compute w.store with
      | error stop => rw [value] at jumps; cases jumps
      | ok v => rw [value] at jumps; cases jumps
    · cases jumps
  | ifGoto l cmp r line =>
    rw [Stmt.exec] at jumps
    cases left : l.compute w.store with
    | error stop => rw [left] at jumps; cases jumps
    | ok x =>
      cases right : r.compute w.store with
      | error stop => rw [left, right] at jumps; cases jumps
      | ok y =>
        rw [left, right] at jumps
        have leads := congrArg Prod.fst (Except.ok.inj jumps)
        dsimp only at leads
        split at leads
        · exact congrArg some (lands leads)
        · cases leads
  | goto line => exact congrArg some (lands (congrArg Prod.fst (Except.ok.inj jumps)))
  | stop => cases jumps

theorem round_outside (spelled : Spelled p script.lines) (outside : p[i]? = none)
    (reaches : Reaches (assignedNames p) (.before i w) s) (g : UInt8) :
    s.round script g = some { s with ended := some .finished } := by
  obtain ⟨alive, running, pc, -⟩ := reaches
  rw [List.getElem?_eq_none_iff, spelled.length_eq, ← pc] at outside
  have left : ¬ s.inLoop script = true := by
    rw [ScriptRun.inLoop_iff]
    omega
  rw [ScriptRun.round, if_neg (not_not.mpr alive), if_neg left]

/-- The round in which a line is executed. -/
theorem round_inside (spelled : Spelled p script.lines) {stmt : Stmt} (here : p[i]? = some stmt)
    (reaches : Reaches (assignedNames p) (.before i w) s) (room : s.steps < stepLimit)
    (g : UInt8) : ∃ text, Line stmt text ∧ s.round script g =
      match execLine s.interp (controlOf .next) text ((s.pc + 1).signExtend 64) g with
      | .error .waits => none
      | .error stop =>
        some { s with
          steps := s.steps + 1
          ended := some (.stopped stop)
          executed := s.executed ++ [s.pc.toNat] }
      | .ok (it, control) =>
        some { s with
          pc := if control.jumped then control.target.setWidth 32 - 1 else s.pc + 1
          running := control.running
          steps := s.steps + 1
          interp := it
          executed := s.executed ++ [s.pc.toNat] } := by
  obtain ⟨alive, running, pc, -⟩ := reaches
  obtain ⟨text, there, line⟩ := spelled.spells here
  have inside := (List.getElem?_eq_some_iff.mp there).1
  have loop : s.inLoop script = true :=
    ScriptRun.inLoop_iff.mpr ⟨running, by rw [pc]; exact inside⟩
  refine ⟨text, line, ?_⟩
  rw [ScriptRun.round, if_neg (not_not.mpr alive), if_pos loop, if_neg (by omega), pc, there,
    running]
  rfl

/-- The loop goes on where the program does. -/
theorem reaches_flow (spelled : Spelled p script.lines) {stmt : Stmt} {it' : Interp} {w' : World}
    {flow : Flow} {t : ScriptRun} (here : p[i]? = some stmt) (pc : s.pc.toNat = i)
    (runs : stmt.exec w = .ok (flow, w')) (shows : Shows (assignedNames p) it' w')
    (alive : t.ended = none) (interp : t.interp = it')
    (running : t.running = (controlOf flow).running)
    (goes : t.pc = if (controlOf flow).jumped then (controlOf flow).target.setWidth 32 - 1
      else s.pc + 1) : Reaches (assignedNames p) (flow.config i w') t := by
  have few := script.few
  have inside := (List.getElem?_eq_some_iff.mp here).1
  rw [spelled.length_eq] at inside
  unfold maxLines at few
  cases flow with
  | next =>
    refine ⟨alive, running, ?_, interp ▸ shows⟩
    rw [goes]
    change (s.pc + 1).toNat = i + 1
    have one : (1 : BitVec 32).toNat = 1 := by decide
    rw [BitVec.toNat_add, one]
    omega
  | jump target =>
    refine ⟨alive, running, ?_, interp ▸ shows⟩
    have small := spelled.targets stmt (List.mem_of_getElem? here) _ (exec_jump runs)
    have narrowed := Lib.Words.narrowed_toNat (target + 1)
    rw [goes]
    change ((BitVec.ofNat 64 (target + 1)).setWidth 32 - 1).toNat = target
    rw [narrowed, if_neg (by omega)]
    omega
  | stop => exact ⟨Or.inr ⟨alive, running⟩, interp ▸ shows⟩

/-- A round is a step of the program. -/
theorem round_reaches (spelled : Spelled p script.lines)
    (reaches : Reaches (assignedNames p) (.before i w) s) (room : s.steps < stepLimit)
    (g : UInt8) :
    (Lib.Goto.step Stmt.exec p (.before i w) = .failed .waits w ∧ s.round script g = none) ∨
    ∃ t, s.round script g = some t ∧
      Reaches (assignedNames p) (Lib.Goto.step Stmt.exec p (.before i w)) t ∧
      (t.ended = none → t.steps = s.steps + 1) := by
  cases here : p[i]? with
  | none =>
    right
    rw [Lib.Goto.step_outside here]
    exact ⟨_, round_outside spelled here reaches g, ⟨Or.inl rfl, reaches.2.2.2⟩, nofun⟩
  | some stmt =>
    obtain ⟨text, line, round⟩ := round_inside spelled here reaches room g
    obtain ⟨alive, running, pc, shows⟩ := reaches
    have follows := execLine_follows ((s.pc + 1).signExtend 64) g shows
      spelled.names (assigned_of_line here)
      (spelled.targets stmt (List.mem_of_getElem? here)) line
    rw [Lib.Goto.step_command here, round]
    cases runs : stmt.exec w with
    | error stop =>
      rw [runs] at follows
      cases result : execLine s.interp (controlOf .next) text ((s.pc + 1).signExtend 64) g with
      | ok r => rw [result] at follows; exact follows.elim
      | error stop' =>
        rw [result] at follows
        obtain rfl : stop' = stop := follows
        cases stop' with
        | waits => exact Or.inl ⟨rfl, rfl⟩
        | divideError => exact Or.inr ⟨_, rfl, ⟨nofun, rfl, shows⟩, nofun⟩
        | nullStore => exact Or.inr ⟨_, rfl, ⟨nofun, rfl, shows⟩, nofun⟩
        | readsForever => exact Or.inr ⟨_, rfl, ⟨nofun, rfl, shows⟩, nofun⟩
    | ok r =>
      obtain ⟨flow, w'⟩ := r
      rw [runs] at follows
      cases result : execLine s.interp (controlOf .next) text ((s.pc + 1).signExtend 64) g with
      | error stop => rw [result] at follows; exact follows.elim
      | ok r' =>
        obtain ⟨it', control⟩ := r'
        rw [result] at follows
        obtain ⟨shows', rfl⟩ := follows
        exact Or.inr ⟨_, rfl,
          reaches_flow spelled here pc runs shows' alive rfl rfl rfl, fun _ => rfl⟩

/-! ## The run -/

variable {typed : List UInt8} {n : Nat}

theorem reaches_init (p : List Stmt) (typed : List UInt8) :
    Reaches (assignedNames p) (.before 0 (startWorld typed)) (.init (startInterp typed)) := by
  refine ⟨rfl, rfl, rfl, ?_⟩
  constructor
  · intro name
    rfl
  · intro name member
    cases member
  · exact List.nodup_nil
  · rfl
  · rfl

theorem exists_snoc {es : List UInt8} (length : es.length = n + 1) :
    ∃ es' g, es = es' ++ [g] ∧ es'.length = n := by
  have some_ : es ≠ [] := fun none => by
    rw [none] at length
    cases length
  refine ⟨es.dropLast, es.getLast some_, (List.dropLast_append_getLast some_).symm, ?_⟩
  rw [List.length_dropLast]
  omega

/-- After as many rounds as the program has taken steps, the loop is where it is. -/
theorem run_before (spelled : Spelled p script.lines) (few : n ≤ stepLimit)
    (here : stateAfter p typed n = .before i w) (es : List UInt8) (length : es.length = n) :
    ∃ s, run (ScriptRun.round script) (.init (startInterp typed)) es = some s ∧
      Reaches (assignedNames p) (.before i w) s ∧ s.steps = n := by
  induction n generalizing i w es with
  | zero =>
    obtain ⟨rfl, rfl⟩ := Config.before.inj here
    rw [List.length_eq_zero_iff.mp length]
    exact ⟨_, rfl, reaches_init p typed, rfl⟩
  | succ n ih =>
    obtain ⟨es', g, rfl, shorter⟩ := exists_snoc length
    rw [stateAfter, Lib.Goto.after_succ] at here
    cases before : Lib.Goto.after Stmt.exec p n (.before 0 (startWorld typed)) with
    | before j u =>
      rw [before] at here
      obtain ⟨s, ran, reaches, steps⟩ := ih (Nat.le_of_succ_le few) before es' shorter
      rcases round_reaches spelled reaches (by omega) g with ⟨waits, -⟩ | ⟨t, round, next, count⟩
      · rw [waits] at here
        cases here
      · rw [here] at next
        refine ⟨t, ?_, next, by rw [count next.1, steps]⟩
        exact Lib.Machine.run_append.mpr ⟨s, ran, Lib.Machine.run_cons.mpr ⟨t, round, rfl⟩⟩
    | done u =>
      rw [before] at here
      cases here
    | failed stop u =>
      rw [before] at here
      cases here

/-- The round in which the program ends, fails or waits. -/
theorem run_last (spelled : Spelled p script.lines) (few : n ≤ stepLimit)
    (ended : ∀ i w, stateAfter p typed n ≠ .before i w) :
    ∃ k < n, ∀ es : List UInt8, es.length = k + 1 →
      ((∃ w, stateAfter p typed n = .failed .waits w) ∧
        run (ScriptRun.round script) (.init (startInterp typed)) es = none) ∨
      ∃ t, run (ScriptRun.round script) (.init (startInterp typed)) es = some t ∧
        Reaches (assignedNames p) (stateAfter p typed n) t := by
  obtain ⟨k, less, j, u, here, same⟩ := Lib.Goto.after_last ended
  refine ⟨k, less, fun es length => ?_⟩
  obtain ⟨es', g, rfl, shorter⟩ := exists_snoc length
  obtain ⟨s, ran, reaches, steps⟩ := run_before spelled (by omega) here es' shorter
  rw [Lib.Goto.after_succ, here] at same
  change Lib.Goto.step Stmt.exec p (.before j u) = stateAfter p typed n at same
  rw [← same]
  rcases round_reaches spelled reaches (by omega) g with ⟨waits, stuck⟩ | ⟨t, round, next, -⟩
  · refine Or.inl ⟨⟨u, waits⟩, ?_⟩
    cases result : run (ScriptRun.round script) (.init (startInterp typed)) (es' ++ [g]) with
    | none => rfl
    | some t =>
      obtain ⟨s', ran', rest⟩ := Lib.Machine.run_append.mp result
      rw [ran] at ran'
      cases ran'
      obtain ⟨t', round, -⟩ := Lib.Machine.run_cons.mp rest
      rw [stuck] at round
      cases round
  · exact Or.inr ⟨t, Lib.Machine.run_append.mpr ⟨s, ran, Lib.Machine.run_cons.mpr ⟨t, round, rfl⟩⟩,
      next⟩

/-- Behind the last statement the condition of the loop is false. -/
theorem round_stopped (alive : s.ended = none) (stopped : s.running = false) (g : UInt8) :
    s.round script g = some { s with ended := some .finished } := by
  have left : ¬ s.inLoop script = true := by
    rw [ScriptRun.inLoop_iff, stopped]
    exact fun both => Bool.false_ne_true both.1
  rw [ScriptRun.round, if_neg (not_not.mpr alive), if_neg left]

theorem round_limit (spelled : Spelled p script.lines) (inside : i < p.length)
    (reaches : Reaches (assignedNames p) (.before i w) s) (steps : s.steps = stepLimit)
    (g : UInt8) : s.round script g = some { s with
      steps := s.steps + 1
      interp := s.interp.print ScriptRun.limitMessage
      ended := some .stepLimit } := by
  obtain ⟨alive, running, pc, -⟩ := reaches
  have loop : s.inLoop script = true :=
    ScriptRun.inLoop_iff.mpr ⟨running, by rw [pc, ← spelled.length_eq]; exact inside⟩
  rw [ScriptRun.round, if_neg (not_not.mpr alive), if_pos loop, if_pos (by omega)]

/-- One more round of a run. -/
theorem run_take_succ {es : List UInt8} {k : Nat} {t : ScriptRun} {g : UInt8}
    (ran : run (ScriptRun.round script) (.init (startInterp typed)) (es.take k) = some s)
    (next : es[k]? = some g) (round : s.round script g = some t) :
    run (ScriptRun.round script) (.init (startInterp typed)) (es.take (k + 1)) = some t := by
  rw [List.take_add_one, next]
  exact Lib.Machine.run_append.mpr ⟨s, ran, Lib.Machine.run_cons.mpr ⟨t, round, rfl⟩⟩

theorem take_length {es : List UInt8} {k : Nat} (enough : k ≤ es.length) :
    (es.take k).length = k := List.length_take_of_le enough

/-- Where the program is done, the loop has ended, with its output. -/
theorem run_done (spelled : Spelled p script.lines) (few : n ≤ stepLimit)
    (here : stateAfter p typed n = .done w) (es : List UInt8) (enough : n < es.length) :
    ∃ k ≤ n + 1, ∃ s,
      run (ScriptRun.round script) (.init (startInterp typed)) (es.take k) = some s ∧
        s.ended = some .finished ∧ s.interp.output = w.output := by
  obtain ⟨k, less, last⟩ := @run_last p script typed n spelled few
    (fun i u before => by rw [here] at before; cases before)
  rcases last (es.take (k + 1)) (take_length (by omega)) with ⟨⟨u, waits⟩, -⟩ | ⟨t, ran, reaches⟩
  · rw [here] at waits
    cases waits
  · rw [here] at reaches
    obtain ⟨finished | ⟨alive, stopped⟩, shows⟩ := reaches
    · exact ⟨k + 1, by omega, t, ran, finished, shows.output⟩
    · have next : es[k + 1]? = some es[k + 1] := List.getElem?_eq_getElem (by omega)
      exact ⟨k + 2, by omega, _, run_take_succ ran next (round_stopped alive stopped _), rfl,
        shows.output⟩

theorem run_failed (spelled : Spelled p script.lines) (few : n ≤ stepLimit) {stop : Stop}
    (here : stateAfter p typed n = .failed stop w) (es : List UInt8) (enough : n ≤ es.length) :
    if stop = .waits then run (ScriptRun.round script) (.init (startInterp typed)) es = none
    else ∃ k ≤ n, ∃ s,
      run (ScriptRun.round script) (.init (startInterp typed)) (es.take k) = some s ∧
        s.ended = some (.stopped stop) ∧ s.interp.output = w.output := by
  obtain ⟨k, less, last⟩ := @run_last p script typed n spelled few
    (fun i u before => by rw [here] at before; cases before)
  rcases last (es.take (k + 1)) (take_length (by omega)) with ⟨⟨u, waits⟩, stuck⟩ |
    ⟨t, ran, reaches⟩
  · rw [here] at waits
    cases waits
    rw [if_pos rfl]
    cases result : run (ScriptRun.round script) (.init (startInterp typed)) es with
    | none => rfl
    | some t =>
      rw [← List.take_append_drop (k + 1) es] at result
      obtain ⟨u, ran, -⟩ := Lib.Machine.run_append.mp result
      rw [stuck] at ran
      cases ran
  · rw [here] at reaches
    obtain ⟨console, stopped, shows⟩ := reaches
    rw [if_neg console]
    exact ⟨k + 1, less, t, ran, stopped, shows.output⟩

theorem Spelled.runs (spelled : Spelled p script.lines) (typed : List UInt8) :
    RunsAs p script typed := by
  constructor
  · intro n few i w here es length
    obtain ⟨s, ran, ⟨alive, -, pc, shows⟩, -⟩ := run_before spelled few here es length
    exact ⟨s, ran, alive, pc, shows.output, shows.store⟩
  · intro n few w here es enough
    exact run_done spelled few here es enough
  · intro n few stop w here console es enough
    have failed := run_failed spelled few here es enough
    rwa [if_neg console] at failed
  · intro n few w here es enough
    have failed := run_failed spelled few here es enough
    rwa [if_pos rfl] at failed
  · intro i w here inside es length
    obtain ⟨es', g, rfl, shorter⟩ := exists_snoc length
    obtain ⟨s, ran, reaches, steps⟩ := run_before spelled (Nat.le_refl _) here es' shorter
    refine ⟨_, Lib.Machine.run_append.mpr ⟨s, ran, Lib.Machine.run_cons.mpr
      ⟨_, round_limit spelled inside reaches steps g, rfl⟩⟩, rfl, ?_⟩
    rw [← reaches.2.2.2.output]
    rfl

end MiniKernel.Programs.Lang
