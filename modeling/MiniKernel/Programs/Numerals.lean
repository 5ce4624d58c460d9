import MiniKernel.Programs.Simulation
import MiniKernel.Shell.Setuid

/-!
# What is printed can be typed

Source: src/programs/lang.c:76-90 (`print_int`), 162-169 (a number in `parse_factor`),
239-261 (`read_line_stdin`), 311-343 (`print` and `input`). A number is printed as a
numeral or as a minus and a numeral, which is an expression; the least number, whose
numeral does not fit, is read back through the wrap of 64 bits.
-/
namespace MiniKernel.Programs.Lang
open LineReader (newline backspace lineOf)
open Shell (numeral numeral_digit numeral_digits numeral_plain length_numeral_le_iff)

/-- The expression that `print_int` writes. -/
def numberTree (value : Word) : Expr :=
  if value.slt 0 then .neg (.lit (-value).toNat) else .lit value.toNat

/-! ## Numerals -/

variable {vars : List Var} {e : Expr} {it : Interp} {name t : Text}

theorem decimal_snoc (digits : Text) {d : Nat} (small : d < 10) :
    decimal (digits ++ [UInt8.ofNat (48 + d)]) = decimal digits * 10 + d := by
  have byte : (UInt8.ofNat (48 + d)).toNat = 48 + d :=
    UInt8.toNat_ofNat_of_lt' (by unfold UInt8.size; omega)
  rw [decimal, List.foldl_append, List.foldl_cons, List.foldl_nil, byte, Nat.add_sub_cancel_left]
  rfl

/-- By induction on the number, a digit at a time. -/
theorem decimal_numeral (n : Nat) : decimal (numeral n) = n := by
  induction n using Nat.strongRecOn with
  | ind n ih =>
    by_cases small : n < 10
    · have value := decimal_snoc [] small
      rw [List.nil_append] at value
      rw [numeral_digit small, value]
      exact Nat.zero_add n
    · have large : 10 ≤ n := Nat.le_of_not_lt small
      rw [numeral_digits large, decimal_snoc _ (Nat.mod_lt n (by decide)), ih (n / 10) (by omega)]
      omega

theorem numeral_literal (n : Nat) : IsLiteral (numeral n) := by
  refine ⟨?_, numeral_plain n⟩
  by_cases small : n < 10
  · rw [numeral_digit small]
    exact List.cons_ne_nil _ _
  · rw [numeral_digits (Nat.le_of_not_lt small)]
    exact List.append_ne_nil_of_right_ne_nil _ (List.cons_ne_nil _ _)

/-- The numeral is a spelling of the number. -/
theorem spells_numeral {n : Nat} (small : n < 2 ^ 63) : Spells .factor (.lit n) (numeral n) := by
  have literal := numeral_literal n
  have spells := Spells.lit ⟨literal.nonempty, literal.digit, by rwa [decimal_numeral]⟩
  rwa [decimal_numeral] at spells

/-! ## A printed number -/

theorem printInt_negative {value : Word} (negative : value.slt 0 = true) :
    printInt value = ch '-' :: numeral (-value).toNat := by
  rw [printInt, if_pos negative, if_pos negative, numeral]
  rfl

theorem printInt_other {value : Word} (other : ¬ value.slt 0 = true) :
    printInt value = numeral value.toNat := by
  rw [printInt, if_neg other, if_neg other, numeral]
  rfl

theorem readsTree_printInt (value : Word) :
    ReadsTree .factor (numberTree value) (printInt value) := by
  unfold numberTree
  by_cases negative : value.slt 0 = true
  · have digits := readsTree_lit (numeral_literal (-value).toNat)
    rw [decimal_numeral] at digits
    rw [if_pos negative, printInt_negative negative]
    exact readsTree_neg blank_nil digits
  · have digits := readsTree_lit (numeral_literal value.toNat)
    rw [decimal_numeral] at digits
    rw [if_neg negative, printInt_other negative]
    exact digits

theorem printInt_plain (value : Word) : ∀ c ∈ printInt value, c = ch '-' ∨ isDigit c = true := by
  intro c member
  by_cases negative : value.slt 0 = true
  · rw [printInt_negative negative] at member
    rcases List.mem_cons.mp member with sign | digit
    · exact Or.inl sign
    · exact Or.inr (numeral_plain _ c digit)
  · rw [printInt_other negative] at member
    exact Or.inr (numeral_plain _ c member)

theorem printInt_length (value : Word) :
    0 < (printInt value).length ∧ (printInt value).length ≤ 21 := by
  have numerals (v : Word) : 0 < (numeral v.toNat).length ∧ (numeral v.toNat).length ≤ 20 := by
    have bound := v.isLt
    refine ⟨List.length_pos_iff.mpr (numeral_literal _).nonempty, ?_⟩
    rw [length_numeral_le_iff _ _ (by decide)]
    omega
  by_cases negative : value.slt 0 = true
  · have digits := numerals (-value)
    rw [printInt_negative negative, List.length_cons]
    omega
  · have digits := numerals value
    rw [printInt_other negative]
    omega

theorem readExpr_printInt (value : Word) : readExpr (printInt value) = (numberTree value, []) := by
  have positive := (printInt_length value).1
  have tree := readsTree_term positive (readsTree_factor positive (readsTree_printInt value))
  have reads := readExpr_of_readsTree blank_nil tree (.blank blank_nil)
  rw [List.nil_append, List.append_nil] at reads
  exact reads

/-- Its value is the number, also for -2^63. -/
theorem numberTree_value (vars : List Var) (value : Word) :
    (numberTree value).value vars = value ∧ (numberTree value).Divides vars := by
  unfold numberTree
  split
  · refine ⟨?_, trivial⟩
    rw [Expr.value, Expr.value, BitVec.ofNat_toNat, BitVec.setWidth_eq, BitVec.neg_neg]
  · refine ⟨?_, trivial⟩
    rw [Expr.value, BitVec.ofNat_toNat, BitVec.setWidth_eq]

/-! ## Typing it -/

theorem skipWs_printInt (value : Word) : skipWs (printInt value) = printInt value := by
  apply skipWs_of_peek
  cases printed : printInt value with
  | nil =>
    have positive := (printInt_length value).1
    rw [printed] at positive
    cases positive
  | cons c rest =>
    have kind := printInt_plain value c (by rw [printed]; exact List.mem_cons_self)
    rcases kind with rfl | digit
    · rfl
    · exact (isIdentChar_plain (isIdentChar_of_isDigit digit)).1

/-- The line that a printed number makes when it is typed. -/
theorem lineOf_printInt (value : Word) (rest : List UInt8) :
    newline ∉ printInt value ∧ lineOf 32 (printInt value ++ newline :: rest) = printInt value := by
  have apart (b : UInt8) (control : b ≠ ch '-' ∧ isDigit b = false) : b ∉ printInt value := by
    intro member
    rcases printInt_plain value b member with sign | digit
    · exact control.1 sign
    · rw [control.2] at digit
      cases digit
  have plain := apart newline (by decide)
  refine ⟨plain, ?_⟩
  have short := (printInt_length value).2
  rw [LineReader.lineOf_append plain, LineReader.foldl_typed (apart backspace (by decide)) (by
    have size : (32 : LineReader.Word).toNat = 32 := by decide
    rw [size, List.length_nil]
    omega)]
  rfl

/-! ## Result -/

/-- What `print` shows of an expression is taken for its value where it is typed in answer
to `input`, in any script, and nothing else changes. -/
theorem print_input_round_trip {printLine inputLine : Text}
    (prints : Line (.print e) printLine) (inputs : Line (.input name) inputLine)
    (it : Interp) (safe : e.Divides it.vars) (control : Control) (lineNo : Word) (garbage : UInt8) :
    ∃ shown, execLine it control printLine lineNo garbage =
        .ok ({ it with output := it.output ++ shown }, control) ∧
      ∀ (it₂ : Interp) rest, it₂.input.bytes = shown ++ rest →
        ((∃ v ∈ it₂.vars, v.name = name) ∨ it₂.vars.length < maxVars) →
        ∃ it₃, execLine it₂ control inputLine lineNo garbage = .ok (it₃, control) ∧
          it₃.input.bytes = rest ∧
          ∀ other, valueOf it₃.vars other =
            if other = name then e.value it.vars else valueOf it₂.vars other := by
  refine ⟨printInt (e.value it.vars) ++ [newline], ?_, ?_⟩
  · cases prints with
    | print blank written =>
      obtain ⟨noQuote, reads⟩ := written.trimmed
      rw [execLine_print (skipWs_word blank (by decide +kernel) (by decide +kernel)), execPrint]
      dsimp only
      rw [if_neg noQuote, evalExpr_eq, reads, if_pos safe]
      rfl
  · intro it₂ rest typed room
    cases inputs with
    | input blank blank₁ isName blank₂ =>
      obtain ⟨plain, line⟩ := lineOf_printInt (e.value it.vars) rest
      rw [List.append_assoc, List.singleton_append] at typed
      have bytes : (it₂.print (str "? ")).input.bytes =
          printInt (e.value it.vars) ++ newline :: rest := typed
      obtain ⟨vars, assigned, map⟩ := @assign_ok _ _ (e.value it.vars) isName.short room
      obtain ⟨value, divides⟩ := numberTree_value it₂.vars (e.value it.vars)
      rw [execLine_input (skipWs_word blank (by decide +kernel) (by decide +kernel)), execInput,
        skipWs_word blank₁ isName.nonempty isName.notBlank,
        readIdent_name isName (Closes.blank blank₂).stops]
      dsimp only
      rw [if_neg isName.nonempty, readLine_typed plain bytes, bytes, line]
      dsimp only [bind, Except.bind]
      rw [skipWs_printInt, evalExpr_eq, readExpr_printInt]
      dsimp only
      rw [show (it₂.print (str "? ")).vars = it₂.vars from rfl, if_pos divides, value]
      dsimp only
      rw [assigned]
      exact ⟨_, rfl, rfl, map⟩

/-- `print 0 - 5` and `input y`. -/
theorem print_input_round_trip_minus :
    ∃ shown, execLine ⟨[], ⟨[], .waits⟩, []⟩ (controlOf .next) (str "print 0 - 5") 1 0 =
        .ok (⟨[], ⟨[], .waits⟩, [] ++ shown⟩, controlOf .next) ∧
      ∀ (it₂ : Interp) rest, it₂.input.bytes = shown ++ rest →
        ((∃ v ∈ it₂.vars, v.name = str "y") ∨ it₂.vars.length < maxVars) →
        ∃ it₃, execLine it₂ (controlOf .next) (str "input y") 1 0 = .ok (it₃, controlOf .next) ∧
          it₃.input.bytes = rest ∧ ∀ other, valueOf it₃.vars other =
            if other = str "y" then -5 else valueOf it₂.vars other := by
  have space : Blank [ch ' '] := by decide +kernel
  have zero : Spells .factor (.lit 0) (numeral 0) := spells_numeral (by decide)
  have five : Spells .factor (.lit 5) (numeral 5) := spells_numeral (by decide)
  have difference : Written (.bin .sub (.lit 0) (.lit 5)) (str "0 - 5") :=
    ⟨[], _, [], nofun, .add (c := ch '-') (by decide) (.term (.factor zero)) space space
      (.factor five), nofun, by decide +kernel⟩
  have prints : Line (.print (.bin .sub (.lit 0) (.lit 5))) (str "print 0 - 5") := by
    have line := Line.print blank_nil difference
    exact (by decide +kernel : [] ++ (str "print " ++ str "0 - 5") = str "print 0 - 5") ▸ line
  have inputs : Line (.input (str "y")) (str "input y") := by
    have name : IsName (str "y") :=
      ⟨by decide +kernel, by decide +kernel, by decide +kernel, by decide +kernel⟩
    have line := Line.input blank_nil blank_nil name blank_nil
    exact (by decide +kernel : [] ++ (str "input " ++ ([] ++ (str "y" ++ []))) = str "input y") ▸
      line
  exact print_input_round_trip prints inputs ⟨[], ⟨[], .waits⟩, []⟩ (by decide) _ 1 0

end MiniKernel.Programs.Lang
