import MiniKernel.Drivers.Video
import MiniKernel.Lib.Words
import MiniKernel.Proc.Table
import MiniKernel.Programs.Statements
import MiniKernel.Sched.WellFormed

/-!
# `setuid` in the kernel shell

Source: kernel/core/shell/shell_cmd_fs.c:81-139 (`cmd_setuid`), shell_io.c:24-28
(`print_str`). The argument ends at its NUL; beyond a Lean list there are only NULs.
`int` wraps as `unsigned int` does. A store behind the end of `digits` or of `msg` is
a fault.
-/
namespace MiniKernel.Shell
open Drivers.Video (Screen)
open Proc (ProcessTable processGetTid)
open Programs.Lang (Text ch str isDigit decimal)
open Sched (ThreadTable schedSetUid)

/-- The array that was left. -/
inductive Fault where
  | digits
  | msg
  deriving DecidableEq, Repr

def digitsSize : Nat := 12
def msgSize : Nat := 32

def usage : Text := str "\nusage: setuid <pid> <uid>"
def noSuchProcess : Text := str "\nsetuid: no such process"

/-- `prefix`. -/
def msgPrefix : Text := str "\nsetuid: pid now runs as uid "

def printStr : Text → Screen → Screen
  | [], screen => screen
  | c :: cs, screen => if c = 0 then screen else printStr cs (screen.putcharAtCursor c)

/-- `while (*args == ' ') args++`. -/
def skipSpaces (args : Text) : Text := args.dropWhile (· = ch ' ')

/-- The loop over the digits of a number: the number, whether there was a digit, and
the text behind it. -/
def readDigits (n : BitVec 32) (any : Bool) : Text → BitVec 32 × Bool × Text
  | [] => (n, any, [])
  | c :: args =>
    if isDigit c then readDigits (n * 10 + BitVec.ofNat 32 (c.toNat - 48)) true args
    else (n, any, c :: args)

/-- The loop that fills `digits`, of which `room` bytes are left; the last digit of
the number comes first. -/
def digitLoop : Nat → Nat → Text → Except Fault Text
  | _, 0, digits => .ok digits
  | 0, _ + 1, _ => .error .digits
  | room + 1, v + 1, digits =>
    digitLoop room ((v + 1) / 10) (digits ++ [UInt8.ofNat (48 + (v + 1) % 10)])

def digitsOf (uid : BitVec 32) : Except Fault Text :=
  if uid = 0 then .ok [ch '0'] else digitLoop digitsSize uid.toNat []

/-- `msg[m++] = c` for each of the characters. -/
def storeAll (msg : Text) : Text → Except Fault Text
  | [] => .ok msg
  | c :: cs => if msg.length < msgSize then storeAll (msg ++ [c]) cs else .error .msg

/-- What `msg` holds before its NUL. -/
def message (digits : Text) : Except Fault Text := do
  let msg ← storeAll [] msgPrefix
  let msg ← storeAll msg digits.reverse
  if msg.length < msgSize then .ok msg else .error .msg

/-- `processes` is what `process_get_tid` finds, `threads` what `sched_set_uid` does. -/
def cmdSetuid (processes : ProcessTable) (args : Text) (threads : ThreadTable) (screen : Screen) :
    Except Fault (ThreadTable × Screen) :=
  let (pid, anyPidDigit, args) := readDigits 0 false (skipSpaces args)
  let (uid, anyUidDigit, _) := readDigits 0 false (skipSpaces args)
  if !anyPidDigit || !anyUidDigit then .ok (threads, printStr usage screen)
  else
    match processGetTid processes pid.toInt with
    | none => .ok (threads, printStr noSuchProcess screen)
    | some tid => do
      let threads := (schedSetUid threads tid uid).2
      let digits ← digitsOf uid
      let msg ← message digits
      .ok (threads, printStr msg screen)

/-! ## What is typed and what is to happen -/

def pidDigits (args : Text) : Text := (skipSpaces args).takeWhile isDigit

def uidDigits (args : Text) : Text :=
  (skipSpaces ((skipSpaces args).dropWhile isDigit)).takeWhile isDigit

/-- The pid, as an `int`. -/
def typedPid (args : Text) : Int := (BitVec.ofNat 32 (decimal (pidDigits args))).toInt

/-- Both numbers are typed, and the thread runs the process with the pid. -/
def Names (processes : ProcessTable) (args : Text) (tid : Nat) : Prop :=
  pidDigits args ≠ [] ∧ uidDigits args ≠ [] ∧ processGetTid processes (typedPid args) = some tid

/-- A number in decimal, without leading zeros. -/
def numeral (n : Nat) : Text := (Nat.toDigits 10 n).map ch

/-- All characters of a text. -/
def typeOut (text : Text) (screen : Screen) : Screen :=
  text.foldl (fun screen c => screen.putcharAtCursor c) screen

/-- The command stays inside its arrays. It sets no uid without such a thread, and where
both numbers fit in 32 bits, it sets and prints the one that was typed. -/
def SetsTyped (processes : ProcessTable) (args : Text) (threads : ThreadTable)
    (screen : Screen) : Prop :=
  ∃ threads' screen', cmdSetuid processes args threads screen = .ok (threads', screen') ∧
    ((∀ tid, ¬ Names processes args tid) → threads' = threads) ∧
    ∀ tid, Names processes args tid → decimal (pidDigits args) < 2 ^ 32 →
      decimal (uidDigits args) < 2 ^ 32 →
      (∃ uid : BitVec 32, uid.toNat = decimal (uidDigits args) ∧
        threads' = (schedSetUid threads tid uid).2) ∧
      screen' = typeOut (msgPrefix ++ numeral (decimal (uidDigits args))) screen

/-! ## Reading the numbers -/

variable {text digits msg cs : Text} {room : Nat}

/-- The parser keeps what fits in 32 bits of the number of any length. -/
theorem readDigits_eq (text : Text) (n : Nat) (any : Bool) :
    readDigits (BitVec.ofNat 32 n) any text =
      (BitVec.ofNat 32 ((text.takeWhile isDigit).foldl (fun n c => n * 10 + (c.toNat - 48)) n),
        any || !(text.takeWhile isDigit).isEmpty, text.dropWhile isDigit) := by
  induction text generalizing n any with
  | nil => simp [readDigits]
  | cons c text ih =>
    by_cases digit : isDigit c = true
    · rw [readDigits, if_pos digit, Lib.Words.ofNat_digit, ih, List.takeWhile_cons_of_pos digit,
        List.dropWhile_cons_of_pos digit, List.foldl_cons]
      simp
    · rw [readDigits, if_neg digit, List.takeWhile_cons_of_neg digit,
        List.dropWhile_cons_of_neg digit]
      simp

theorem readDigits_start (text : Text) :
    readDigits 0 false text = (BitVec.ofNat 32 (decimal (text.takeWhile isDigit)),
      !(text.takeWhile isDigit).isEmpty, text.dropWhile isDigit) := by
  rw [← Bool.false_or (!(text.takeWhile isDigit).isEmpty)]
  exact readDigits_eq text 0 false

/-! ## Writing the number -/

theorem ch_digitChar {d : Nat} (small : d < 10) : ch d.digitChar = UInt8.ofNat (48 + d) := by
  interval_cases d <;> rfl

theorem length_numeral_le_iff (n k : Nat) (positive : 0 < k) :
    (numeral n).length ≤ k ↔ n < 10 ^ k := by
  rw [numeral, List.length_map]
  exact Nat.length_toDigits_le_iff (by decide) positive

theorem numeral_digit {n : Nat} (small : n < 10) : numeral n = [UInt8.ofNat (48 + n)] := by
  rw [numeral, Nat.toDigits_of_lt_base small, List.map_singleton, ch_digitChar small]

theorem numeral_digits {n : Nat} (large : 10 ≤ n) :
    numeral n = numeral (n / 10) ++ [UInt8.ofNat (48 + n % 10)] := by
  have last := ch_digitChar (Nat.mod_lt n (by decide : 0 < 10))
  rw [numeral, Nat.toDigits_of_base_le (by decide) large, List.map_append, List.map_singleton, last,
    numeral]

theorem numeral_plain (n : Nat) : ∀ c ∈ numeral n, isDigit c = true := by
  intro c member
  obtain ⟨d, digit, rfl⟩ := List.mem_map.mp member
  have range := Nat.isDigit_of_mem_toDigits (by decide) (by decide) digit
  have code : 48 ≤ d.toNat ∧ d.toNat ≤ 57 := by
    simpa [Char.isDigit, UInt32.le_iff_toNat_le] using range
  have byte : (ch d).toNat = d.toNat := UInt8.toNat_ofNat_of_lt' (by unfold UInt8.size; omega)
  simp only [isDigit, Bool.and_eq_true, decide_eq_true_eq, UInt8.le_iff_toNat_le, byte]
  exact code

/-- The digits are found in the reverse of their order. -/
theorem digitLoop_ok {v : Nat} (positive : 0 < v) (fits : (numeral v).length ≤ room) :
    digitLoop room v digits = .ok (digits ++ (numeral v).reverse) := by
  induction room generalizing v digits with
  | zero =>
    by_cases small : v < 10
    · rw [numeral_digit small] at fits
      cases fits
    · rw [numeral_digits (by omega), List.length_append] at fits
      simp at fits
  | succ room ih =>
    obtain ⟨v, rfl⟩ := Nat.exists_eq_add_one_of_ne_zero (Nat.ne_of_gt positive)
    rw [digitLoop]
    by_cases small : v + 1 < 10
    · rw [Nat.div_eq_of_lt small, Nat.mod_eq_of_lt small, numeral_digit small, digitLoop.eq_def]
      rfl
    · have large : 10 ≤ v + 1 := by omega
      rw [numeral_digits large, List.length_append, List.length_singleton] at fits
      rw [ih (Nat.div_pos large (by decide)) (Nat.le_of_succ_le_succ fits), numeral_digits large,
        List.reverse_append, List.reverse_singleton, List.append_assoc]

/-- `digits` has room for every 32-bit number. -/
theorem digitsOf_ok (uid : BitVec 32) : digitsOf uid = .ok (numeral uid.toNat).reverse := by
  unfold digitsOf
  by_cases zero : uid = 0
  · rw [if_pos zero, zero]
    rfl
  · have positive : 0 < uid.toNat := by bv_omega
    have bound := uid.isLt
    have fits : (numeral uid.toNat).length ≤ digitsSize :=
      (length_numeral_le_iff _ _ (by decide)).mpr (by unfold digitsSize; omega)
    rw [if_neg zero, digitLoop_ok positive fits, List.nil_append]

theorem storeAll_ok (fits : msg.length + cs.length ≤ msgSize) :
    storeAll msg cs = .ok (msg ++ cs) := by
  induction cs generalizing msg with
  | nil => rw [storeAll, List.append_nil]
  | cons c cs ih =>
    rw [List.length_cons] at fits
    have short : msg.length < msgSize := by omega
    rw [storeAll, if_pos short, ih (by rw [List.length_append, List.length_singleton]; omega),
      List.append_assoc, List.singleton_append]

theorem storeAll_outside (enough : msg.length ≤ msgSize)
    (outside : msgSize < msg.length + cs.length) : storeAll msg cs = .error .msg := by
  induction cs generalizing msg with
  | nil =>
    rw [List.length_nil] at outside
    omega
  | cons c cs ih =>
    rw [List.length_cons] at outside
    rw [storeAll]
    by_cases short : msg.length < msgSize
    · rw [if_pos short]
      exact ih (by rw [List.length_append, List.length_singleton]; omega)
        (by rw [List.length_append, List.length_singleton]; omega)
    · rw [if_neg short]

/-- Behind the prefix there is room for two digits and the NUL. -/
theorem message_eq (text : Text) : message text.reverse =
    if text.length ≤ 2 then .ok (msgPrefix ++ text) else .error .msg := by
  have before : msgPrefix.length = 29 := by decide +kernel
  have start : storeAll [] msgPrefix = .ok msgPrefix := storeAll_ok (by rw [before]; decide)
  have size : msgSize = 32 := rfl
  unfold message
  rw [start]
  dsimp only [bind, Except.bind]
  rw [List.reverse_reverse]
  by_cases fits : msgPrefix.length + text.length ≤ msgSize
  · rw [storeAll_ok fits]
    dsimp only
    rw [List.length_append, before]
    by_cases two : text.length ≤ 2
    · rw [if_pos (by omega), if_pos two]
    · rw [if_neg (by omega), if_neg two]
  · rw [storeAll_outside (by rw [before]; decide) (by omega), if_neg (by omega)]

theorem printStr_eq (plain : ∀ c ∈ text, c ≠ 0) (screen : Screen) :
    printStr text screen = typeOut text screen := by
  induction text generalizing screen with
  | nil => rfl
  | cons c text ih =>
    rw [printStr, if_neg (plain c List.mem_cons_self),
      ih (fun d member => plain d (List.mem_cons_of_mem c member))]
    rfl

/-! ## The command -/

variable {processes : ProcessTable} {args : Text} {tid : Nat}

/-- The command by what is typed. -/
theorem cmdSetuid_eq (processes : ProcessTable) (args : Text) (threads : ThreadTable)
    (screen : Screen) :
    cmdSetuid processes args threads screen =
      if pidDigits args = [] ∨ uidDigits args = [] then .ok (threads, printStr usage screen)
      else
        match processGetTid processes (typedPid args) with
        | none => .ok (threads, printStr noSuchProcess screen)
        | some tid => (do
          let uid := BitVec.ofNat 32 (decimal (uidDigits args))
          let digits ← digitsOf uid
          let msg ← message digits
          .ok ((schedSetUid threads tid uid).2, printStr msg screen)) := by
  have numbers : (!!(pidDigits args).isEmpty || !!(uidDigits args).isEmpty) = true ↔
      pidDigits args = [] ∨ uidDigits args = [] := by
    simp only [Bool.not_not, Bool.or_eq_true, List.isEmpty_iff]
  unfold cmdSetuid
  simp only [readDigits_start]
  by_cases missing : pidDigits args = [] ∨ uidDigits args = []
  · rw [if_pos missing]
    exact if_pos (numbers.mpr missing)
  · rw [if_neg missing]
    exact if_neg (mt numbers.mp missing)

/-- Without a number or a thread, a message is all there is. -/
theorem cmdSetuid_refused (nobody : ∀ tid, ¬ Names processes args tid) (threads : ThreadTable)
    (screen : Screen) :
    ∃ screen', cmdSetuid processes args threads screen = .ok (threads, screen') := by
  rw [cmdSetuid_eq]
  by_cases missing : pidDigits args = [] ∨ uidDigits args = []
  · exact ⟨_, if_pos missing⟩
  · rw [if_neg missing]
    cases target : processGetTid processes (typedPid args) with
    | none => exact ⟨_, rfl⟩
    | some tid =>
      rw [not_or] at missing
      exact absurd ⟨missing.1, missing.2, target⟩ (nobody tid)

/-- Else the uid of the thread is set, and `msg` has room for it or has not. -/
theorem cmdSetuid_names (names : Names processes args tid) (threads : ThreadTable)
    (screen : Screen) :
    cmdSetuid processes args threads screen =
      if decimal (uidDigits args) % 2 ^ 32 < 100 then
        .ok ((schedSetUid threads tid (BitVec.ofNat 32 (decimal (uidDigits args)))).2,
          typeOut (msgPrefix ++ numeral (decimal (uidDigits args) % 2 ^ 32)) screen)
      else .error .msg := by
  obtain ⟨pid, uid, target⟩ := names
  have two : (numeral (decimal (uidDigits args) % 2 ^ 32)).length ≤ 2 ↔
      decimal (uidDigits args) % 2 ^ 32 < 100 := length_numeral_le_iff _ 2 (by decide)
  have plain : ∀ c ∈ msgPrefix ++ numeral (decimal (uidDigits args) % 2 ^ 32), c ≠ 0 := by
    intro c member
    rcases List.mem_append.mp member with before | digit
    · have nonzero : ∀ c ∈ msgPrefix, c ≠ 0 := by decide +kernel
      exact nonzero c before
    · rintro rfl
      exact absurd (numeral_plain _ 0 digit) (by decide)
  rw [cmdSetuid_eq, if_neg (not_or.mpr ⟨pid, uid⟩), target]
  dsimp only
  rw [digitsOf_ok, BitVec.toNat_ofNat]
  dsimp only [bind, Except.bind]
  rw [message_eq]
  by_cases short : (numeral (decimal (uidDigits args) % 2 ^ 32)).length ≤ 2
  · rw [if_pos short, if_pos (two.mp short)]
    dsimp only
    rw [printStr_eq plain]
  · rw [if_neg short, if_neg (mt two.mpr short)]

/-- The command does what it is for exactly when it finds no such thread, or the uid, as the
32 bits that are left of it, has two digits at most. -/
theorem setuid_sets_typed_iff (processes : ProcessTable) (args : Text) (threads : ThreadTable)
    (screen : Screen) :
    SetsTyped processes args threads screen ↔
      ∀ tid, Names processes args tid → decimal (uidDigits args) % 2 ^ 32 < 100 := by
  constructor
  · rintro ⟨threads', screen', runs, -⟩ tid names
    rw [cmdSetuid_names names] at runs
    by_contra large
    rw [if_neg large] at runs
    cases runs
  · intro small
    by_cases named : ∃ tid, Names processes args tid
    · obtain ⟨tid, names⟩ := named
      refine ⟨_, _, (cmdSetuid_names names threads screen).trans (if_pos (small tid names)),
        fun nobody => absurd names (nobody tid), ?_⟩
      intro other again _ fits
      obtain rfl : tid = other := Option.some.inj (names.2.2.symm.trans again.2.2)
      rw [Nat.mod_eq_of_lt fits]
      refine ⟨⟨BitVec.ofNat 32 (decimal (uidDigits args)), ?_, rfl⟩, rfl⟩
      rw [BitVec.toNat_ofNat, Nat.mod_eq_of_lt fits]
    · rw [not_exists] at named
      obtain ⟨screen', runs⟩ := cmdSetuid_refused named threads screen
      exact ⟨threads, screen', runs, fun _ => rfl, fun tid names => absurd names (named tid)⟩

/-- A first process, in the slot behind the shell's. -/
def firstProcess : ProcessTable where
  processes := Function.update (fun _ => Proc.unusedProcess) 0
    { pid := 1, tid := some 1, parentPid := 0, exitStatus := -1, state := .running }
  nextPid := 2

def blankScreen : Screen :=
  { textArea := fun _ => ⟨Drivers.Video.blank, Drivers.Video.styleWb⟩
    cursorRow := 3
    cursorCol := 0
    crtcCursor := 240
    stores := [] }

/-- `setuid 1 100`: the NUL goes behind the end of `msg`. -/
theorem setuid_leaves_msg :
    ¬ ∀ processes args threads screen, SetsTyped processes args threads screen := by
  intro claim
  obtain ⟨threads, screen, runs, -⟩ :=
    claim firstProcess (str "1 100") Sched.firstBoot.table blankScreen
  have names : Names firstProcess (str "1 100") 1 := by
    refine ⟨?_, ?_, ?_⟩
    · decide +kernel
    · decide +kernel
    · decide +kernel
  have large : ¬ decimal (uidDigits (str "1 100")) % 2 ^ 32 < 100 := by decide +kernel
  rw [cmdSetuid_names names, if_neg large] at runs
  cases runs

end MiniKernel.Shell
