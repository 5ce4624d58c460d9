import Mathlib.Data.List.GetD
import MiniKernel.Memory.UserRange
import MiniKernel.Proc.System
import MiniKernel.Proc.UserEntry
import MiniKernel.Sched.WellFormed
import MiniKernel.Storage.MfsBoot

/-!
# The command line of a new process

Source: kernel/core/syscall.c:222-266 (`SYS_SPAWN_REDIRECT`), 462-499
(`SYS_SPAWN`), kernel/core/process.c:221-326. What the allocators answer, and what
their blocks hold before, is part of a call; the request a thread is given is
passed as a value.
-/
namespace MiniKernel.Proc.CommandLine
open Lib (Buffer)
open Elf (Image)
open Memory (UserRange.byteAt)
open Memory.Paging (Word Tables UserMapped vmmIsUserAccessibleIn_iff userMapped_current)
open Memory.UserRange (userRangeOk userRangeOk_eq)
open Storage (CString Fs FsDirent fsFind fsReadFile applyStores)

def sysSpawnCmdlineMax : Word := 128
def sysSpawnNameMax : Nat := 20

/-- What a call finds: the caller's memory, the files, and the answers of the
allocators to the file, the request and the thread. -/
structure SpawnEnv where
  tables : Tables
  cr3 : Word
  user : Word → UInt8
  /-- What the array `cmdline` holds before. -/
  unset : Buffer
  fs : Fs
  memory : Nat → UInt8
  fileBlock : Option Nat
  /-- The bytes of `argv` in the new request. -/
  requestBlock : Option Buffer
  thread : Sched.SpawnRequest
  block : Option (Nat → Sched.Thread)
  stack : Option Sched.GuardedStack

def SpawnEnv.answers (env : SpawnEnv) (loaded : Bool) : SpawnAnswers where
  loaded := loaded
  request := env.thread
  block := env.block
  stack := env.stack

/-- The result, `none` for -1, and the request that the new thread will find. -/
structure SpawnReply where
  answer : Option Int
  request : Option ElfSpawnRequest
  system : System

def refused (s : System) : SpawnReply := ⟨none, none, s⟩

/-- `spawn_elf_request`. -/
def spawnElfRequest (env : SpawnEnv) (image : Image) (argvStr : Buffer) (argvLen : Word)
    (s : System) : SpawnReply :=
  match env.requestBlock with
  | none => refused s
  | some block =>
    let argvLen := if argvLen > userArgvReserved then userArgvReserved else argvLen
    let request : ElfSpawnRequest :=
      { image := image
        argv := fun i => if i < argvLen.toNat then argvStr i else block i
        argvLen := argvLen }
    let r := Proc.spawnElfRequest (env.answers true) s
    ⟨r.1, r.1.map fun _ => request, r.2⟩

/-- `process_spawn_from_file`. -/
def processSpawnFromFile (env : SpawnEnv) (name : CString) (argvStr : Buffer) (argvLen : Word)
    (s : System) : SpawnReply :=
  match fsFind env.fs name with
  | none => refused s
  | some entry =>
    match env.fileBlock with
    | none => refused s
    | some buf =>
      let read := fsReadFile entry buf env.fs.drive
      if ¬ read.1 then refused s
      else
        let memory := applyStores env.memory read.2.1
        spawnElfRequest env ⟨fun i => memory (buf + i), entry.sizeBytes.setWidth 64⟩ argvStr argvLen s

/-- `process_spawn_from_file_redirect` once there is a process. -/
def redirectTo (pid stdinFd stdoutFd : Int) (s : System) : System :=
  match (findProcess s.table pid).bind fun i => (s.table.processes i).tid with
  | none => s
  | some tid =>
    let s := if stdinFd ≥ 0 then redirect .pipeRead Ipc.pipeAddReader stdinFd tid 0 s else s
    if stdoutFd ≥ 0 then redirect .pipeWrite Ipc.pipeAddWriter stdoutFd tid 1 s else s

/-- `process_spawn_from_file_redirect`. -/
def processSpawnFromFileRedirect (env : SpawnEnv) (name : CString) (argvStr : Buffer)
    (argvLen : Word) (stdinFd stdoutFd : Int) (s : System) : SpawnReply :=
  let r := processSpawnFromFile env name argvStr argvLen s
  match r.answer with
  | none => r
  | some pid => { r with system := redirectTo pid stdinFd stdoutFd r.system }

/-- `while (i < len && keep(cmdline[i])) i++`, with `left` bytes to go. -/
def skipLoop (keep : UInt8 → Bool) (cmdline : Buffer) : Nat → Nat → Nat
  | 0, i => i
  | left + 1, i => if keep (cmdline i) then skipLoop keep cmdline left (i + 1) else i

def skip (keep : UInt8 → Bool) (cmdline : Buffer) (len i : Nat) : Nat :=
  skipLoop keep cmdline (len - i) i

/-- `cmdline`, with `len` bytes from `buf`. -/
def copiedLine (env : SpawnEnv) (buf : Word) (len : Nat) : Buffer := fun i =>
  if i < len then env.user (UserRange.byteAt buf i) else env.unset i

/-- `name`: the first `split` bytes and a terminator, as a string. -/
def wordName (cmdline : Buffer) (split : Nat) : CString where
  bytes := ((List.range split).map cmdline).takeWhile (· ≠ 0)
  nonzero := fun b hb => of_decide_eq_true (List.all_eq_true.mp List.all_takeWhile b hb)

/-- `SYS_SPAWN`. -/
def sysSpawn (env : SpawnEnv) (rsi rdx : Word) (s : System) : Option SpawnReply :=
  if rdx = 0 ∨ rdx ≥ sysSpawnCmdlineMax then some (refused s)
  else
    (userRangeOk env.tables env.cr3 rsi rdx).map fun ok =>
      if !ok then refused s
      else
        let len := rdx.toNat
        let cmdline := copiedLine env rsi len
        let split := skip (· ≠ 0x20) cmdline len 0
        if split = 0 ∨ split ≥ sysSpawnNameMax then refused s
        else
          let argStart := skip (· = 0x20) cmdline len split
          processSpawnFromFile env (wordName cmdline split) (fun i => cmdline (argStart + i))
            (rdx - BitVec.ofNat 64 argStart) s

/-- `SYS_SPAWN_REDIRECT`; the two descriptors are packed in 16 bits each. -/
def sysSpawnRedirect (env : SpawnEnv) (rdi rsi rdx : Word) (s : System) : Option SpawnReply :=
  if rsi = 0 ∨ rsi ≥ sysSpawnCmdlineMax then some (refused s)
  else
    (userRangeOk env.tables env.cr3 rdi rsi).map fun ok =>
      if !ok then refused s
      else
        let len := rsi.toNat
        let cmdline := copiedLine env rdi len
        let split := skip (· ≠ 0x20) cmdline len 0
        if split = 0 ∨ split ≥ sysSpawnNameMax then refused s
        else
          let argStart := skip (· = 0x20) cmdline len split
          let stdinFd := (rdx.setWidth 16).toInt
          let stdoutFd := ((rdx >>> 16).setWidth 16).toInt
          processSpawnFromFileRedirect env (wordName cmdline split)
            (fun i => cmdline (argStart + i)) (rsi - BitVec.ofNat 64 argStart) stdinFd stdoutFd s

/-! ## What a command line says -/

def firstWord (cmd : List UInt8) : List UInt8 := cmd.takeWhile (· ≠ 0x20)

/-- What follows the first word and the spaces after it. -/
def arguments (cmd : List UInt8) : List UInt8 :=
  (cmd.dropWhile (· ≠ 0x20)).dropWhile (· = 0x20)

/-- A word as a string, which ends at a zero byte. -/
def stringOf (word : List UInt8) : CString where
  bytes := word.takeWhile (· ≠ 0)
  nonzero := fun b hb => of_decide_eq_true (List.all_eq_true.mp List.all_takeWhile b hb)

/-- The name is that of a file which can be read, and there is memory, a record
and a thread for a process. -/
def Loadable (env : SpawnEnv) (s : System) (name : CString) : Prop :=
  ∃ entry buf, fsFind env.fs name = some entry ∧ env.fileBlock = some buf ∧
    (fsReadFile entry buf env.fs.drive).1 = true ∧ env.requestBlock.isSome = true ∧
    (Proc.spawnElfRequest (env.answers true) s).1.isSome = true

/-- The first word has 1 to 19 bytes and names a program that can be loaded. -/
def Acceptable (env : SpawnEnv) (s : System) (cmd : List UInt8) : Prop :=
  0 < (firstWord cmd).length ∧ (firstWord cmd).length < sysSpawnNameMax ∧
    Loadable env s (stringOf (firstWord cmd))

/-- A command line of 1 to 127 bytes in memory of the caller's. -/
structure UserLine (env : SpawnEnv) (buf : Word) (cmd : List UInt8) : Prop where
  positive : 0 < cmd.length
  short : cmd.length < 128
  below : buf.toNat + cmd.length ≤ 2 ^ 64
  accessible : ∀ i < cmd.length, UserMapped env.tables env.cr3 (UserRange.byteAt buf i)
  holds : ∀ i < cmd.length, env.user (UserRange.byteAt buf i) = cmd.getD i 0

/-! ## The parser -/

/-- The loop stops behind the first bytes it keeps. -/
theorem skipLoop_eq {keep : UInt8 → Bool} {cmdline : Buffer} {rest : List UInt8} {i : Nat}
    (holds : ∀ j < rest.length, cmdline (i + j) = rest.getD j 0) :
    skipLoop keep cmdline rest.length i = i + (rest.takeWhile keep).length := by
  induction rest generalizing i with
  | nil => rfl
  | cons b rest ih =>
    have first : cmdline i = b := holds 0 (Nat.zero_lt_succ _)
    have later : ∀ j < rest.length, cmdline (i + 1 + j) = rest.getD j 0 := by
      intro j hj
      have byte := holds (j + 1) (Nat.succ_lt_succ hj)
      rwa [List.getD_cons_succ, ← Nat.add_assoc, Nat.add_right_comm] at byte
    rw [List.length_cons, skipLoop, first, List.takeWhile_cons]
    cases kept : keep b with
    | true =>
      rw [if_pos rfl, if_pos rfl, ih later, List.length_cons]
      omega
    | false => rfl

section
variable {env : SpawnEnv} {buf : Word} {cmd : List UInt8} {cmdline : Buffer}

theorem firstWord_append (cmd : List UInt8) :
    firstWord cmd ++ cmd.dropWhile (· ≠ 0x20) = cmd := List.takeWhile_append_dropWhile

theorem split_eq (holds : ∀ i < cmd.length, cmdline i = cmd.getD i 0) :
    skip (· ≠ 0x20) cmdline cmd.length 0 = (firstWord cmd).length := by
  have same : ∀ j < cmd.length, cmdline (0 + j) = cmd.getD j 0 := by
    intro j hj
    rw [Nat.zero_add, holds j hj]
  exact (skipLoop_eq same).trans (Nat.zero_add _)

theorem getD_dropped (cmd : List UInt8) {j : Nat} :
    (cmd.dropWhile (· ≠ 0x20)).getD j 0 = cmd.getD ((firstWord cmd).length + j) 0 := by
  have part := List.getD_append_right (firstWord cmd) (cmd.dropWhile (· ≠ 0x20)) 0
    ((firstWord cmd).length + j) (Nat.le_add_right _ _)
  rw [firstWord_append, Nat.add_sub_cancel_left] at part
  exact part.symm

theorem argStart_eq (holds : ∀ i < cmd.length, cmdline i = cmd.getD i 0) :
    skip (· = 0x20) cmdline cmd.length (firstWord cmd).length =
      cmd.length - (arguments cmd).length := by
  have parts := congrArg List.length (firstWord_append cmd)
  rw [List.length_append] at parts
  have rest : cmd.length - (firstWord cmd).length = (cmd.dropWhile (· ≠ 0x20)).length := by omega
  have spaces := congrArg List.length
    (List.takeWhile_append_dropWhile (p := (· = 0x20)) (l := cmd.dropWhile (· ≠ 0x20)))
  rw [List.length_append] at spaces
  rw [skip, rest, skipLoop_eq]
  · have same : (arguments cmd).length =
      ((cmd.dropWhile (· ≠ 0x20)).dropWhile (· = 0x20)).length := rfl
    omega
  · intro j hj
    rw [holds _ (by omega), getD_dropped]

/-- The arguments are the end of the line. -/
theorem arguments_suffix (cmd : List UInt8) : arguments cmd <:+ cmd :=
  (List.dropWhile_suffix _).trans (List.dropWhile_suffix _)

theorem arguments_getD (cmd : List UInt8) {k : Nat} :
    (arguments cmd).getD k 0 = cmd.getD (cmd.length - (arguments cmd).length + k) 0 := by
  obtain ⟨before, whole⟩ := arguments_suffix cmd
  have length := congrArg List.length whole
  rw [List.length_append] at length
  have start : cmd.length - (arguments cmd).length = before.length := by omega
  have part := List.getD_append_right before (arguments cmd) 0 (before.length + k)
    (Nat.le_add_right _ _)
  rw [whole, Nat.add_sub_cancel_left] at part
  rw [start, part]

theorem wordName_eq (holds : ∀ i < cmd.length, cmdline i = cmd.getD i 0) :
    wordName cmdline (firstWord cmd).length = stringOf (firstWord cmd) := by
  have parts := congrArg List.length (firstWord_append cmd)
  rw [List.length_append] at parts
  have copied : (List.range (firstWord cmd).length).map cmdline = firstWord cmd := by
    apply List.ext_getElem
    · simp
    · intro j hj hj'
      have byte := List.getD_append (firstWord cmd) (cmd.dropWhile (· ≠ 0x20)) 0 j hj'
      rw [firstWord_append] at byte
      rw [List.getElem_map, List.getElem_range, holds j (by omega), byte,
        List.getD_eq_getElem _ 0 hj']
  simp only [wordName, stringOf, copied]

/-- A call leaves the check and the parser with the word's name, its arguments
and the line's own condition. -/
theorem UserLine.parsed (line : UserLine env buf cmd) :
    userRangeOk env.tables env.cr3 buf (BitVec.ofNat 64 cmd.length) = some true ∧
      (BitVec.ofNat 64 cmd.length).toNat = cmd.length ∧
      ∀ i < cmd.length, copiedLine env buf cmd.length i = cmd.getD i 0 := by
  have short := line.short
  have length : (BitVec.ofNat 64 cmd.length).toNat = cmd.length := by
    rw [BitVec.toNat_ofNat]
    omega
  refine ⟨?_, length, fun i hi => ?_⟩
  · obtain ⟨r, answered, spec⟩ :=
      userRangeOk_eq env.tables env.cr3 buf (BitVec.ofNat 64 cmd.length)
    rw [answered, Option.some.injEq, spec, Memory.UserRange.NoWrap, length]
    have below := line.below
    have positive := line.positive
    refine ⟨by omega, fun i hi => ?_⟩
    rw [vmmIsUserAccessibleIn_iff, userMapped_current]
    exact line.accessible i hi
  · rw [copiedLine, if_pos hi, line.holds i hi]

theorem sysSpawn_eq (line : UserLine env buf cmd) (s : System) :
    ∃ argvStr : Buffer, (∀ k < (arguments cmd).length, argvStr k = (arguments cmd).getD k 0) ∧
      sysSpawn env buf (BitVec.ofNat 64 cmd.length) s =
        some (if (firstWord cmd).length = 0 ∨ (firstWord cmd).length ≥ sysSpawnNameMax then refused s
          else processSpawnFromFile env (stringOf (firstWord cmd)) argvStr
            (BitVec.ofNat 64 (arguments cmd).length) s) ∧
      ∀ packed, ∃ stdinFd stdoutFd,
        sysSpawnRedirect env buf (BitVec.ofNat 64 cmd.length) packed s =
        some (if (firstWord cmd).length = 0 ∨ (firstWord cmd).length ≥ sysSpawnNameMax then refused s
          else processSpawnFromFileRedirect env (stringOf (firstWord cmd)) argvStr
            (BitVec.ofNat 64 (arguments cmd).length) stdinFd stdoutFd s) := by
  obtain ⟨checked, length, holds⟩ := line.parsed
  have short := line.short
  have positive := line.positive
  have suffix := (arguments_suffix cmd).length_le
  have fits : ¬ (BitVec.ofNat 64 cmd.length = 0 ∨
      BitVec.ofNat 64 cmd.length ≥ sysSpawnCmdlineMax) := by
    rw [not_or, ge_iff_le, BitVec.not_le, BitVec.lt_def, length]
    refine ⟨fun zero => ?_, show cmd.length < 128 by omega⟩
    rw [zero] at length
    change 0 = cmd.length at length
    omega
  have left : BitVec.ofNat 64 cmd.length -
      BitVec.ofNat 64 (cmd.length - (arguments cmd).length) =
        BitVec.ofNat 64 (arguments cmd).length := by
    apply BitVec.eq_of_toNat_eq
    simp only [BitVec.toNat_sub, BitVec.toNat_ofNat]
    omega
  have name := wordName_eq holds
  refine ⟨fun i => copiedLine env buf cmd.length (cmd.length - (arguments cmd).length + i), ?_, ?_, ?_⟩
  · intro k hk
    exact (holds _ (by omega)).trans (arguments_getD cmd).symm
  · simp only [sysSpawn, if_neg fits, checked, Option.map_some, length, split_eq holds,
      argStart_eq holds, left, name]
    rfl
  · intro packed
    refine ⟨(packed.setWidth 16).toInt, ((packed >>> 16).setWidth 16).toInt, ?_⟩
    simp only [sysSpawnRedirect, if_neg fits, checked, Option.map_some, length, split_eq holds,
      argStart_eq holds, left, name]
    rfl

/-! ## The request -/

/-- A reply to a name and its arguments. -/
structure Answers (env : SpawnEnv) (s : System) (name : CString) (args : List UInt8)
    (reply : SpawnReply) : Prop where
  accepts : reply.answer.isSome = true ↔ Loadable env s name
  started : reply.request.isSome = reply.answer.isSome
  carries : ∀ request ∈ reply.request, Carries request args

theorem refused_answers {s : System} {name : CString} {args : List UInt8}
    (cannot : ¬ Loadable env s name) : Answers env s name args (refused s) := by
  refine ⟨⟨fun yes => ?_, fun can => absurd can cannot⟩, rfl, fun request given => ?_⟩
  · cases yes
  · cases given

theorem processSpawnFromFile_answers (env : SpawnEnv) (s : System) (name : CString)
    {args : List UInt8} {argvStr : Buffer} (few : args.length ≤ 128)
    (holds : ∀ k < args.length, argvStr k = args.getD k 0) :
    Answers env s name args
      (processSpawnFromFile env name argvStr (BitVec.ofNat 64 args.length) s) := by
  unfold processSpawnFromFile
  cases found : fsFind env.fs name with
  | none =>
    apply refused_answers
    intro ⟨entry, buf, there, _⟩
    rw [found] at there
    cases there
  | some entry =>
    simp only
    cases allocated : env.fileBlock with
    | none =>
      apply refused_answers
      intro ⟨entry', buf, _, there, _⟩
      rw [allocated] at there
      cases there
    | some buf =>
      simp only
      split
      · next failed =>
        apply refused_answers
        intro ⟨entry', buf', there, there', read, _⟩
        rw [found] at there
        rw [allocated] at there'
        cases there
        cases there'
        exact failed read
      · next read =>
        unfold spawnElfRequest
        cases room : env.requestBlock with
        | none =>
          apply refused_answers
          intro ⟨entry', buf', _, _, _, there, _⟩
          rw [room] at there
          cases there
        | some block =>
          have length : (BitVec.ofNat 64 args.length).toNat = args.length := by
            rw [BitVec.toNat_ofNat]
            omega
          have kept : ¬ BitVec.ofNat 64 args.length > userArgvReserved := by
            rw [gt_iff_lt, BitVec.lt_def, userArgvReserved_toNat]
            omega
          simp only [if_neg kept]
          refine ⟨⟨fun made => ?_, fun can => ?_⟩, Option.isSome_map .., ?_⟩
          · refine ⟨entry, buf, found, allocated, by simpa using read, ?_, made⟩
            rw [room]
            rfl
          · obtain ⟨entry', buf', _, _, _, _, made⟩ := can
            exact made
          · intro request given
            obtain ⟨pid, -, rfl⟩ := Option.map_eq_some_iff.mp given
            refine ⟨few, length, fun k hk => ?_⟩
            exact (if_pos (length.symm ▸ hk)).trans (holds k hk)

theorem processSpawnFromFileRedirect_eq (env : SpawnEnv) (name : CString) (argvStr : Buffer)
    (argvLen : Word) (stdinFd stdoutFd : Int) (s : System) :
    (processSpawnFromFileRedirect env name argvStr argvLen stdinFd stdoutFd s).answer =
        (processSpawnFromFile env name argvStr argvLen s).answer ∧
      (processSpawnFromFileRedirect env name argvStr argvLen stdinFd stdoutFd s).request =
        (processSpawnFromFile env name argvStr argvLen s).request := by
  unfold processSpawnFromFileRedirect
  simp only
  split
  · exact ⟨rfl, rfl⟩
  · exact ⟨rfl, rfl⟩

/-- To the system, the two are the spawns of its machine. -/
theorem processSpawn_system (name : CString) (argvStr : Buffer) (argvLen : Word)
    (stdinFd stdoutFd : Int) (s : System) : ∃ loaded,
      (processSpawnFromFile env name argvStr argvLen s).system =
        (Proc.spawnElfRequest (env.answers loaded) s).2 ∧
      (processSpawnFromFileRedirect env name argvStr argvLen stdinFd stdoutFd s).system =
        spawnFromFileRedirect (env.answers loaded) stdinFd stdoutFd s := by
  have outcome : processSpawnFromFile env name argvStr argvLen s = refused s ∨
      ∃ request, processSpawnFromFile env name argvStr argvLen s =
        ⟨(Proc.spawnElfRequest (env.answers true) s).1, request,
          (Proc.spawnElfRequest (env.answers true) s).2⟩ := by
    unfold processSpawnFromFile
    split
    · exact Or.inl rfl
    split
    · exact Or.inl rfl
    simp only
    split
    · exact Or.inl rfl
    unfold spawnElfRequest
    split
    · exact Or.inl rfl
    · exact Or.inr ⟨_, rfl⟩
  obtain none_ | ⟨request, made⟩ := outcome
  · refine ⟨false, by rw [none_]; rfl, ?_⟩
    rw [processSpawnFromFileRedirect, none_]
    rfl
  · refine ⟨true, by rw [made], ?_⟩
    rw [processSpawnFromFileRedirect, made, spawnFromFileRedirect]
    rcases Proc.spawnElfRequest (env.answers true) s with ⟨_ | pid, t⟩
    · rfl
    · cases found : (findProcess t.table pid).bind fun i => (t.table.processes i).tid with
      | none => simp only [redirectTo, found]
      | some tid => simp only [redirectTo, found]

theorem Answers.same {s : System} {name : CString} {args : List UInt8} {a b : SpawnReply}
    (answers : Answers env s name args a) (answer : b.answer = a.answer)
    (request : b.request = a.request) : Answers env s name args b := by
  refine ⟨?_, ?_, ?_⟩
  · rw [answer]
    exact answers.accepts
  · rw [answer, request]
    exact answers.started
  · rw [request]
    exact answers.carries

/-! ## Result -/

/-- What a call with a command line does: it is accepted if the line is, and the
process it starts gets the arguments if it gets to user mode, on whatever thread
it runs and whatever happened before it does. -/
structure StartsWith (env : SpawnEnv) (s : System) (cmd : List UInt8) (reply : SpawnReply) :
    Prop where
  accepts : reply.answer.isSome = true ↔ Acceptable env s cmd
  started : reply.request.isSome = reply.answer.isSome
  enters : ∀ request ∈ reply.request, ∀ tid unset bytes m, Sound m →
    ∃ entered l spaces,
      elfProcessTrampoline tid (some request) unset bytes m = some (entered, l, spaces) ∧
        ∀ e ∈ entered, EntersWith tid (arguments cmd) l e

theorem Answers.startsWith {s : System} {reply : SpawnReply}
    (answers : Answers env s (stringOf (firstWord cmd)) (arguments cmd) reply)
    (low : 0 < (firstWord cmd).length) (high : (firstWord cmd).length < sysSpawnNameMax) :
    StartsWith env s cmd reply where
  accepts := answers.accepts.trans ⟨fun can => ⟨low, high, can⟩, fun can => can.2.2⟩
  started := answers.started
  enters := fun request given _ _ _ _ sound =>
    trampoline_enters (answers.carries request given) fun _ _ => sound.create

theorem refused_startsWith {s : System}
    (bad : (firstWord cmd).length = 0 ∨ (firstWord cmd).length ≥ sysSpawnNameMax) :
    StartsWith env s cmd (refused s) := by
  refine ⟨⟨fun yes => ?_, fun can => ?_⟩, rfl, fun request given => ?_⟩
  · cases yes
  · have low := can.1
    have high := can.2.1
    omega
  · cases given

/-- Both calls take the same command lines, and either way the process is
entered with exactly what follows the first word and its spaces. -/
theorem command_line_arrives (line : UserLine env buf cmd) (s : System) (packed : Word) :
    ∃ plain redirected,
      sysSpawn env buf (BitVec.ofNat 64 cmd.length) s = some plain ∧
      sysSpawnRedirect env buf (BitVec.ofNat 64 cmd.length) packed s = some redirected ∧
      plain.answer = redirected.answer ∧ StartsWith env s cmd plain ∧
        StartsWith env s cmd redirected := by
  obtain ⟨argvStr, holds, spawned, redirects⟩ := sysSpawn_eq line s
  obtain ⟨stdinFd, stdoutFd, redirected⟩ := redirects packed
  have short := line.short
  have suffix := (arguments_suffix cmd).length_le
  by_cases bad : (firstWord cmd).length = 0 ∨ (firstWord cmd).length ≥ sysSpawnNameMax
  · rw [if_pos bad] at spawned redirected
    exact ⟨_, _, spawned, redirected, rfl, refused_startsWith bad, refused_startsWith bad⟩
  · rw [if_neg bad] at spawned redirected
    rw [not_or, ge_iff_le, Nat.not_le] at bad
    have low := Nat.pos_of_ne_zero bad.1
    have answers := processSpawnFromFile_answers env s (stringOf (firstWord cmd))
      (by omega) holds
    obtain ⟨answer, request⟩ := processSpawnFromFileRedirect_eq env (stringOf (firstWord cmd)) argvStr (BitVec.ofNat 64 (arguments cmd).length) stdinFd stdoutFd s
    exact ⟨_, _, spawned, redirected, answer.symm, answers.startsWith low bad.2,
      (answers.same answer request).startsWith low bad.2⟩

end

/-- `ls -l`. -/
def lsLine : List UInt8 := [0x6C, 0x73, 0x20, 0x2D, 0x6C]

/-- The line at the start of a page, and an empty file with the name `ls`. -/
def lsEnv : SpawnEnv where
  tables := Memory.UserRange.oneUserPage 0x7
  cr3 := 0x1000
  user a := lsLine.getD (a.toNat - 2 ^ 39) 0
  unset _ := 0
  fs :=
    { dirSector := fun p => if p = 0 then 0x6C else if p = 1 then 0x73 else 0
      ready := true
      cachedFileCount := 1
      behind := fun _ => 0
      drive := Storage.blankDrive }
  memory _ := 0
  fileBlock := some 0x100000
  requestBlock := some fun _ => 0
  thread := ⟨0x200000, 1, 0x101000⟩
  block := none
  stack := some ⟨0x301000, 0x300000⟩

/-- After `sched_init`, in a table of unused threads. -/
def lsSystem : System :=
  System.boot (Sched.blockOfUid 0) ⟨0x8000, 0x7000⟩ 0x1000 0x9000

theorem lsLine_there : UserLine lsEnv Memory.UserRange.pageStart lsLine := by
  have start : Memory.UserRange.pageStart.toNat = 2 ^ 39 := rfl
  refine ⟨by decide, by decide, by decide, fun i hi => ?_, fun i hi => ?_⟩
  · have small : i < 5 := hi
    exact (Memory.UserRange.oneUserPage_accessible i (by omega)).2
  · have small : i < 5 := hi
    have address := Memory.UserRange.byteAt_toNat Memory.UserRange.pageStart i (by omega)
    simp only [lsEnv, address, start, Nat.add_sub_cancel_left]

/-- `ls -l` is accepted. -/
theorem command_line_arrives_ls : Acceptable lsEnv lsSystem lsLine ∧ ∃ plain redirected,
    sysSpawn lsEnv Memory.UserRange.pageStart 5 lsSystem = some plain ∧
    sysSpawnRedirect lsEnv Memory.UserRange.pageStart 5 0xFFFFFFFF lsSystem = some redirected ∧
    plain.answer = redirected.answer ∧ StartsWith lsEnv lsSystem lsLine plain ∧
      StartsWith lsEnv lsSystem lsLine redirected :=
  ⟨⟨by decide, by decide, ⟨0, 0⟩, 0x100000, rfl, rfl, by decide, rfl, rfl⟩,
    command_line_arrives lsLine_there lsSystem 0xFFFFFFFF⟩

end MiniKernel.Proc.CommandLine
