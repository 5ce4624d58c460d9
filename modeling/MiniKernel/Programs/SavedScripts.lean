import MiniKernel.Programs.Assertions
import MiniKernel.Programs.SaveLoad

/-!
# Scripts from the editor

Source: src/programs/lang.c:388-416 (`load_script`) and 447-468 (`_start`),
edit.c:242-269 (`save_file`). The interpreter reads the file that the editor has
written, with the same reading loop as the editor's own.
-/
namespace MiniKernel.Programs.Lang
open Edit (Calls Answers Session answered saveFile contentSize readLoop)
open LineReader (newline)

/-- How `_start` gets to the script. -/
inductive Started where
  /-- It has printed this and exited with 1. -/
  | refused (message : Text)
  | loaded (script : Script)

/-- The file name: what stands before a blank in the argument, at most 63 bytes. -/
def filenameOf (arg : Text) (argvLen : Nat) : Text :=
  ((arg.take argvLen).take 63).takeWhile fun c => c ≠ 0 ∧ c ≠ ch ' '

variable {σ : Type}

/-- `load_script`. -/
def loadScriptFile (calls : Calls σ) (filename : Text) (s : σ) : Started × σ :=
  let (fd, s) := calls.sysOpen Storage.fdPersist s
  if fd < 0 then (.refused (str "lang: no such file: " ++ filename ++ [newline]), s)
  else
    let (content, s) := readLoop calls fd contentSize [] s
    let s := (calls.sysClose fd s).2
    (.loaded (loadScript content), s)

/-- `_start` up to `run_script`. -/
def start (calls : Calls σ) (arg : Text) (argvLen : Nat) (s : σ) : Started × σ :=
  let filename := filenameOf arg argvLen
  if filename = [] then (.refused (str "usage: lang <script filename>" ++ [newline]), s)
  else loadScriptFile calls filename s

variable {a : Answers} {lines : List Text} {arg : Text} {argvLen : Nat}

end MiniKernel.Programs.Lang
