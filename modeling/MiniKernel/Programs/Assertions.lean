import MiniKernel.Programs.Numerals

/-!
# Assertions about scripts

Source: src/programs/lang.c:10-25 and 418-445 (`run_script`). Assertions at the lines
of a script, checked a statement at a time by the rules of `Programs/Meaning.lean`,
say what the interpreter does with its text.
-/
namespace MiniKernel.Programs.Lang
open LineReader (newline)
open Lib.Goto (Annotated Decreasing Arrives Lower Wp)
open Lib.Machine (run)

def counter : Text := [ch 'n']

end MiniKernel.Programs.Lang
