import Blockwork.Command.Run

/-! # The command line

* `Host.real` is the host that works on real files.
* `main` reads the command line and carries the request out.
-/

namespace Blockwork

set_option autoImplicit false

def Host.real : Host IO where
  locate path := do
    try
      let full ← IO.FS.realPath path
      let info ← full.metadata
      return if info.type == .file then some full.toString else none
    catch _ => return none
  read path := do
    try
      return some (← IO.FS.readFile path)
    catch _ => return none
  write path text := do
    try
      IO.FS.writeFile path text
      return true
    catch _ => return false
  print text := IO.print text
  report text := IO.eprint text

def usageText : String :=
  "Usage: blockwork [OPTIONS] <INPUT> [OUTPUT]\n\n"
    ++ "Options:\n"
    ++ "      --input-format <auto|json|xml>\n"
    ++ "      --emit <python|arduino|ast|json|xml>\n"
    ++ "      --allow-floating-expressions\n"
    ++ "      --indent <INDENT>\n"
    ++ "      --include-disabled\n"
    ++ "  -h, --help\n"

def Usage.message : Usage → String
  | .missingInput => "error: no input file is named"
  | .unknownArgument => "error: unexpected argument"
  | .invalidValue => "error: missing or invalid value"
  | .invalidNumber => "error: a number is expected"
  | .repeated => "error: an option is given twice"
  | .flagWithValue => "error: a flag takes no value"
  | .help => ""

def Failure.report (f : Failure) : String :=
  match f.chain with
  | [] => ""
  | first :: causes =>
    "Error: " ++ first ++ "\n"
      ++ (if causes.isEmpty then "" else "\nCaused by:\n")
      ++ String.join (causes.map fun cause => "    " ++ cause ++ "\n")

end Blockwork

open Blockwork in
def main (args : List String) : IO UInt32 := do
  match Request.ofArgs args with
  | .error .help => do
    IO.print usageText
    return 0
  | .error u => do
    IO.eprint (u.message ++ "\n\n" ++ usageText)
    return 2
  | .ok r =>
    match ← (r.run Host.real).run with
    | .ok _ => return 0
    | .error f => do
      IO.eprint f.report
      return 1
