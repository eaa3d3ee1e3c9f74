import Blockwork.Command.Host
import Blockwork.Command.Request
import Blockwork.Document
import Blockwork.Program.OfBlocks
import Blockwork.Program.Printer
import Blockwork.Program.ToBlocks
import Blockwork.Source.Basic

/-! # Running requests

* `Request.run` reads a file, reads the program in it, and writes what is asked for. Each stage is
  announced before it starts.
* `Failure` is why a request was not carried out.
-/

namespace Blockwork

set_option autoImplicit false

inductive Failure where
  /-- Disabled roots matter to sources only. -/
  | disabledWithoutSource
  | indentOutOfRange
  | notFound (path : String)
  | notReadable (path : String)
  | notDecoded (path : String) (e : Error)
  | notTransformed (path : String) (e : Error)
  | notGenerated (f : Source.Failure)
  | notRendered (e : Error)
  | notWritten (path : String)
deriving DecidableEq

def Failure.chain : Failure → List String
  | disabledWithoutSource => ["--include-disabled requires --emit python or --emit arduino."]
  | indentOutOfRange => ["--indent must be between 1 and 16."]
  | notFound path => ["Input file not found: '" ++ path ++ "'."]
  | notReadable path => ["Failed to read '" ++ path ++ "'."]
  | notDecoded path e => ["Failed to decode '" ++ path ++ "'.", e.message]
  | notTransformed path e => ["Failed to transform '" ++ path ++ "'.", e.message]
  | notGenerated f => [f.message]
  | notRendered e => [e.message]
  | notWritten path => ["Failed to write '" ++ path ++ "'."]

/-! ## Announcements -/

/-- A bar of fourteen cells that shows how many of the stages are reached, rounded to the nearest cell. -/
def progressBar (step total : Nat) : String :=
  let filled := (step * 14 + total / 2) / total
  let cell (i : Nat) : Char := if i < filled then '=' else '-'
  "[" ++ String.ofList ((List.range 14).map cell) ++ "]"

def announcement (step total : Nat) (label : String) : String :=
  "[Transform] " ++ label ++ "... (" ++ Text.natText step ++ "/" ++ Text.natText total ++ ") "
    ++ progressBar step total ++ "\n"

def Emit.label : Emit → String
  | .source target => "Generating " ++ target.name ++ " source"
  | .outline => "Printing syntax tree"
  | .document format => "Rendering " ++ format.name ++ " workspace"

/-! ## Stages -/

def extension? (path : String) : Option String :=
  let name := path.toList.reverse.takeWhile (· ≠ '/')
  match name.dropWhile (· ≠ '.') with
  | [] | [_] => none
  | _ => some (String.ofList (name.takeWhile (· ≠ '.')).reverse)

/-- The format of a file: the one that is asked for, or the one that its name tells, or the one that its
text looks like. -/
def InputFormat.resolve (choice : InputFormat) (path text : String) : Format :=
  match choice with
  | .fixed format => format
  | .auto => ((extension? path).bind Format.ofExtension?).getD (Format.detect text)

namespace Request

def check (r : Request) : Except Failure Unit :=
  match r.emit, r.includeDisabled with
  | .outline, true | .document _, true => .error .disabledWithoutSource
  | _, _ => if r.indent = 0 ∨ 16 < r.indent then .error .indentOutOfRange else .ok ()

def decode (r : Request) (path text : String) : Except Failure (List Block) :=
  (Document.read (r.inputFormat.resolve path text) text).mapError (.notDecoded path)

def transform (r : Request) (path : String) (blocks : List Block) : Except Failure Program :=
  (Program.ofBlocks blocks r.allowFloating).mapError (.notTransformed path)

def render (r : Request) (p : Program) : Except Failure String :=
  match r.emit with
  | .source target =>
    let options : Source.Options := { indent := r.indent, includeDisabled := r.includeDisabled }
    (Source.generate target options p).mapError .notGenerated
  | .outline => .ok p.render
  | .document format =>
    match p.toBlocks? with
    | .ok blocks => .ok (Document.write format blocks ++ "\n")
    | .error e => .error (.notRendered e)

def stages (r : Request) : Nat :=
  if r.output.isSome then 5 else 4

section

variable {m : Type → Type} [Monad m]

def announce (r : Request) (host : Host m) (step : Nat) (label : String) : ExceptT Failure m Unit :=
  host.report (announcement step r.stages label)

def readInput (r : Request) (host : Host m) : ExceptT Failure m (String × String) := do
  match ← host.locate r.input with
  | none => throw (.notFound r.input)
  | some path =>
    match ← host.read path with
    | none => throw (.notReadable path)
    | some text => return (path, text)

def deliver (r : Request) (host : Host m) (text : String) : ExceptT Failure m Unit := do
  match r.output with
  | none => host.print text
  | some path =>
    r.announce host 5 "Writing output"
    if !(← host.write path text) then throw (.notWritten path)

def run (r : Request) (host : Host m) : ExceptT Failure m Unit := do
  ExceptT.mk (pure r.check)
  r.announce host 1 "Resolving input path"
  let (path, text) ← r.readInput host
  r.announce host 2 "Decoding workspace"
  let blocks ← ExceptT.mk (pure (r.decode path text))
  r.announce host 3 "Building syntax tree"
  let program ← ExceptT.mk (pure (r.transform path blocks))
  r.announce host 4 r.emit.label
  let rendered ← ExceptT.mk (pure (r.render program))
  r.deliver host rendered

end

end Request

end Blockwork
