import Blockwork.Source.Target
import Blockwork.Text.Whole

/-! # Requests on the command line

A command line names a file to read and perhaps a file to write, with options between them in any order.
An argument is taken in only when the next one is known to go on from it. So an argument that is not
known at all is refused before the one in front of it is looked at.
-/

namespace Blockwork

set_option autoImplicit false

inductive Emit where
  | source (target : Target)
  | outline
  | document (format : Format)
deriving DecidableEq

def Emit.ofWord? : String → Option Emit
  | "python" => some (.source .python)
  | "arduino" => some (.source .arduino)
  | "ast" => some .outline
  | "json" => some (.document .json)
  | "xml" => some (.document .xml)
  | _ => none

inductive InputFormat where
  | auto
  | fixed (format : Format)
deriving DecidableEq

def InputFormat.ofWord? : String → Option InputFormat
  | "auto" => some .auto
  | "json" => some (.fixed .json)
  | "xml" => some (.fixed .xml)
  | _ => none

structure Request where
  input : String
  output : Option String := none
  inputFormat : InputFormat := .auto
  emit : Emit := .source .python
  allowFloating : Bool := false
  indent : Nat := 4
  includeDisabled : Bool := false
deriving DecidableEq

inductive Usage where
  | missingInput
  /-- An option that does not exist, or a third file. -/
  | unknownArgument
  /-- A value is missing or is none of the words for it, or the name of a file is empty. -/
  | invalidValue
  | invalidNumber
  | repeated
  | flagWithValue
  | help
deriving DecidableEq

namespace Request

/-! ## Arguments -/

inductive Setting where
  | inputFormat
  | emit
  | indent
deriving DecidableEq

inductive Flag where
  | allowFloating
  | includeDisabled
deriving DecidableEq

inductive Switch where
  | setting (s : Setting)
  | flag (f : Flag)
  | help
deriving DecidableEq

def Switch.ofName? : String → Option Switch
  | "input-format" => some (.setting .inputFormat)
  | "emit" => some (.setting .emit)
  | "indent" => some (.setting .indent)
  | "allow-floating-expressions" => some (.flag .allowFloating)
  | "include-disabled" => some (.flag .includeDisabled)
  | "help" => some .help
  | _ => none

inductive Shape where
  | endOfOptions
  | long (name : String) (value : Option String)
  | short (letter : Char)
  | plain
deriving DecidableEq

def splitValue (cs : List Char) : String × Option String :=
  match cs.dropWhile (· ≠ '=') with
  | [] => (String.ofList cs, none)
  | _ :: value => (String.ofList (cs.takeWhile (· ≠ '=')), some (String.ofList value))

def Shape.of (arg : String) : Shape :=
  match arg.toList with
  | ['-', '-'] => .endOfOptions
  | '-' :: '-' :: cs => .long (splitValue cs).1 (splitValue cs).2
  | '-' :: c :: _ => .short c
  | _ => .plain

/-! ## Taking arguments in -/

structure Draft where
  input : Option String := none
  output : Option String := none
  inputFormat : Option InputFormat := none
  emit : Option Emit := none
  indent : Option Nat := none
  allowFloating : Bool := false
  includeDisabled : Bool := false
deriving DecidableEq

inductive Pending where
  | input (path : String)
  | output (path : String)
  | setting (s : Setting) (value : Option String)
deriving DecidableEq

def checkPath (path : String) : Except Usage String :=
  if path.isEmpty then .error .invalidValue else .ok path

def checkSetting {α : Type} (old : Option α) (read? : String → Option α) (fault : Usage)
    (value : String) : Except Usage α :=
  match old, read? value with
  | some _, _ => .error .repeated
  | none, none => .error fault
  | none, some a => .ok a

namespace Draft

def set (d : Draft) (s : Setting) (value : String) : Except Usage Draft :=
  match s with
  | .inputFormat => do
    let format ← checkSetting d.inputFormat InputFormat.ofWord? .invalidValue value
    return { d with inputFormat := some format }
  | .emit => do
    let emit ← checkSetting d.emit Emit.ofWord? .invalidValue value
    return { d with emit := some emit }
  | .indent => do
    let indent ← checkSetting d.indent (fun v => (Text.readUInt64? v).map UInt64.toNat)
      .invalidNumber value
    return { d with indent := some indent }

def raise (d : Draft) : Flag → Except Usage Draft
  | .allowFloating =>
    if d.allowFloating then .error .repeated else .ok { d with allowFloating := true }
  | .includeDisabled =>
    if d.includeDisabled then .error .repeated else .ok { d with includeDisabled := true }

def take (d : Draft) : Pending → Except Usage Draft
  | .input path => do
    let path ← checkPath path
    return { d with input := some path }
  | .output path => do
    let path ← checkPath path
    return { d with output := some path }
  | .setting _ none => .error .invalidValue
  | .setting s (some value) => d.set s value

def finish (d : Draft) : Except Usage Request :=
  match d.input with
  | none => .error .missingInput
  | some input =>
    .ok {
      input
      output := d.output
      inputFormat := d.inputFormat.getD .auto
      emit := d.emit.getD (.source .python)
      allowFloating := d.allowFloating
      indent := d.indent.getD 4
      includeDisabled := d.includeDisabled }

end Draft

structure Progress where
  draft : Draft := {}
  pending : Option Pending := none
  files : Nat := 0
  onlyFiles : Bool := false

namespace Progress

def settle (p : Progress) : Except Usage Draft :=
  match p.pending with
  | none => .ok p.draft
  | some pending => p.draft.take pending

def switch (p : Progress) (s : Switch) (value : Option String) : Except Usage Progress :=
  match s, value with
  | .setting s, none => do
    let draft ← p.settle
    return { p with draft, pending := some (.setting s none) }
  | .setting s, some value => do
    let draft ← p.settle
    let draft ← draft.set s value
    return { p with draft, pending := none }
  | .flag f, none => do
    let draft ← p.settle
    let draft ← draft.raise f
    return { p with draft, pending := none }
  | .help, none => do
    let _ ← p.settle
    throw .help
  | _, some _ => .error .flagWithValue

def file (p : Progress) (path : String) : Except Usage Progress :=
  match p.files with
  | 0 => do
    let draft ← p.settle
    return { p with draft, pending := some (.input path), files := 1 }
  | 1 => do
    let draft ← p.settle
    return { p with draft, pending := some (.output path), files := 2 }
  | _ => .error .unknownArgument

/-- Goes on with an argument that is no option: the value of a setting that waits for one, or the name
of a file. -/
def plain (p : Progress) (arg : String) : Except Usage Progress :=
  match p.pending with
  | some (.setting s none) => .ok { p with pending := some (.setting s (some arg)) }
  | _ => p.file arg

def step (p : Progress) (arg : String) : Except Usage Progress :=
  if p.onlyFiles then p.file arg
  else
    match Shape.of arg with
    | .endOfOptions => .ok { p with onlyFiles := true }
    | .long name value =>
      match Switch.ofName? name with
      | some s => p.switch s value
      | none => .error .unknownArgument
    | .short letter => if letter = 'h' then p.switch .help none else .error .unknownArgument
    | .plain => p.plain arg

end Progress

def ofArgs (args : List String) : Except Usage Request := do
  let p ← args.foldlM Progress.step {}
  let draft ← p.settle
  draft.finish

end Request

end Blockwork
