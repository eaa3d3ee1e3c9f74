import Blockwork.Program.Parts
import Blockwork.Text.Ascii

/-! # Identifiers of source texts

Variables have names of any characters. In a source text each gets an identifier of letters, digits and
underscores of ASCII that is no reserved word, and no two variables get one identifier.
-/

namespace Blockwork.Source

set_option autoImplicit false

def isIdentChar (c : Char) : Bool :=
  Text.isLetter c || Text.isDigit c || c = '_'

/-- Puts one underscore for each run of other characters. The flag says that such a run has begun. -/
def squash (inRun : Bool) : List Char → List Char
  | [] => []
  | c :: cs =>
    if isIdentChar c then c :: squash false cs
    else if inRun then squash true cs
    else '_' :: squash true cs

def withStart (cs : List Char) : List Char :=
  match cs with
  | [] => ['_']
  | c :: _ => if Text.isDigit c then '_' :: cs else cs

/-- The identifier of a name; a reserved word gets an underscore behind it. -/
def identifier (reserved : List String) (name : String) : String :=
  let ident := String.ofList (withStart (squash false (Text.strip name.toList)))
  if reserved.contains ident then ident ++ "_" else ident

structure Names where
  reserved : List String
  assigned : List (String × String)

namespace Names

def none : Names := { reserved := [], assigned := [] }

/-- The identifier `base` or, with a number behind it, the first one that is free. Among more
candidates than there are taken identifiers, one is free. -/
def free (taken : List String) (base : String) : String :=
  if taken.contains base then
    match (List.range (taken.length + 1)).find? fun k =>
        !taken.contains (base ++ "_" ++ Text.natText (k + 2)) with
    | some k => base ++ "_" ++ Text.natText (k + 2)
    | .none => base
  else base

def assignFrom (reserved : List String) (done : List (String × String)) :
    List String → List (String × String)
  | [] => done.reverse
  | name :: rest =>
    let ident := free (done.map Prod.snd ++ reserved) (identifier reserved name)
    assignFrom reserved ((name, ident) :: done) rest

def assign (reserved : List String) (vars : List Var) : Names :=
  { reserved, assigned := assignFrom reserved [] (vars.map Var.name) }

def get (names : Names) (name : String) : String :=
  match Dict.get? name names.assigned with
  | some ident => ident
  | .none => identifier names.reserved name

end Names

end Blockwork.Source
