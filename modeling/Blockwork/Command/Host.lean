import Blockwork.Dict

/-! # Hosts

A command reads and writes files and says how far it is. It does so through a host, so that it can run in
a folder in memory as well as in the real world.
-/

namespace Blockwork

set_option autoImplicit false

structure Host (m : Type → Type) where
  locate : String → m (Option String)
  read : String → m (Option String)
  /-- Writes a text to a file; tells whether that was possible. -/
  write : (path text : String) → m Bool
  print : String → m Unit
  report : String → m Unit

/-- A folder with its full path, the files in it and below it, and what was said by commands. The name of a
file below it has the names of the folders in front of it, with slashes between them. -/
structure Folder where
  path : String
  files : Dict String
  printed : String := ""
  reported : String := ""

namespace Folder

def parts (path : String) : List String :=
  path.splitOn "/"

/-- Whether names lead to a folder: to this one, or to one with a file below it. -/
def isFolder (f : Folder) (names : List String) : Bool :=
  names.isEmpty || f.files.any fun (file, _) =>
    names.isPrefixOf (parts file) && decide (names.length < (parts file).length)

/-- Follows the parts of a path. Each part is looked up in a folder, so the names before it lead to one.
There is no way out of this folder. -/
def follow (f : Folder) (names : List String) : List String → Option (List String)
  | [] => some names
  | part :: rest =>
    if !f.isFolder names then none
    else if part = "" ∨ part = "." then follow f names rest
    else if part = ".." then
      if names.isEmpty then none else follow f names.dropLast rest
    else follow f (names ++ [part]) rest

def nameAt? (f : Folder) (path : String) : Option String :=
  if path.toList.head? = some '/' then none
  else
    match f.follow [] (parts path) with
    | some names => if f.isFolder names then none else some ("/".intercalate names)
    | none => none

def fullPath (f : Folder) (name : String) : String :=
  f.path ++ "/" ++ name

def textAt? (f : Folder) (full : String) : Option String :=
  (f.files.find? fun (name, _) => f.fullPath name = full).map Prod.snd

def host : Host (StateM Folder) where
  locate path := do
    let f ← get
    return (f.nameAt? path).bind fun name =>
      if Dict.contains name f.files then some (f.fullPath name) else none
  read full := do
    return (← get).textAt? full
  write path text := do
    let f ← get
    match f.nameAt? path with
    | some name => do
      set { f with files := Dict.insert name text f.files }
      return true
    | none => return false
  print text := modify fun f => { f with printed := f.printed ++ text }
  report text := modify fun f => { f with reported := f.reported ++ text }

end Folder

end Blockwork
