import ClassWeave.Bytes
import ClassWeave.Path

/-!
# File trees

A directory with everything below it. The entries of a directory stand in the order of their names,
which is the order in which directories are read. `Files` looks paths up in a tree.
-/

set_option autoImplicit false

namespace ClassWeave

inductive FileTree where
  | file (bytes : Bytes)
  | dir (entries : List (String × FileTree))
  deriving Repr, Inhabited

inductive ReadFault where
  | notFound
  | notADirectory
  | isADirectory
  | notUtf8
  | notAnArchive
  | damagedArchive
  deriving DecidableEq, Repr

def ReadFault.message : ReadFault → String
  | .notFound => "No such file or directory (os error 2)"
  | .notADirectory => "Not a directory (os error 20)"
  | .isADirectory => "Is a directory (os error 21)"
  | .notUtf8 => "stream did not contain valid UTF-8"
  | .notAnArchive => "invalid Zip archive: Could not find EOCD"
  | .damagedArchive => "invalid Zip archive: Invalid local file header"

namespace FileTree

def empty : FileTree := .dir []

def entries : FileTree → List (String × FileTree)
  | .file _ => []
  | .dir entries => entries

def isDir : FileTree → Bool
  | .file _ => false
  | .dir _ => true

def alter (name : String) (change : Option FileTree → FileTree) :
    List (String × FileTree) → List (String × FileTree)
  | [] => [(name, change none)]
  | (other, t) :: rest =>
    if name = other then (name, change (some t)) :: rest
    else if name < other then (name, change none) :: (other, t) :: rest
    else (other, t) :: alter name change rest

def insert (t added : FileTree) : List String → FileTree
  | [] => added
  | name :: rest => .dir (alter name (fun old => insert (old.getD empty) added rest) t.entries)

/-- Follows names from `here`; `..` leads back to the directory above, kept in `above`. -/
def follow (here : FileTree) (above : List FileTree) :
    List String → Except ReadFault FileTree
  | [] => .ok here
  | name :: rest =>
    match here with
    | .file _ => .error .notADirectory
    | .dir entries =>
      if name = ".." then
        match above with
        | [] => follow here [] rest
        | up :: above => follow up above rest
      else
        match entries.lookup name with
        | some t => follow t (here :: above) rest
        | none => .error .notFound

def filesHere (base : List String) : List (String × FileTree) → List (List String × Bytes)
  | [] => []
  | (name, .file bytes) :: rest => (base ++ [name], bytes) :: filesHere base rest
  | (_, .dir _) :: rest => filesHere base rest

mutual

/-- Every file below `base`, by the names on the way: those of a directory first, then those of its
subdirectories, the last subdirectory first. -/
def files (base : List String) : FileTree → List (List String × Bytes)
  | .file bytes => [(base, bytes)]
  | .dir entries => filesHere base entries ++ filesBelow base entries

def filesBelow (base : List String) : List (String × FileTree) → List (List String × Bytes)
  | [] => []
  | (_, .file _) :: rest => filesBelow base rest
  | (name, .dir entries) :: rest => filesBelow base rest ++ files (base ++ [name]) (.dir entries)

end

end FileTree

/-- A whole file system, with the directory in which relative paths start. -/
structure Files where
  root : FileTree
  current : List String
  deriving Inhabited

namespace Files

def empty : Files := ⟨FileTree.empty, []⟩

def names (f : Files) (path : String) : List String :=
  if Path.isAbsolute path then Path.names path else f.current ++ Path.names path

def at? (f : Files) (path : String) : Except ReadFault FileTree := do
  let t ← f.root.follow [] (f.names path)
  if Path.endsInDirectory path && !t.isDir then throw .notADirectory
  return t

def read (f : Files) (path : String) : Except ReadFault Bytes := do
  match ← f.at? path with
  | .file bytes => return bytes
  | .dir _ => throw .isADirectory

def readText (f : Files) (path : String) : Except ReadFault String := do
  let bytes ← f.read path
  match String.fromUTF8? (ByteArray.mk bytes.toArray) with
  | some text => return text
  | none => throw .notUtf8

def isDir (f : Files) (path : String) : Bool :=
  match f.at? path with
  | .ok t => t.isDir
  | .error _ => false

/-- Puts a tree behind `names`, seen from the directory `here`, and makes every directory on the
way. The names of `here` stand last first. -/
def place (added : FileTree) (root : FileTree) : List String → List String → FileTree
  | here, [] => root.insert added here.reverse
  | here, name :: rest =>
    if name = ".." then place added root here.tail rest
    else
      let here := name :: here
      let known := match root.follow [] here.reverse with
        | .ok t => t.isDir
        | .error _ => false
      place added (if known then root else root.insert FileTree.empty here.reverse) here rest

def put (f : Files) (path : String) (added : FileTree) : Files :=
  { f with root := place added f.root [] (f.names path) }

end Files

end ClassWeave
