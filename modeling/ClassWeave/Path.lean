/-!
# Paths

Names with slashes between them. A path that starts with a slash is absolute.
-/

set_option autoImplicit false

namespace ClassWeave.Path

def splitSlashes : List Char → List (List Char)
  | [] => [[]]
  | c :: rest =>
    if c = '/' then [] :: splitSlashes rest
    else match splitSlashes rest with
      | [] => [[c]]
      | piece :: pieces => (c :: piece) :: pieces

def names (path : String) : List String :=
  ((splitSlashes path.toList).map String.ofList).filter fun name => name ≠ "" && name ≠ "."

def isAbsolute (path : String) : Bool := path.toList.head? == some '/'

def join (base path : String) : String :=
  if base.isEmpty || isAbsolute path then path
  else if base.toList.getLast? = some '/' then base ++ path
  else base ++ "/" ++ path

def isFiller (piece : List Char) : Bool := piece.isEmpty || piece == ['.']

/-- The directory that a path stands in, as text. What leads nowhere is left out at its end. -/
def parent (path : String) : String :=
  let pieces := splitSlashes path.toList
  match pieces.reverse.dropWhile isFiller with
  | [] => ""
  | _ :: above =>
    match above.dropWhile isFiller with
    | [] => if isAbsolute path then "/" else if pieces.head? = some ['.'] then "." else ""
    | above => "/".intercalate (above.reverse.map String.ofList)

def endsInDirectory (path : String) : Bool :=
  (splitSlashes path.toList).getLast?.any isFiller

/-- What stands behind the last dot of a name, unless the name starts with that dot. -/
def extension? (name : String) : Option String :=
  let reversed := name.toList.reverse
  match reversed.dropWhile (· ≠ '.') with
  | [] | [_] => none
  | _ => if name = ".." then none else some (String.ofList (reversed.takeWhile (· ≠ '.')).reverse)

def extensionOf (path : String) : Option String := (names path).getLast?.bind extension?

end ClassWeave.Path
