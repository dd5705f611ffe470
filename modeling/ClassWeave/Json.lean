import ClassWeave.Text.Utf16

/-!
# JSON

Values of the data format with objects as lists of members in the order in which they stand. Whole
numbers are kept exactly; any other number is kept as the text it was written in, and so is a
negative zero, which is no whole number. What is well formed but stands for no value is void: it can
be passed over, but not be used.
-/

set_option autoImplicit false

namespace ClassWeave

inductive Json where
  | null
  | bool (value : Bool)
  | int (value : Int)
  | real (text : String)
  | str (value : String)
  | arr (items : List Json)
  | obj (members : List (String × Json))
  /-- A string with half a surrogate pair, an object with such a name, or a number out of range. -/
  | void
  deriving Repr, Inhabited

namespace Json

def member? (name : String) : Json → Option Json
  | .obj members => members.reverse.lookup name
  | _ => none

mutual

/-- Whether a value holds nothing void, and at most `levels` arrays and objects in each other. -/
def isUsable : Nat → Json → Bool
  | _, .void => false
  | 0, .arr _ | 0, .obj _ => false
  | levels + 1, .arr items => allUsable levels items
  | levels + 1, .obj members => membersUsable levels members
  | _, _ => true

def allUsable (levels : Nat) : List Json → Bool
  | [] => true
  | v :: rest => isUsable levels v && allUsable levels rest

def membersUsable (levels : Nat) : List (String × Json) → Bool
  | [] => true
  | (_, v) :: rest => isUsable levels v && membersUsable levels rest

end

end Json

end ClassWeave
