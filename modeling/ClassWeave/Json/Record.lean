import ClassWeave.Json

/-!
# Records as JSON

A record is an object with the fields as members, or an array with them in order. Members of other
names are ignored, a field that is given twice is refused, and fields with a default may be left
out.
-/

set_option autoImplicit false

namespace ClassWeave.Json

abbrev Record := String → Option Json

def record? (names : List String) : Json → Option Record
  | .obj members =>
    if names.all fun name => (members.filter fun m => m.1 == name).length ≤ 1 then
      some fun name => members.lookup name
    else none
  | .arr items =>
    if items.length ≤ names.length then some fun name => (names.zip items).lookup name else none
  | _ => none

def text? : Json → Option String
  | .str s => some s
  | _ => none

def bool? : Json → Option Bool
  | .bool b => some b
  | _ => none

def isNull : Json → Bool
  | .null => true
  | _ => false

def isNullOrEmpty : Json → Bool
  | .null | .obj [] => true
  | _ => false

def int64? : Json → Option Int64
  | .int n => if -9223372036854775808 ≤ n ∧ n ≤ 9223372036854775807 then some (.ofInt n) else none
  | _ => none

def list? {α : Type} (item? : Json → Option α) : Json → Option (List α)
  | .arr items => items.mapM item?
  | _ => none

def nullable? {α : Type} (value? : Json → Option α) : Json → Option (Option α)
  | .null => some none
  | v => (value? v).map some

namespace Record

def required {α : Type} (r : Record) (name : String) (value? : Json → Option α) : Option α :=
  (r name).bind value?

def optional {α : Type} (r : Record) (name : String) (value? : Json → Option α) (default : α) :
    Option α :=
  match r name with
  | some v => value? v
  | none => some default

end Record

def memberIfSome {α : Type} (name : String) (json : α → Json) : Option α → List (String × Json)
  | some a => [(name, json a)]
  | none => []

def ofList {α : Type} (json : α → Json) (l : List α) : Json := .arr (l.map json)

end ClassWeave.Json
