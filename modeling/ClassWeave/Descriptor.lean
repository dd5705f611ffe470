import ClassWeave.FormatError
import ClassWeave.Opcode

/-!
# Field and method descriptors

A field descriptor is a letter for a primitive type, `L` and a class name up to the next semicolon,
or a bracket in front of the descriptor of an array's element. A method descriptor lists its
parameters in parentheses and then the result, `V` for none. Nothing may follow either.
-/

set_option autoImplicit false

namespace ClassWeave

inductive FieldType where
  | byte
  | char
  | double
  | float
  | int
  | long
  | short
  | boolean
  | object (name : String)
  | array (element : FieldType)
  deriving DecidableEq, Repr

namespace FieldType

def chars : FieldType → List Char
  | .byte => ['B']
  | .char => ['C']
  | .double => ['D']
  | .float => ['F']
  | .int => ['I']
  | .long => ['J']
  | .short => ['S']
  | .boolean => ['Z']
  | .object name => 'L' :: name.toList ++ [';']
  | .array element => '[' :: element.chars

def text (t : FieldType) : String := String.ofList t.chars

def read : List Char → Option (FieldType × List Char)
  | [] => none
  | c :: rest =>
    if c = 'B' then some (.byte, rest)
    else if c = 'C' then some (.char, rest)
    else if c = 'D' then some (.double, rest)
    else if c = 'F' then some (.float, rest)
    else if c = 'I' then some (.int, rest)
    else if c = 'J' then some (.long, rest)
    else if c = 'S' then some (.short, rest)
    else if c = 'Z' then some (.boolean, rest)
    else if c = 'L' then
      let name := rest.takeWhile (· ≠ ';')
      match rest.dropWhile (· ≠ ';') with
      | [] => none
      | _ :: rest => if name.isEmpty then none else some (.object (String.ofList name), rest)
    else if c = '[' then (read rest).map fun (element, rest) => (.array element, rest)
    else none

theorem of_ite_eq {α : Type} {p q : Prop} [Decidable p] {a b x : α}
    (h : (if p then a else b) = x) (yes : a = x → q) (no : b = x → q) : q := by
  split at h
  · exact yes h
  · exact no h

theorem length_lt_of_read {cs rest : List Char} {t : FieldType}
    (h : read cs = some (t, rest)) : rest.length < cs.length := by
  induction cs generalizing t with
  | nil => simp [read] at h
  | cons c tail ih =>
    have primitive {u : FieldType} (h : some (u, tail) = some (t, rest)) :
        rest.length < (c :: tail).length := by
      cases h
      exact Nat.lt_succ_self _
    rw [read] at h
    iterate 8
      refine of_ite_eq h primitive ?_
      clear h
      intro h
    split at h
    · have name_le := (List.dropWhile_sublist (l := tail) (· ≠ ';')).length_le
      dsimp only at h
      split at h
      · cases h
      · rename_i closed
        rw [closed, List.length_cons] at name_le
        split at h
        · cases h
        · cases h
          exact Nat.lt_succ_of_lt name_le
    · split at h
      · obtain ⟨⟨element, rest'⟩, found, same⟩ := Option.map_eq_some_iff.1 h
        cases same
        exact Nat.lt_succ_of_lt (ih found)
      · cases h

def parse (text : String) : Except FormatError FieldType :=
  match read text.toList with
  | some (t, []) => .ok t
  | _ => .error (.badDescriptor text)

def isWide : FieldType → Bool
  | .long | .double => true
  | _ => false

def size (t : FieldType) : UInt16 := if t.isWide then 2 else 1

def isReference : FieldType → Bool
  | .object _ | .array _ => true
  | _ => false

def livesAsInt : FieldType → Bool
  | .byte | .char | .int | .short | .boolean => true
  | _ => false

def internalName : FieldType → String
  | .object name => name
  | t => t.text

/-- Loads, stores and returns come in five kinds, in the order int, long, float, double,
reference. -/
def kindOffset : FieldType → UInt8
  | .long => 1
  | .float => 2
  | .double => 3
  | .object _ | .array _ => 4
  | _ => 0

def loadOpcode (t : FieldType) : Opcode := Opcode.iload + t.kindOffset
def storeOpcode (t : FieldType) : Opcode := Opcode.istore + t.kindOffset
def returnOpcode (t : FieldType) : Opcode := Opcode.ireturn + t.kindOffset

end FieldType

structure MethodDescriptor where
  params : List FieldType
  result : Option FieldType
  deriving DecidableEq, Repr

namespace MethodDescriptor

def chars (d : MethodDescriptor) : List Char :=
  '(' :: d.params.flatMap FieldType.chars ++ ')' ::
    match d.result with
    | some t => t.chars
    | none => ['V']

def text (d : MethodDescriptor) : String := String.ofList d.chars

/-- Reads parameters up to the closing parenthesis behind those in `read`, last first. -/
def readParams (cs : List Char) (read : List FieldType) :
    Option (List FieldType × List Char) :=
  match cs with
  | [] => none
  | c :: rest =>
    if c = ')' then some (read.reverse, rest)
    else match _found : FieldType.read (c :: rest) with
      | some (t, rest) => readParams rest (t :: read)
      | none => none
termination_by cs.length
decreasing_by exact FieldType.length_lt_of_read _found

def parseChars (cs : List Char) : Option MethodDescriptor := do
  match cs with
  | '(' :: rest =>
    let (params, rest) ← readParams rest []
    if rest = ['V'] then return ⟨params, none⟩
    match FieldType.read rest with
    | some (t, []) => return ⟨params, some t⟩
    | _ => none
  | _ => none

def parse (text : String) : Except FormatError MethodDescriptor :=
  match parseChars text.toList with
  | some d => .ok d
  | none => .error (.badDescriptor text)

def paramSlots (d : MethodDescriptor) : UInt16 :=
  d.params.foldl (fun size t => size + t.size) 0

def returnOpcode (d : MethodDescriptor) : Opcode :=
  match d.result with
  | some t => t.returnOpcode
  | none => Opcode.returnVoid

end MethodDescriptor

end ClassWeave
