import ClassWeave.Access
import ClassWeave.Insn

/-!
# Verification types and frames

A frame describes the locals and the operand stack in front of an instruction. In its compressed
form a long or double is one entry of the locals.
-/

set_option autoImplicit false

namespace ClassWeave

inductive VType where
  | top
  | int
  | float
  | long
  | double
  | null
  | uninitThis
  | object (name : String)
  /-- The fresh object made by the `new` at the label. -/
  | uninit (site : Label)
  deriving DecidableEq, Repr, Inhabited

namespace VType

def ofFieldType (t : FieldType) : VType :=
  match t with
  | .float => .float
  | .long => .long
  | .double => .double
  | .object _ | .array _ => .object t.internalName
  | _ => .int

def isWide : VType → Bool
  | .long | .double => true
  | _ => false

def slots (t : VType) : Nat := if t.isWide then 2 else 1

end VType

structure Frame where
  locals : List VType
  stack : List VType
  deriving DecidableEq, Repr, Inhabited

def objectClass : String := "java/lang/Object"

def entryLocals (owner : String) (access : Access) (name : String) (d : MethodDescriptor) :
    List VType :=
  let params := d.params.map VType.ofFieldType
  if access.has Access.staticBit then params
  else if name == "<init>" && owner != objectClass then .uninitThis :: params
  else .object owner :: params

end ClassWeave
