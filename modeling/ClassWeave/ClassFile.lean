import ClassWeave.Bootstraps
import ClassWeave.Code
import ClassWeave.EditError

/-!
# Classes

The model of a class: its names, members and bodies in symbolic form, other attributes as raw
bytes, and the constant pool that those bytes point into.
-/

set_option autoImplicit false

namespace ClassWeave

structure Attribute where
  name : String
  data : Bytes
  deriving DecidableEq, Repr, Inhabited

structure Field where
  access : Access
  name : String
  desc : String
  attributes : List Attribute
  deriving DecidableEq, Repr, Inhabited

structure Method where
  access : Access
  name : String
  desc : String
  code : Option Code
  attributes : List Attribute
  deriving DecidableEq, Repr, Inhabited

namespace Method

def isStatic (m : Method) : Bool := m.access.has Access.staticBit

def descriptor (m : Method) : Except FormatError MethodDescriptor := MethodDescriptor.parse m.desc

def hasSignature (name desc : String) (m : Method) : Bool := m.name == name && m.desc == desc

end Method

structure ClassFile where
  minor : UInt16
  major : UInt16
  pool : Pool
  access : Access
  name : String
  superName : Option String
  interfaces : List String
  fields : List Field
  methods : List Method
  attributes : List Attribute
  deriving DecidableEq, Inhabited

namespace ClassFile

def new (name : String) (superName : Option String) : ClassFile where
  minor := 0
  major := 52
  pool := Pool.empty
  access := ⟨Access.publicBit ||| Access.superBit⟩
  name := name
  superName := superName
  interfaces := []
  fields := []
  methods := []
  attributes := []

def isInterface (c : ClassFile) : Bool := c.access.has Access.interfaceBit

def field? (c : ClassFile) (name : String) : Option Field := c.fields.find? (·.name == name)

def method? (c : ClassFile) (name desc : String) : Option Method :=
  c.methods.find? (Method.hasSignature name desc)

def overloads (c : ClassFile) (name : String) : List Method :=
  c.methods.filter (·.name == name)

def updateMethod (c : ClassFile) (name desc : String) (f : Method → Method) : ClassFile :=
  let rec update : List Method → List Method
    | [] => []
    | m :: rest => if m.hasSignature name desc then f m :: rest else m :: update rest
  { c with methods := update c.methods }

def addInterface (c : ClassFile) (name : String) : Bool × ClassFile :=
  if c.interfaces.contains name then (false, c)
  else (true, { c with interfaces := c.interfaces ++ [name] })

/-- Appends a field unless one of its name is there, which must have the same descriptor. -/
def addField (c : ClassFile) (f : Field) : Except EditError (Bool × ClassFile) :=
  match c.field? f.name with
  | some existing =>
    if existing.desc = f.desc then .ok (false, c)
    else .error (.fieldConflict c.name f.name existing.desc f.desc)
  | none => .ok (true, { c with fields := c.fields ++ [f] })

def addMethod (c : ClassFile) (m : Method) : Bool × ClassFile :=
  if (c.method? m.name m.desc).isSome then (false, c)
  else (true, { c with methods := c.methods ++ [m] })

/-- Gives an existing method another body, unless it has the same instructions already. The method
is then neither abstract nor native. -/
def replaceBody (c : ClassFile) (name desc : String) (code : Code) :
    Except EditError (Bool × ClassFile) :=
  match c.method? name desc with
  | none => .error (.missingMethod ⟨c.name, name, desc⟩)
  | some m =>
    if (m.code.map Code.insns) = some code.insns then .ok (false, c)
    else .ok (true, c.updateMethod name desc fun m =>
      { m with
        access := m.access.remove (Access.abstractBit ||| Access.nativeBit)
        code := some code })

end ClassFile

end ClassWeave
