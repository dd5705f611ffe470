import ClassWeave.ClassFile
import ClassWeave.Edit
import ClassWeave.Text.Upper

/-!
# Mixins

A mixin names a hooked class and what is to appear on it. The bodies of copied methods come from
its compiled class, where it has one.
-/

set_option autoImplicit false

namespace ClassWeave

structure MixinMethod where
  name : String
  desc : String
  /-- Whether it is abstract; each list of the mixin has its own default. -/
  isAbstract : Option Bool
  deriving DecidableEq, Repr, Inhabited

structure MixinField where
  name : String
  desc : String
  access : Access
  /-- The field hook that it stands for; then no field is added. -/
  shadow : Option String
  /-- The name of a getter; an empty one is made from the field's. -/
  getter : Option String
  setter : Option String
  deriving DecidableEq, Repr, Inhabited

structure HookUse where
  hook : String
  method : MixinMethod
  isStatic : Bool
  deriving DecidableEq, Repr, Inhabited

structure MixinSetter where
  hook : String
  method : MixinMethod
  isStatic : Bool
  encode : Bool
  deriving DecidableEq, Repr, Inhabited

/-- A callback into a hooked method, or into every constructor where `hook` is `<init>`. -/
structure MixinCallback where
  hook : String
  method : MixinMethod
  placement : Placement
  /-- The result of the callback takes the place of the method's own. -/
  replacesResult : Bool
  deriving DecidableEq, Repr

structure Mixin where
  target : String
  compiled : Option ClassFile
  interfaces : List String
  fields : List MixinField
  getters : List HookUse
  setters : List MixinSetter
  invokers : List HookUse
  callbacks : List MixinCallback
  copies : List HookUse
  replacements : List HookUse
  methods : List MixinMethod
  deriving DecidableEq

namespace MixinField

def isStatic (f : MixinField) : Bool := f.access.has Access.staticBit

/-- The explicit name, or `verb` and the field's name with its first character in upper case. -/
def prefixedName (verb explicit field : String) : String :=
  if explicit.isEmpty then verb ++ capitalise field else explicit

def getterName? (f : MixinField) : Option String :=
  f.getter.map fun explicit => prefixedName "get" explicit f.name

def setterName? (f : MixinField) : Option String :=
  f.setter.map fun explicit => prefixedName "set" explicit f.name

end MixinField

end ClassWeave
