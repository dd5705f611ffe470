import ClassWeave.Descriptor

/-!
# Why a mixin does not resolve

Every cause is a mistake in the hook table or in the mixin's description.
-/

set_option autoImplicit false

namespace ClassWeave

inductive DeclKind where
  | getter
  | setter
  | invoke
  | inject
  | replace
  | method
  | copy
  deriving DecidableEq, Repr

def DeclKind.text : DeclKind → String
  | .getter => "getter"
  | .setter => "setter"
  | .invoke => "invoke"
  | .inject => "inject"
  | .replace => "replace"
  | .method => "method"
  | .copy => "copy"

/-- What does not fit between a declared method and the hooked one. -/
inductive HookMismatch where
  | argumentCount (hook desc : String) (taken supplied : Nat)
  | constructorsBefore
  | endBefore
  | endOnConstructor
  | callbackParams
  | endVoid
  | standIn (desc hooked : String)
  deriving DecidableEq, Repr

def HookMismatch.text : HookMismatch → String
  | .argumentCount hook desc taken supplied =>
    s!"{hook}{desc} takes {taken} arguments, {supplied} are supplied"
  | .constructorsBefore => "constructors only accept after placement"
  | .endBefore => "`end` requires after placement"
  | .endOnConstructor => "`end` cannot replace a constructor result"
  | .callbackParams => "callback parameters are not a prefix of the hooked method's"
  | .endVoid => "`end` callback must return a value"
  | .standIn desc hooked => desc ++ " cannot stand in for " ++ hooked

inductive ResolveError where
  | missingClassHook (name : String)
  | missingFieldHook (owner name : String)
  | missingStaticFieldHook (name : String)
  | missingMethodHook (owner name : String)
  | missingStaticMethodHook (name : String)
  | notAbstract (kind : DeclKind) (mixin method : String)
  | notConcrete (kind : DeclKind) (mixin method : String)
  | multiplierType (field desc : String) (multiplier : Int64)
  | evenMultiplier (field : String) (multiplier : Int64)
  | staticInvoker (mixin method : String)
  | instanceElsewhere (context target owner : String)
  | missingCompiledClass (mixin : String)
  | missingCompiledMethod (owner name desc : String)
  | descriptorMismatch (context : String) (mismatch : HookMismatch)
  | format (cause : FormatError)
  deriving DecidableEq, Repr

def ResolveError.message : ResolveError → String
  | .missingClassHook name => "no class hook found for " ++ name
  | .missingFieldHook owner name => s!"no field hook found for {owner}.{name}"
  | .missingStaticFieldHook name => "no static field hook found for " ++ name
  | .missingMethodHook owner name => s!"no method hook found for {owner}.{name}"
  | .missingStaticMethodHook name => "no static method hook found for " ++ name
  | .notAbstract kind mixin method => kind.text ++ s!" method {mixin}.{method} must be abstract"
  | .notConcrete kind mixin method => kind.text ++ s!" method {mixin}.{method} must have a body"
  | .multiplierType field desc multiplier =>
    s!"multiplier {multiplier} on {field} needs an int or long field, found {desc}"
  | .evenMultiplier field multiplier =>
    s!"multiplier {multiplier} on {field} is even and has no inverse"
  | .staticInvoker mixin method => s!"static invocation shim {mixin}.{method} is not supported"
  | .instanceElsewhere context target owner =>
    s!"{context}: an instance replacement must live on {target}, not {owner} is not supported"
  | .missingCompiledClass mixin => s!"mixin {mixin} has no compiled class attached"
  | .missingCompiledMethod owner name desc => s!"mixin class {owner} has no method {name}{desc}"
  | .descriptorMismatch context mismatch => context ++ ": " ++ mismatch.text
  | .format cause => "format error: " ++ cause.message

end ClassWeave
