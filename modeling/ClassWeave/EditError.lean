import ClassWeave.WriteError

/-!
# Why an edit of a class fails
-/

set_option autoImplicit false

namespace ClassWeave

def MemberRef.text (m : MemberRef) : String := m.owner ++ "." ++ m.name ++ m.desc

/-- What does not fit between two descriptors, or between a descriptor and its use. -/
inductive Mismatch where
  | constantType (type : FieldType)
  | notConvertible (given wanted : FieldType)
  | multiplierType (type : FieldType)
  | getterShape
  | setterArguments
  | setterResult
  | argumentCount (target : MemberRef) (taken supplied : Nat)
  | returnsVoid (target : MemberRef)
  | constructorsBefore
  | noBody
  | instanceCallbackOnStatic
  | endBefore
  | endCallbackVoid
  | endOnVoid
  | callbackParams (desc : String)
  | instanceDelegateForStatic
  | delegateParams (desc : String)
  | delegateVoid
  deriving DecidableEq, Repr

def Mismatch.text : Mismatch → String
  | .constantType type => "cannot synthesize a constant of type " ++ type.text
  | .notConvertible given wanted => given.text ++ " is not convertible to " ++ wanted.text
  | .multiplierType type => "multiplier on a field of type " ++ type.text
  | .getterShape => "a getter takes no arguments and returns a value"
  | .setterArguments => "a setter takes exactly one argument"
  | .setterResult => "a setter returns void"
  | .argumentCount target taken supplied =>
    target.text ++ s!" takes {taken} arguments, {supplied} are supplied"
  | .returnsVoid target => target.text ++ " returns void"
  | .constructorsBefore => "constructors only accept after placement"
  | .noBody => "method has no body"
  | .instanceCallbackOnStatic => "instance callback on a static method"
  | .endBefore => "`end` requires after placement"
  | .endCallbackVoid => "`end` callback returns void"
  | .endOnVoid => "`end` on a void method needs a void callback"
  | .callbackParams desc => "callback parameters " ++ desc ++ " are not a prefix"
  | .instanceDelegateForStatic => "instance delegate for a static method"
  | .delegateParams desc => desc ++ " is not a parameter prefix"
  | .delegateVoid => "delegate returns void"

inductive EditError where
  | missingMethod (method : MemberRef)
  | fieldConflict (owner name existing expected : String)
  | descriptorMismatch (context : String) (mismatch : Mismatch)
  | missingSource (name : String)
  | format (cause : FormatError)
  | write (cause : WriteError)
  deriving DecidableEq, Repr

def EditError.message : EditError → String
  | .missingMethod method => "method " ++ method.text ++ " not found"
  | .fieldConflict owner name existing expected =>
    s!"field {owner}.{name} already exists as {existing}, cannot add it as {expected}"
  | .descriptorMismatch context mismatch =>
    "descriptor mismatch in " ++ context ++ ": " ++ mismatch.text
  | .missingSource name => "source class " ++ name ++ " is not part of the batch"
  | .format cause => "format error: " ++ cause.message
  | .write cause => "write error: " ++ cause.message

end ClassWeave
