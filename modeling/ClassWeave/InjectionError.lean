import ClassWeave.ClassPath
import ClassWeave.EditError
import ClassWeave.ResolveError

/-!
# Why an injection fails
-/

set_option autoImplicit false

namespace ClassWeave

inductive InjectionError where
  | resolve (cause : ResolveError)
  | classPath (cause : ClassPathError)
  | malformed (name : String) (cause : FormatError)
  | edit (name editName : String) (cause : EditError)
  | write (name : String) (cause : WriteError)
  deriving DecidableEq, Repr

def InjectionError.message : InjectionError → String
  | .resolve cause => "resolution failed: " ++ cause.message
  | .classPath cause => "classpath: " ++ cause.message
  | .malformed name cause => s!"class {name} is malformed: " ++ cause.message
  | .edit name editName cause => s!"adapter {editName} failed on {name}: " ++ cause.message
  | .write name cause => s!"could not serialize {name}: " ++ cause.message

end ClassWeave
