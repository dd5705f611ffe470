import ClassWeave.Insn

/-!
# Why a class cannot be written
-/

set_option autoImplicit false

namespace ClassWeave

inductive VerifyFault where
  | emptyBody
  | handlerPastEnd
  | fallsOffEnd
  | initOnInitialized
  | unexpected (op : Opcode)
  | newarrayType (operand : Int32)
  | ret
  | jsr
  | unlabelledNew
  /-- The analysis used up its steps. -/
  | framesUnsettled
  /-- Widening used up its rounds. -/
  | branchesUnsettled
  deriving DecidableEq, Repr

def VerifyFault.text : VerifyFault → String
  | .emptyBody => "empty body"
  | .handlerPastEnd => "exception handler past the end of the code"
  | .fallsOffEnd => "execution falls off the end of the code"
  | .initOnInitialized => "<init> called on an initialized value"
  | .unexpected op => "unexpected " ++ op.mnemonic
  | .newarrayType operand => s!"newarray type {operand}"
  | .ret => "ret is not supported"
  | .jsr => "jsr is not supported"
  | .unlabelledNew => "unlabelled new"
  | .framesUnsettled => "frames do not settle"
  | .branchesUnsettled => "branches do not settle"

inductive WriteError where
  | unboundLabel (label : Label)
  | branchOutOfRange (offset : Int)
  | poolOverflow
  | codeTooLarge (method : String) (length : Nat)
  | stackUnderflow (method : String) (index : Nat)
  | inconsistentStack (method : String) (index : Nat)
  | verify (method : String) (fault : VerifyFault)
  | format (cause : FormatError)
  deriving DecidableEq, Repr

def WriteError.message : WriteError → String
  | .unboundLabel label => "label " ++ label.text ++ " is referenced but never placed"
  | .branchOutOfRange offset => s!"branch offset {offset} does not fit in 16 bits"
  | .poolOverflow => "constant pool exceeds 65535 entries"
  | .codeTooLarge method length => s!"code of {method} is {length} bytes, limit is 65535"
  | .stackUnderflow method index => s!"stack underflow in {method} at instruction {index}"
  | .inconsistentStack method index =>
    s!"inconsistent stack height in {method} at instruction {index}"
  | .verify method fault => method ++ ": " ++ fault.text
  | .format cause => "format error: " ++ cause.message

def orMalformed {α : Type} (r : Except FormatError α) : Except WriteError α :=
  r.mapError .format

end ClassWeave
