import ClassWeave.Bytes.Hex

/-!
# Why bytes are not a class file

One constructor for each cause. Offsets count from the start of the data in which the fault was
found: the file, a code array or an attribute body.
-/

set_option autoImplicit false

namespace ClassWeave

inductive ConstantRole where
  | utf8
  | className
  | nameAndType
  | member
  | field
  | method
  | methodHandle
  | loadable
  | callSite
  deriving DecidableEq, Repr

def ConstantRole.text : ConstantRole → String
  | .utf8 => "Utf8"
  | .className => "Class"
  | .nameAndType => "NameAndType"
  | .member => "member reference"
  | .field => "Fieldref"
  | .method => "Methodref"
  | .methodHandle => "MethodHandle"
  | .loadable => "loadable constant"
  | .callSite => "InvokeDynamic"

/-- Faults in the structure of one attribute, or of the file as a whole. -/
inductive AttributeFault where
  | fileTrailing (count : Nat)
  | bootstrapTrailing (count : Nat)
  | nestedTooDeep (limit : Nat)
  | noBootstrap (index : UInt16)
  | switchBounds (pc : Nat) (low high : Int32)
  | switchPairs (pc : Nat) (count : Int32)
  | exceptionRange (start finish handler length : Nat)
  | frameOutside (pc length : Nat)
  | notABoundary (pc : Nat)
  | unknownTypeTag (tag : UInt8)
  | chopTooLong (count available : Nat)
  | reservedFrame (tag : UInt8)
  deriving DecidableEq, Repr

namespace AttributeFault

def place : AttributeFault → String
  | .fileTrailing _ => "ClassFile"
  | .bootstrapTrailing _ | .nestedTooDeep _ | .noBootstrap _ => "BootstrapMethods"
  | .switchBounds .. | .switchPairs .. | .exceptionRange .. | .frameOutside ..
  | .notABoundary _ => "Code"
  | .unknownTypeTag _ | .chopTooLong .. | .reservedFrame _ => "StackMapTable"

def detail : AttributeFault → String
  | .fileTrailing count | .bootstrapTrailing count => s!"{count} trailing bytes"
  | .nestedTooDeep limit => s!"dynamic constants nest deeper than {limit}"
  | .noBootstrap index => s!"no bootstrap method {index}"
  | .switchBounds pc low high => s!"tableswitch at {pc} has high {high} below low {low}"
  | .switchPairs pc count => s!"lookupswitch at {pc} has {count} pairs"
  | .exceptionRange start finish handler length =>
    s!"exception range {start}..{finish} -> {handler} outside {length}"
  | .frameOutside pc length => s!"frame at {pc} outside {length}"
  | .notABoundary pc => s!"offset {pc} is not an instruction boundary"
  | .unknownTypeTag tag => s!"unknown verification type tag {tag}"
  | .chopTooLong count available => s!"chop of {count} locals from {available}"
  | .reservedFrame tag => s!"reserved frame type {tag}"

end AttributeFault

inductive FormatError where
  | unexpectedEnd (offset : Nat)
  | badMagic (found : UInt32)
  | invalidIndex (index : UInt16)
  | unknownTag (index : UInt16) (tag : UInt8)
  | wrongConstant (index : UInt16) (expected : ConstantRole)
  | invalidUtf8 (index : UInt16)
  | unknownOpcode (pc : Nat) (opcode : UInt8)
  | invalidBranch (pc : Nat) (target : Int)
  | badDescriptor (text : String)
  | badAttribute (fault : AttributeFault)
  deriving DecidableEq, Repr

def FormatError.message : FormatError → String
  | .unexpectedEnd offset => s!"unexpected end of data at offset {offset}"
  | .badMagic found => "bad magic number 0x" ++ Hex.ofNatPadded 8 found.toNat
  | .invalidIndex index => s!"invalid constant pool index {index}"
  | .unknownTag index tag => s!"unknown constant pool tag {tag} at index {index}"
  | .wrongConstant index expected => s!"constant {index} is not a " ++ expected.text
  | .invalidUtf8 index => s!"invalid modified UTF-8 in constant {index}"
  | .unknownOpcode pc opcode =>
    "unknown opcode 0x" ++ Hex.ofNatPadded 2 opcode.toNat ++ s!" at pc {pc}"
  | .invalidBranch pc target =>
    s!"branch at pc {pc} targets {target}, outside the code array"
  | .badDescriptor text => "malformed descriptor `" ++ text ++ "`"
  | .badAttribute fault => "malformed " ++ fault.place ++ " attribute: " ++ fault.detail

end ClassWeave
