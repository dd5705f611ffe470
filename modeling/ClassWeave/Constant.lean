import ClassWeave.Cursor
import ClassWeave.Text.ModifiedUtf8

/-!
# Constants

One entry of a constant pool, in terms of the indices of other entries. Each kind has a tag byte
that starts its stored form. A long or double takes two slots of the pool. What a slot holds is an
`Option Constant`: nothing is the unusable constant, which has no tag and is not stored.
-/

set_option autoImplicit false

namespace ClassWeave

inductive Constant where
  | utf8 (text : String)
  | integer (value : Int32)
  | float (bits : UInt32)
  | long (value : Int64)
  | double (bits : UInt64)
  | type (name : UInt16)
  | string (text : UInt16)
  | field (owner nameAndType : UInt16)
  | method (owner nameAndType : UInt16)
  | interfaceMethod (owner nameAndType : UInt16)
  | nameAndType (name desc : UInt16)
  | methodHandle (kind : UInt8) (reference : UInt16)
  | methodType (desc : UInt16)
  | dynamic (bootstrap nameAndType : UInt16)
  | callSite (bootstrap nameAndType : UInt16)
  | moduleName (name : UInt16)
  | packageName (name : UInt16)
  deriving DecidableEq, Repr, Inhabited

namespace Constant

def isWide : Constant → Bool
  | .long _ | .double _ => true
  | _ => false

def tag : Constant → Nat
  | .utf8 _ => 1
  | .integer _ => 3
  | .float _ => 4
  | .long _ => 5
  | .double _ => 6
  | .type _ => 7
  | .string _ => 8
  | .field _ _ => 9
  | .method _ _ => 10
  | .interfaceMethod _ _ => 11
  | .nameAndType _ _ => 12
  | .methodHandle _ _ => 15
  | .methodType _ => 16
  | .dynamic _ _ => 17
  | .callSite _ _ => 18
  | .moduleName _ => 19
  | .packageName _ => 20

def payload : Constant → List Nat
  | .utf8 text => text.toList.map Char.toNat
  | .integer v => [Bytes.ofInt32 v]
  | .float bits => [bits.toNat]
  | .long v => [Bytes.ofInt64 v]
  | .double bits => [bits.toNat]
  | .type i | .string i | .methodType i | .moduleName i | .packageName i => [i.toNat]
  | .field i j | .method i j | .interfaceMethod i j | .nameAndType i j | .dynamic i j
  | .callSite i j => [i.toNat, j.toNat]
  | .methodHandle kind i => [kind.toNat, i.toNat]

def key (c : Constant) : List Nat := c.tag :: c.payload

/-- The stored form. The length of a text is cut to 16 bits. -/
def encode (c : Constant) : Bytes :=
  UInt8.ofNat c.tag ::
    match c with
    | .utf8 text =>
      let bytes := ModifiedUtf8.encode text
      Bytes.be 2 bytes.length ++ bytes
    | .integer v => Bytes.be 4 (Bytes.ofInt32 v)
    | .float bits => Bytes.be 4 bits.toNat
    | .long v => Bytes.be 8 (Bytes.ofInt64 v)
    | .double bits => Bytes.be 8 bits.toNat
    | .type i | .string i | .methodType i | .moduleName i | .packageName i => Bytes.be 2 i.toNat
    | .field i j | .method i j | .interfaceMethod i j | .nameAndType i j | .dynamic i j
    | .callSite i j => Bytes.be 2 i.toNat ++ Bytes.be 2 j.toNat
    | .methodHandle kind i => kind :: Bytes.be 2 i.toNat

def readPair (make : UInt16 → UInt16 → Constant) : Reader Constant := do
  let i ← Reader.u16
  let j ← Reader.u16
  return make i j

def read (index : UInt16) : Reader Constant := do
  let tag ← Reader.u8
  match tag with
  | 1 =>
    let length ← Reader.u16
    let bytes ← Reader.take length.toNat
    match ModifiedUtf8.decode? bytes with
    | some text => return .utf8 text
    | none => throw (.invalidUtf8 index)
  | 3 => return .integer (← Reader.i32)
  | 4 => return .float (← Reader.u32)
  | 5 => return .long (← Reader.i64)
  | 6 => return .double (← Reader.u64)
  | 7 => return .type (← Reader.u16)
  | 8 => return .string (← Reader.u16)
  | 9 => readPair .field
  | 10 => readPair .method
  | 11 => readPair .interfaceMethod
  | 12 => readPair .nameAndType
  | 15 =>
    let kind ← Reader.u8
    return .methodHandle kind (← Reader.u16)
  | 16 => return .methodType (← Reader.u16)
  | 17 => readPair .dynamic
  | 18 => readPair .callSite
  | 19 => return .moduleName (← Reader.u16)
  | 20 => return .packageName (← Reader.u16)
  | tag => throw (.unknownTag index tag)

end Constant

end ClassWeave
