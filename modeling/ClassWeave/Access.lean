import ClassWeave.Bytes.Hex
import ClassWeave.Text.Printable

/-!
# Access and property flags

Sixteen bits; some of them mean one thing on a class or field and another on a method, so three
bits carry two names. The flag text joins names by bars in the order of `Access.names` and gives a
shared bit its first name; a term `0x…` in it stands for raw bits.
-/

set_option autoImplicit false

namespace ClassWeave

structure Access where
  bits : UInt16
  deriving DecidableEq, Repr, Inhabited

namespace Access

def none : Access := ⟨0⟩

abbrev publicBit : UInt16 := 0x0001
abbrev privateBit : UInt16 := 0x0002
abbrev protectedBit : UInt16 := 0x0004
abbrev staticBit : UInt16 := 0x0008
abbrev finalBit : UInt16 := 0x0010
abbrev superBit : UInt16 := 0x0020
abbrev synchronizedBit : UInt16 := 0x0020
abbrev volatileBit : UInt16 := 0x0040
abbrev transientBit : UInt16 := 0x0080
abbrev nativeBit : UInt16 := 0x0100
abbrev interfaceBit : UInt16 := 0x0200
abbrev abstractBit : UInt16 := 0x0400
abbrev syntheticBit : UInt16 := 0x1000

def has (a : Access) (mask : UInt16) : Bool := a.bits &&& mask == mask

def add (a : Access) (mask : UInt16) : Access := ⟨a.bits ||| mask⟩

def remove (a : Access) (mask : UInt16) : Access := ⟨a.bits &&& ~~~mask⟩

def names : List (String × UInt16) := [
  ("PUBLIC", 0x0001), ("PRIVATE", 0x0002), ("PROTECTED", 0x0004), ("STATIC", 0x0008),
  ("FINAL", 0x0010), ("SUPER", 0x0020), ("SYNCHRONIZED", 0x0020), ("VOLATILE", 0x0040),
  ("BRIDGE", 0x0040), ("TRANSIENT", 0x0080), ("VARARGS", 0x0080), ("NATIVE", 0x0100),
  ("INTERFACE", 0x0200), ("ABSTRACT", 0x0400), ("STRICT", 0x0800), ("SYNTHETIC", 0x1000),
  ("ANNOTATION", 0x2000), ("ENUM", 0x4000), ("MODULE", 0x8000)]

def namesOf : List (String × UInt16) → UInt16 → List String
  | [], _ => []
  | (name, mask) :: rest, left =>
    if left &&& mask ≠ 0 then name :: namesOf rest (left &&& ~~~mask) else namesOf rest left

def text (a : Access) : String := " | ".intercalate (namesOf names a.bits)

def readHex (cs : List Char) : Option UInt16 := do
  let digits := match cs with
    | '+' :: rest => rest
    | _ => cs
  let n ← Hex.toNat? digits
  if n < 65536 then some (UInt16.ofNat n) else Option.none

def readFlag (cs : List Char) : Option UInt16 :=
  match trimBlanks cs with
  | '0' :: 'x' :: digits => readHex digits
  | name => names.lookup (String.ofList name)

def splitBars : List Char → List (List Char)
  | [] => [[]]
  | c :: rest =>
    if c = '|' then [] :: splitBars rest
    else match splitBars rest with
      | [] => [[c]]
      | piece :: pieces => (c :: piece) :: pieces

/-- Reads flag text: a blank text has no flags, and each term is a known name or raw bits. -/
def ofText? (text : String) : Option Access :=
  let cs := text.toList
  if (trimBlanks cs).isEmpty then some none
  else do
    let masks ← (splitBars cs).mapM readFlag
    return ⟨masks.foldl (· ||| ·) 0⟩

def keywords (a : Access) (ofMethod : Bool) : String :=
  let words := [
    (true, publicBit, "public"), (true, privateBit, "private"), (true, protectedBit, "protected"),
    (true, staticBit, "static"), (true, finalBit, "final"),
    (ofMethod, synchronizedBit, "synchronized"), (!ofMethod, volatileBit, "volatile"),
    (!ofMethod, transientBit, "transient"), (true, nativeBit, "native"),
    (true, abstractBit, "abstract")]
  " ".intercalate ((words.filter fun w => w.1 && a.has w.2.1).map fun w => w.2.2)

end Access

end ClassWeave
