import ClassWeave.Bytes
import ClassWeave.Text.Utf16

/-!
# Modified UTF-8

Each UTF-16 unit is written on its own: one byte for 1 to 0x7F, two bytes for zero and up to
0x7FF, three bytes above. So no byte is zero, and a character above U+FFFF takes six bytes.
Reading goes by the leading bits of each byte alone.
-/

set_option autoImplicit false

namespace ClassWeave.ModifiedUtf8

def encodeUnit (u : Nat) : Bytes :=
  if u ≠ 0 ∧ u < 0x80 then [UInt8.ofNat u]
  else if u < 0x800 then [UInt8.ofNat (0xC0 + u / 64), UInt8.ofNat (0x80 + u % 64)]
  else [UInt8.ofNat (0xE0 + u / 4096), UInt8.ofNat (0x80 + u / 64 % 64),
    UInt8.ofNat (0x80 + u % 64)]

def encode (text : String) : Bytes := (Utf16.encode text.toList).flatMap encodeUnit

def isContinuation (b : UInt8) : Bool := 0x80 ≤ b && b < 0xC0

def unitsAfter : Bytes → List Nat → Option (List Nat)
  | [], read => some read.reverse
  | b :: rest, read =>
    if b < 0x80 then unitsAfter rest (b.toNat :: read)
    else if 0xC0 ≤ b ∧ b < 0xE0 then
      match rest with
      | c :: rest =>
        if isContinuation c then unitsAfter rest ((b.toNat % 32 * 64 + c.toNat % 64) :: read)
        else none
      | _ => none
    else if 0xE0 ≤ b ∧ b < 0xF0 then
      match rest with
      | c :: d :: rest =>
        if isContinuation c && isContinuation d then
          unitsAfter rest
            ((b.toNat % 16 * 4096 + c.toNat % 64 * 64 + d.toNat % 64) :: read)
        else none
      | _ => none
    else none

def decode? (bytes : Bytes) : Option String := do
  let units ← unitsAfter bytes []
  let chars ← Utf16.decode? units
  return String.ofList chars

end ClassWeave.ModifiedUtf8
