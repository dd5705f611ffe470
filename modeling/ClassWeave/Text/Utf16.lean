/-!
# UTF-16 units

A character below U+10000 is one unit; any other is a high surrogate followed by a low one. A list
of units is text exactly when every surrogate stands in such a pair.
-/

set_option autoImplicit false

namespace ClassWeave.Utf16

def ofChar (c : Char) : List Nat :=
  if c.toNat < 0x10000 then [c.toNat]
  else [0xD800 + (c.toNat - 0x10000) / 0x400, 0xDC00 + (c.toNat - 0x10000) % 0x400]

def encode (cs : List Char) : List Nat := cs.flatMap ofChar

def decodeAfter : List Nat → List Char → Option (List Char)
  | [], read => some read.reverse
  | u :: us, read =>
    if u < 0xD800 ∨ 0xDFFF < u then decodeAfter us (Char.ofNat u :: read)
    else if 0xDBFF < u then none
    else match us with
      | [] => none
      | v :: vs =>
        if 0xDC00 ≤ v ∧ v ≤ 0xDFFF then
          decodeAfter vs (Char.ofNat (0x10000 + (u - 0xD800) * 0x400 + (v - 0xDC00)) :: read)
        else none

def decode? (units : List Nat) : Option (List Char) := decodeAfter units []

end ClassWeave.Utf16
