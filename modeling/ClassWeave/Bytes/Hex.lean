import ClassWeave.Bytes

/-!
# Hexadecimal text

Two digits a byte. Reading takes digits of either case and refuses an odd count.
-/

set_option autoImplicit false

namespace ClassWeave.Hex

def digit (n : Nat) : Char := Char.ofNat (if n < 10 then 48 + n else 87 + n)

def value? (c : Char) : Option Nat :=
  if '0' ≤ c ∧ c ≤ '9' then some (c.toNat - 48)
  else if 'a' ≤ c ∧ c ≤ 'f' then some (c.toNat - 87)
  else if 'A' ≤ c ∧ c ≤ 'F' then some (c.toNat - 55)
  else none

def ofNat (n : Nat) : String := String.ofList (Nat.toDigits 16 n)

def ofNatPadded (width n : Nat) : String :=
  let digits := Nat.toDigits 16 n
  String.ofList (List.replicate (width - digits.length) '0' ++ digits)

def toNat? (cs : List Char) : Option Nat :=
  if cs.isEmpty then none
  else cs.foldlM (fun acc c => (value? c).map (acc * 16 + ·)) 0

def encode (bytes : Bytes) : String :=
  bytes.foldl (fun s b => (s.push (digit (b.toNat / 16))).push (digit (b.toNat % 16))) ""

def decodeChars : List Char → List UInt8 → Option Bytes
  | [], read => some read.reverse
  | [_], _ => none
  | hi :: lo :: rest, read =>
    match value? hi, value? lo with
    | some h, some l => decodeChars rest (UInt8.ofNat (h * 16 + l) :: read)
    | _, _ => none

def decode? (text : String) : Option Bytes := decodeChars text.toList []

end ClassWeave.Hex
