import ClassWeave.Decimal.Shortest

/-!
# The text of a floating-point constant

Constants are kept as raw bits. Their text has the fewest digits that read back, always in
positional form, with a sign wherever the sign bit is set and no fraction for a whole number.
-/

set_option autoImplicit false

namespace ClassWeave.Decimal

structure FloatFormat where
  fractionBits : Nat
  exponentBits : Nat

def single : FloatFormat := ⟨23, 8⟩
def double : FloatFormat := ⟨52, 11⟩

namespace FloatFormat

def fraction (f : FloatFormat) (bits : Nat) : Nat := bits % Nat.pow 2 f.fractionBits
def field (f : FloatFormat) (bits : Nat) : Nat :=
  bits / Nat.pow 2 f.fractionBits % Nat.pow 2 f.exponentBits
def isNegative (f : FloatFormat) (bits : Nat) : Bool :=
  bits / Nat.pow 2 (f.fractionBits + f.exponentBits) % 2 == 1

def magnitude (f : FloatFormat) (bits : Nat) : Binary :=
  let least : Int := 2 - Nat.pow 2 (f.exponentBits - 1) - f.fractionBits
  if f.field bits = 0 then ⟨f.fraction bits, least, false⟩
  else
    { significand := Nat.pow 2 f.fractionBits + f.fraction bits
      exponent := least + (f.field bits - 1)
      narrowBelow := f.fraction bits == 0 && 1 < f.field bits }

def text (f : FloatFormat) (bits : Nat) : String :=
  let sign := if f.isNegative bits then "-" else ""
  if f.field bits = Nat.pow 2 f.exponentBits - 1 then
    if f.fraction bits = 0 then sign ++ "inf" else "NaN"
  else
    let b := f.magnitude bits
    if b.significand = 0 then sign ++ "0"
    else
      let (digits, exponent) := b.shortest
      sign ++ String.ofList (positional digits exponent)

end FloatFormat

end ClassWeave.Decimal
