import ClassWeave.Json

/-!
# The range of numbers

A number is taken as the leading digits that a 64-bit word holds, times a power of ten. Both are
rounded to floats of 64 bits, and so is their product, which may not become infinite. Only a
positive power can lead there.
-/

set_option autoImplicit false

namespace ClassWeave.Json

def digit (c : Char) : Nat := c.toNat - 48

def digitsValue (cs : List Char) : Nat := cs.foldl (fun n c => n * 10 + digit c) 0

/-- Extends `n` by digits as long as a 64-bit word holds it, and gives the digits left over. -/
def fillWord (n : Nat) : List Char → Nat × List Char
  | [] => (n, [])
  | c :: rest =>
    if n * 10 + digit c < 18446744073709551616 then fillWord (n * 10 + digit c) rest
    else (n, c :: rest)

/-- The nearest number of 53 binary digits with zeros behind them; a tie goes to the even one. -/
def toFloatGrid (n : Nat) : Nat :=
  let step := Nat.pow 2 (n.log2 - 52)
  let below := n / step
  let above := 2 * (n % step) > step || (2 * (n % step) == step && below % 2 == 1)
  (if above then below + 1 else below) * step

def floatBound : Nat := Nat.pow 2 1024 - Nat.pow 2 970

/-- Whether the number with these digits before and behind the point is too large for a float. -/
def isOutOfRange (whole fraction : List Char) (power : Int) : Bool :=
  let (n, left) := fillWord 0 whole
  let (n, cut) := fillWord n fraction
  let power := power + left.length - (fraction.length - cut.length)
  if n = 0 || power < 0 then false
  else 308 < power || floatBound ≤ toFloatGrid n * toFloatGrid (Nat.pow 10 power.toNat)

end ClassWeave.Json
