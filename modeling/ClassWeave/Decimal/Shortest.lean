/-!
# The shortest decimal that reads back

A positive binary number stands for the interval of reals that round to it. On the decimal grid of
step `10 ^ k` only the two neighbours of the number can be in that interval, since a point of the
grid in the interval has one of them between itself and the number. The coarsest grid with a
neighbour inside gives the fewest digits; of two neighbours inside the nearer is taken, and the
upper one when both are equally near.
-/

set_option autoImplicit false

namespace ClassWeave.Decimal

/-- The value `significand * 2 ^ exponent`, with the least exponent of its format. -/
structure Binary where
  significand : Nat
  exponent : Int
  /-- The significand is the least one of its binade, so the next value below is twice as near. -/
  narrowBelow : Bool
  deriving DecidableEq, Repr

/-- A positive fraction with the ends of its rounding interval over the same denominator. -/
structure Interval where
  low : Nat
  value : Nat
  high : Nat
  denominator : Nat
  closed : Bool
  deriving DecidableEq, Repr

def Binary.interval (b : Binary) : Interval :=
  let shift := b.exponent - 2
  let scale := Nat.pow 2 shift.toNat
  let low := 4 * b.significand - (if b.narrowBelow then 1 else 2)
  { low := low * scale
    value := 4 * b.significand * scale
    high := (4 * b.significand + 2) * scale
    denominator := Nat.pow 2 (-shift).toNat
    closed := b.significand % 2 == 0 }

def Interval.holds (i : Interval) (point : Nat) : Bool :=
  if i.closed then i.low ≤ point && point ≤ i.high else i.low < point && point < i.high

def Interval.inSteps (i : Interval) (k : Int) : Interval :=
  let up := Nat.pow 10 (-k).toNat
  { i with
    low := i.low * up
    value := i.value * up
    high := i.high * up
    denominator := i.denominator * Nat.pow 10 k.toNat }

def Interval.onGrid (i : Interval) (k : Int) : Option Nat :=
  let g := i.inSteps k
  let below := g.value / g.denominator
  let down := g.holds (below * g.denominator)
  let up := g.holds ((below + 1) * g.denominator)
  let upIsNearer := g.denominator ≤ 2 * (g.value - below * g.denominator)
  if up && (!down || upIsNearer) then some (below + 1)
  else if down then some below
  else none

def Interval.firstHit (i : Interval) : Nat → Int → Option (Nat × Int)
  | 0, _ => none
  | fuel + 1, k =>
    match i.onGrid k with
    | some digits => some (digits, k)
    | none => i.firstHit fuel (k - 1)

def digitCount (n : Nat) : Nat := (Nat.toDigits 10 n).length

/-- Digits and exponent of ten of the shortest decimal. The first grid is coarser than the value,
and a grid twenty places finer always has a hit. -/
def Binary.shortest (b : Binary) : Nat × Int :=
  let i := b.interval
  let top : Int := digitCount i.value - digitCount i.denominator + 1
  (i.firstHit 24 top).getD (0, 0)

/-- `digits * 10 ^ exponent` without an exponent: zeros fill the places before the point, and there
is a point only when a digit stands behind it. -/
def positional (digits : Nat) (exponent : Int) : List Char :=
  let text := Nat.toDigits 10 digits
  let places := (-exponent).toNat
  if 0 ≤ exponent then text ++ List.replicate exponent.toNat '0'
  else if places < text.length then
    text.take (text.length - places) ++ '.' :: text.drop (text.length - places)
  else '0' :: '.' :: List.replicate (places - text.length) '0' ++ text

end ClassWeave.Decimal
