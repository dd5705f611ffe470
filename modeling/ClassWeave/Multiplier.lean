/-!
# Multiplied integers

An obfuscated field holds its value times a constant modulo a power of two. Reading multiplies by
the field's multiplier, storing by the inverse of it; the inverse exists for odd multipliers only
and comes from Euclid's algorithm.
-/

set_option autoImplicit false

namespace ClassWeave.Multiplier

/-- Two neighbours in the row of remainders of `m` and a modulus. Each stands beside a factor that
turns `m` into it, up to a multiple of the modulus. -/
structure Remainders where
  upper : Nat
  upperFactor : Int
  lower : Nat
  lowerFactor : Int
  deriving DecidableEq, Repr

namespace Remainders

def step (r : Remainders) : Remainders where
  upper := r.lower
  upperFactor := r.lowerFactor
  lower := r.upper % r.lower
  lowerFactor := r.upperFactor - (r.upper / r.lower : Nat) * r.lowerFactor

/-- Follows the row to its end; the last remainder but zero is the greatest common divisor. -/
def finish (r : Remainders) : Remainders :=
  if _ : r.lower = 0 then r else finish r.step
termination_by r.lower
decreasing_by exact Nat.mod_lt _ (Nat.pos_of_ne_zero ‹_›)

end Remainders

def start (bits : Nat) (m : Int) : Remainders :=
  ⟨(m % Nat.pow 2 bits).toNat, 1, Nat.pow 2 bits, 0⟩

def inverse (bits : Nat) (m : Int) : Option Int :=
  let last := (start bits m).finish
  if last.upper = 1 then some (last.upperFactor % Nat.pow 2 bits) else none

def inverse32 (m : Int32) : Option Int32 := (inverse 32 m.toInt).map Int32.ofInt

def inverse64 (m : Int64) : Option Int64 := (inverse 64 m.toInt).map Int64.ofInt

def encode32 (value m : Int32) : Option Int32 := (inverse32 m).map (value * ·)

def decode32 (stored m : Int32) : Int32 := stored * m

def encode64 (value m : Int64) : Option Int64 := (inverse64 m).map (value * ·)

def decode64 (stored m : Int64) : Int64 := stored * m

end ClassWeave.Multiplier
