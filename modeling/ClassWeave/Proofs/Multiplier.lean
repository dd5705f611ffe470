import Mathlib.Algebra.Ring.Int.Parity
import Mathlib.Data.Int.ModEq
import Mathlib.Data.Nat.Prime.Basic
import Mathlib.Tactic.Common
import Mathlib.Tactic.Ring
import ClassWeave.Multiplier

/-!
# Inverses of multipliers

Euclid's row of remainders ends in the greatest common divisor of the multiplier and a power of
two, which is one exactly for odd multipliers. The factor beside it is then the inverse.
-/

set_option autoImplicit false

namespace ClassWeave.Multiplier

namespace Remainders

/-- The factors turn `m` into the remainders they stand beside. -/
structure Follows (modulus : Nat) (m : Int) (r : Remainders) : Prop where
  upper : m * r.upperFactor ≡ r.upper [ZMOD modulus]
  lower : m * r.lowerFactor ≡ r.lower [ZMOD modulus]
  divisor : r.upper.gcd r.lower = m.gcd modulus

variable {modulus : Nat} {m : Int} {r : Remainders}

theorem Follows.step (h : r.Follows modulus m) : r.step.Follows modulus m where
  upper := h.lower
  lower := by
    have quotient : ((r.upper % r.lower : Nat) : Int) =
        r.upper - (r.upper / r.lower : Nat) * r.lower := by
      have split := congrArg Int.ofNat (Nat.div_add_mod' r.upper r.lower)
      simp only [Int.ofNat_eq_natCast, Nat.cast_add, Nat.cast_mul] at split
      omega
    calc m * (r.upperFactor - (r.upper / r.lower : Nat) * r.lowerFactor)
        = m * r.upperFactor - (r.upper / r.lower : Nat) * (m * r.lowerFactor) := by ring
      _ ≡ r.upper - (r.upper / r.lower : Nat) * r.lower [ZMOD modulus] :=
        h.upper.sub (h.lower.mul_left _)
      _ = (r.upper % r.lower : Nat) := quotient.symm
  divisor := by
    rw [← h.divisor, Nat.gcd_comm r.upper, Nat.gcd_rec r.lower, Nat.gcd_comm]
    rfl

theorem Follows.finish (h : r.Follows modulus m) : r.finish.Follows modulus m := by
  fun_induction Remainders.finish r with
  | case1 r ended => exact h
  | case2 r more ih => exact ih h.step

theorem lower_finish (r : Remainders) : r.finish.lower = 0 := by
  fun_induction Remainders.finish r with
  | case1 r ended => exact ended
  | case2 r more ih => exact ih

end Remainders

open Remainders

variable {bits : Nat} {m inv : Int}

theorem toNat_emod_two_pow (bits : Nat) (m : Int) :
    ((m % (2 ^ bits : Nat)).toNat : Int) = m % (2 ^ bits : Nat) :=
  Int.toNat_of_nonneg (Int.emod_nonneg m (Int.natCast_ne_zero.2 (Nat.two_pow_pos bits).ne'))

theorem follows_start (bits : Nat) (m : Int) : (start bits m).Follows (2 ^ bits) m where
  upper := by
    show m * 1 ≡ ((m % (2 ^ bits : Nat)).toNat : Int) [ZMOD _]
    rw [mul_one, toNat_emod_two_pow]
    exact (Int.mod_modEq m _).symm
  lower := by
    show m * 0 ≡ ((2 ^ bits : Nat) : Int) [ZMOD _]
    rw [mul_zero]
    exact (Int.modEq_zero_iff_dvd.2 dvd_rfl).symm
  divisor := by
    show (m % (2 ^ bits : Nat)).toNat.gcd (2 ^ bits) = _
    rw [← Int.gcd_emod m]
    rw [← Int.gcd_natCast_natCast, toNat_emod_two_pow]

theorem upper_finish_start (bits : Nat) (m : Int) :
    (start bits m).finish.upper = m.gcd (2 ^ bits : Nat) := by
  have ends := (follows_start bits m).finish.divisor
  rwa [lower_finish, Nat.gcd_zero_right] at ends

theorem inverse_spec (found : inverse bits m = some inv) : m * inv ≡ 1 [ZMOD 2 ^ bits] := by
  have row := (follows_start bits m).finish.upper
  unfold inverse at found
  dsimp only at found
  split at found
  · rename_i unit
    obtain rfl := Option.some.inj found
    rw [unit] at row
    calc m * ((start bits m).finish.upperFactor % Nat.pow 2 bits)
        ≡ m * (start bits m).finish.upperFactor [ZMOD 2 ^ bits] := by
          exact_mod_cast (Int.mod_modEq _ _).mul_left m
      _ ≡ 1 [ZMOD 2 ^ bits] := by exact_mod_cast row
  · cases found

theorem isSome_inverse (positive : bits ≠ 0) (m : Int) : (inverse bits m).isSome ↔ Odd m := by
  have unit : (inverse bits m).isSome ↔ m.gcd (2 ^ bits : Nat) = 1 := by
    unfold inverse
    rw [← upper_finish_start]
    dsimp only
    split <;> simp [*]
  have coprime : m.gcd (2 ^ bits : Nat) = 1 ↔ m.natAbs.Coprime (2 ^ bits) := Iff.rfl
  rw [unit, coprime, Nat.coprime_pow_right_iff (Nat.pos_of_ne_zero positive),
    Nat.coprime_two_right, Int.natAbs_odd]

/-! In a machine word the inverse is the word's own. -/

theorem ofInt32_congr {a b : Int} (same : a ≡ b [ZMOD 2 ^ 32]) :
    Int32.ofInt a = Int32.ofInt b := by
  rw [Int32.ofInt_eq_iff_bmod_eq_toInt, Int32.toInt_ofInt, ← Int.emod_bmod,
    ← Int.emod_bmod (x := b)]
  exact congrArg (Int.bmod · (2 ^ 32)) same

theorem ofInt64_congr {a b : Int} (same : a ≡ b [ZMOD 2 ^ 64]) :
    Int64.ofInt a = Int64.ofInt b := by
  rw [Int64.ofInt_eq_iff_bmod_eq_toInt, Int64.toInt_ofInt, ← Int.emod_bmod,
    ← Int.emod_bmod (x := b)]
  exact congrArg (Int.bmod · (2 ^ 64)) same

theorem mul_inverse32 {m inv : Int32} (found : inverse32 m = some inv) : m * inv = 1 := by
  obtain ⟨factor, unit, rfl⟩ := Option.map_eq_some_iff.1 found
  calc m * Int32.ofInt factor = Int32.ofInt (m.toInt * factor) := by
        rw [Int32.ofInt_mul, Int32.ofInt_toInt]
    _ = Int32.ofInt 1 := ofInt32_congr (inverse_spec unit)
    _ = 1 := rfl

theorem mul_inverse64 {m inv : Int64} (found : inverse64 m = some inv) : m * inv = 1 := by
  obtain ⟨factor, unit, rfl⟩ := Option.map_eq_some_iff.1 found
  calc m * Int64.ofInt factor = Int64.ofInt (m.toInt * factor) := by
        rw [Int64.ofInt_mul, Int64.ofInt_toInt]
    _ = Int64.ofInt 1 := ofInt64_congr (inverse_spec unit)
    _ = 1 := rfl

theorem isSome_inverse32 (m : Int32) : (inverse32 m).isSome ↔ Odd m.toInt := by
  rw [inverse32, Option.isSome_map]
  exact isSome_inverse (by decide) m.toInt

theorem isSome_inverse64 (m : Int64) : (inverse64 m).isSome ↔ Odd m.toInt := by
  rw [inverse64, Option.isSome_map]
  exact isSome_inverse (by decide) m.toInt

theorem odd_toInt32 (m : Int64) : Odd m.toInt32.toInt ↔ Odd m.toInt := by
  rw [Int64.toInt_toInt32, Int.odd_iff, Int.odd_iff, Int.bmod_def]
  split <;> omega

end ClassWeave.Multiplier
