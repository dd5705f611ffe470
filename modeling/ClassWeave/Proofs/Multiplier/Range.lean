import Mathlib.Algebra.Order.Ring.Abs
import Mathlib.Tactic.Linarith
import ClassWeave.Proofs.Multiplier

/-!
# Euclid's row in 128-bit registers

The row of remainders runs in signed 128-bit registers. The factors of two neighbours have opposite
signs, and crosswise they weigh the remainders up to the modulus; nothing on the way is therefore
larger than the modulus, and the registers never overflow. Multiplying by a multiplier and by its
inverse then undo each other in both word widths.
-/

set_option autoImplicit false

namespace ClassWeave.Multiplier

def wide? (x : Int) : Option Int := if -2 ^ 127 ≤ x ∧ x < 2 ^ 127 then some x else none

theorem wide?_eq_some {x : Int} (low : -2 ^ 126 ≤ x) (high : x ≤ 2 ^ 126) : wide? x = some x :=
  if_pos ⟨by omega, by omega⟩

theorem eq_of_wide? {x y : Int} (fits : wide? x = some y) : y = x := by
  unfold wide? at fits
  split at fits
  · exact (Option.some.inj fits).symm
  · cases fits

/-- Two neighbours in the row, as the registers hold them. -/
structure Registers where
  upper : Int
  upperFactor : Int
  lower : Int
  lowerFactor : Int
  deriving DecidableEq, Repr

namespace Registers

def step? (r : Registers) : Option Registers := do
  let quotient ← wide? (r.upper.tdiv r.lower)
  let multiple ← wide? (quotient * r.lower)
  let lower ← wide? (r.upper - multiple)
  let share ← wide? (quotient * r.lowerFactor)
  let lowerFactor ← wide? (r.upperFactor - share)
  return ⟨r.lower, r.lowerFactor, lower, lowerFactor⟩

theorem step?_eq_some_iff {r next : Registers} : r.step? = some next ↔
    ∃ quotient, wide? (r.upper.tdiv r.lower) = some quotient ∧
    ∃ multiple, wide? (quotient * r.lower) = some multiple ∧
    ∃ lower, wide? (r.upper - multiple) = some lower ∧
    ∃ share, wide? (quotient * r.lowerFactor) = some share ∧
    ∃ lowerFactor, wide? (r.upperFactor - share) = some lowerFactor ∧
      ⟨r.lower, r.lowerFactor, lower, lowerFactor⟩ = next := by
  simp only [step?, Option.bind_eq_bind, Option.pure_def, Option.bind_eq_some_iff,
    Option.some.injEq]

theorem lower_of_step? {r next : Registers} (stepped : r.step? = some next) :
    next.lower = r.upper.tmod r.lower := by
  obtain ⟨quotient, fit, multiple, fits, lower, fits', -, -, -, -, rfl⟩ :=
    step?_eq_some_iff.1 stepped
  obtain rfl := eq_of_wide? fit
  obtain rfl := eq_of_wide? fits
  obtain rfl := eq_of_wide? fits'
  rw [Int.tmod_def, mul_comm r.lower]

theorem natAbs_lower_lt {r next : Registers} (more : r.lower ≠ 0) (stepped : r.step? = some next) :
    next.lower.natAbs < r.lower.natAbs := by
  rw [lower_of_step? stepped, Int.natAbs_tmod]
  exact Nat.mod_lt _ (Int.natAbs_pos.2 more)

def finish? (r : Registers) : Option Registers :=
  if _ : r.lower = 0 then some r else
    match _ : r.step? with
    | none => none
    | some next => finish? next
termination_by r.lower.natAbs
decreasing_by exact natAbs_lower_lt ‹_› ‹_›

end Registers

def inverse? (bits : Nat) (m : Int) : Option (Option Int) := do
  let modulus ← wide? (2 ^ bits)
  let first ← wide? (m % modulus)
  let last ← Registers.finish? ⟨first, 1, modulus, 0⟩
  if last.upper = 1 then
    let factor ← wide? (last.upperFactor % modulus)
    return some factor
  else
    return none

namespace Remainders

def registers (r : Remainders) : Registers := ⟨r.upper, r.upperFactor, r.lower, r.lowerFactor⟩

def Opposite (a b : Int) : Prop := 0 ≤ a ∧ b ≤ 0 ∨ a ≤ 0 ∧ 0 ≤ b

theorem Opposite.neg_mul {a b : Int} (h : Opposite a b) (q : Nat) :
    0 ≤ a ∧ 0 ≤ -(q * b) ∨ a ≤ 0 ∧ -(q * b) ≤ 0 := by
  rcases h with ⟨above, below⟩ | ⟨below, above⟩
  · exact .inl ⟨above, neg_nonneg.2 (mul_nonpos_of_nonneg_of_nonpos q.cast_nonneg below)⟩
  · exact .inr ⟨below, neg_nonpos.2 (mul_nonneg q.cast_nonneg above)⟩

theorem Opposite.sub_mul {a b : Int} (h : Opposite a b) (q : Nat) : Opposite b (a - q * b) := by
  rcases h with ⟨above, below⟩ | ⟨below, above⟩
  · exact .inr ⟨below, by linarith [mul_nonpos_of_nonneg_of_nonpos q.cast_nonneg below]⟩
  · exact .inl ⟨above, by linarith [mul_nonneg (Int.natCast_nonneg q) above]⟩

theorem Opposite.natAbs_sub_mul {a b : Int} (h : Opposite a b) (q : Nat) :
    (a - q * b).natAbs = a.natAbs + q * b.natAbs := by
  have product : (-(q * b)).natAbs = q * b.natAbs := by
    rw [Int.natAbs_neg, Int.natAbs_mul, Int.natAbs_natCast]
  rw [sub_eq_add_neg, ← product]
  rcases h.neg_mul q with ⟨left, right⟩ | ⟨left, right⟩
  · exact Int.natAbs_add_of_nonneg left right
  · exact Int.natAbs_add_of_nonpos left right

/-- The remainders weighed crosswise by the sizes of the factors make up the modulus. -/
structure Bounded (modulus : Nat) (r : Remainders) : Prop where
  opposite : Opposite r.upperFactor r.lowerFactor
  cross : r.upper * r.lowerFactor.natAbs + r.lower * r.upperFactor.natAbs = modulus
  upper_le : r.upper ≤ modulus
  lower_le : r.lower ≤ modulus

variable {modulus : Nat} {r : Remainders}

theorem Bounded.step (h : r.Bounded modulus) : r.step.Bounded modulus where
  opposite := h.opposite.sub_mul (r.upper / r.lower)
  cross := by
    show r.lower * (r.upperFactor - (r.upper / r.lower : Nat) * r.lowerFactor).natAbs +
      r.upper % r.lower * r.lowerFactor.natAbs = modulus
    rw [h.opposite.natAbs_sub_mul]
    calc r.lower * (r.upperFactor.natAbs + r.upper / r.lower * r.lowerFactor.natAbs) +
          r.upper % r.lower * r.lowerFactor.natAbs
        = (r.lower * (r.upper / r.lower) + r.upper % r.lower) * r.lowerFactor.natAbs +
          r.lower * r.upperFactor.natAbs := by ring
      _ = modulus := by rw [Nat.div_add_mod, h.cross]
  upper_le := h.lower_le
  lower_le := (Nat.mod_le _ _).trans h.upper_le

theorem Bounded.natAbs_lowerFactor_le (h : r.Bounded modulus) (more : r.lower ≠ 0) :
    r.step.lowerFactor.natAbs ≤ modulus :=
  calc r.step.lowerFactor.natAbs ≤ r.lower * r.step.lowerFactor.natAbs :=
        Nat.le_mul_of_pos_left _ (Nat.pos_of_ne_zero more)
    _ ≤ modulus := h.step.cross ▸ Nat.le_add_right _ _

theorem wide?_of_natAbs_le {x : Int} (within : x.natAbs ≤ modulus) (fits : modulus ≤ 2 ^ 126) :
    wide? x = some x :=
  wide?_eq_some (by omega) (by omega)

theorem Bounded.step?_registers (h : r.Bounded modulus) (fits : modulus ≤ 2 ^ 126)
    (more : r.lower ≠ 0) : r.registers.step? = some r.step.registers := by
  have quotient : wide? ((r.upper : Int).tdiv r.lower) =
      some ((r.upper / r.lower : Nat) : Int) := by
    rw [← Int.ofNat_tdiv]
    exact wide?_of_natAbs_le ((Nat.div_le_self _ _).trans h.upper_le) fits
  have multiple : wide? ((r.upper / r.lower : Nat) * r.lower) =
      some ((r.upper / r.lower : Nat) * r.lower : Int) :=
    wide?_of_natAbs_le ((Nat.div_mul_le_self _ _).trans h.upper_le) fits
  have lower : wide? (r.upper - (r.upper / r.lower : Nat) * r.lower) =
      some (r.step.lower : Int) := by
    rw [← wide?_of_natAbs_le (x := r.step.lower) h.step.lower_le fits]
    show _ = wide? (r.upper % r.lower : Nat)
    rw [Int.natCast_mod, Int.emod_def, Int.natCast_div, mul_comm (r.lower : Int)]
  have factor := h.natAbs_lowerFactor_le more
  have share : ((r.upper / r.lower : Nat) * r.lowerFactor).natAbs ≤ modulus :=
    calc ((r.upper / r.lower : Nat) * r.lowerFactor).natAbs
        = r.upper / r.lower * r.lowerFactor.natAbs := by rw [Int.natAbs_mul, Int.natAbs_natCast]
      _ ≤ r.step.lowerFactor.natAbs := by
        rw [Remainders.step, h.opposite.natAbs_sub_mul]
        exact Nat.le_add_left _ _
      _ ≤ modulus := factor
  exact Registers.step?_eq_some_iff.2 ⟨_, quotient, _, multiple, _, lower, _,
    wide?_of_natAbs_le share fits, _, wide?_of_natAbs_le factor fits, rfl⟩

theorem Bounded.finish?_registers (h : r.Bounded modulus) (fits : modulus ≤ 2 ^ 126) :
    r.registers.finish? = some r.finish.registers := by
  fun_induction Remainders.finish r with
  | case1 r ended =>
    rw [Registers.finish?, dif_pos (show r.registers.lower = 0 from Int.natCast_eq_zero.2 ended)]
  | case2 r more ih =>
    rw [Registers.finish?, dif_neg (show r.registers.lower ≠ 0 from Int.natCast_ne_zero.2 more)]
    split
    · rename_i overflowed
      rw [h.step?_registers fits more] at overflowed
      cases overflowed
    · rename_i next stepped
      rw [h.step?_registers fits more] at stepped
      obtain rfl := Option.some.inj stepped
      exact ih h.step

end Remainders

open Remainders

theorem bounded_start (bits : Nat) (m : Int) : (start bits m).Bounded (2 ^ bits) where
  opposite := .inl ⟨Int.one_nonneg, le_rfl⟩
  cross := by simp [start]
  upper_le := by
    have below := Int.emod_lt_of_pos m (Int.natCast_pos.2 (Nat.two_pow_pos bits))
    have same := toNat_emod_two_pow bits m
    show (m % (2 ^ bits : Nat)).toNat ≤ 2 ^ bits
    omega
  lower_le := le_rfl

theorem inverse?_eq_some {bits : Nat} (narrow : bits ≤ 126) (m : Int) :
    inverse? bits m = some (inverse bits m) := by
  have fits : 2 ^ bits ≤ 2 ^ 126 := Nat.pow_le_pow_right (by decide) narrow
  have within : ∀ x : Int, wide? (x % (2 ^ bits : Nat)) = some (x % (2 ^ bits : Nat)) := by
    intro x
    have above := Int.emod_nonneg x (Int.natCast_ne_zero.2 (Nat.two_pow_pos bits).ne')
    have below := Int.emod_lt_of_pos x (Int.natCast_pos.2 (Nat.two_pow_pos bits))
    exact wide?_of_natAbs_le (show (x % (2 ^ bits : Nat)).natAbs ≤ 2 ^ bits by omega) fits
  have modulus : wide? (2 ^ bits) = some ((2 ^ bits : Nat) : Int) := by
    have held : wide? (2 ^ bits : Nat) = some ((2 ^ bits : Nat) : Int) :=
      wide?_of_natAbs_le le_rfl fits
    rwa [Nat.cast_pow, Nat.cast_ofNat] at held
  have started : (⟨m % (2 ^ bits : Nat), 1, (2 ^ bits : Nat), 0⟩ : Registers) =
      (start bits m).registers := by
    rw [← toNat_emod_two_pow]
    rfl
  have run := (bounded_start bits m).finish?_registers fits
  simp only [inverse?, Option.bind_eq_bind, modulus, Option.bind_some, within, started, run]
  show (if ((start bits m).finish.upper : Int) = 1 then _ else _) = some (inverse bits m)
  by_cases unit : (start bits m).finish.upper = 1
  · rw [if_pos (by exact_mod_cast unit), inverse, if_pos unit]
    rfl
  · rw [if_neg (by exact_mod_cast unit), inverse, if_neg unit]
    rfl

example (m : Int) : inverse? 127 m = none := rfl

/-! ## Both word widths -/

/-- What multiplying by `m` and by its inverse do in words of `bits` bits. -/
structure Reversible (bits : Nat) {α : Type} (toInt : α → Int) (ofInt : Int → α)
    (inverse : α → Option α) (encode : α → α → Option α) (decode : α → α → α) (m : α) : Prop where
  /-- The registers find the inverse, or that there is none, and never overflow. -/
  in_range : (inverse? bits (toInt m)).map (Option.map ofInt) = some (inverse m)
  isSome_iff : (inverse m).isSome ↔ Odd (toInt m)
  unit : ∀ inv, inverse m = some inv → toInt m * toInt inv ≡ 1 [ZMOD 2 ^ bits]
  decode_encode : ∀ value stored, encode value m = some stored → decode stored m = value
  encode_decode : Odd (toInt m) → ∀ stored, encode (decode stored m) m = some stored
  refused_iff : ∀ value, encode value m = none ↔ Even (toInt m)

section Word

variable {α : Type} {mul : α → α → α} {one : α} [Std.Associative mul] [Std.Commutative mul]
  [Std.LawfulIdentity mul one] {bits : Nat} {toInt : α → Int} {ofInt : Int → α}
  {inverse : α → Option α} {m inv : α}

theorem mul_inverse_mul (unit : mul m inv = one) (value : α) : mul (mul value inv) m = value :=
  calc mul (mul value inv) m = mul value (mul inv m) := Std.Associative.assoc _ _ _
    _ = mul value one := by rw [show mul inv m = mul m inv from Std.Commutative.comm _ _, unit]
    _ = value := Std.LawfulRightIdentity.right_id _

omit [Std.Commutative mul] in
theorem mul_mul_inverse (unit : mul m inv = one) (stored : α) : mul (mul stored m) inv = stored :=
  calc mul (mul stored m) inv = mul stored (mul m inv) := Std.Associative.assoc _ _ _
    _ = mul stored one := by rw [unit]
    _ = stored := Std.LawfulRightIdentity.right_id _

variable (mul) in
theorem reversible_of_inverse
    (in_range : (inverse? bits (toInt m)).map (Option.map ofInt) = some (inverse m))
    (isSome_iff : (inverse m).isSome ↔ Odd (toInt m))
    (mul_inverse : ∀ inv, inverse m = some inv → mul m inv = one)
    (unit : ∀ inv, mul m inv = one → toInt m * toInt inv ≡ 1 [ZMOD 2 ^ bits]) :
    Reversible bits toInt ofInt inverse (fun value m => (inverse m).map (mul value)) mul m where
  in_range := in_range
  isSome_iff := isSome_iff
  unit inv found := unit inv (mul_inverse inv found)
  decode_encode value stored encoded := by
    obtain ⟨inv, found, rfl⟩ := Option.map_eq_some_iff.1 encoded
    exact mul_inverse_mul (mul_inverse inv found) value
  encode_decode odd stored := by
    obtain ⟨inv, found⟩ := Option.isSome_iff_exists.1 (isSome_iff.2 odd)
    exact Option.map_eq_some_iff.2 ⟨inv, found, mul_mul_inverse (mul_inverse inv found) stored⟩
  refused_iff value := by
    rw [Option.map_eq_none_iff, ← Int.not_odd_iff_even, ← isSome_iff, Option.not_isSome_iff_eq_none]

end Word

theorem modEq_one_of_bmod {bits : Nat} {x : Int} (wrapped : x.bmod (2 ^ bits) = 1) :
    x ≡ 1 [ZMOD 2 ^ bits] := by
  have same : x.bmod (2 ^ bits) % (2 ^ bits : Nat) = x % (2 ^ bits : Nat) := Int.bmod_emod
  rw [wrapped] at same
  exact_mod_cast same.symm

theorem unit32 {m inv : Int32} (unit : m * inv = 1) : m.toInt * inv.toInt ≡ 1 [ZMOD 2 ^ 32] :=
  modEq_one_of_bmod (by rw [← Int32.toInt_mul, unit]; rfl)

theorem unit64 {m inv : Int64} (unit : m * inv = 1) : m.toInt * inv.toInt ≡ 1 [ZMOD 2 ^ 64] :=
  modEq_one_of_bmod (by rw [← Int64.toInt_mul, unit]; rfl)

/-- Inverses are exact and stay within their registers, and encoding and decoding undo each other,
in both word widths and for every multiplier. -/
theorem reversible :
    (∀ m : Int32, Reversible 32 Int32.toInt Int32.ofInt inverse32 encode32 decode32 m) ∧
      ∀ m : Int64, Reversible 64 Int64.toInt Int64.ofInt inverse64 encode64 decode64 m := by
  constructor
  · intro m
    exact reversible_of_inverse (· * ·)
      (by rw [inverse?_eq_some (by decide), inverse32, Option.map_some])
      (isSome_inverse32 m) (fun _ => mul_inverse32) (fun _ => unit32)
  · intro m
    exact reversible_of_inverse (· * ·)
      (by rw [inverse?_eq_some (by decide), inverse64, Option.map_some])
      (isSome_inverse64 m) (fun _ => mul_inverse64) (fun _ => unit64)

end ClassWeave.Multiplier
