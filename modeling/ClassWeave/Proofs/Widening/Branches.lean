import ClassWeave.Proofs.Emission
import ClassWeave.Proofs.Widening

/-!
# Branches that are turned around

What a branch does depends on the operands on top of the stack: it takes them, and control goes to
its target or to the next instruction. The branch that is put in the place of a far one goes to the
next instruction where the old one went to its target, and takes the same operands.
-/

set_option autoImplicit false

namespace ClassWeave

inductive Operand where
  | int (value : Int32)
  | long (value : Int64)
  | float (bits : UInt32)
  | double (bits : UInt64)
  | reference (object : Option Nat)
  deriving DecidableEq, Repr

inductive Question where
  | always
  | ints (test : Int32 → Int32 → Bool)
  | withZero (test : Int32 → Int32 → Bool)
  | references (test : Option Nat → Option Nat → Bool)
  | withNull (test : Option Nat → Bool)

def Question.answer? : Question → List Operand → Option (Bool × List Operand)
  | .always, stack => some (true, stack)
  | .ints test, .int b :: .int a :: rest => some (test a b, rest)
  | .withZero test, .int a :: rest => some (test a 0, rest)
  | .references test, .reference b :: .reference a :: rest => some (test a b, rest)
  | .withNull test, .reference a :: rest => some (test a, rest)
  | _, _ => none

def Question.negated : Question → Option Question
  | .always => none
  | .ints test => some (.ints fun a b => !test a b)
  | .withZero test => some (.withZero fun a b => !test a b)
  | .references test => some (.references fun a b => !test a b)
  | .withNull test => some (.withNull fun a => !test a)

theorem Question.answer?_negated {q r : Question} (h : q.negated = some r) (stack : List Operand) :
    r.answer? stack = (q.answer? stack).map fun answer => (!answer.1, answer.2) := by
  cases q with
  | always => cases h
  | ints test =>
    cases h
    rcases stack with _ | ⟨_ | _, _ | ⟨_ | _, rest⟩⟩ <;> rfl
  | withZero test =>
    cases h
    rcases stack with _ | ⟨_ | _, rest⟩ <;> rfl
  | references test =>
    cases h
    rcases stack with _ | ⟨_ | _, _ | ⟨_ | _, rest⟩⟩ <;> rfl
  | withNull test =>
    cases h
    rcases stack with _ | ⟨_ | _, rest⟩ <;> rfl

namespace Opcode

def question? : Opcode → Option Question
  | 0x99 => some (.withZero (· == ·))
  | 0x9a => some (.withZero (· != ·))
  | 0x9b => some (.withZero (· < ·))
  | 0x9c => some (.withZero (· ≥ ·))
  | 0x9d => some (.withZero (· > ·))
  | 0x9e => some (.withZero (· ≤ ·))
  | 0x9f => some (.ints (· == ·))
  | 0xa0 => some (.ints (· != ·))
  | 0xa1 => some (.ints (· < ·))
  | 0xa2 => some (.ints (· ≥ ·))
  | 0xa3 => some (.ints (· > ·))
  | 0xa4 => some (.ints (· ≤ ·))
  | 0xa5 => some (.references (· == ·))
  | 0xa6 => some (.references (· != ·))
  | 0xa7 => some .always
  | 0xc6 => some (.withNull Option.isNone)
  | 0xc7 => some (.withNull Option.isSome)
  | 0xc8 => some .always
  | _ => none

def decide? (op : Opcode) (stack : List Operand) : Option (Bool × List Operand) :=
  op.question?.bind fun q => q.answer? stack

def opposites : List (Opcode × Opcode) :=
  [(0x99, 0x9a), (0x9a, 0x99), (0x9b, 0x9c), (0x9c, 0x9b), (0x9d, 0x9e), (0x9e, 0x9d),
    (0x9f, 0xa0), (0xa0, 0x9f), (0xa1, 0xa2), (0xa2, 0xa1), (0xa3, 0xa4), (0xa4, 0xa3),
    (0xa5, 0xa6), (0xa6, 0xa5), (0xc6, 0xc7), (0xc7, 0xc6)]

theorem mem_opposites {op inv : Opcode} (h : op.opposite? = some inv) : (op, inv) ∈ opposites := by
  have paired : ∀ op ∈ run ifeq ifacmpne, (op, ((op - ifeq) ^^^ 1) + ifeq) ∈ opposites := by
    decide +kernel
  unfold opposite? at h
  split at h
  · rename_i compares
    cases h
    exact paired op (mem_run compares)
  · split at h
    · rename_i null
      cases h
      rcases Bool.or_eq_true_iff.1 null with same | same
      · obtain rfl := beq_iff_eq.1 same
        decide
      · obtain rfl := beq_iff_eq.1 same
        decide
    · cases h

theorem not_less (a b : Int32) : (!decide (a < b)) = decide (a ≥ b) := by
  simp [← decide_not, Int32.not_lt]

theorem not_more (a b : Int32) : (!decide (a ≤ b)) = decide (a > b) := by
  simp [← decide_not, Int32.not_le]

theorem question?_opposite {op inv : Opcode} (h : op.opposite? = some inv) :
    ∃ q r, op.question? = some q ∧ inv.question? = some r ∧ q.negated = some r := by
  have pair := mem_opposites h
  simp only [opposites, List.mem_cons, List.not_mem_nil, or_false, Prod.mk.injEq] at pair
  rcases pair with ⟨rfl, rfl⟩ | ⟨rfl, rfl⟩ | ⟨rfl, rfl⟩ | ⟨rfl, rfl⟩ | ⟨rfl, rfl⟩ | ⟨rfl, rfl⟩ |
    ⟨rfl, rfl⟩ | ⟨rfl, rfl⟩ | ⟨rfl, rfl⟩ | ⟨rfl, rfl⟩ | ⟨rfl, rfl⟩ | ⟨rfl, rfl⟩ | ⟨rfl, rfl⟩ |
    ⟨rfl, rfl⟩ | ⟨rfl, rfl⟩ | ⟨rfl, rfl⟩
  all_goals refine ⟨_, _, rfl, rfl, ?_⟩
  all_goals simp [Question.negated, bne, not_less, not_more]

theorem decide?_opposite {op inv : Opcode} (h : op.opposite? = some inv) (stack : List Operand) :
    inv.decide? stack = (op.decide? stack).map fun answer => (!answer.1, answer.2) := by
  obtain ⟨q, r, asks, asks', negated⟩ := question?_opposite h
  rw [decide?, decide?, asks, asks']
  exact Question.answer?_negated negated stack

end Opcode

end ClassWeave
