import Mathlib.Data.List.Basic
import Mathlib.Tactic.Common
import ClassWeave.Proofs.Analysis.Labels

/-!
# Places in a list that is put together of parts

The number of an instruction, and of the instruction that a label stands in front of, is the number
of executed instructions before it.
-/

set_option autoImplicit false

namespace ClassWeave

def executedIn (insns : List Insn) : Nat := insns.countP Insn.isExecuted

section

variable {l : Label} {i n : Nat} {insns front back : List Insn}

@[simp] theorem executedIn_nil : executedIn [] = 0 := rfl

@[simp] theorem executedIn_append (front back : List Insn) :
    executedIn (front ++ back) = executedIn front + executedIn back := List.countP_append

theorem executedIn_cons (insn : Insn) (rest : List Insn) :
    executedIn (insn :: rest) = executedIn rest + if insn.isExecuted then 1 else 0 :=
  List.countP_cons

theorem Insn.next_eq (insn : Insn) (n : Nat) : insn.next n = n + executedIn [insn] := by
  rw [Insn.next, executedIn_cons]
  split <;> rfl

theorem Code.executed_at {c : Code} {insn : Insn} (whole : c.insns = front ++ insn :: back)
    (executed : insn.isExecuted = true) : c.executed[executedIn front]? = some insn := by
  rw [Code.executed, whole, List.filter_append, List.filter_cons_of_pos executed, executedIn,
    List.countP_eq_length_filter, List.getElem?_append_right (Nat.le_refl _), Nat.sub_self]
  rfl

theorem stands_append :
    Stands l i n (front ++ back) ↔ Stands l i n front ∨ Stands l i (n + executedIn front) back := by
  induction front generalizing n with
  | nil => exact ⟨.inr, fun h => h.resolve_left fun h => nomatch h⟩
  | cons insn rest ih =>
    rw [List.cons_append, stands_cons, stands_cons, ih, or_assoc, Insn.next_eq, Nat.add_assoc,
      ← executedIn_append]
    rfl

theorem stands_iff :
    Stands l i n insns ↔ ∃ front back, insns = front ++ .label l :: back ∧
      i = n + executedIn front := by
  constructor
  · intro h
    induction h with
    | here rest => exact ⟨[], rest, rfl, rfl⟩
    | @later n rest insn h ih =>
      obtain ⟨front, back, rfl, rfl⟩ := ih
      refine ⟨insn :: front, back, rfl, ?_⟩
      rw [Insn.next_eq, Nat.add_assoc, ← executedIn_append]
      rfl
  · rintro ⟨front, back, rfl, rfl⟩
    exact stands_append.2 (.inr (.here back))

theorem positionsFrom_append (positions : Positions) (n : Nat) (front back : List Insn) :
    Code.positionsFrom positions n (front ++ back) =
      Code.positionsFrom (Code.positionsFrom positions n front) (n + executedIn front) back := by
  induction front generalizing positions n with
  | nil => rfl
  | cons insn rest ih =>
    rw [List.cons_append, positionsFrom_cons, positionsFrom_cons, ih, Insn.next_eq, Nat.add_assoc,
      ← executedIn_append]
    rfl

theorem Code.find?_of_last {c : Code} (whole : c.insns = front ++ .label l :: back)
    (last : Insn.label l ∉ back) : c.positions.find? l = some (executedIn front) := by
  rw [Code.positions, whole, positionsFrom_append, positionsFrom_cons]
  rcases find?_positionsFrom (l := l) ((Code.positionsFrom Positions.empty 0 front).bind l
    (0 + executedIn front)) ((Insn.label l).next (0 + executedIn front)) back with
    ⟨j, _, stands⟩ | ⟨found, _⟩
  · exact absurd stands.mem last
  · rw [found, Positions.find?_bind, if_pos rfl, Nat.zero_add]

theorem Code.find?_of_unbound {c : Code} (unbound : Insn.label l ∉ c.insns) :
    c.positions.find? l = none := by
  rcases find?_positionsFrom (l := l) Positions.empty 0 c.insns with ⟨_, _, stands⟩ | ⟨found, _⟩
  · exact absurd stands.mem unbound
  · exact found.trans (Positions.find?_empty l)

theorem exists_last {α : Type} {a : α} {as : List α} (mem : a ∈ as) :
    ∃ front back, as = front ++ a :: back ∧ a ∉ back := by
  obtain ⟨back, front, turned, first⟩ := List.eq_append_cons_of_mem (List.mem_reverse.2 mem)
  refine ⟨front.reverse, back.reverse, ?_, by simpa using first⟩
  simpa using congrArg List.reverse turned

end

end ClassWeave
