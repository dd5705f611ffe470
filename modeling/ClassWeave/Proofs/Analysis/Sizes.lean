import Mathlib.Tactic.Common
import ClassWeave.Proofs.Analysis.Locals
import ClassWeave.Proofs.Analysis.Types

/-!
# How far a state grows

An instruction adds no more than two values to the stack. It adds locals only for a value that it
stores behind the last one, and then no more than the instruction has room for and one.
-/

set_option autoImplicit false

namespace ClassWeave

theorem VType.slots_le (t : VType) : t.slots ≤ 2 := by
  unfold slots
  split <;> decide

theorem Insn.Rewrites.length_le {insn : Insn} {s : State} {locals : List VType}
    (rewrites : insn.Rewrites s locals) : locals.length ≤ max s.locals.length (insn.room + 1) := by
  cases rewrites with
  | kept => exact Nat.le_max_left ..
  | @stored op slot value rest same store top =>
    subst same
    have width := value.slots_le
    have room : slot.toNat + 1 ≤ (Insn.var op slot).room := by
      unfold Insn.room
      dsimp only
      split <;> omega
    rw [length_locals_store_eq]
    omega
  | @counted slot delta same =>
    subst same
    have width := VType.int.slots_le
    have room : (Insn.iinc slot delta).room = slot.toNat + 1 := rfl
    rw [length_locals_store_eq]
    omega
  | initialised isFresh ready =>
    rw [MethodSite.initialise, List.length_map]
    exact Nat.le_max_left ..

namespace MethodSite

variable {m : MethodSite} {index : Nat} {s after : State}

theorem length_locals_execute_le {site : Option Label} {insn : Insn}
    (run : m.execute index site insn s = .ok after) :
    after.locals.length ≤ max s.locals.length (insn.room + 1) :=
  (rewrites_execute run).length_le

theorem length_stack_replaceTop {n : Nat} {pushes : List VType}
    (run : m.replaceTop index n pushes s = .ok after) :
    after.stack.length ≤ s.stack.length + pushes.length := by
  unfold replaceTop at run
  split at run
  · cases run
  · cases run
    simp only [List.length_append, List.length_drop]
    omega

theorem length_stack_pushResult {d : MethodDescriptor}
    (run : (match d.result with
      | none => pure s
      | some r => pure { s with stack := VType.ofFieldType r :: s.stack } :
        Except WriteError State) = .ok after) : after.stack.length ≤ s.stack.length + 1 := by
  cases result : d.result with
  | none =>
    rw [result] at run
    cases run
    exact Nat.le_succ _
  | some r =>
    rw [result] at run
    cases run
    exact Nat.le_refl _

theorem length_stack_call {desc : String} {receiver : Option MemberRef}
    (run : m.call index desc receiver s = .ok after) :
    after.stack.length ≤ s.stack.length + 1 := by
  obtain ⟨d, _, run⟩ := bind_ok_iff.1 run
  obtain ⟨popped, arguments, run⟩ := bind_ok_iff.1 run
  have low := length_stack_replaceTop arguments
  rw [List.length_nil, Nat.add_zero] at low
  dsimp only at run
  split at run
  · have grown := length_stack_pushResult run
    omega
  · split at run
    · cases run
    · rename_i value rest top
      rw [top, List.length_cons] at low
      split at run
      · have grown := length_stack_pushResult run
        dsimp only at grown
        omega
      · split at run
        · have grown := length_stack_pushResult run
          simp only [initialise, List.length_map] at grown
          omega
        · have grown := length_stack_pushResult run
          simp only [initialise, List.length_map] at grown
          omega
        · cases run

theorem length_stack_simple {op : Opcode} (run : m.simple index op s = .ok after) :
    after.stack.length ≤ s.stack.length + 2 := by
  unfold simple at run
  split at run
  · cases run
  · rename_i found
    have pushes := (tame_simpleEffect? found).1
    have grown := length_stack_replaceTop run
    omega
  · split at run
    · rename_i top
      obtain ⟨t, _, run⟩ := bind_ok_iff.1 run
      cases run
      rw [top]
      simp only [List.length_cons]
      omega
    · cases run
  · rename_i found
    split at run
    · rename_i moved
      cases run
      exact (tame_simpleEffect? found).length _ _ moved
    · cases run

theorem length_stack_varOp {op : Opcode} {slot : Nat} (run : m.varOp index op slot s = .ok after) :
    after.stack.length ≤ s.stack.length + 1 := by
  unfold varOp at run
  iterate 5
    split at run
    · exact length_stack_replaceTop run
  split at run
  · split at run
    · rename_i value rest top
      cases run
      change rest.length ≤ s.stack.length + 1
      rw [top, List.length_cons]
      omega
    · cases run
  · cases run

theorem length_stack_typeOp {op : Opcode} {name : String} {site : Option Label}
    (run : m.typeOp index op name site s = .ok after) :
    after.stack.length ≤ s.stack.length + 1 := by
  unfold typeOp at run
  split at run
  · split at run
    · exact length_stack_replaceTop run
    · cases run
  · repeat' split at run
    all_goals exact length_stack_replaceTop run

theorem length_stack_field {op : Opcode} {desc : String}
    (run : m.field index op desc s = .ok after) : after.stack.length ≤ s.stack.length + 1 := by
  obtain ⟨t, _, run⟩ := bind_ok_iff.1 run
  dsimp only at run
  repeat' split at run
  · exact length_stack_replaceTop run
  · exact Nat.le_succ_of_le (length_stack_replaceTop run)
  · exact length_stack_replaceTop run
  · exact Nat.le_succ_of_le (length_stack_replaceTop run)

theorem length_stack_execute {site : Option Label} {insn : Insn}
    (run : m.execute index site insn s = .ok after) :
    after.stack.length ≤ s.stack.length + 2 := by
  cases insn with
  | label x | line n =>
    cases run
    omega
  | simple op => exact length_stack_simple run
  | intOp op v =>
    dsimp only [execute] at run
    split at run
    · obtain ⟨t, popped, run⟩ := bind_ok_iff.1 run
      have low := length_stack_replaceTop popped
      rw [List.length_nil] at low
      split at run
      · cases run
        simp only [List.length_cons]
        omega
      · cases run
    · exact Nat.le_succ_of_le (length_stack_replaceTop run)
  | var op slot => exact Nat.le_succ_of_le (length_stack_varOp run)
  | iinc slot delta =>
    cases run
    exact Nat.le_add_right _ 2
  | typeOp op name => exact Nat.le_succ_of_le (length_stack_typeOp run)
  | field op member => exact Nat.le_succ_of_le (length_stack_field run)
  | method op member ofInterface =>
    dsimp only [execute] at run
    exact Nat.le_succ_of_le (length_stack_call run)
  | callSite name desc b =>
    dsimp only [execute] at run
    exact Nat.le_succ_of_le (length_stack_call run)
  | ldc value =>
    obtain ⟨t, _, run⟩ := bind_ok_iff.1 run
    exact Nat.le_succ_of_le (length_stack_replaceTop run)
  | jump op x =>
    have popped {n : Nat} (run : m.replaceTop index n [] s = .ok after) :
        after.stack.length ≤ s.stack.length + 2 :=
      Nat.le_trans (length_stack_replaceTop run) (Nat.le_add_right _ 2)
    dsimp only [execute] at run
    split at run
    · cases run
      omega
    · split at run
      · cases run
      · split at run
        · exact popped run
        · exact popped run
  | tableSwitch fallback low high targets =>
    exact Nat.le_trans (length_stack_replaceTop run) (Nat.le_add_right _ 2)
  | lookupSwitch fallback pairs =>
    exact Nat.le_trans (length_stack_replaceTop run) (Nat.le_add_right _ 2)
  | newArrays name dims => exact Nat.le_succ_of_le (length_stack_replaceTop run)

end MethodSite

end ClassWeave
