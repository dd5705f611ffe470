import ClassWeave.Layout

/-!
# Far branches

A branch whose target does not fit 16 bits is given its wide form. Conditional branches have none:
such a branch is turned around to skip a wide `goto` to the old target.
-/

set_option autoImplicit false

namespace ClassWeave

/-- A body being widened: its instructions last first, the next label, and whether a conditional
branch was split. -/
structure Widening where
  insns : List Insn
  nextLabel : UInt32
  split : Bool

def Widening.add (w : Widening) (insn : Insn) (far : Option Int) : Except WriteError Widening :=
  match far, insn with
  | some distance, .jump op target =>
    if op = Opcode.goto then .ok { w with insns := .jump Opcode.gotoW target :: w.insns }
    else if op = Opcode.jsr then .ok { w with insns := .jump Opcode.jsrW target :: w.insns }
    else match op.opposite? with
      | none => .error (.branchOutOfRange distance)
      | some inverse =>
        let skip : Label := ⟨w.nextLabel⟩
        .ok {
          insns := .label skip :: .jump Opcode.gotoW target :: .jump inverse skip :: w.insns
          nextLabel := w.nextLabel + 1
          split := true }
  | _, _ => .ok { w with insns := insn :: w.insns }

/-- Widens the branches that `far` marks, and says whether it split a conditional one. -/
def Code.widen (c : Code) (far : List (Option Int)) : Except WriteError (Code × Bool) := do
  let w ← (c.insns.zip far).foldlM (fun (w : Widening) (insn, far) => w.add insn far)
    ⟨[], c.nextLabel, false⟩
  return ({ c with insns := w.insns.reverse, nextLabel := w.nextLabel }, w.split)

end ClassWeave
