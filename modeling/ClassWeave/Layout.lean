import ClassWeave.Bootstraps
import ClassWeave.Code
import ClassWeave.Positions

/-!
# Layout of a body

A layout fixes the offset of every instruction and label. The size of an instruction depends on
its operands, on its offset where a switch is padded to a multiple of four, and on the pool index
of a loaded constant, so constants are interned here, in order.
-/

set_option autoImplicit false

namespace ClassWeave

def operandPadding (pc : Nat) : Nat := (4 - (pc + 1) % 4) % 4

def fitsInt8 (v : Int) : Bool := -128 ≤ v && v ≤ 127
def fitsInt16 (v : Int) : Bool := -32768 ≤ v && v ≤ 32767

/-- Bytes that an instruction takes at `pc`; `index` is the pool index of a loaded constant. -/
def Insn.size (insn : Insn) (pc : Nat) (index : Option UInt16) : Nat :=
  match insn with
  | .label _ | .line _ => 0
  | .simple _ => 1
  | .intOp op _ => if op = Opcode.sipush then 3 else 2
  | .var op slot =>
    if slot ≤ 3 ∧ op ≠ Opcode.ret then 1 else if slot ≤ 255 then 2 else 4
  | .iinc slot delta => if slot ≤ 255 ∧ fitsInt8 delta.toInt then 3 else 6
  | .jump op _ => if op.isWideJump then 5 else 3
  | .typeOp _ _ | .field _ _ => 3
  | .method op _ _ => if op = Opcode.invokeinterface then 5 else 3
  | .callSite _ _ _ => 5
  | .ldc value =>
    match index with
    | some i => if ¬ value.isWide ∧ i ≤ 255 then 2 else 3
    | none => 3
  | .tableSwitch _ _ _ targets => 1 + operandPadding pc + 12 + 4 * targets.length
  | .lookupSwitch _ pairs => 1 + operandPadding pc + 8 + 8 * pairs.length
  | .newArrays _ _ => 4

structure Placed where
  offset : Nat
  insn : Insn
  index : Option UInt16

structure Layout where
  placed : List Placed
  positions : Positions
  length : Nat

namespace Layout

def empty : Layout := ⟨[], Positions.empty, 0⟩

def place (l : Layout) (insn : Insn) : Tables.Growth Layout :=
  match insn with
  | .label label => pure ⟨⟨l.length, insn, none⟩ :: l.placed, l.positions.bind label l.length,
      l.length⟩
  | .ldc value => do
    let index ← Tables.internLoadable value
    return ⟨⟨l.length, insn, some index⟩ :: l.placed, l.positions,
      l.length + insn.size l.length (some index)⟩
  | _ => pure ⟨⟨l.length, insn, none⟩ :: l.placed, l.positions,
      l.length + insn.size l.length none⟩

def ofInsns (insns : List Insn) : Tables.Growth Layout := do
  let l ← insns.foldlM place empty
  return { l with placed := l.placed.reverse }

/-- The distance of a branch that has two bytes for it and does not fit them. -/
def farDistance (l : Layout) (p : Placed) : Except WriteError (Option Int) :=
  match p.insn with
  | .jump op target =>
    if op.isWideJump then .ok none
    else do
      let place ← l.positions.place target
      let distance := (place : Int) - p.offset
      return if fitsInt16 distance then none else some distance
  | _ => .ok none

def farDistances (l : Layout) : Except WriteError (List (Option Int)) :=
  l.placed.mapM l.farDistance

end Layout

end ClassWeave
