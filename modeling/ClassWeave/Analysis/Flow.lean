import ClassWeave.Analysis.Effect
import ClassWeave.ClassFile
import ClassWeave.Positions

/-!
# Control flow of a body

The instructions of a body are numbered without its labels and line marks. `Flow` keeps what the
analysis needs to know about one body: the numbered instructions, where each label leads, and the
exception ranges in terms of those numbers.
-/

set_option autoImplicit false

namespace ClassWeave

namespace Code

/-- The number of the instruction that each label stands in front of, counted from `n`. -/
def positionsFrom : Positions → Nat → List Insn → Positions
  | positions, _, [] => positions
  | positions, n, insn :: rest =>
    match insn with
    | .label l => positionsFrom (positions.bind l n) n rest
    | .line _ => positionsFrom positions n rest
    | _ => positionsFrom positions (n + 1) rest

def positions (c : Code) : Positions := positionsFrom Positions.empty 0 c.insns

end Code

structure HandlerRange where
  start : Nat
  finish : Nat
  target : Nat
  handler : Handler

def HandlerRange.covers (r : HandlerRange) (i : Nat) : Bool := r.start ≤ i && i < r.finish

def HandlerRange.caught (r : HandlerRange) : VType :=
  .object (r.handler.catchType.getD "java/lang/Throwable")

structure Flow where
  insns : Array Insn
  positions : Positions
  ranges : List HandlerRange

namespace Flow

def size (f : Flow) : Nat := f.insns.size

def successors (f : Flow) (i : Nat) (insn : Insn) : Except WriteError (List Nat) :=
  let jumps := insn.targets.mapM f.positions.place
  match insn with
  | .jump op _ =>
    if op = Opcode.goto ∨ op = Opcode.gotoW then jumps
    else jumps.map fun target => (i + 1) :: target
  | .tableSwitch _ _ _ _ | .lookupSwitch _ _ => jumps
  | .simple op => .ok (if op.neverPasses then [] else [i + 1])
  | _ => .ok [i + 1]

/-- The range of a handler, which has to be inside the code; it is looked up before the range. -/
def range (m : MethodSite) (positions : Positions) (count : Nat) (h : Handler) :
    Except WriteError HandlerRange := do
  let target ← positions.place h.target
  if count ≤ target then m.refuse .handlerPastEnd
  let start ← positions.place h.start
  let finish ← positions.place h.finish
  return ⟨start, finish, target, h⟩

def ofCode (m : MethodSite) (c : Code) : Except WriteError Flow := do
  let insns := c.executed.toArray
  if insns.isEmpty then m.refuse .emptyBody
  let positions := c.positions
  let ranges ← c.handlers.mapM (range m positions insns.size)
  return ⟨insns, positions, ranges⟩

def jumpTargets (f : Flow) : Except WriteError (List Nat) := do
  let jumps ← f.insns.toList.mapM fun insn => insn.targets.mapM f.positions.place
  return f.ranges.map HandlerRange.target ++ jumps.flatten.filter (· < f.size)

end Flow

def localsNeeded (c : Code) (params : Nat) : Nat :=
  c.insns.foldl (fun most insn =>
    match insn with
    | .var op slot =>
      let wide := [Opcode.lload, Opcode.dload, Opcode.lstore, Opcode.dstore].contains op
      max most (slot.toNat + if wide then 2 else 1)
    | .iinc slot _ => max most (slot.toNat + 1)
    | _ => most) params

end ClassWeave
