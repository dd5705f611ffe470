import ClassWeave.ClassFile

/-!
# Short instruction sequences

The pieces that new bodies are made of: loading arguments, pushing constants, converting and
multiplying the value on top of the stack.
-/

set_option autoImplicit false

namespace ClassWeave.Synthesis

def mismatch {α : Type} (context : String) (m : Mismatch) : Except EditError α :=
  .error (.descriptorMismatch context m)

def loadParams : List FieldType → UInt16 → List Insn
  | [], _ => []
  | t :: rest, slot => .var t.loadOpcode slot :: loadParams rest (slot + t.size)

def returnOf (result : Option FieldType) : Insn :=
  .simple (match result with
    | some t => t.returnOpcode
    | none => Opcode.returnVoid)

def integerConstant (t : FieldType) (value : Int64) (context : String) : Except EditError Insn :=
  match t with
  | .long => .ok (Insn.longConstant value)
  | _ =>
    if t.livesAsInt then .ok (Insn.intConstant value.toInt32)
    else mismatch context (.constantType t)

/-- Turns the value on top of the stack into one of type `wanted`. Types that live as an int need
nothing, and references are cast; nothing else converts. -/
def convert (given wanted : FieldType) (context : String) : Except EditError (List Insn) :=
  if given = wanted ∨ (given.livesAsInt ∧ wanted.livesAsInt) then .ok []
  else if given.isReference ∧ wanted.isReference then
    if wanted = .object objectClass then .ok []
    else .ok [.typeOp Opcode.checkcast wanted.internalName]
  else mismatch context (.notConvertible given wanted)

def dropValue (t : Option FieldType) : Option Insn :=
  t.map fun t => .simple (if t.isWide then Opcode.pop2 else Opcode.pop)

def multiply (t : FieldType) (factor : Int64) (context : String) :
    Except EditError (List Insn) := do
  let op ← match t with
    | .long => pure Opcode.lmul
    | .int => pure Opcode.imul
    | _ => mismatch context (.multiplierType t)
  let constant ← integerConstant t factor context
  return [constant, .simple op]

def slotAfter (insn : Insn) : Option UInt16 :=
  match insn with
  | .var op slot =>
    let wide := [Opcode.lload, Opcode.dload, Opcode.lstore, Opcode.dstore].contains op
    some (slot + if wide then 2 else 1)
  | .iinc slot _ => some (slot + 1)
  | _ => none

def spareSlot (c : Code) (params : UInt16) : UInt16 :=
  let used := c.insns.filterMap slotAfter ++ c.locals.map fun v => v.slot + 1
  used.foldl max (max params c.maxLocals)

/-- The opcode that calls a method on an instance of `c`, and whether it is an interface call. -/
def instanceCall (c : ClassFile) (m : MemberRef) : Opcode × Bool :=
  if c.isInterface then (Opcode.invokeinterface, true)
  else
    let isPrivate := m.owner == c.name &&
      ((c.method? m.name m.desc).map fun m => m.access.has Access.privateBit).getD false
    (if isPrivate then Opcode.invokespecial else Opcode.invokevirtual, false)

def method (name desc : String) (insns : List Insn) : Method :=
  ⟨⟨Access.publicBit⟩, name, desc, some (Code.ofInsns insns), []⟩

end ClassWeave.Synthesis
