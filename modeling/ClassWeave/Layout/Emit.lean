import ClassWeave.Layout
import ClassWeave.SortOn

/-!
# Code arrays

Each placed instruction is written in its shortest form; the layout has chosen its size.
-/

set_option autoImplicit false

namespace ClassWeave

namespace Layout

variable (l : Layout)

def distance (pc : Nat) (target : Label) : Except WriteError Int := do
  let place ← l.positions.place target
  return (place : Int) - pc

def offset16 (pc : Nat) (target : Label) : Except WriteError Bytes := do
  let distance ← l.distance pc target
  if fitsInt16 distance then return Bytes.be 2 (distance % 65536).toNat
  else throw (.branchOutOfRange distance)

def offset32 (pc : Nat) (target : Label) : Except WriteError Bytes := do
  let distance ← l.distance pc target
  return Bytes.be 4 (distance % 4294967296).toNat

def emitVar (op : Opcode) (slot : UInt16) : Bytes :=
  if slot ≤ 3 ∧ op ≠ Opcode.ret then
    let short := if op ≤ Opcode.aload then Opcode.iload0 + (op - Opcode.iload) * 4
      else Opcode.istore0 + (op - Opcode.istore) * 4
    [short + slot.toUInt8]
  else if slot ≤ 255 then [op, slot.toUInt8]
  else [Opcode.wide, op] ++ Bytes.be 2 slot.toNat

def emitIinc (slot : UInt16) (delta : Int16) : Bytes :=
  if slot ≤ 255 ∧ fitsInt8 delta.toInt then
    [Opcode.iinc, slot.toUInt8, UInt8.ofNat (Bytes.ofInt16 delta)]
  else [Opcode.wide, Opcode.iinc] ++ Bytes.be 2 slot.toNat ++ Bytes.be 2 (Bytes.ofInt16 delta)

/-- Interface calls count their argument slots, the receiver among them. -/
def emitMethod (op : Opcode) (m : MemberRef) (ofInterface : Bool) : Tables.Growth Bytes := do
  let index ← Tables.onPool (Pool.internMethod m ofInterface)
  let call := op :: Bytes.be 2 index.toNat
  if op = Opcode.invokeinterface then
    let d ← orMalformed (MethodDescriptor.parse m.desc)
    return call ++ [(d.paramSlots + 1).toUInt8, 0]
  else return call

def emitLdc (value : Loadable) (index : UInt16) : Bytes :=
  if value.isWide then Opcode.ldc2W :: Bytes.be 2 index.toNat
  else if index ≤ 255 then [Opcode.ldc, index.toUInt8]
  else Opcode.ldcW :: Bytes.be 2 index.toNat

def emitPair (pc : Nat) (pair : Int32 × Label) : Except WriteError Bytes := do
  let target ← l.offset32 pc pair.2
  return Bytes.be 4 (Bytes.ofInt32 pair.1) ++ target

/-- The bytes of one placed instruction. Keys of a lookup switch are written in ascending order. -/
def emitInsn (p : Placed) : Tables.Growth Bytes := do
  let pc := p.offset
  match p.insn with
  | .label _ | .line _ => return []
  | .simple op => return [op]
  | .intOp op operand =>
    let bits := Bytes.ofInt32 operand
    return if op = Opcode.sipush then op :: Bytes.be 2 bits else [op, UInt8.ofNat bits]
  | .var op slot => return emitVar op slot
  | .iinc slot delta => return emitIinc slot delta
  | .typeOp op name =>
    let index ← Tables.className name
    return op :: Bytes.be 2 index.toNat
  | .field op m =>
    let index ← Tables.onPool (Pool.internField m)
    return op :: Bytes.be 2 index.toNat
  | .method op m ofInterface => emitMethod op m ofInterface
  | .callSite name desc b =>
    let index ← Tables.internCallSite name desc b
    return Opcode.invokedynamic :: Bytes.be 2 index.toNat ++ [0, 0]
  | .ldc value =>
    match p.index with
    | some index => return emitLdc value index
    | none => throw .poolOverflow
  | .jump op target =>
    if op.isWideJump then return op :: (← l.offset32 pc target)
    else return op :: (← l.offset16 pc target)
  | .tableSwitch fallback low high targets =>
    let fallback ← l.offset32 pc fallback
    let targets ← (targets.mapM (l.offset32 pc) : Except WriteError (List Bytes))
    return Opcode.tableswitch :: List.replicate (operandPadding pc) 0 ++ fallback ++
      Bytes.be 4 (Bytes.ofInt32 low) ++ Bytes.be 4 (Bytes.ofInt32 high) ++ targets.flatten
  | .lookupSwitch fallback pairs =>
    let fallback ← l.offset32 pc fallback
    let sorted := sortOn (fun pair => pair.1.toInt) pairs
    let written ← (sorted.mapM (l.emitPair pc) : Except WriteError (List Bytes))
    return Opcode.lookupswitch :: List.replicate (operandPadding pc) 0 ++ fallback ++
      Bytes.be 4 pairs.length ++ written.flatten
  | .newArrays name dims =>
    let index ← Tables.className name
    return Opcode.multianewarray :: Bytes.be 2 index.toNat ++ [dims]

def emit : Tables.Growth Bytes := do
  let written ← l.placed.mapM l.emitInsn
  return written.flatten

end Layout

end ClassWeave
