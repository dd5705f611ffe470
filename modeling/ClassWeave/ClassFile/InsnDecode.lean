import ClassWeave.Bootstraps

/-!
# Reading instructions

Each instruction becomes symbolic as it is read: short and wide forms lose their difference, and a
branch offset turns into the label numbered by its target, which has to lie inside the code array.
-/

set_option autoImplicit false

namespace ClassWeave.InsnDecode

structure Source where
  pool : Pool
  bootstraps : BootstrapTable
  length : Nat

def branch (s : Source) (pc : Nat) (offset : Int) : Except FormatError Label :=
  let target := (pc : Int) + offset
  if target < 0 ∨ (s.length : Int) ≤ target then .error (.invalidBranch pc target)
  else .ok (Label.ofNat target.toNat)

def readBranch16 (s : Source) (pc : Nat) : Reader Label := do
  let offset ← Reader.i16
  branch s pc offset.toInt

def readBranch32 (s : Source) (pc : Nat) : Reader Label := do
  let offset ← Reader.i32
  branch s pc offset.toInt

def aligned (pc : Nat) : Nat := (pc + 4) / 4 * 4

def readTableSwitch (s : Source) (pc : Nat) : Reader Insn := do
  Reader.skipTo (aligned pc)
  let fallback ← readBranch32 s pc
  let low ← Reader.i32
  let high ← Reader.i32
  if high < low then throw (.badAttribute (.switchBounds pc low high))
  let targets ← Reader.times (high.toInt - low.toInt + 1).toNat (readBranch32 s pc)
  return .tableSwitch fallback low high targets

def readPair (s : Source) (pc : Nat) : Reader (Int32 × Label) := do
  let key ← Reader.i32
  return (key, ← readBranch32 s pc)

def readLookupSwitch (s : Source) (pc : Nat) : Reader Insn := do
  Reader.skipTo (aligned pc)
  let fallback ← readBranch32 s pc
  let count ← Reader.i32
  if count < 0 then throw (.badAttribute (.switchPairs pc count))
  let pairs ← Reader.times count.toInt.toNat (readPair s pc)
  return .lookupSwitch fallback pairs

def readField (s : Source) (op : Opcode) : Reader Insn := do
  let index ← Reader.u16
  let (kind, member) ← s.pool.member index
  if kind ≠ .field then throw (.wrongConstant index .field)
  return .field op member

def readMethod (s : Source) (op : Opcode) : Reader Insn := do
  let index ← Reader.u16
  if op = Opcode.invokeinterface then discard Reader.u16
  let (kind, member) ← s.pool.member index
  if kind = .field then throw (.wrongConstant index .method)
  return .method op member (kind == .interfaceMethod)

def readCallSite (s : Source) : Reader Insn := do
  let index ← Reader.u16
  discard Reader.u16
  s.bootstraps.callSite s.pool index

def readWide (pc : Nat) : Reader Insn := do
  let op : Opcode ← Reader.u8
  if op = Opcode.iinc then
    let slot ← Reader.u16
    return .iinc slot (← Reader.i16)
  else if op.isVariable then return .var op (← Reader.u16)
  else throw (.unknownOpcode pc op)

def readOperands (s : Source) (pc : Nat) (op : Opcode) : Reader Insn := do
  if op.isSimple then return .simple op
  else if op = Opcode.bipush then return .intOp op (← Reader.i8).toInt32
  else if op = Opcode.sipush then return .intOp op (← Reader.i16).toInt32
  else if op = Opcode.newarray then return .intOp op (Int32.ofNat (← Reader.u8).toNat)
  else if op = Opcode.ldc then
    let index ← Reader.u8
    return .ldc (← s.bootstraps.loadable s.pool index.toUInt16)
  else if op = Opcode.ldcW ∨ op = Opcode.ldc2W then
    let index ← Reader.u16
    return .ldc (← s.bootstraps.loadable s.pool index)
  else if op.isVariable then return .var op (← Reader.u8).toUInt16
  else if Opcode.between Opcode.iload0 Opcode.aload3 op then
    let n := op - Opcode.iload0
    return .var (Opcode.iload + n / 4) (n % 4).toUInt16
  else if Opcode.between Opcode.istore0 Opcode.astore3 op then
    let n := op - Opcode.istore0
    return .var (Opcode.istore + n / 4) (n % 4).toUInt16
  else if op = Opcode.iinc then
    let slot ← Reader.u8
    return .iinc slot.toUInt16 (← Reader.i8).toInt16
  else if op = Opcode.wide then readWide pc
  else if Opcode.between Opcode.ifeq Opcode.jsr op ∨ op = Opcode.ifnull ∨ op = Opcode.ifnonnull then
    return .jump op (← readBranch16 s pc)
  else if op = Opcode.gotoW then return .jump Opcode.goto (← readBranch32 s pc)
  else if op = Opcode.jsrW then return .jump Opcode.jsr (← readBranch32 s pc)
  else if op = Opcode.tableswitch then readTableSwitch s pc
  else if op = Opcode.lookupswitch then readLookupSwitch s pc
  else if Opcode.between Opcode.getstatic Opcode.putfield op then readField s op
  else if Opcode.between Opcode.invokevirtual Opcode.invokeinterface op then readMethod s op
  else if op = Opcode.invokedynamic then readCallSite s
  else if op = Opcode.new ∨ op = Opcode.anewarray ∨ op = Opcode.checkcast ∨
      op = Opcode.instanceof then
    let index ← Reader.u16
    return .typeOp op (← s.pool.className index)
  else if op = Opcode.multianewarray then
    let index ← Reader.u16
    let name ← s.pool.className index
    return .newArrays name (← Reader.u8)
  else throw (.unknownOpcode pc op)

/-- Reads instructions to the end of the code array, behind those in `done`, last first. Each takes
at least a byte, so as many steps as there are bytes are enough. -/
def readAll (s : Source) : Nat → List (Nat × Insn) → Reader (List (Nat × Insn))
  | 0, done => pure done.reverse
  | fuel + 1, done => do
    let c ← get
    if c.rest.isEmpty then return done.reverse
    let op ← Reader.u8
    let insn ← readOperands s c.offset op
    readAll s fuel ((c.offset, insn) :: done)

def decode (pool : Pool) (bootstraps : BootstrapTable) (bytes : Bytes) :
    Except FormatError (List (Nat × Insn)) :=
  let length := bytes.length
  (readAll ⟨pool, bootstraps, length⟩ length []).runOn bytes

end ClassWeave.InsnDecode
