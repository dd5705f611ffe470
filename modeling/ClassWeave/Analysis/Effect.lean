import ClassWeave.Analysis.State

/-!
# What an instruction does to a state

Only what decides the types is modelled: how much an instruction pops and what it pushes. Values
are not checked against what an instruction expects, except that the stack has to be high enough
and that a constructor has to be called on a fresh object.
-/

set_option autoImplicit false

namespace ClassWeave

/-- The part of the effect that is the same for every use of an opcode without operands. -/
inductive SimpleEffect where
  | replace (pops : Nat) (pushes : List VType)
  /-- Replaces an array and an index by an element of the array. -/
  | loadElement
  /-- Rearranges the values on the stack, or fails if it is too low. -/
  | rearrange (f : List VType → Option (List VType))

namespace StackMove

def pop2 : List VType → Option (List VType)
  | v :: rest => if v.isWide then some rest else match rest with
    | _ :: rest => some rest
    | [] => none
  | [] => none

def dup : List VType → Option (List VType)
  | v :: rest => some (v :: v :: rest)
  | [] => none

def dupX1 : List VType → Option (List VType)
  | v :: w :: rest => some (v :: w :: v :: rest)
  | _ => none

def dupX2 : List VType → Option (List VType)
  | v :: w :: rest =>
    if w.isWide then some (v :: w :: v :: rest) else match rest with
      | x :: rest => some (v :: w :: x :: v :: rest)
      | [] => none
  | _ => none

def dup2 : List VType → Option (List VType)
  | v :: rest =>
    if v.isWide then some (v :: v :: rest) else match rest with
      | w :: rest => some (v :: w :: v :: w :: rest)
      | [] => none
  | [] => none

def dup2X1 : List VType → Option (List VType)
  | v :: w :: rest =>
    if v.isWide then some (v :: w :: v :: rest) else match rest with
      | x :: rest => some (v :: w :: x :: v :: w :: rest)
      | [] => none
  | _ => none

def dup2X2 : List VType → Option (List VType)
  | v :: w :: rest =>
    if v.isWide then
      if w.isWide then some (v :: w :: v :: rest) else match rest with
        | x :: rest => some (v :: w :: x :: v :: rest)
        | [] => none
    else match rest with
      | x :: rest =>
        if x.isWide then some (v :: w :: x :: v :: w :: rest) else match rest with
          | y :: rest => some (v :: w :: x :: y :: v :: w :: rest)
          | [] => none
      | [] => none
  | _ => none

def swap : List VType → Option (List VType)
  | v :: w :: rest => some (w :: v :: rest)
  | _ => none

end StackMove

def simpleEffects : List (Opcode × Opcode × SimpleEffect) := [
  (0x00, 0x00, .replace 0 []),
  (0x01, 0x01, .replace 0 [.null]),
  (0x02, 0x08, .replace 0 [.int]),
  (0x09, 0x0a, .replace 0 [.long]),
  (0x0b, 0x0d, .replace 0 [.float]),
  (0x0e, 0x0f, .replace 0 [.double]),
  (0x2e, 0x2e, .replace 2 [.int]),
  (0x2f, 0x2f, .replace 2 [.long]),
  (0x30, 0x30, .replace 2 [.float]),
  (0x31, 0x31, .replace 2 [.double]),
  (0x32, 0x32, .loadElement),
  (0x33, 0x35, .replace 2 [.int]),
  (0x4f, 0x56, .replace 3 []),
  (0x57, 0x57, .replace 1 []),
  (0x58, 0x58, .rearrange StackMove.pop2),
  (0x59, 0x59, .rearrange StackMove.dup),
  (0x5a, 0x5a, .rearrange StackMove.dupX1),
  (0x5b, 0x5b, .rearrange StackMove.dupX2),
  (0x5c, 0x5c, .rearrange StackMove.dup2),
  (0x5d, 0x5d, .rearrange StackMove.dup2X1),
  (0x5e, 0x5e, .rearrange StackMove.dup2X2),
  (0x5f, 0x5f, .rearrange StackMove.swap),
  (0x60, 0x60, .replace 2 [.int]),
  (0x61, 0x61, .replace 2 [.long]),
  (0x62, 0x62, .replace 2 [.float]),
  (0x63, 0x63, .replace 2 [.double]),
  (0x64, 0x64, .replace 2 [.int]),
  (0x65, 0x65, .replace 2 [.long]),
  (0x66, 0x66, .replace 2 [.float]),
  (0x67, 0x67, .replace 2 [.double]),
  (0x68, 0x68, .replace 2 [.int]),
  (0x69, 0x69, .replace 2 [.long]),
  (0x6a, 0x6a, .replace 2 [.float]),
  (0x6b, 0x6b, .replace 2 [.double]),
  (0x6c, 0x6c, .replace 2 [.int]),
  (0x6d, 0x6d, .replace 2 [.long]),
  (0x6e, 0x6e, .replace 2 [.float]),
  (0x6f, 0x6f, .replace 2 [.double]),
  (0x70, 0x70, .replace 2 [.int]),
  (0x71, 0x71, .replace 2 [.long]),
  (0x72, 0x72, .replace 2 [.float]),
  (0x73, 0x73, .replace 2 [.double]),
  (0x74, 0x74, .replace 1 [.int]),
  (0x75, 0x75, .replace 1 [.long]),
  (0x76, 0x76, .replace 1 [.float]),
  (0x77, 0x77, .replace 1 [.double]),
  (0x78, 0x78, .replace 2 [.int]),
  (0x79, 0x79, .replace 2 [.long]),
  (0x7a, 0x7a, .replace 2 [.int]),
  (0x7b, 0x7b, .replace 2 [.long]),
  (0x7c, 0x7c, .replace 2 [.int]),
  (0x7d, 0x7d, .replace 2 [.long]),
  (0x7e, 0x7e, .replace 2 [.int]),
  (0x7f, 0x7f, .replace 2 [.long]),
  (0x80, 0x80, .replace 2 [.int]),
  (0x81, 0x81, .replace 2 [.long]),
  (0x82, 0x82, .replace 2 [.int]),
  (0x83, 0x83, .replace 2 [.long]),
  (0x85, 0x85, .replace 1 [.long]),
  (0x86, 0x86, .replace 1 [.float]),
  (0x87, 0x87, .replace 1 [.double]),
  (0x88, 0x88, .replace 1 [.int]),
  (0x89, 0x89, .replace 1 [.float]),
  (0x8a, 0x8a, .replace 1 [.double]),
  (0x8b, 0x8b, .replace 1 [.int]),
  (0x8c, 0x8c, .replace 1 [.long]),
  (0x8d, 0x8d, .replace 1 [.double]),
  (0x8e, 0x8e, .replace 1 [.int]),
  (0x8f, 0x8f, .replace 1 [.long]),
  (0x90, 0x90, .replace 1 [.float]),
  (0x91, 0x93, .replace 1 [.int]),
  (0x94, 0x98, .replace 2 [.int]),
  (0xac, 0xb0, .replace 1 []),
  (0xb1, 0xb1, .replace 0 []),
  (0xbe, 0xbe, .replace 1 [.int]),
  (0xbf, 0xbf, .replace 1 []),
  (0xc2, 0xc3, .replace 1 [])]

def simpleEffect? (op : Opcode) : Option SimpleEffect :=
  (simpleEffects.find? fun e => Opcode.between e.1 e.2.1 op).map fun e => e.2.2

def primitiveArray? (operand : Int32) : Option String :=
  [((4 : Int32), "[Z"), (5, "[C"), (6, "[F"), (7, "[D"), (8, "[B"), (9, "[S"), (10, "[I"),
    (11, "[J")].lookup operand

def arrayOf (element : String) : String :=
  if isArrayName element then "[" ++ element else "[L" ++ element ++ ";"
where
  isArrayName (name : String) : Bool := name.toList.head? == some '['

def loadableType (value : Loadable) : Except WriteError VType :=
  match value with
  | .int _ => .ok .int
  | .float _ => .ok .float
  | .long _ => .ok .long
  | .double _ => .ok .double
  | .string _ => .ok (.object "java/lang/String")
  | .type _ => .ok (.object "java/lang/Class")
  | .methodType _ => .ok (.object "java/lang/invoke/MethodType")
  | .handle _ => .ok (.object "java/lang/invoke/MethodHandle")
  | .dynamic _ desc _ _ => (orMalformed (FieldType.parse desc)).map VType.ofFieldType

/-- The method that an instruction belongs to, for errors and for `this`. -/
structure MethodSite where
  owner : String
  method : String
  deriving DecidableEq, Repr

namespace MethodSite

variable (m : MethodSite)

def tooLow {α : Type} (index : Nat) : Except WriteError α :=
  .error (.stackUnderflow m.method index)

def refuse {α : Type} (fault : VerifyFault) : Except WriteError α := .error (.verify m.method fault)

def replaceTop (index n : Nat) (pushes : List VType) (s : State) : Except WriteError State :=
  if s.stack.length < n then m.tooLow index
  else .ok { s with stack := pushes ++ s.stack.drop n }

def initialise (fresh : VType) (ready : String) (s : State) : State :=
  let settle := fun t => if t = fresh then VType.object ready else t
  ⟨s.locals.map settle, s.stack.map settle⟩

/-- A call pops the arguments and, unless it is static, the receiver, and pushes the result. -/
def call (index : Nat) (desc : String) (receiver : Option MemberRef) (s : State) :
    Except WriteError State := do
  let d ← orMalformed (MethodDescriptor.parse desc)
  let s ← m.replaceTop index d.params.length [] s
  let s ← match receiver with
    | none => pure s
    | some target =>
      match s.stack with
      | [] => m.tooLow index
      | value :: rest =>
        let s := { s with stack := rest }
        if target.name ≠ "<init>" then pure s
        else match value with
          | .uninitThis => pure (initialise value m.owner s)
          | .uninit _ => pure (initialise value target.owner s)
          | _ => m.refuse .initOnInitialized
  match d.result with
  | none => return s
  | some t => return { s with stack := VType.ofFieldType t :: s.stack }

/-- The element of an array of references; of anything else nothing is known but that it is a
reference. -/
def elementType (array : VType) : Except WriteError VType :=
  match array with
  | .object name =>
    match name.toList with
    | '[' :: element =>
      (orMalformed (FieldType.parse (String.ofList element))).map VType.ofFieldType
    | _ => .ok .null
  | _ => .ok .null

def simple (index : Nat) (op : Opcode) (s : State) : Except WriteError State :=
  match simpleEffect? op with
  | none => m.refuse (.unexpected op)
  | some (.replace pops pushes) => m.replaceTop index pops pushes s
  | some .loadElement =>
    match s.stack with
    | _ :: array :: rest => do
      let element ← elementType array
      return { s with stack := element :: rest }
    | _ => m.tooLow index
  | some (.rearrange f) =>
    match f s.stack with
    | some stack => .ok { s with stack := stack }
    | none => m.tooLow index

def varOp (index : Nat) (op : Opcode) (slot : Nat) (s : State) : Except WriteError State :=
  if op = Opcode.iload then m.replaceTop index 0 [.int] s
  else if op = Opcode.lload then m.replaceTop index 0 [.long] s
  else if op = Opcode.fload then m.replaceTop index 0 [.float] s
  else if op = Opcode.dload then m.replaceTop index 0 [.double] s
  else if op = Opcode.aload then m.replaceTop index 0 [(s.locals[slot]?).getD .top] s
  else if Opcode.between Opcode.istore Opcode.astore op then
    match s.stack with
    | value :: rest => .ok ({ s with stack := rest }.store slot value)
    | [] => m.tooLow index
  else m.refuse .ret

def typeOp (index : Nat) (op : Opcode) (name : String) (site : Option Label) (s : State) :
    Except WriteError State :=
  if op = Opcode.new then
    match site with
    | some label => m.replaceTop index 0 [.uninit label] s
    | none => m.refuse .unlabelledNew
  else if op = Opcode.anewarray then m.replaceTop index 1 [.object (arrayOf name)] s
  else if op = Opcode.checkcast then m.replaceTop index 1 [.object name] s
  else m.replaceTop index 1 [.int] s

def field (index : Nat) (op : Opcode) (desc : String) (s : State) : Except WriteError State := do
  let t := VType.ofFieldType (← orMalformed (FieldType.parse desc))
  if op = Opcode.getstatic then m.replaceTop index 0 [t] s
  else if op = Opcode.putstatic then m.replaceTop index 1 [] s
  else if op = Opcode.getfield then m.replaceTop index 1 [t] s
  else m.replaceTop index 2 [] s

/-- The state behind an instruction at `index`; `site` is the label in front of a `new`. -/
def execute (index : Nat) (site : Option Label) (insn : Insn) (s : State) :
    Except WriteError State :=
  match insn with
  | .label _ | .line _ => .ok s
  | .simple op => m.simple index op s
  | .intOp op operand =>
    if op = Opcode.newarray then do
      let s ← m.replaceTop index 1 [] s
      match primitiveArray? operand with
      | some name => return { s with stack := .object name :: s.stack }
      | none => m.refuse (.newarrayType operand)
    else m.replaceTop index 0 [.int] s
  | .var op slot => m.varOp index op slot.toNat s
  | .iinc slot _ => .ok (s.store slot.toNat .int)
  | .typeOp op name => m.typeOp index op name site s
  | .field op member => m.field index op member.desc s
  | .method op member _ =>
    m.call index member.desc (if op = Opcode.invokestatic then none else some member) s
  | .callSite _ desc _ => m.call index desc none s
  | .ldc value => do
    let t ← loadableType value
    m.replaceTop index 0 [t] s
  | .jump op _ =>
    if op = Opcode.goto ∨ op = Opcode.gotoW then .ok s
    else if op = Opcode.jsr ∨ op = Opcode.jsrW then m.refuse .jsr
    else if op.comparesTwo then m.replaceTop index 2 [] s
    else m.replaceTop index 1 [] s
  | .tableSwitch _ _ _ _ | .lookupSwitch _ _ => m.replaceTop index 1 [] s
  | .newArrays name dims => m.replaceTop index dims.toNat [.object name] s

/-- The reference types that an instruction can bring in, whatever state it finds. -/
def brings (insn : Insn) : List VType :=
  match insn with
  | .intOp _ operand => (primitiveArray? operand).toList.map .object
  | .typeOp _ name => [.object name, .object (arrayOf name)]
  | .field _ member => (FieldType.parse member.desc).toOption.toList.map .ofFieldType
  | .method _ member _ => [.object m.owner, .object member.owner] ++ returned member.desc
  | .callSite _ desc _ => returned desc
  | .ldc value => (loadableType value).toOption.toList
  | .newArrays name _ => [.object name]
  | _ => []
where
  returned (desc : String) : List VType :=
    ((MethodDescriptor.parse desc).toOption.bind (·.result)).toList.map .ofFieldType

end MethodSite

end ClassWeave
