import ClassWeave.Edit

/-!
# Synthesized accessors

Getters, setters and invokers are straight-line methods. None of them is made when the class has a
method of their signature already.
-/

set_option autoImplicit false

namespace ClassWeave.Edit

open Synthesis

def receiver (isStatic : Bool) : List Insn :=
  if isStatic then [] else [.var Opcode.aload 0]

def scale (t : FieldType) (factor : Option Int64) (context : String) :
    Except EditError (List Insn) :=
  match factor with
  | some factor => multiply t factor context
  | none => .ok []

def getterBody (context desc : String) (field : MemberRef) (isStatic : Bool)
    (factor : Option Int64) : Except EditError (List Insn) := do
  let d ← orBadFormat (MethodDescriptor.parse desc)
  match d.params, d.result with
  | [], some result =>
    let t ← orBadFormat (FieldType.parse field.desc)
    let scaled ← scale t factor context
    let converted ← convert t result context
    let op := if isStatic then Opcode.getstatic else Opcode.getfield
    return receiver isStatic ++ .field op field :: scaled ++ converted ++ [returnOf result]
  | _, _ => mismatch context .getterShape

def setterBody (context desc : String) (field : MemberRef) (isStatic : Bool)
    (factor : Option Int64) : Except EditError (List Insn) := do
  let d ← orBadFormat (MethodDescriptor.parse desc)
  match d.params with
  | [value] =>
    if d.result.isSome then mismatch context .setterResult
    let t ← orBadFormat (FieldType.parse field.desc)
    let converted ← convert value t context
    let scaled ← scale t factor context
    let op := if isStatic then Opcode.putstatic else Opcode.putfield
    return receiver isStatic ++ loadParams [value] 1 ++ converted ++ scaled ++
      [.field op field, .simple Opcode.returnVoid]
  | _ => mismatch context .setterArguments

def convertArgs (context : String) : List (FieldType × FieldType) → UInt16 →
    Except EditError (List Insn)
  | [], _ => .ok []
  | (given, wanted) :: rest, slot => do
    let converted ← convert given wanted context
    let more ← convertArgs context rest (slot + given.size)
    return .var given.loadOpcode slot :: converted ++ more

def callFrom (c : ClassFile) (h : Hierarchy) (target : MemberRef) : Opcode × Bool :=
  if target.owner == c.name then instanceCall c target
  else if h.isInterface target.owner then (Opcode.invokeinterface, true)
  else (Opcode.invokevirtual, false)

/-- Brings the result of a call to the declared result: converted, dropped or absent in both. -/
def passResult (given wanted : Option FieldType) (context : String) (absent : Mismatch) :
    Except EditError (List Insn) :=
  match given, wanted with
  | some given, some wanted => convert given wanted context
  | _, none => .ok (dropValue given).toList
  | none, some _ => mismatch context absent

def invokerBody (c : ClassFile) (h : Hierarchy) (context desc : String) (target : MemberRef)
    (dummy : Option Int64) : Except EditError (List Insn) := do
  let api ← orBadFormat (MethodDescriptor.parse desc)
  let hooked ← orBadFormat (MethodDescriptor.parse target.desc)
  let supplied := api.params.length + if dummy.isSome then 1 else 0
  if hooked.params.length ≠ supplied then
    mismatch context (.argumentCount target hooked.params.length supplied)
  let args ← convertArgs context (api.params.zip hooked.params) 1
  let last ← match dummy, hooked.params.getLast? with
    | some value, some t => (integerConstant t value context).map ([·])
    | _, _ => pure []
  let (op, ofInterface) := callFrom c h target
  let passed ← passResult hooked.result api.result context (.returnsVoid target)
  return .var Opcode.aload 0 :: args ++ last ++ .method op target ofInterface :: passed ++
    [returnOf api.result]

def addSynthesized (kind name desc : String)
    (body : ClassFile → String → Except EditError (List Insn)) : Editing Bool := do
  let c ← get
  if (c.method? name desc).isSome then return false
  let context := kind ++ " " ++ c.name ++ "." ++ name ++ desc
  let insns ← Editing.ofExcept (body c context)
  discard (Editing.addMethod (Synthesis.method name desc insns))
  return true

end ClassWeave.Edit
