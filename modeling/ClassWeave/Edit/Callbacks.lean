import ClassWeave.Edit.Accessors

/-!
# Callbacks and delegates

A callback is spliced into an existing body, in front of its first instruction or in front of each
return. It gets the receiver and the first arguments of the method; behind a method with a result,
a callback with parameters also gets that result as its last argument, and its own result may take
the place of the method's. A delegate takes over the whole body.
-/

set_option autoImplicit false

namespace ClassWeave.Edit

open Synthesis

/-- The call itself, with `pending` the result of the method that is kept in `temp`. -/
def callbackCall (cb : Callback) (hookedStatic : Bool) (passed : List FieldType)
    (pending : Option (FieldType × FieldType)) (temp : UInt16) (context : String) :
    Except EditError (List Insn) := do
  let value ← match pending with
    | some (result, wanted) => do
      let converted ← convert result wanted context
      pure (Insn.var result.loadOpcode temp :: converted)
    | none => pure []
  return receiver (cb.invoke == Opcode.invokestatic) ++
    loadParams passed (if hookedStatic then 0 else 1) ++ value ++
    [.method cb.invoke cb.method false]

/-- The instructions for one place, or nothing when the method's parameters do not start with those
of the callback. -/
def callbackInsns (cb : Callback) (hookedStatic : Bool) (hooked callback : MethodDescriptor)
    (temp : UInt16) (context : String) : Except EditError (Option (List Insn)) := do
  if cb.invoke ≠ Opcode.invokestatic ∧ hookedStatic then
    mismatch context .instanceCallbackOnStatic
  if cb.replacesResult ∧ cb.placement = .before then mismatch context .endBefore
  let pending := if cb.placement = .after then hooked.result else none
  let passesValue := pending.isSome && !callback.params.isEmpty
  let k := callback.params.length - if passesValue then 1 else 0
  if hooked.params.length < k ∨ callback.params.take k ≠ hooked.params.take k then return none
  let value := match pending, callback.params.getLast? with
    | some result, some last => some (result, last)
    | _, _ => none
  let call ← callbackCall cb hookedStatic (hooked.params.take k) value temp context
  match pending with
  | some result =>
    let save := Insn.var result.storeOpcode temp
    if cb.replacesResult then
      match callback.result with
      | none => mismatch context .endCallbackVoid
      | some given =>
        let converted ← convert given result context
        return some (save :: call ++ converted)
    else
      return some (save :: call ++ (dropValue callback.result).toList ++
        [.var result.loadOpcode temp])
  | none =>
    if cb.replacesResult ∧ callback.result.isSome then mismatch context .endOnVoid
    return some (call ++ (dropValue callback.result).toList)

/-- What a callback does to one method: nothing to do, no match, or a new body. -/
inductive CallbackOutcome where
  | present
  | skipped
  | spliced (code : Code)

def spliceMethod (cb : Callback) (callback : MethodDescriptor) (owner : String) (m : Method) :
    Except EditError CallbackOutcome := do
  let context := "inject " ++ cb.method.name ++ " into " ++ owner ++ "." ++ m.name ++ m.desc
  match m.code with
  | none => mismatch context .noBody
  | some code =>
    if code.hasCallOf cb.method then return .present
    let hooked ← orBadFormat m.descriptor
    let temp := spareSlot code (hooked.paramSlots + if m.isStatic then 0 else 1)
    match ← callbackInsns cb m.isStatic hooked callback temp context with
    | some insns =>
      return .spliced (match cb.placement with
        | .before => code.prepend insns
        | .after => code.spliceReturns fun _ => insns)
    | none =>
      if cb.target = .constructors then return .skipped
      mismatch context (.callbackParams cb.method.desc)

/-- Goes through the methods at the given positions; says whether one matched and whether one
changed. -/
def spliceAll (cb : Callback) (callback : MethodDescriptor) : List Nat → Bool → Bool →
    Editing (Bool × Bool)
  | [], matched, changed => pure (matched, changed)
  | i :: rest, matched, changed => do
    let c ← get
    match c.methods[i]? with
    | none => spliceAll cb callback rest matched changed
    | some m =>
      match ← Editing.ofExcept (spliceMethod cb callback c.name m) with
      | .present => spliceAll cb callback rest true changed
      | .skipped => spliceAll cb callback rest matched changed
      | .spliced code =>
        set { c with methods := c.methods.set i { m with code := some code } }
        spliceAll cb callback rest true true

def callbackSites (cb : Callback) (c : ClassFile) : Except EditError (List Nat) :=
  match cb.target with
  | .method name desc =>
    match c.methods.findIdx? (Method.hasSignature name desc) with
    | some i => .ok [i]
    | none => .error (.missingMethod ⟨c.name, name, desc⟩)
  | .constructors =>
    if cb.placement = .before then
      mismatch ("inject into " ++ c.name ++ " constructors") .constructorsBefore
    else .ok ((List.range c.methods.length).filter fun i =>
      (c.methods[i]?.map fun m => m.name == "<init>").getD false)

def applyCallback (cb : Callback) : Editing Bool := do
  let c ← get
  let sites ← Editing.ofExcept (callbackSites cb c)
  let callback ← Editing.ofExcept (orBadFormat (MethodDescriptor.parse cb.method.desc))
  let (matched, changed) ← spliceAll cb callback sites false false
  if !matched then throw (.missingMethod ⟨c.name, "<init>", cb.method.desc⟩)
  return changed

def delegateBody (context : String) (hookedStatic : Bool) (hooked : MethodDescriptor)
    (delegate : MemberRef) (invoke : Opcode) : Except EditError (List Insn) := do
  let d ← orBadFormat (MethodDescriptor.parse delegate.desc)
  if invoke ≠ Opcode.invokestatic ∧ hookedStatic then
    mismatch context .instanceDelegateForStatic
  let k := d.params.length
  if hooked.params.length < k ∨ d.params ≠ hooked.params.take k then
    mismatch context (.delegateParams delegate.desc)
  let passed ← passResult d.result hooked.result context .delegateVoid
  return receiver (invoke == Opcode.invokestatic) ++
    loadParams (hooked.params.take k) (if hookedStatic then 0 else 1) ++
    .method invoke delegate false :: passed ++ [returnOf hooked.result]

def applyDelegate (name desc : String) (delegate : MemberRef) (invoke : Opcode) :
    Editing Bool := do
  let c ← get
  let context := "replace " ++ c.name ++ "." ++ name ++ desc
  match c.method? name desc with
  | none => throw (.missingMethod ⟨c.name, name, desc⟩)
  | some m =>
    let hooked ← Editing.ofExcept (orBadFormat m.descriptor)
    let insns ← Editing.ofExcept (delegateBody context m.isStatic hooked delegate invoke)
    let (replaced, c) ← Editing.ofExcept (c.replaceBody name desc (Code.ofInsns insns))
    set c
    return replaced

end ClassWeave.Edit
