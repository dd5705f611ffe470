import ClassWeave.Hooks
import ClassWeave.Mixin
import ClassWeave.Multiplier

/-!
# Resolving mixins

A mixin and a hook table give a list of edits, each bound to a class and to one of the passes.
Every mistake that shows without the classes themselves is found here, and then there are no edits
at all.
-/

set_option autoImplicit false

namespace ClassWeave

inductive Stage where
  | entryPoint
  | preCopy
  | copy
  | postCopy
  deriving DecidableEq, Repr

def Stage.name : Stage → String
  | .entryPoint => "entry-point"
  | .preCopy => "pre-copy"
  | .copy => "copy"
  | .postCopy => "post-copy"

structure PlannedEdit where
  stage : Stage
  owner : String
  edit : Edit

abbrev Resolving := Except ResolveError

def constructorHook : String := "<init>"

namespace FieldHook

/-- The factor that reads the field, which must be an int or a long and the factor not zero. -/
def decodeFactor (h : FieldHook) : Resolving (Option Int64) :=
  match h.multiplier with
  | none => .ok none
  | some m =>
    match FieldType.parse h.desc with
    | .error cause => .error (.format cause)
    | .ok type =>
      if type ≠ .int ∧ type ≠ .long then .error (.multiplierType h.name h.desc m)
      else if m = 0 then .error (.evenMultiplier h.name m)
      else .ok (some m)

def inverseFactor (h : FieldHook) (m : Int64) : Option Int64 :=
  if h.desc = "I" then (Multiplier.inverse32 m.toInt32).map Int32.toInt64
  else Multiplier.inverse64 m

def encodeFactor (h : FieldHook) : Resolving (Option Int64) := do
  match ← h.decodeFactor with
  | none => return none
  | some m =>
    match h.inverseFactor m with
    | some inverse => return some inverse
    | none => throw (.evenMultiplier h.name m)

end FieldHook

namespace Mixin

def compiledMethod? (m : Mixin) (d : MixinMethod) : Option Method :=
  m.compiled.bind fun c => c.method? d.name d.desc

/-- Refuses a declaration that has a body. The compiled method decides, then the declaration's own
mark. -/
def requireAbstract (m : Mixin) (d : MixinMethod) (kind : DeclKind) : Resolving Unit :=
  let isAbstract := match m.compiledMethod? d with
    | some method => method.access.has Access.abstractBit || method.code.isNone
    | none => d.isAbstract.getD true
  if isAbstract then .ok () else .error (.notAbstract kind m.target d.name)

def requireBody (m : Mixin) (d : MixinMethod) (kind : DeclKind) : Resolving Method :=
  match m.compiled with
  | none => .error (.missingCompiledClass m.target)
  | some c =>
    match c.method? d.name d.desc with
    | none => .error (.missingCompiledMethod c.name d.name d.desc)
    | some method =>
      if method.access.has Access.abstractBit ∨ method.code.isNone ∨ d.isAbstract = some true then
        .error (.notConcrete kind m.target d.name)
      else .ok method

def fieldHook (t : HookTable) (m : Mixin) (hook : String) (isStatic : Bool) :
    Resolving FieldHook :=
  if isStatic then t.staticField hook else t.field m.target hook

def methodHook (t : HookTable) (m : Mixin) (hook : String) (isStatic : Bool) :
    Resolving MethodHook :=
  if isStatic then t.staticMethod hook else t.method m.target hook

def callOpcode (method : Method) : Opcode :=
  if method.isStatic then Opcode.invokestatic
  else if method.access.has Access.privateBit then Opcode.invokespecial
  else Opcode.invokevirtual

def descriptor (desc : String) : Resolving MethodDescriptor :=
  (MethodDescriptor.parse desc).mapError .format

/-- Renames the mixin's own class to the target, and its shadow fields to what they stand for. -/
def rules (t : HookTable) (m : Mixin) (target : String) : Resolving Renaming :=
  match m.compiled with
  | none => .ok Renaming.empty
  | some c =>
    m.fields.foldlM (fun r f =>
      match f.shadow with
      | none => pure r
      | some hook => do
        let h ← m.fieldHook t hook f.isStatic
        return r.redirectField c.name f.name h.member) (Renaming.empty.renameClass c.name target)

def before (owner : String) (edit : Edit) : PlannedEdit := ⟨.preCopy, owner, edit⟩

def fieldEdits (t : HookTable) (m : Mixin) (target : String) (r : Renaming) (f : MixinField) :
    Resolving (List PlannedEdit) := do
  let desc := r.desc f.desc
  let hook ← match f.shadow with
    | none => pure none
    | some hook => some <$> m.fieldHook t hook f.isStatic
  let decode ← match hook with
    | some h => h.decodeFactor
    | none => pure none
  let member := (hook.map FieldHook.member).getD ⟨target, f.name, desc⟩
  let field := if hook.isSome then [] else [before target (.addField f.access f.name desc)]
  let getter := f.getterName?.toList.map fun name =>
    before target (.addGetter name ("()" ++ desc) member f.isStatic decode)
  match f.setterName? with
  | none => return field ++ getter
  | some name =>
    let encode ← match hook with
      | some h => h.encodeFactor
      | none => pure none
    return field ++ getter ++
      [before target (.addSetter name ("(" ++ desc ++ ")V") member f.isStatic encode)]

def getterEdit (t : HookTable) (m : Mixin) (target : String) (r : Renaming) (s : HookUse) :
    Resolving PlannedEdit := do
  m.requireAbstract s.method .getter
  let h ← m.fieldHook t s.hook s.isStatic
  let factor ← h.decodeFactor
  return before target (.addGetter s.method.name (r.desc s.method.desc) h.member s.isStatic factor)

def setterEdit (t : HookTable) (m : Mixin) (target : String) (r : Renaming) (s : MixinSetter) :
    Resolving PlannedEdit := do
  m.requireAbstract s.method .setter
  let h ← m.fieldHook t s.hook s.isStatic
  let _ ← h.decodeFactor
  let factor ← if s.encode then h.encodeFactor else pure none
  return before target (.addSetter s.method.name (r.desc s.method.desc) h.member s.isStatic factor)

def invokerEdit (t : HookTable) (m : Mixin) (target : String) (r : Renaming) (s : HookUse) :
    Resolving PlannedEdit := do
  m.requireAbstract s.method .invoke
  if s.isStatic then throw (.staticInvoker m.target s.method.name)
  let h ← t.method m.target s.hook
  let desc := r.desc s.method.desc
  let declared ← descriptor desc
  let hooked ← descriptor h.desc
  let supplied := declared.params.length + if h.dummyValue.isSome then 1 else 0
  if supplied ≠ hooked.params.length then
    throw (.descriptorMismatch s!"invoke {m.target}.{s.method.name}"
      (.argumentCount s.hook h.desc hooked.params.length supplied))
  return before target (.addInvoker s.method.name desc h.member h.dummyValue)

/-- What a callback may look like. One behind a method with a result may take that result as its
last parameter, in front of which it takes a prefix of the method's own. -/
def requireCallbackFits (desc : String) (hooked : Option String) (placement : Placement)
    (replacesResult : Bool) : Resolving (Option HookMismatch) := do
  if replacesResult ∧ placement = .before then return some .endBefore
  let callback ← descriptor desc
  match hooked with
  | none => return if replacesResult then some .endOnConstructor else none
  | some hooked =>
    let hooked ← descriptor hooked
    let pending := placement == .after && hooked.result.isSome
    let k := callback.params.length - if pending then 1 else 0
    if hooked.params.length < k ∨ callback.params.take k ≠ hooked.params.take k then
      return some .callbackParams
    if replacesResult ∧ hooked.result.isSome ∧ callback.result.isNone then return some .endVoid
    return none

def refuse (context : String) : Option HookMismatch → Resolving Unit
  | some mismatch => .error (.descriptorMismatch context mismatch)
  | none => .ok ()

def callbackEdit (t : HookTable) (m : Mixin) (target : String) (r : Renaming)
    (s : MixinCallback) : Resolving PlannedEdit := do
  let method ← m.requireBody s.method .inject
  let desc := r.desc s.method.desc
  let context := s!"inject {m.target}.{s.method.name}"
  let (site, hooked) ←
    if s.hook = constructorHook then
      if s.placement = .before then throw (.descriptorMismatch context .constructorsBefore)
      else pure (CallbackTarget.constructors, none)
    else do
      let h ← t.method m.target s.hook
      pure (CallbackTarget.method h.obfName h.desc, some h.desc)
  refuse context (← requireCallbackFits desc hooked s.placement s.replacesResult)
  return before target (.injectCallback
    ⟨site, s.placement, s.replacesResult, ⟨target, s.method.name, desc⟩, callOpcode method⟩)

/-- A delegate takes a prefix of the parameters, and has a result where one is needed. -/
def requireDelegateFits (desc hooked : String) : Resolving (Option HookMismatch) := do
  let delegate ← descriptor desc
  let hooked ← descriptor hooked
  let k := delegate.params.length
  if k ≤ hooked.params.length ∧ delegate.params = hooked.params.take k ∧
      (hooked.result.isNone ∨ delegate.result.isSome) then
    return none
  return some (.standIn desc hooked.text)

def replacementEdit (t : HookTable) (m : Mixin) (target : String) (r : Renaming)
    (s : HookUse) : Resolving PlannedEdit := do
  let method ← m.requireBody s.method .replace
  let h ← m.methodHook t s.hook s.isStatic
  let context := s!"replace {m.target}.{s.method.name}"
  if !method.isStatic ∧ h.owner ≠ target then throw (.instanceElsewhere context target h.owner)
  let desc := r.desc s.method.desc
  refuse context (← requireDelegateFits desc h.desc)
  return ⟨.postCopy, h.owner,
    .replaceMethod h.obfName h.desc ⟨target, s.method.name, desc⟩ (callOpcode method)⟩

def copyEdit (t : HookTable) (m : Mixin) (target : String) (s : HookUse) :
    Resolving PlannedEdit := do
  m.requireAbstract s.method .copy
  let h ← m.methodHook t s.hook s.isStatic
  return ⟨.copy, target, .copyMethod h.member s.method.name⟩

def copiedMethods (m : Mixin) : List MixinMethod :=
  m.callbacks.map MixinCallback.method ++ m.replacements.map HookUse.method ++ m.methods

def methodsEdit (m : Mixin) (target : String) (r : Renaming) : List PlannedEdit :=
  match m.compiled with
  | none => []
  | some c =>
    if m.copiedMethods.isEmpty then []
    else [before target (.addMethods c (m.copiedMethods.map fun d => (d.name, d.desc)) r)]

/-- The edits of a mixin. Replacements come last, though they are checked before the methods and
copies. -/
def resolve (t : HookTable) (m : Mixin) : Resolving (List PlannedEdit) := do
  let target := (← t.classHook m.target).obfName
  let r ← m.rules t target
  let fields ← m.fields.mapM (m.fieldEdits t target r)
  let getters ← m.getters.mapM (m.getterEdit t target r)
  let setters ← m.setters.mapM (m.setterEdit t target r)
  let invokers ← m.invokers.mapM (m.invokerEdit t target r)
  let callbacks ← m.callbacks.mapM (m.callbackEdit t target r)
  let replacements ← m.replacements.mapM (m.replacementEdit t target r)
  let _ ← m.methods.mapM (m.requireBody · .method)
  let copies ← m.copies.mapM (m.copyEdit t target)
  return m.interfaces.map (fun i => before target (.addInterface i)) ++ fields.flatten ++ getters ++
    setters ++ invokers ++ callbacks ++ m.methodsEdit target r ++ copies ++ replacements

end Mixin

end ClassWeave
