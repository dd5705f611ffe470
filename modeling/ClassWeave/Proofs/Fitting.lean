import ClassWeave.Edit.Apply
import ClassWeave.Proofs.Additions
import ClassWeave.Proofs.Resolution

/-!
# Callbacks and delegates that fit

Resolving a mixin checks the parameters, the results and the flags of its callbacks and delegates
against the methods that they are tied to. What it does not look at is whether the values that are
passed on convert. So a registered callback or delegate fits every class with the hooked method
exactly when those values do.
-/

set_option autoImplicit false

namespace ClassWeave

def FieldType.Convertible (given wanted : FieldType) : Prop :=
  given = wanted ∨ (given.livesAsInt ∧ wanted.livesAsInt) ∨ (given.isReference ∧ wanted.isReference)

instance (given wanted : FieldType) : Decidable (given.Convertible wanted) :=
  inferInstanceAs (Decidable (_ ∨ _))

/-- The result of the hooked method may be handed to the callback, and that of the callback may
take its place. -/
structure Callback.Converts (cb : Callback) (hooked callback : MethodDescriptor) : Prop where
  pending : cb.placement = .after → ∀ result ∈ hooked.result, ∀ last ∈ callback.params.getLast?,
    result.Convertible last
  result : cb.replacesResult → ∀ given ∈ callback.result, ∃ wanted ∈ hooked.result,
    given.Convertible wanted

def MethodDescriptor.Converts (delegate hooked : MethodDescriptor) : Prop :=
  ∀ wanted ∈ hooked.result, ∀ given ∈ delegate.result, given.Convertible wanted

namespace Edit

open Synthesis

theorem orBadFormat_ok {α : Type} {x : Except FormatError α} {a : α} (h : x = .ok a) :
    orBadFormat x = .ok a := congrArg orBadFormat h

theorem ok_bind {ε α β : Type} {x : Except ε α} {a : α} (h : x = .ok a) (k : α → Except ε β) :
    x >>= k = k a := congrArg (· >>= k) h

/-- The step ends in an error about descriptors that do not fit. -/
def Mismatched {α : Type} (x : Except EditError α) : Prop :=
  ∃ context reason, x = .error (.descriptorMismatch context reason)

/-- The step succeeds, with a good outcome, where `p` holds, and nowhere else. -/
structure Fits {α : Type} (p : Prop) (good : α → Prop) (x : Except EditError α) : Prop where
  ok : p → ∃ a, good a ∧ x = .ok a
  mismatched : ¬ p → Mismatched x

section Fits

variable {α β : Type} {p q : Prop} {good : α → Prop} {good' : β → Prop} {x : Except EditError α}

theorem Fits.always {a : α} (holds : p) (h : good a) : Fits p good (.ok a) where
  ok _ := ⟨a, h, rfl⟩
  mismatched no := absurd holds no

theorem Fits.congr (h : Fits p good x) (same : p ↔ q) : Fits q good x := propext same ▸ h

theorem Fits.bind (h : Fits p good x) {k : α → Except EditError β}
    (hk : ∀ a, good a → Fits q good' (k a)) : Fits (p ∧ q) good' (x >>= k) := by
  by_cases holds : p
  · obtain ⟨a, isGood, rfl⟩ := h.ok holds
    exact (hk a isGood).congr (by simp [holds])
  · obtain ⟨context, reason, rfl⟩ := h.mismatched holds
    exact ⟨fun both => absurd both.1 holds, fun _ => ⟨context, reason, rfl⟩⟩

theorem Fits.bind_pure (h : Fits p good x) {k : α → Except EditError β}
    (hk : ∀ a, good a → ∃ b, good' b ∧ k a = .ok b) : Fits p good' (x >>= k) := by
  apply (h.bind (q := True) fun a isGood => ?_).congr (iff_of_eq (and_true p))
  exact ⟨fun _ => hk a isGood, fun no => absurd trivial no⟩

theorem Fits.mismatched_iff (h : Fits p good x) : Mismatched x ↔ ¬ p := by
  constructor
  · rintro ⟨context, reason, failed⟩ holds
    obtain ⟨a, _, found⟩ := h.ok holds
    rw [failed] at found
    cases found
  · exact h.mismatched

end Fits

theorem fits_convert (given wanted : FieldType) (context : String) :
    Fits (given.Convertible wanted) (fun _ => True) (convert given wanted context) := by
  unfold convert FieldType.Convertible
  split
  · rename_i direct
    exact .always (by tauto) trivial
  · rename_i direct
    split
    · rename_i references
      split
      · exact .always (by tauto) trivial
      · exact .always (by tauto) trivial
    · rename_i values
      exact ⟨fun convertible => absurd convertible (by tauto), fun _ => ⟨_, _, rfl⟩⟩

end Edit

namespace Mixin

/-- How many of the first parameters of a hooked method a callback takes. -/
def shared (placement : Placement) (hooked callback : MethodDescriptor) : Nat :=
  callback.params.length - if placement == .after && hooked.result.isSome then 1 else 0

structure CallbackFits (placement : Placement) (replacesResult : Bool)
    (hooked callback : MethodDescriptor) : Prop where
  behind : ¬ (replacesResult ∧ placement = .before)
  params : ¬ (hooked.params.length < shared placement hooked callback ∨
    callback.params.take (shared placement hooked callback) ≠
      hooked.params.take (shared placement hooked callback))
  result : ¬ (replacesResult ∧ hooked.result.isSome ∧ callback.result.isNone)

theorem descriptor_ok {desc : String} {d : MethodDescriptor} (h : descriptor desc = .ok d) :
    MethodDescriptor.parse desc = .ok d := by
  unfold descriptor at h
  cases parsed : MethodDescriptor.parse desc with
  | error e =>
    rw [parsed] at h
    cases h
  | ok d' =>
    rw [parsed] at h
    cases h
    rfl

theorem callbackFits_of_check {desc hookedDesc : String} {placement : Placement}
    {replacesResult : Bool}
    (checked : requireCallbackFits desc (some hookedDesc) placement replacesResult = .ok none) :
    ∃ hooked callback, MethodDescriptor.parse hookedDesc = .ok hooked ∧
      MethodDescriptor.parse desc = .ok callback ∧
      CallbackFits placement replacesResult hooked callback := by
  unfold requireCallbackFits at checked
  dsimp only at checked
  split at checked
  · cases checked
  · rename_i behind
    obtain ⟨callback, parsed, checked⟩ := bind_ok_iff.1 checked
    obtain ⟨hooked, parsed', checked⟩ := bind_ok_iff.1 checked
    change (if hooked.params.length < shared placement hooked callback ∨
      callback.params.take (shared placement hooked callback) ≠
        hooked.params.take (shared placement hooked callback) then _ else _) = _ at checked
    split at checked
    · cases checked
    · rename_i params
      split at checked
      · cases checked
      · rename_i result
        exact ⟨hooked, callback, descriptor_ok parsed', descriptor_ok parsed, behind, params,
          result⟩

theorem delegateFits_of_check {desc hookedDesc : String}
    (checked : requireDelegateFits desc hookedDesc = .ok none) :
    ∃ hooked delegate, MethodDescriptor.parse hookedDesc = .ok hooked ∧
      MethodDescriptor.parse desc = .ok delegate ∧
      delegate.params.length ≤ hooked.params.length ∧
      delegate.params = hooked.params.take delegate.params.length ∧
      (hooked.result.isNone ∨ delegate.result.isSome) := by
  unfold requireDelegateFits at checked
  obtain ⟨delegate, parsed, checked⟩ := bind_ok_iff.1 checked
  obtain ⟨hooked, parsed', checked⟩ := bind_ok_iff.1 checked
  dsimp only at checked
  split at checked
  · rename_i fits
    exact ⟨hooked, delegate, descriptor_ok parsed', descriptor_ok parsed, fits⟩
  · cases checked

end Mixin

namespace Edit

open Synthesis Mixin

def aroundCall (replacesResult : Bool) (callbackResult pending : Option FieldType) (temp : UInt16)
    (context : String) (call : List Insn) : Except EditError (Option (List Insn)) :=
  match pending with
  | some result =>
    if replacesResult then
      match callbackResult with
      | none => mismatch context .endCallbackVoid
      | some given => do
        let converted ← convert given result context
        return some (.var result.storeOpcode temp :: call ++ converted)
    else
      return some (.var result.storeOpcode temp :: call ++ (dropValue callbackResult).toList ++
        [.var result.loadOpcode temp])
  | none => do
    if replacesResult ∧ callbackResult.isSome then mismatch context .endOnVoid
    return some (call ++ (dropValue callbackResult).toList)

def pendingResult (placement : Placement) (hooked : MethodDescriptor) : Option FieldType :=
  if placement = .after then hooked.result else none

def passedResult (pending : Option FieldType) (callback : MethodDescriptor) :
    Option (FieldType × FieldType) :=
  match pending, callback.params.getLast? with
  | some result, some last => some (result, last)
  | _, _ => none

theorem mem_pendingResult {placement : Placement} {hooked : MethodDescriptor} {t : FieldType} :
    t ∈ pendingResult placement hooked ↔ placement = .after ∧ t ∈ hooked.result := by
  unfold pendingResult
  split <;> simp [*]

theorem mem_passedResult {pending : Option FieldType} {callback : MethodDescriptor}
    {value : FieldType × FieldType} : value ∈ passedResult pending callback ↔
      value.1 ∈ pending ∧ value.2 ∈ callback.params.getLast? := by
  unfold passedResult
  cases pending <;> cases callback.params.getLast? <;> simp [Prod.ext_iff]

theorem not_instance_call {invoke : Opcode} {hookedStatic : Bool}
    (static : invoke ≠ Opcode.invokestatic → hookedStatic = false) :
    ¬ (invoke ≠ Opcode.invokestatic ∧ hookedStatic = true) := by
  rintro ⟨dispatched, isStatic⟩
  rw [static dispatched] at isStatic
  cases isStatic

theorem length_passed (placement : Placement) (hooked callback : MethodDescriptor) :
    callback.params.length -
      (if (if placement = .after then hooked.result else none).isSome &&
        !callback.params.isEmpty then 1 else 0) = shared placement hooked callback := by
  unfold shared
  cases callback.params with
  | nil => simp
  | cons p ps => cases placement <;> simp

theorem callbackInsns_eq {cb : Callback} {hookedStatic : Bool} {hooked callback : MethodDescriptor}
    (fits : CallbackFits cb.placement cb.replacesResult hooked callback)
    (static : cb.invoke ≠ Opcode.invokestatic → hookedStatic = false) (temp : UInt16)
    (context : String) :
    callbackInsns cb hookedStatic hooked callback temp context =
      callbackCall cb hookedStatic (hooked.params.take (shared cb.placement hooked callback))
        (passedResult (pendingResult cb.placement hooked) callback) temp context >>=
      aroundCall cb.replacesResult callback.result (pendingResult cb.placement hooked) temp
        context := by
  unfold callbackInsns
  rw [if_neg (not_instance_call static), if_neg fits.behind]
  dsimp only
  rw [length_passed, if_neg fits.params]
  rfl

theorem fits_callbackCall (cb : Callback) (hookedStatic : Bool) (passed : List FieldType)
    (pending : Option (FieldType × FieldType)) (temp : UInt16) (context : String) :
    Fits (∀ value ∈ pending, value.1.Convertible value.2) (fun _ => True)
      (callbackCall cb hookedStatic passed pending temp context) := by
  cases pending with
  | none => exact .always (by simp) trivial
  | some value =>
    obtain ⟨result, wanted⟩ := value
    have called : Fits (result.Convertible wanted) (fun _ => True)
        (callbackCall cb hookedStatic passed (some (result, wanted)) temp context) := by
      unfold callbackCall
      exact (fits_convert result wanted context).bind_pure fun _ _ => ⟨_, trivial, rfl⟩
    exact called.congr (by simp)

theorem fits_aroundCall {replacesResult : Bool} {callbackResult pending : Option FieldType}
    (result : ¬ (replacesResult ∧ pending.isSome ∧ callbackResult.isNone)) (temp : UInt16)
    (context : String) (call : List Insn) :
    Fits (replacesResult → ∀ given ∈ callbackResult, ∃ wanted ∈ pending, given.Convertible wanted)
      (fun insns => insns.isSome)
      (aroundCall replacesResult callbackResult pending temp context call) := by
  cases replacesResult with
  | false => cases pending <;> exact .always (by simp) rfl
  | true =>
    cases callbackResult with
    | none =>
      cases pending with
      | none => exact .always (by simp) rfl
      | some wanted => simp at result
    | some given =>
      cases pending with
      | none => exact ⟨by simp, fun _ => ⟨_, _, rfl⟩⟩
      | some wanted =>
        have converts : Fits (given.Convertible wanted) (fun insns => insns.isSome)
            (aroundCall true (some given) (some wanted) temp context call) :=
          (fits_convert given wanted context).bind_pure fun converted _ =>
            ⟨some (.var wanted.storeOpcode temp :: call ++ converted), rfl, rfl⟩
        exact converts.congr (by simp)

theorem fits_callbackInsns {cb : Callback} {hookedStatic : Bool}
    {hooked callback : MethodDescriptor}
    (fits : CallbackFits cb.placement cb.replacesResult hooked callback)
    (static : cb.invoke ≠ Opcode.invokestatic → hookedStatic = false) (temp : UInt16)
    (context : String) : Fits (cb.Converts hooked callback) (fun insns => insns.isSome)
      (callbackInsns cb hookedStatic hooked callback temp context) := by
  rw [callbackInsns_eq fits static]
  have ends : ¬ (cb.replacesResult ∧ (pendingResult cb.placement hooked).isSome ∧
      callback.result.isNone) := by
    rintro ⟨replaces, pending, void⟩
    obtain ⟨t, isPending⟩ := Option.isSome_iff_exists.1 pending
    have inHooked := (mem_pendingResult.1 isPending).2
    exact fits.result ⟨replaces, Option.isSome_of_mem inHooked, void⟩
  have behind : cb.replacesResult → cb.placement = .after := by
    intro replaces
    cases placed : cb.placement with
    | before => exact absurd ⟨replaces, placed⟩ fits.behind
    | after => rfl
  apply ((fits_callbackCall ..).bind fun call _ => fits_aroundCall ends temp context call).congr
  constructor
  · rintro ⟨passed, given⟩
    constructor
    · intro after result inHooked last isLast
      exact passed (result, last)
        (mem_passedResult.2 ⟨mem_pendingResult.2 ⟨after, inHooked⟩, isLast⟩)
    · intro replaces g isResult
      obtain ⟨wanted, isPending, converts⟩ := given replaces g isResult
      exact ⟨wanted, (mem_pendingResult.1 isPending).2, converts⟩
  · rintro ⟨pending, result⟩
    constructor
    · intro value isPassed
      obtain ⟨isPending, isLast⟩ := mem_passedResult.1 isPassed
      obtain ⟨after, inHooked⟩ := mem_pendingResult.1 isPending
      exact pending after _ inHooked _ isLast
    · intro replaces g isResult
      obtain ⟨wanted, inHooked, converts⟩ := result replaces g isResult
      exact ⟨wanted, mem_pendingResult.2 ⟨behind replaces, inHooked⟩, converts⟩

theorem fits_delegateBody {delegate : MemberRef} {hooked d : MethodDescriptor} {invoke : Opcode}
    {hookedStatic : Bool} (parsed : MethodDescriptor.parse delegate.desc = .ok d)
    (static : invoke ≠ Opcode.invokestatic → hookedStatic = false)
    (enough : d.params.length ≤ hooked.params.length)
    (same : d.params = hooked.params.take d.params.length)
    (result : hooked.result.isNone ∨ d.result.isSome) (context : String) :
    Fits (d.Converts hooked) (fun _ => True)
      (delegateBody context hookedStatic hooked delegate invoke) := by
  have paramsOk : ¬ (hooked.params.length < d.params.length ∨
      d.params ≠ hooked.params.take d.params.length) := by
    rintro (short | different)
    · omega
    · exact different same
  have passes : Fits (d.Converts hooked) (fun _ => True)
      (passResult d.result hooked.result context .delegateVoid) := by
    unfold MethodDescriptor.Converts
    cases wanted : hooked.result with
    | none =>
      have dropped : passResult d.result none context .delegateVoid =
          .ok (dropValue d.result).toList := by
        cases d.result <;> rfl
      rw [dropped]
      exact .always (by simp) trivial
    | some w =>
      cases given : d.result with
      | none => simp [wanted, given] at result
      | some g => exact (fits_convert g w context).congr (by simp)
  unfold delegateBody
  rw [ok_bind (orBadFormat_ok parsed), if_neg (not_instance_call static)]
  dsimp only
  rw [if_neg paramsOk]
  exact passes.bind_pure fun _ _ => ⟨_, trivial, rfl⟩

theorem fits_spliceMethod {cb : Callback} {m : Method} {code : Code}
    {hooked callback : MethodDescriptor} (body : m.code = some code)
    (parsed : m.descriptor = .ok hooked)
    (fits : CallbackFits cb.placement cb.replacesResult hooked callback)
    (static : cb.invoke ≠ Opcode.invokestatic → m.isStatic = false) (owner : String) :
    Fits (code.hasCallOf cb.method ∨ cb.Converts hooked callback)
      (fun outcome => outcome ≠ .skipped) (spliceMethod cb callback owner m) := by
  unfold spliceMethod
  rw [body]
  dsimp only
  split
  · rename_i present
    exact .always (.inl present) (by simp)
  · rename_i absent
    rw [ok_bind (orBadFormat_ok parsed)]
    apply ((fits_callbackInsns fits static _ _).bind_pure ?_).congr (by simp [absent])
    intro insns some_insns
    obtain ⟨insns, rfl⟩ := Option.isSome_iff_exists.1 some_insns
    exact ⟨_, by simp, rfl⟩

theorem run_get {α : Type} (k : ClassFile → Editing α) (c : ClassFile) :
    ((MonadState.get : Editing ClassFile) >>= k) c = k c c := rfl

theorem run_ofExcept {α β : Type} {x : Except EditError α} {a : α} (h : x = .ok a)
    (k : α → Editing β) (c : ClassFile) : (Editing.ofExcept x >>= k) c = k a c := by
  subst h
  rfl

theorem spliceAll_single {cb : Callback} {c : ClassFile} {i : Nat} {m : Method}
    (callback : MethodDescriptor) (found : c.methods[i]? = some m) :
    spliceAll cb callback [i] false false c =
      match spliceMethod cb callback c.name m with
      | .error e => (.error e, c)
      | .ok .present => (.ok (true, false), c)
      | .ok .skipped => (.ok (false, false), c)
      | .ok (.spliced code) =>
        (.ok (true, true), { c with methods := c.methods.set i { m with code := some code } }) := by
  unfold spliceAll
  rw [run_get, found]
  dsimp only
  rw [run_bind]
  rcases spliceMethod cb callback c.name m with e | outcome
  · rfl
  · cases outcome <;> rfl

def spliceAnswer (c : ClassFile) (cb : Callback) : CallbackOutcome → Except EditError Bool
  | .present => .ok false
  | .skipped => .error (.missingMethod ⟨c.name, "<init>", cb.method.desc⟩)
  | .spliced _ => .ok true

theorem applyCallback_run {cb : Callback} {c : ClassFile} {i : Nat} {m : Method}
    {callback : MethodDescriptor} (sites : callbackSites cb c = .ok [i])
    (parsed : MethodDescriptor.parse cb.method.desc = .ok callback)
    (found : c.methods[i]? = some m) :
    ((applyCallback cb).run c).1 =
      spliceMethod cb callback c.name m >>= spliceAnswer c cb := by
  show (applyCallback cb c).1 = _
  unfold applyCallback
  rw [run_get, run_ofExcept sites, run_ofExcept (orBadFormat_ok parsed), run_bind,
    spliceAll_single callback found]
  rcases spliceMethod cb callback c.name m with e | outcome
  · rfl
  · cases outcome <;> rfl

theorem callbackSites_named {cb : Callback} {c : ClassFile} {name desc : String} {m : Method}
    (target : cb.target = .method name desc) (found : c.method? name desc = some m) :
    ∃ i, callbackSites cb c = .ok [i] ∧ c.methods[i]? = some m := by
  obtain ⟨fits, i, inside, rfl, first⟩ := List.find?_eq_some_iff_getElem.1 found
  refine ⟨i, ?_, List.getElem?_eq_getElem inside⟩
  have index : c.methods.findIdx? (Method.hasSignature name desc) = some i :=
    List.findIdx?_eq_some_iff_getElem.2
      ⟨inside, fits, fun j before => by simpa using first j before⟩
  rw [callbackSites, target]
  dsimp only
  rw [index]

/-- The class has the method with a body, and a static one only for a static call. -/
def Hookable (c : ClassFile) (name desc : String) (invoke : Opcode) : Prop :=
  ∃ m, c.method? name desc = some m ∧ m.code.isSome ∧
    (invoke ≠ Opcode.invokestatic → m.isStatic = false)

/-- The edit is a callback into one method or a delegate, and the class has what it is tied to. -/
def Ready (c : ClassFile) : Edit → Prop
  | .injectCallback cb =>
    ∃ name desc, cb.target = .method name desc ∧ Hookable c name desc cb.invoke
  | .replaceMethod name desc _ invoke => Hookable c name desc invoke
  | _ => False

/-- Whatever has to be converted converts. A callback that the body calls already is not looked at
again. -/
def Converts (c : ClassFile) : Edit → Prop
  | .injectCallback cb => ∀ name desc, cb.target = .method name desc →
    (∃ m code, c.method? name desc = some m ∧ m.code = some code ∧ code.hasCallOf cb.method) ∨
      ∀ hooked callback, MethodDescriptor.parse desc = .ok hooked →
        MethodDescriptor.parse cb.method.desc = .ok callback → cb.Converts hooked callback
  | .replaceMethod _ desc delegate _ => ∀ hooked d, MethodDescriptor.parse desc = .ok hooked →
    MethodDescriptor.parse delegate.desc = .ok d → d.Converts hooked
  | _ => True

def Checked : Edit → Prop
  | .injectCallback cb => ∀ name desc, cb.target = .method name desc → ∃ hooked callback,
    MethodDescriptor.parse desc = .ok hooked ∧
    MethodDescriptor.parse cb.method.desc = .ok callback ∧
    CallbackFits cb.placement cb.replacesResult hooked callback
  | .replaceMethod _ desc delegate _ => ∃ hooked d, MethodDescriptor.parse desc = .ok hooked ∧
    MethodDescriptor.parse delegate.desc = .ok d ∧ d.params.length ≤ hooked.params.length ∧
    d.params = hooked.params.take d.params.length ∧ (hooked.result.isNone ∨ d.result.isSome)
  | _ => True

theorem desc_of_method? {c : ClassFile} {name desc : String} {m : Method}
    (found : c.method? name desc = some m) : m.desc = desc := by
  have signature := List.find?_some found
  simp only [Method.hasSignature, Bool.and_eq_true, beq_iff_eq] at signature
  exact signature.2

variable {ctx : EditContext} {c : ClassFile}

theorem converts_callback_iff {cb : Callback} {name desc : String} {m : Method} {code : Code}
    {hooked callback : MethodDescriptor} (target : cb.target = .method name desc)
    (found : c.method? name desc = some m) (body : m.code = some code)
    (parsed : MethodDescriptor.parse desc = .ok hooked)
    (parsed' : MethodDescriptor.parse cb.method.desc = .ok callback) :
    (Edit.injectCallback cb).Converts c ↔
      code.hasCallOf cb.method ∨ cb.Converts hooked callback := by
  constructor
  · intro converts
    refine (converts name desc target).imp ?_ fun all => all hooked callback parsed parsed'
    rintro ⟨m', code', found', body', present⟩
    rw [found] at found'
    cases found'
    rw [body] at body'
    cases body'
    exact present
  · rintro converts name' desc' target'
    rw [target] at target'
    cases target'
    refine converts.imp (fun present => ⟨m, code, found, body, present⟩) fun all => ?_
    intro hooked' callback' again again'
    rw [parsed] at again
    rw [parsed'] at again'
    cases again
    cases again'
    exact all

theorem Checked.mismatched_callback {cb : Callback} (checked : (Edit.injectCallback cb).Checked)
    (ready : (Edit.injectCallback cb).Ready c) :
    Mismatched (((Edit.injectCallback cb).apply ctx).run c).1 ↔
      ¬ (Edit.injectCallback cb).Converts c := by
  obtain ⟨name, desc, target, m, found, body, static⟩ := ready
  obtain ⟨code, body⟩ := Option.isSome_iff_exists.1 body
  obtain ⟨hooked, callback, parsed, parsed', fits⟩ := checked name desc target
  obtain ⟨i, sites, standing⟩ := callbackSites_named target found
  have described : m.descriptor = .ok hooked := by
    rw [Method.descriptor, desc_of_method? found, parsed]
  have outcome : Fits (code.hasCallOf cb.method ∨ cb.Converts hooked callback) (fun _ => True)
      (spliceMethod cb callback c.name m >>= spliceAnswer c cb) := by
    apply (fits_spliceMethod body described fits static c.name).bind_pure
    intro outcome matched
    cases outcome with
    | present => exact ⟨false, trivial, rfl⟩
    | skipped => exact absurd rfl matched
    | spliced code => exact ⟨true, trivial, rfl⟩
  rw [converts_callback_iff target found body parsed parsed', ← outcome.mismatched_iff]
  show Mismatched ((applyCallback cb).run c).1 ↔ _
  rw [applyCallback_run sites parsed' standing]

theorem replaceBody_ok {name desc : String} {m : Method} (found : c.method? name desc = some m)
    (code : Code) :
    ∃ b, True ∧ (c.replaceBody name desc code).map Prod.fst = .ok b := by
  unfold ClassFile.replaceBody
  rw [found]
  dsimp only
  split
  · exact ⟨_, trivial, rfl⟩
  · exact ⟨_, trivial, rfl⟩

theorem applyDelegate_run {name desc : String} {m : Method} {hooked : MethodDescriptor}
    (delegate : MemberRef) (invoke : Opcode) (found : c.method? name desc = some m)
    (described : m.descriptor = .ok hooked) :
    ((applyDelegate name desc delegate invoke).run c).1 =
      (delegateBody ("replace " ++ c.name ++ "." ++ name ++ desc) m.isStatic hooked delegate invoke
        >>= fun insns => (c.replaceBody name desc (Code.ofInsns insns)).map Prod.fst) := by
  show (applyDelegate name desc delegate invoke c).1 = _
  unfold applyDelegate
  rw [run_get, found]
  dsimp only
  rw [run_ofExcept (orBadFormat_ok described)]
  rcases delegateBody ("replace " ++ c.name ++ "." ++ name ++ desc) m.isStatic hooked
    delegate invoke with e | insns
  · rfl
  · rw [run_ofExcept rfl]
    show _ = (c.replaceBody name desc (Code.ofInsns insns)).map Prod.fst
    rcases c.replaceBody name desc (Code.ofInsns insns) with e | ⟨replaced, c'⟩
    · rfl
    · rfl

theorem Checked.mismatched_delegate {name desc : String} {delegate : MemberRef} {invoke : Opcode}
    (checked : (Edit.replaceMethod name desc delegate invoke).Checked)
    (ready : (Edit.replaceMethod name desc delegate invoke).Ready c) :
    Mismatched (((Edit.replaceMethod name desc delegate invoke).apply ctx).run c).1 ↔
      ¬ (Edit.replaceMethod name desc delegate invoke).Converts c := by
  obtain ⟨m, found, _, static⟩ := ready
  obtain ⟨hooked, d, parsed, parsed', enough, same, result⟩ := checked
  have described : m.descriptor = .ok hooked := by
    rw [Method.descriptor, desc_of_method? found, parsed]
  have converts : (Edit.replaceMethod name desc delegate invoke).Converts c ↔
      d.Converts hooked := by
    constructor
    · exact fun all => all hooked d parsed parsed'
    · intro converts hooked' d' again again'
      rw [parsed] at again
      rw [parsed'] at again'
      cases again
      cases again'
      exact converts
  have outcome : Fits (d.Converts hooked) (fun _ => True)
      (delegateBody ("replace " ++ c.name ++ "." ++ name ++ desc) m.isStatic hooked delegate invoke
        >>= fun insns => (c.replaceBody name desc (Code.ofInsns insns)).map Prod.fst) :=
    (fits_delegateBody parsed' static enough same result _).bind_pure fun insns _ =>
      replaceBody_ok found (Code.ofInsns insns)
  rw [converts, ← outcome.mismatched_iff]
  show Mismatched ((applyDelegate name desc delegate invoke).run c).1 ↔ _
  rw [applyDelegate_run delegate invoke found described]

end Edit

namespace Mixin

open Edit

variable {t : HookTable} {m : Mixin} {target : String} {r : Renaming} {e : PlannedEdit}

theorem refuse_ok {context : String} {mismatch : Option HookMismatch} {u : Unit}
    (passed : refuse context mismatch = .ok u) : mismatch = none := by
  cases mismatch with
  | none => rfl
  | some mismatch => cases passed

theorem checked_callbackEdit (t : HookTable) (m : Mixin) (target : String) (r : Renaming)
    (s : MixinCallback) : Yields (fun e => e.edit.Checked) (m.callbackEdit t target r s) := by
  unfold callbackEdit
  apply Yields.bind
  intro method _
  dsimp only
  split
  · split
    · exact .bind fun _ failed => nomatch failed
    · apply Yields.bind
      rintro _ ⟨⟩
      apply Yields.bind
      intro mismatch _
      apply Yields.bind
      intro _ _
      apply Yields.ok
      intro name desc constructors
      cases constructors
  · apply Yields.bind
    intro h _
    apply Yields.bind
    rintro _ ⟨⟩
    apply Yields.bind
    intro mismatch checked
    apply Yields.bind
    intro _ passed
    apply Yields.ok
    rintro name desc ⟨⟩
    rw [refuse_ok passed] at checked
    exact callbackFits_of_check checked

theorem checked_replacementEdit (t : HookTable) (m : Mixin) (target : String) (r : Renaming)
    (s : HookUse) : Yields (fun e => e.edit.Checked) (m.replacementEdit t target r s) := by
  unfold replacementEdit
  apply Yields.bind
  intro method _
  apply Yields.bind
  intro h _
  dsimp only
  split
  · exact .error
  · apply Yields.bind
    intro mismatch checked
    apply Yields.bind
    intro _ passed
    apply Yields.ok
    rw [refuse_ok passed] at checked
    exact delegateFits_of_check checked

theorem checked_of_declarative {edit : Edit} (declarative : Declarative edit) : edit.Checked := by
  cases edit with
  | injectCallback cb => exact declarative.elim
  | replaceMethod name desc delegate invoke => exact declarative.elim
  | _ => trivial

theorem checked_of_origin (origin : Origin t m target r e) : e.edit.Checked := by
  rcases origin.cases with declarative | ⟨s, _, made⟩ | ⟨s, _, made⟩ | mem
  · exact checked_of_declarative declarative
  · exact checked_callbackEdit t m target r s e made
  · exact checked_replacementEdit t m target r s e made
  · obtain ⟨c, _, rfl⟩ := eq_of_mem_methodsEdit mem
    trivial

/-- A registered callback into one method or a registered delegate mismatches a class that has what
it is tied to exactly when a value that it passes on does not convert. -/
theorem mismatched_iff_of_resolve {edits : List PlannedEdit} {p : PlannedEdit} {ctx : EditContext}
    {c : ClassFile} (resolved : m.resolve t = .ok edits) (mem : p ∈ edits)
    (ready : p.edit.Ready c) :
    Mismatched ((p.edit.apply ctx).run c).1 ↔ ¬ p.edit.Converts c := by
  obtain ⟨hook, r, parts, _, _, resolves, rfl⟩ := resolve_ok_iff.1 resolved
  have checked := checked_of_origin (resolves.mem_edits.1 mem)
  obtain ⟨stage, owner, edit⟩ := p
  cases edit with
  | injectCallback cb => exact checked.mismatched_callback ready
  | replaceMethod name desc delegate invoke => exact checked.mismatched_delegate ready
  | _ => exact ready.elim

def energyClass : ClassFile :=
  { ClassFile.new "a" (some "java/lang/Object") with
    methods := [⟨⟨0x1⟩, "b", "()I", some (Code.ofInsns
      [.simple Opcode.iconst0, .simple Opcode.ireturn]), []⟩] }

def energyHooks : HookTable :=
  HookTable.ofFile ⟨[⟨"Player", "a", [], [⟨"energy", "a", "b", "()I", none⟩]⟩], [], []⟩

def watchingMixin (desc : String) : Mixin where
  target := "Player"
  compiled := some { ClassFile.new "PlayerMixin" (some "java/lang/Object") with
    methods := [⟨⟨0x1⟩, "watch", desc, some (Code.ofInsns [.simple Opcode.returnVoid]), []⟩] }
  interfaces := []
  fields := []
  getters := []
  setters := []
  invokers := []
  callbacks := [⟨"energy", ⟨"watch", desc, none⟩, .after, false⟩]
  copies := []
  replacements := []
  methods := []

def watchingCallback (desc : String) : Callback :=
  ⟨.method "b" "()I", .after, false, ⟨"a", "watch", desc⟩, Opcode.invokevirtual⟩

def isCallback (cb : Callback) : Edit → Bool
  | .injectCallback cb' => cb' = cb
  | _ => false

theorem mem_of_any_isCallback (cb : Callback) {t : HookTable} {m : Mixin}
    (computed : ((m.resolve t).toOption.any fun edits => edits.any fun p => isCallback cb p.edit) =
      true) : ∃ edits p, m.resolve t = .ok edits ∧ p ∈ edits ∧ p.edit = .injectCallback cb := by
  obtain ⟨edits, found, some_p⟩ := exists_ok_of_any computed
  obtain ⟨p, mem, same⟩ := List.any_eq_true.1 some_p
  refine ⟨edits, p, found, mem, ?_⟩
  unfold isCallback at same
  split at same
  · rename_i other
    rw [other, of_decide_eq_true same]
  · cases same

theorem ready_energyClass (desc : String) :
    (Edit.injectCallback (watchingCallback desc)).Ready energyClass :=
  ⟨"b", "()I", rfl, _, rfl, rfl, fun _ => rfl⟩

theorem fits_energyClass : ∃ edits p, (watchingMixin "(I)V").resolve energyHooks = .ok edits ∧
    p ∈ edits ∧ p.edit = .injectCallback (watchingCallback "(I)V") ∧ p.edit.Ready energyClass ∧
    ¬ Mismatched ((p.edit.apply ⟨Batch.ofList [], Hierarchy.empty⟩).run energyClass).1 := by
  have computed : (((watchingMixin "(I)V").resolve energyHooks).toOption.any fun edits =>
      edits.any fun p => isCallback (watchingCallback "(I)V") p.edit) = true := by
    decide +kernel
  obtain ⟨edits, p, resolved, mem, same⟩ := mem_of_any_isCallback _ computed
  have ready : p.edit.Ready energyClass := same ▸ ready_energyClass "(I)V"
  have hooked : MethodDescriptor.parse "()I" = .ok ⟨[], some .int⟩ := by decide +kernel
  have callback : MethodDescriptor.parse "(I)V" = .ok ⟨[.int], none⟩ := by decide +kernel
  have converts : p.edit.Converts energyClass := by
    rw [same]
    rintro name desc ⟨⟩
    refine .inr fun h cb parsed parsed' => ?_
    rw [hooked] at parsed
    rw [show (watchingCallback "(I)V").method.desc = "(I)V" from rfl, callback] at parsed'
    cases parsed
    cases parsed'
    exact ⟨fun _ => by decide, fun replaces => nomatch replaces⟩
  refine ⟨edits, p, resolved, mem, same, ready, fun mismatched => ?_⟩
  exact (mismatched_iff_of_resolve resolved mem ready).1 mismatched converts

/-- A long parameter cannot take an int, and resolving does not notice. -/
theorem mismatched_energyClass : ¬ ∀ (t : HookTable) (m : Mixin) (edits : List PlannedEdit)
    (p : PlannedEdit) (ctx : EditContext) (c : ClassFile), m.resolve t = .ok edits → p ∈ edits →
    p.edit.Ready c → ¬ Mismatched ((p.edit.apply ctx).run c).1 := by
  intro never
  have computed : (((watchingMixin "(J)V").resolve energyHooks).toOption.any fun edits =>
      edits.any fun p => isCallback (watchingCallback "(J)V") p.edit) = true := by
    decide +kernel
  obtain ⟨edits, p, resolved, mem, same⟩ := mem_of_any_isCallback _ computed
  have ready : p.edit.Ready energyClass := same ▸ ready_energyClass "(J)V"
  apply never _ _ _ p ⟨Batch.ofList [], Hierarchy.empty⟩ _ resolved mem ready
  rw [same]
  exact ⟨"inject watch into a.b()I", .notConvertible .int .long, by decide +kernel⟩

end Mixin

end ClassWeave
