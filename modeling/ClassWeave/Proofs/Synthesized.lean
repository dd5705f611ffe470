import ClassWeave.Proofs.Analysis.Straight
import ClassWeave.Proofs.Idempotence

/-!
# Synthesized bodies are well typed

Getters, setters, invokers and delegating bodies are straight. Each pushes the receiver and the
parameters that it passes on, reaches its member with operands of the types of the descriptor, and
comes to the return with the result and nothing else on the stack. So the frames of such a body can
be computed under every hierarchy.
-/

set_option autoImplicit false

namespace ClassWeave

open Edit Synthesis

structure Insn.Constant (insn : Insn) (t : FieldType) (value : Int64) : Prop where
  plain : insn.isPlain = true
  finds : ∀ Has receiver result s, insn.Finds Has receiver result s
  step : ∀ (m : MethodSite) index site locals base,
    m.execute index site insn ⟨locals, base⟩ = .ok ⟨locals, .ofFieldType t :: base⟩
  pushes : ∃ v, (v = .long value ∨ v = .int value.toInt32) ∧
    ∀ rest s, Machine.run (insn :: rest) s = Machine.run rest (s.push v)

theorem constant_of_made {t : FieldType} {value : Int64} {context : String} {insn : Insn}
    (made : integerConstant t value context = .ok insn) : insn.Constant t value := by
  unfold integerConstant at made
  split at made
  · cases made
    refine ⟨?_, fun Has receiver result s => ?_, fun m index site locals base =>
      m.execute_longConstant index site value, _, .inl rfl, Machine.run_longConstant value⟩
    · exact Insn.longConstant_cases (P := fun insn => insn.isPlain = true) rfl rfl (fun _ => rfl) _
    · exact Insn.longConstant_cases (P := fun insn => insn.Finds Has receiver result s)
        (fun isReturn => nomatch isReturn) (fun isReturn => nomatch isReturn) (fun _ => trivial) _
  · split at made
    · rename_i livesAsInt
      cases made
      refine ⟨?_, fun Has receiver result s => ?_, fun m index site locals base => ?_, _, .inr rfl,
        Machine.run_intConstant _⟩
      · exact Insn.intConstant_cases (P := fun insn => insn.isPlain = true)
          (fun op small => congrArg not (Opcode.neverPasses_of_small small))
          (fun _ => rfl) (fun _ => rfl) (fun _ => rfl) _
      · refine Insn.intConstant_cases (P := fun insn => insn.Finds Has receiver result s)
          (fun op small isReturn => ?_) (fun _ => trivial) (fun _ => trivial) (fun _ => trivial) _
        have other := (Bool.or_eq_false_iff.1 (Opcode.neverPasses_of_small small)).1
        cases other.symm.trans isReturn
      · rw [(FieldType.ofFieldType_livesAsInt livesAsInt).2]
        exact m.execute_intConstant index site _
    · cases made

section

variable {Has : FieldType → VType → Prop} (m : MethodSite) {receiver : VType}
  {result : Option FieldType} {locals : List VType} (stack : List VType)

theorem multiply_cases {t : FieldType} {factor : Int64} {context : String} {insns : List Insn}
    (made : multiply t factor context = .ok insns) :
    ∃ constant op, insns = [constant, .simple op] ∧ constant.Constant t factor ∧
      (t = .long ∧ op = Opcode.lmul ∨ t = .int ∧ op = Opcode.imul) := by
  unfold multiply at made
  cases t with
  | long =>
    obtain ⟨_, ⟨⟩, made⟩ := bind_ok_iff.1 made
    obtain ⟨constant, isConstant, made⟩ := bind_ok_iff.1 made
    cases made
    exact ⟨constant, _, rfl, constant_of_made isConstant, .inl ⟨rfl, rfl⟩⟩
  | int =>
    obtain ⟨_, ⟨⟩, made⟩ := bind_ok_iff.1 made
    obtain ⟨constant, isConstant, made⟩ := bind_ok_iff.1 made
    cases made
    exact ⟨constant, _, rfl, constant_of_made isConstant, .inr ⟨rfl, rfl⟩⟩
  | _ => cases made

theorem MethodSite.runs_multiply {t : FieldType} {factor : Int64} {context : String}
    {insns : List Insn} (made : multiply t factor context = .ok insns) :
    t.isReference = false ∧
      m.Runs (Insn.Finds Has receiver result) insns ⟨locals, .ofFieldType t :: stack⟩
        ⟨locals, .ofFieldType t :: stack⟩ := by
  obtain ⟨constant, op, rfl, known, isMul⟩ := multiply_cases made
  have push : m.Runs (Insn.Finds Has receiver result) [constant]
      ⟨locals, .ofFieldType t :: stack⟩ ⟨locals, .ofFieldType t :: .ofFieldType t :: stack⟩ :=
    .single (known.finds ..) fun index site => known.step m index site locals _
  rcases isMul with ⟨rfl, rfl⟩ | ⟨rfl, rfl⟩
  · exact ⟨rfl, push.append (.single (fun isReturn => nomatch isReturn) fun index site =>
      m.replaceTop_eq index locals [.long, .long] [.long] stack)⟩
  · exact ⟨rfl, push.append (.single (fun isReturn => nomatch isReturn) fun index site =>
      m.replaceTop_eq index locals [.int, .int] [.int] stack)⟩

theorem MethodSite.runs_scale (typing : Typing Has) {t : FieldType} {factor : Option Int64}
    {context : String} {insns : List Insn} (made : scale t factor context = .ok insns)
    {v : VType} (has : Has t v) :
    m.Runs (Insn.Finds Has receiver result) insns ⟨locals, v :: stack⟩ ⟨locals, v :: stack⟩ := by
  cases factor with
  | none =>
    cases made
    exact .nil _
  | some factor =>
    obtain ⟨primitive, run⟩ := m.runs_multiply stack made
    rw [typing.primitive t v primitive has]
    exact run

theorem MethodSite.runs_get (isStatic : Bool) {field : MemberRef} {t : FieldType}
    (parsed : FieldType.parse field.desc = .ok t) :
    m.Runs (Insn.Finds Has receiver result)
      [.field (if isStatic then Opcode.getstatic else Opcode.getfield) field]
      ⟨locals, (if isStatic then [] else [receiver]) ++ stack⟩
      ⟨locals, .ofFieldType t :: stack⟩ := by
  have described : orMalformed (FieldType.parse field.desc) = .ok t := congrArg orMalformed parsed
  cases isStatic with
  | true =>
    refine .single ⟨t, [], stack, parsed, .nil, rfl⟩ fun index site => ?_
    rw [execute, MethodSite.field, described]
    exact m.replaceTop_eq index locals [] [_] stack
  | false =>
    refine .single ⟨t, [], stack, parsed, .nil, rfl⟩ fun index site => ?_
    rw [execute, MethodSite.field, described]
    exact m.replaceTop_eq index locals [receiver] [_] stack

theorem MethodSite.runs_put (isStatic : Bool) {field : MemberRef} {t : FieldType}
    (parsed : FieldType.parse field.desc = .ok t) {v : VType} (has : Has t v) :
    m.Runs (Insn.Finds Has receiver result)
      [.field (if isStatic then Opcode.putstatic else Opcode.putfield) field]
      ⟨locals, v :: (if isStatic then [] else [receiver]) ++ stack⟩ ⟨locals, stack⟩ := by
  have described : orMalformed (FieldType.parse field.desc) = .ok t := congrArg orMalformed parsed
  cases isStatic with
  | true =>
    refine .single ⟨t, [v], stack, parsed, .cons has .nil, rfl⟩ fun index site => ?_
    rw [execute, MethodSite.field, described]
    exact m.replaceTop_eq index locals [v] [] stack
  | false =>
    refine .single ⟨t, [v], stack, parsed, .cons has .nil, rfl⟩ fun index site => ?_
    rw [execute, MethodSite.field, described]
    exact m.replaceTop_eq index locals [v, receiver] [] stack

theorem MethodSite.runs_passResult (typing : Typing Has) {given wanted : Option FieldType}
    {context : String} {absent : Mismatch} {insns : List Insn}
    (made : passResult given wanted context absent = .ok insns) :
    ∃ values, List.Forall₂ Has wanted.toList values ∧
      m.Runs (Insn.Finds Has receiver result) insns
        ⟨locals, (given.map VType.ofFieldType).toList ++ stack⟩ ⟨locals, values ++ stack⟩ := by
  cases wanted with
  | none =>
    obtain rfl : (dropValue given).toList = insns := by
      cases given <;> cases made <;> rfl
    exact ⟨[], .nil, m.runs_dropValue stack given⟩
  | some wanted =>
    cases given with
    | none => cases made
    | some given =>
      obtain ⟨w, fits, casts⟩ := typing.exists_casts made (typing.exact given)
      exact ⟨[w], .cons fits .nil, m.runs_cast stack casts⟩

theorem MethodSite.execute_return {values : List VType}
    (has : List.Forall₂ Has result.toList values) :
    ∃ u, ∀ index site, m.execute index site (returnOf result) ⟨locals, values⟩ = .ok u := by
  cases result with
  | none =>
    obtain rfl := List.forall₂_nil_left_iff.1 has
    exact ⟨_, fun index site => m.replaceTop_eq index locals [] [] []⟩
  | some t =>
    obtain ⟨v, rest, _, nothing, rfl⟩ := List.forall₂_cons_left_iff.1 has
    obtain rfl := List.forall₂_nil_left_iff.1 nothing
    refine ⟨⟨locals, []⟩, fun index site => ?_⟩
    cases t <;> exact m.replaceTop_eq index locals [v] [] []

end

section

variable {insns : List Insn} {context : String}

theorem plain_receiver (isStatic : Bool) : ∀ insn ∈ receiver isStatic, insn.isPlain = true := by
  cases isStatic <;> simp [receiver, Insn.isPlain]

theorem plain_loadParams (params : List FieldType) (slot : UInt16) :
    ∀ insn ∈ loadParams params slot, insn.isPlain = true := by
  induction params generalizing slot with
  | nil => simp [loadParams]
  | cons t rest ih => simpa [loadParams, Insn.isPlain] using ih _

theorem plain_convert {given wanted : FieldType} (made : convert given wanted context = .ok insns) :
    ∀ insn ∈ insns, insn.isPlain = true := by
  obtain ⟨_, _, ⟨rfl, _⟩ | ⟨name, rfl, _⟩⟩ :=
    FieldType.typing.exists_casts made (FieldType.typing.exact given)
  · simp
  · simp [Insn.isPlain]

theorem plain_convertArgs {pairs : List (FieldType × FieldType)} {slot : UInt16}
    (made : convertArgs context pairs slot = .ok insns) : ∀ insn ∈ insns, insn.isPlain = true := by
  induction pairs generalizing slot insns with
  | nil =>
    cases made
    simp
  | cons pair rest ih =>
    obtain ⟨cast, converted, made⟩ := bind_ok_iff.1 made
    obtain ⟨more, others, made⟩ := bind_ok_iff.1 made
    cases made
    rw [List.cons_append, List.forall_mem_cons, List.forall_mem_append]
    exact ⟨rfl, plain_convert converted, ih others⟩

theorem plain_dropValue (t : Option FieldType) :
    ∀ insn ∈ (dropValue t).toList, insn.isPlain = true := by
  cases t with
  | none => simp [dropValue]
  | some t => cases wide : t.isWide <;> simp [dropValue, wide] <;> decide

theorem plain_passResult {given wanted : Option FieldType} {absent : Mismatch}
    (made : passResult given wanted context absent = .ok insns) :
    ∀ insn ∈ insns, insn.isPlain = true := by
  unfold passResult at made
  split at made
  · exact plain_convert made
  · cases made
    exact plain_dropValue _
  · cases made

theorem plain_scale {t : FieldType} {factor : Option Int64}
    (made : scale t factor context = .ok insns) : ∀ insn ∈ insns, insn.isPlain = true := by
  cases factor with
  | none =>
    cases made
    simp
  | some factor =>
    obtain ⟨constant, op, rfl, known, ⟨_, rfl⟩ | ⟨_, rfl⟩⟩ := multiply_cases made
    · exact List.forall_mem_cons.2 ⟨known.plain, by decide⟩
    · exact List.forall_mem_cons.2 ⟨known.plain, by decide⟩

end

namespace Edit

/-- The signature of the method whose body the edit generates. -/
def generates? : Edit → Option (String × String)
  | .addGetter name desc _ _ _ | .addSetter name desc _ _ _ | .addInvoker name desc _ _
  | .replaceMethod name desc _ _ => some (name, desc)
  | _ => none

def callee? : Edit → Option MemberRef
  | .addInvoker _ _ target _ => some target
  | .replaceMethod _ _ delegate _ => some delegate
  | _ => none

/-- The instruction gets to the member that the body is for. -/
def Reaches (e : Edit) (access : Insn) : Prop :=
  match e with
  | .addGetter _ _ field _ _ | .addSetter _ _ field _ _ => ∃ op, access = .field op field
  | .addInvoker _ _ target _ | .replaceMethod _ _ target _ =>
    ∃ op ofInterface, access = .method op target ofInterface
  | _ => False

/-- The parameters of a method that the body passes on. A delegate may take less than all. -/
def passedOn (e : Edit) (d : MethodDescriptor) : List FieldType :=
  match e with
  | .replaceMethod _ _ delegate _ =>
    match MethodDescriptor.parse delegate.desc with
    | .ok taken => d.params.take taken.params.length
    | .error _ => []
  | _ => d.params

/-- What comes between the parameters and the access: the constant of an invoker that has one, the
product of a setter with a factor, nothing else. -/
def PushesLast (e : Edit) (between : List Insn) : Prop :=
  match e with
  | .addInvoker _ _ _ (some value) => ∃ constant v, between = [constant] ∧
    (v = .long value ∨ v = .int value.toInt32) ∧
    ∀ rest s, Machine.run (constant :: rest) s = Machine.run rest (s.push v)
  | .addSetter _ _ _ _ (some _) => True
  | _ => between = []

/-- The body pushes the receiver if the member has one, then the parameters that it passes on from
`first` on, and gets to the member. -/
def Passes (e : Edit) (d : MethodDescriptor) (first : UInt16) (locals : List VType)
    (body : List Insn) : Prop :=
  ∃ direct args values between access behind,
    body = receiver direct ++ args ++ between ++ access :: behind ∧
    Forwards locals (e.passedOn d) first args values ∧ e.PushesLast between ∧ e.Reaches access

/-- What is made for a method runs from the state in which it is entered to its return, which finds
the result. -/
structure Generates (e : Edit) (owner : String) (d : MethodDescriptor) (isStatic : Bool)
    (body : List Insn) : Prop where
  plain : ∀ insn ∈ body, insn.isPlain = true
  runs : ∀ (m : MethodSite) locals, (isStatic = false → (locals[0]?).getD .top = .object owner) →
    List.Forall₂ FieldType.Describes d.params (paramValues locals d.params (firstSlot isStatic)) →
    e.Passes d (if isStatic then 0 else 1) locals body ∧
      ∃ values, List.Forall₂ FieldType.Describes d.result.toList values ∧
        m.Runs (Insn.Finds FieldType.Describes (.object owner) d.result) body ⟨locals, []⟩
          ⟨locals, values⟩

section

variable {owner context name desc : String} {d : MethodDescriptor} {insns : List Insn}

theorem generates_getter {field : MemberRef} {isStatic : Bool} {factor : Option Int64}
    (made : getterBody context desc field isStatic factor = .ok insns) :
    ∃ d body, MethodDescriptor.parse desc = .ok d ∧ insns = body ++ [returnOf d.result] ∧
      (Edit.addGetter name desc field isStatic factor).Generates owner d false body := by
  obtain ⟨⟨params, result⟩, described, made⟩ := bind_ok_iff.1 made
  have parsed := orBadFormat_ok_iff.1 described
  dsimp only at made
  split at made
  · rename_i result
    obtain ⟨t, described, made⟩ := bind_ok_iff.1 made
    obtain ⟨scaled, scales, made⟩ := bind_ok_iff.1 made
    obtain ⟨converted, converts, made⟩ := bind_ok_iff.1 made
    cases made
    let access := Insn.field (if isStatic then Opcode.getstatic else Opcode.getfield) field
    refine ⟨_, receiver isStatic ++ [access] ++ scaled ++ converted, parsed, by simp [access], ?_,
      fun m locals this _ => ⟨?_, ?_⟩⟩
    · simp only [List.forall_mem_append, List.forall_mem_singleton]
      exact ⟨⟨⟨plain_receiver isStatic, rfl⟩, plain_scale scales⟩, plain_convert converts⟩
    · exact ⟨isStatic, [], [], [], access, scaled ++ converted, by simp, .nil _, rfl, _, rfl⟩
    · have typing := FieldType.typing
      obtain ⟨w, fits, casts⟩ := typing.exists_casts converts (typing.exact t)
      exact ⟨[w], .cons fits .nil, (((m.runs_receiver [] isStatic fun _ => this rfl).append
        (m.runs_get [] isStatic (orBadFormat_ok_iff.1 described))).append
        (m.runs_scale [] typing scales (typing.exact t))).append (m.runs_cast [] casts)⟩
  · cases made

theorem generates_setter {field : MemberRef} {isStatic : Bool} {factor : Option Int64}
    (made : setterBody context desc field isStatic factor = .ok insns) :
    ∃ d body, MethodDescriptor.parse desc = .ok d ∧ insns = body ++ [returnOf d.result] ∧
      (Edit.addSetter name desc field isStatic factor).Generates owner d false body := by
  obtain ⟨⟨params, result⟩, described, made⟩ := bind_ok_iff.1 made
  have parsed := orBadFormat_ok_iff.1 described
  dsimp only at made
  split at made
  · rename_i value
    split at made
    · cases made
    · rename_i noResult
      obtain rfl : result = none := by simpa using noResult
      obtain ⟨t, described, made⟩ := bind_ok_iff.1 made
      obtain ⟨converted, converts, made⟩ := bind_ok_iff.1 made
      obtain ⟨scaled, scales, made⟩ := bind_ok_iff.1 made
      cases made
      let access := Insn.field (if isStatic then Opcode.putstatic else Opcode.putfield) field
      refine ⟨_, receiver isStatic ++ loadParams [value] 1 ++ converted ++ scaled ++ [access],
        parsed, by simp [access, returnOf], ?_, fun m locals this held => ?_⟩
      · simp only [List.forall_mem_append, List.forall_mem_singleton]
        exact ⟨⟨⟨⟨plain_receiver isStatic, plain_loadParams _ _⟩, plain_convert converts⟩,
          plain_scale scales⟩, rfl⟩
      · have typing := FieldType.typing
        have has := (List.forall₂_cons.1 held).1
        obtain ⟨w, fits, casts⟩ := typing.exists_casts converts has
        refine ⟨⟨isStatic, .var value.loadOpcode 1 :: converted, [w], scaled, access, [], by
          simp [loadParams], ?_, ?_, _, rfl⟩, [], .nil, ?_⟩
        · have forwards : Forwards locals [value] 1 (.var value.loadOpcode 1 :: converted ++ [])
              [w] := .cons casts (.nil _)
          rwa [List.append_nil] at forwards
        · cases factor with
          | none => cases scales; rfl
          | some factor => trivial
        · exact ((((m.runs_receiver [] isStatic fun _ => this rfl).append
            (m.runs_load _ typing has)).append (m.runs_cast _ casts)).append
            (m.runs_scale _ typing scales fits)).append
            (m.runs_put [] isStatic (orBadFormat_ok_iff.1 described) fits)
  · cases made

theorem exists_passedOn (e : Edit) (d : MethodDescriptor) :
    ∃ k, e.passedOn d = d.params.take k := by
  have all : d.params = d.params.take d.params.length := (List.take_length).symm
  cases e with
  | replaceMethod name desc delegate invoke =>
    unfold passedOn
    dsimp only
    split
    · exact ⟨_, rfl⟩
    · exact ⟨0, rfl⟩
  | _ => exact ⟨_, all⟩

/-- A body that passes its parameters on to a method, with a constant behind them or not, and the
result of the method back. -/
theorem generates_call {e : Edit} {op : Opcode} {target : MemberRef} {ofInterface isStatic : Bool}
    {callee : MethodDescriptor} {args between passed : List Insn} {absent : Mismatch}
    (called : MethodDescriptor.parse target.desc = .ok callee) (named : target.name ≠ "<init>")
    (dispatched : (op == Opcode.invokestatic) = false → isStatic = false)
    (small : firstSlot isStatic + slotCount d.params < 65536)
    (plainArgs : ∀ insn ∈ args, insn.isPlain = true)
    (plainBetween : ∀ insn ∈ between, insn.isPlain = true)
    (passes : passResult callee.result d.result context absent = .ok passed)
    (last : e.PushesLast between) (reaches : e.Reaches (.method op target ofInterface))
    (arguments : ∀ locals,
      List.Forall₂ FieldType.Describes d.params
        (paramValues locals d.params (firstSlot isStatic)) → ∃ values pushed,
      Forwards locals (e.passedOn d) (if isStatic then 0 else 1) args values ∧
      List.Forall₂ FieldType.Describes callee.params (values ++ pushed) ∧
      ∀ (m : MethodSite) stack, m.Runs (Insn.Finds FieldType.Describes (.object owner) d.result)
        between ⟨locals, stack⟩ ⟨locals, pushed.reverse ++ stack⟩) :
    e.Generates owner d isStatic (receiver (op == Opcode.invokestatic) ++ args ++ between ++
      [.method op target ofInterface] ++ passed) where
  plain := by
    simp only [List.forall_mem_append, List.forall_mem_singleton]
    exact ⟨⟨⟨⟨plain_receiver _, plainArgs⟩, plainBetween⟩, rfl⟩, plain_passResult passes⟩
  runs m locals this held := by
    have typing := FieldType.typing
    obtain ⟨values, pushed, forwards, fit, push⟩ := arguments locals held
    obtain ⟨k, isPrefix⟩ := exists_passedOn e d
    have heldPassed := List.forall₂_take k held
    rw [paramValues_take, ← isPrefix, ← toNat_firstSlot] at heldPassed
    have smallPassed : (if isStatic then (0 : UInt16) else 1).toNat + slotCount (e.passedOn d) <
        65536 := by
      have fewer := slotCount_take d.params k
      rw [toNat_firstSlot, isPrefix]
      omega
    let Ready := Insn.Finds FieldType.Describes (.object owner) d.result
    have push' : m.Runs Ready (receiver (op == Opcode.invokestatic)) ⟨locals, []⟩
        ⟨locals, (if op == Opcode.invokestatic then [] else [.object owner]) ++ []⟩ :=
      m.runs_receiver [] _ fun direct => this (dispatched direct)
    have call : m.Runs Ready [.method op target ofInterface]
        ⟨locals, pushed.reverse ++ (values.reverse ++
          ((if op == Opcode.invokestatic then [] else [.object owner]) ++ []))⟩
        ⟨locals, (callee.result.map VType.ofFieldType).toList ++ []⟩ := by
      rw [← List.append_assoc, ← List.append_assoc, ← List.reverse_append]
      exact m.runs_method [] called named fit
    have ends : ∃ results, List.Forall₂ FieldType.Describes d.result.toList results ∧
        m.Runs Ready passed ⟨locals, (callee.result.map VType.ofFieldType).toList ++ []⟩
          ⟨locals, results ++ []⟩ := m.runs_passResult [] typing passes
    obtain ⟨results, fits, ends⟩ := ends
    rw [List.append_nil results] at ends
    refine ⟨⟨op == Opcode.invokestatic, args, values, between, .method op target ofInterface,
      passed, by simp, forwards, last, reaches⟩, results, fits, ?_⟩
    exact (((push'.append (forwards.runs m _ typing heldPassed smallPassed)).append
      (push m _)).append call).append ends

theorem callFrom_dispatched (c : ClassFile) (h : Hierarchy) (target : MemberRef) :
    ((callFrom c h target).1 == Opcode.invokestatic) = false := by
  unfold callFrom instanceCall
  split
  · split
    · rfl
    · dsimp only
      split <;> rfl
  · split <;> rfl

/-- An invoker converts its parameters to the first ones of the target, and a constant to the last
one if there is a dummy. -/
theorem invokerBody_cases {c : ClassFile} {h : Hierarchy} {target : MemberRef}
    {dummy : Option Int64} (made : invokerBody c h context desc target dummy = .ok insns) :
    ∃ d callee args between passed, MethodDescriptor.parse desc = .ok d ∧
      MethodDescriptor.parse target.desc = .ok callee ∧
      convertArgs context (d.params.zip callee.params) 1 = .ok args ∧
      passResult callee.result d.result context (.returnsVoid target) = .ok passed ∧
      insns = .var Opcode.aload 0 :: args ++ between ++
        .method (callFrom c h target).1 target (callFrom c h target).2 :: passed ++
        [returnOf d.result] ∧
      match dummy with
      | none => callee.params.length = d.params.length ∧ between = []
      | some value => ∃ front t constant, callee.params = front ++ [t] ∧
        front.length = d.params.length ∧ integerConstant t value context = .ok constant ∧
        between = [constant] := by
  obtain ⟨d, described, made⟩ := bind_ok_iff.1 made
  have parsed := orBadFormat_ok_iff.1 described
  obtain ⟨callee, described, made⟩ := bind_ok_iff.1 made
  have called := orBadFormat_ok_iff.1 described
  refine ⟨d, callee, ?_⟩
  by_cases count : callee.params.length ≠ d.params.length + if dummy.isSome then 1 else 0
  · rw [if_pos count] at made
    cases made
  · rw [if_neg count] at made
    rw [not_not] at count
    obtain ⟨args, converts, made⟩ := bind_ok_iff.1 made
    cases dummy with
    | none =>
      dsimp only at made
      obtain ⟨_, ⟨⟩, made⟩ := bind_ok_iff.1 made
      obtain ⟨passed, passes, made⟩ := bind_ok_iff.1 made
      cases made
      exact ⟨args, [], passed, parsed, called, converts, passes, rfl, count, rfl⟩
    | some value =>
      rcases List.eq_nil_or_concat callee.params with none | ⟨front, t, whole⟩
      · rw [none] at count
        cases count
      · rw [List.concat_eq_append] at whole
        have isLast : callee.params.getLast? = some t := by
          rw [whole]
          exact List.getLast?_concat
        rw [whole, List.length_append] at count
        dsimp only at made
        rw [isLast] at made
        obtain ⟨between, constant, made⟩ := bind_ok_iff.1 made
        cases isConstant : integerConstant t value context with
        | error e =>
          rw [isConstant] at constant
          cases constant
        | ok insn =>
          rw [isConstant] at constant
          cases constant
          obtain ⟨passed, passes, made⟩ := bind_ok_iff.1 made
          cases made
          exact ⟨args, _, passed, parsed, called, converts, passes, rfl, front, t,
            insn, whole, Nat.succ.inj count, isConstant, rfl⟩

theorem generates_invoker {c : ClassFile} {h : Hierarchy} {target : MemberRef}
    {dummy : Option Int64} (named : target.name ≠ "<init>")
    (room : ∀ d, MethodDescriptor.parse desc = .ok d → firstSlot false + slotCount d.params < 65536)
    (made : invokerBody c h context desc target dummy = .ok insns) :
    ∃ d body, MethodDescriptor.parse desc = .ok d ∧ insns = body ++ [returnOf d.result] ∧
      (Edit.addInvoker name desc target dummy).Generates owner d false body := by
  obtain ⟨d, callee, args, between, passed, parsed, called, converts, passes, rfl, last⟩ :=
    invokerBody_cases made
  have small := room d parsed
  have direct := callFrom_dispatched c h target
  refine ⟨d, receiver ((callFrom c h target).1 == Opcode.invokestatic) ++ args ++ between ++
    [.method (callFrom c h target).1 target (callFrom c h target).2] ++ passed, parsed,
    by simp [direct, receiver], ?_⟩
  have typing := FieldType.typing
  cases dummy with
  | none =>
    obtain ⟨count, rfl⟩ := last
    refine generates_call called named (fun _ => rfl) small (plain_convertArgs converts) (by simp)
      passes rfl ⟨_, _, rfl⟩ fun locals held => ?_
    obtain ⟨values, forwards, fit⟩ := typing.exists_forwards (Nat.le_of_eq count.symm) converts held
      small
    rw [← count, List.take_length] at fit
    exact ⟨values, [], forwards, by rwa [List.append_nil], fun m stack => .nil _⟩
  | some value =>
    obtain ⟨front, t, constant, whole, count, isConstant, rfl⟩ := last
    have known := constant_of_made isConstant
    obtain ⟨v, isValue, pushes⟩ := known.pushes
    refine generates_call called named (fun _ => rfl) small (plain_convertArgs converts)
      (by simp [known.plain]) passes ⟨constant, v, rfl, isValue, pushes⟩ ⟨_, _, rfl⟩
      fun locals held => ?_
    have enough : d.params.length ≤ callee.params.length := by
      rw [whole, List.length_append]
      omega
    obtain ⟨values, forwards, fit⟩ := typing.exists_forwards enough converts held small
    rw [whole, ← count, List.take_left] at fit
    refine ⟨values, [.ofFieldType t], forwards, ?_, fun m stack => .single (known.finds ..)
      fun index site => known.step m index site locals stack⟩
    rw [whole]
    exact List.rel_append fit (.cons (typing.exact t) .nil)

theorem generates_delegate {delegate : MemberRef} {invoke : Opcode} {isStatic : Bool}
    (named : delegate.name ≠ "<init>") (small : firstSlot isStatic + slotCount d.params < 65536)
    (made : delegateBody context isStatic d delegate invoke = .ok insns) :
    ∃ body, insns = body ++ [returnOf d.result] ∧
      (Edit.replaceMethod name desc delegate invoke).Generates owner d isStatic body := by
  obtain ⟨callee, described, made⟩ := bind_ok_iff.1 made
  have called := orBadFormat_ok_iff.1 described
  by_cases static : invoke ≠ Opcode.invokestatic ∧ isStatic = true
  · rw [if_pos static] at made
    cases made
  · rw [if_neg static] at made
    dsimp only at made
    split at made
    · cases made
    · rename_i fits
      rw [not_or, not_lt, not_not] at fits
      obtain ⟨passed, passes, made⟩ := bind_ok_iff.1 made
      cases made
      have taken : (Edit.replaceMethod name desc delegate invoke).passedOn d = callee.params := by
        rw [passedOn, called]
        exact fits.2.symm
      have dispatched (direct : (invoke == Opcode.invokestatic) = false) : isStatic = false := by
        rw [beq_eq_false_iff_ne] at direct
        simpa [direct] using static
      rw [← fits.2]
      refine ⟨receiver (invoke == Opcode.invokestatic) ++
        loadParams callee.params (if isStatic then 0 else 1) ++ [] ++
        [.method invoke delegate false] ++ passed, by simp, ?_⟩
      refine generates_call called named dispatched small (plain_loadParams _ _) (by simp) passes
        rfl ⟨_, _, rfl⟩ fun locals held => ?_
      have fewer := slotCount_take d.params callee.params.length
      have fit := List.forall₂_take callee.params.length held
      rw [paramValues_take, ← fits.2, ← toNat_firstSlot] at fit
      rw [← fits.2] at fewer
      refine ⟨_, [], ?_, by rwa [List.append_nil], fun m stack => .nil _⟩
      rw [taken]
      exact forwards_loadParams _ _ (by rw [toNat_firstSlot]; omega)

def Made (e : Edit) (name desc : String) (c' : ClassFile) : Prop :=
  ∃ m d body, c'.method? name desc = some m ∧ MethodDescriptor.parse desc = .ok d ∧
    m.code = some (Code.ofInsns (body ++ [returnOf d.result])) ∧
    e.Generates c'.name d m.isStatic body

theorem made_of_synthesized {e : Edit} {ctx : EditContext} {c c' : ClassFile} {kind : String}
    {make : ClassFile → String → Except EditError (List Insn)}
    (same : e.apply ctx = addSynthesized kind name desc make)
    (each : ∀ context insns, make c context = .ok insns →
      ∃ d body, MethodDescriptor.parse desc = .ok d ∧ insns = body ++ [returnOf d.result] ∧
        e.Generates c.name d false body)
    (run : (e.apply ctx).run c = (.ok true, c')) : e.Made name desc c' := by
  rw [same] at run
  replace run := (addSynthesized_run kind name desc make c).symm.trans run
  split at run
  · cases run
  · rename_i absent
    split at run
    · cases run
    · rename_i insns made
      cases run
      obtain ⟨d, body, parsed, rfl, generates⟩ := each _ insns made
      have dynamic : (⟨Access.publicBit⟩ : Access).has Access.staticBit = false := by decide
      rw [addMethod_snd absent]
      refine ⟨_, d, body, method?_added absent, parsed, rfl, ?_⟩
      rw [Method.isStatic, Synthesis.method, dynamic]
      exact generates

theorem made_of_delegate {ctx : EditContext} {c c' : ClassFile} {delegate : MemberRef}
    {invoke : Opcode} (named : delegate.name ≠ "<init>")
    (room : ∀ isStatic d, MethodDescriptor.parse desc = .ok d →
      firstSlot isStatic + slotCount d.params < 65536)
    (run : ((Edit.replaceMethod name desc delegate invoke).apply ctx).run c = (.ok true, c')) :
    (Edit.replaceMethod name desc delegate invoke).Made name desc c' := by
  obtain ⟨m, d, insns, found, described, made, replaced⟩ := applyDelegate_ok_iff.1 run
  have parsed : MethodDescriptor.parse desc = .ok d := by
    rw [← (method?_signature found).2]
    exact described
  obtain ⟨body, rfl, generates⟩ := generates_delegate named (room _ d parsed) made
  rw [ClassFile.replaceBody, found] at replaced
  dsimp only at replaced
  split at replaced
  · cases replaced
  · cases replaced
    have found' := method?_updateMethod name desc (fun m =>
      { m with
        access := m.access.remove (Access.abstractBit ||| Access.nativeBit)
        code := some (Code.ofInsns (body ++ [returnOf d.result])) }) (fun _ => rfl) c
    rw [found] at found'
    refine ⟨_, d, body, found', parsed, rfl, ?_⟩
    rw [Method.isStatic, Access.isStatic_remove]
    exact generates

theorem made_of_run {e : Edit} {ctx : EditContext} {c c' : ClassFile}
    (kind : e.generates? = some (name, desc))
    (callee : ∀ member ∈ e.callee?, member.name ≠ "<init>")
    (small : ∀ d, MethodDescriptor.parse desc = .ok d → slotCount d.params < 65535)
    (run : (e.apply ctx).run c = (.ok true, c')) : e.Made name desc c' := by
  have room (isStatic : Bool) (d : MethodDescriptor)
      (parsed : MethodDescriptor.parse desc = .ok d) :
      firstSlot isStatic + slotCount d.params < 65536 := by
    have slots := small d parsed
    cases isStatic <;> simp [firstSlot] <;> omega
  cases e with
  | addGetter method desc' field isStatic factor =>
    cases kind
    have same : apply ctx (.addGetter name desc field isStatic factor) =
      addSynthesized "getter" name desc fun _ context =>
        getterBody context desc field isStatic factor := rfl
    exact made_of_synthesized same (fun _ _ made => generates_getter made) run
  | addSetter method desc' field isStatic factor =>
    cases kind
    have same : apply ctx (.addSetter name desc field isStatic factor) =
      addSynthesized "setter" name desc fun _ context =>
        setterBody context desc field isStatic factor := rfl
    exact made_of_synthesized same (fun _ _ made => generates_setter made) run
  | addInvoker method desc' target dummy =>
    cases kind
    have same : apply ctx (.addInvoker name desc target dummy) =
      addSynthesized "invoker" name desc fun c context =>
        invokerBody c ctx.hierarchy context desc target dummy := rfl
    exact made_of_synthesized same
      (fun _ _ made => generates_invoker (callee target rfl) (room false) made) run
  | replaceMethod name' desc' delegate invoke =>
    cases kind
    exact made_of_delegate (callee delegate rfl) room run
  | _ => cases kind

/-- Values that lie one behind the other, each wide one in two slots, are found where the parameters
of their types are. -/
theorem paramValues_expanded (front back : List VType) (params : List FieldType) :
    paramValues (front ++ (params.map VType.ofFieldType).flatMap
      (fun t => if t.isWide then [t, .top] else [t]) ++ back) params front.length =
      params.map VType.ofFieldType := by
  induction params generalizing front with
  | nil => rfl
  | cons t rest ih =>
    have size : front.length + t.size.toNat = (front ++ if (VType.ofFieldType t).isWide then
        [VType.ofFieldType t, .top] else [VType.ofFieldType t]).length := by
      cases t <;> simp <;> rfl
    have here : (front ++ ((VType.ofFieldType t :: rest.map VType.ofFieldType).flatMap
        fun t => if t.isWide then [t, .top] else [t]) ++ back)[front.length]? =
          some (VType.ofFieldType t) := by
      rw [List.append_assoc, List.getElem?_append_right (Nat.le_refl _), Nat.sub_self,
        List.flatMap_cons]
      cases t <;> rfl
    rw [paramValues, size, List.map_cons, here, List.flatMap_cons, ← List.append_assoc, ih]
    rfl

theorem paramValues_entry (owner : String) (access : Access) (d : MethodDescriptor)
    (named : name ≠ "<init>") (maxLocals : Nat) :
    let locals := expandLocals (entryLocals owner access name d) maxLocals
    paramValues locals d.params (firstSlot (access.has Access.staticBit)) =
        d.params.map VType.ofFieldType ∧
      (access.has Access.staticBit = false → (locals[0]?).getD .top = .object owner) := by
  have plain : (name == "<init>" && owner != objectClass) = false := by
    rw [beq_eq_false_iff_ne.2 named, Bool.false_and]
  dsimp only
  unfold entryLocals expandLocals
  rw [plain]
  cases static : access.has Access.staticBit with
  | true => exact ⟨paramValues_expanded [] _ d.params, fun no => nomatch no⟩
  | false => exact ⟨paramValues_expanded [.object owner] _ d.params, fun _ => rfl⟩

/-- A method that an edit has made a body for has a well-typed one: its frames are computed under
every hierarchy, each access, each call and the return find what their descriptors say, and the
parameters are passed on in order. -/
theorem frames_of_made {e : Edit} {ctx : EditContext} {c c' : ClassFile}
    (kind : e.generates? = some (name, desc)) (named : name ≠ "<init>")
    (callee : ∀ member ∈ e.callee?, member.name ≠ "<init>")
    (small : ∀ d, MethodDescriptor.parse desc = .ok d → slotCount d.params < 65535)
    (run : (e.apply ctx).run c = (.ok true, c')) (h : Hierarchy) (withFrames : Bool) :
    ∃ m d body code p done code', c'.method? name desc = some m ∧
      MethodDescriptor.parse desc = .ok d ∧ m.code = some code ∧
      code.insns = body ++ [returnOf d.result] ∧
      Reframe.prepare h c'.name m code = .ok p ∧ p.settle = .ok done ∧
      reframe h c'.name m code withFrames = .ok code' ∧
      e.Passes d (if m.isStatic then 0 else 1) p.entry.locals body ∧
      ∀ i insn, code.insns[i]? = some insn → ∃ s, stateAt done.states i = some s ∧
        insn.Finds FieldType.Describes (.object c'.name) d.result s := by
  obtain ⟨m, d, body, found, parsed, isCode, generates⟩ := made_of_run kind callee small run
  obtain ⟨rfl, rfl⟩ := method?_signature found
  have straight : Straight (body ++ [returnOf d.result]) body d.returnOpcode := by
    refine ⟨rfl, generates.plain, ?_⟩
    unfold MethodDescriptor.returnOpcode
    cases d.result with
    | none => rfl
    | some t => cases t <;> rfl
  have held : List.Forall₂ FieldType.Describes d.params (d.params.map VType.ofFieldType) :=
    List.forall₂_map_right_iff.2 (List.forall₂_same.2 fun t _ => FieldType.typing.exact t)
  have entered (site : MethodSite) (maxLocals : Nat) :
      let locals := expandLocals (entryLocals c'.name m.access m.name d) maxLocals
      e.Passes d (if m.isStatic then 0 else 1) locals body ∧
        ∃ t, site.Runs (Insn.Finds FieldType.Describes (.object c'.name) d.result) body
            ⟨locals, []⟩ t ∧
          Insn.Finds FieldType.Describes (.object c'.name) d.result (.simple d.returnOpcode) t ∧
          ∃ u, ∀ index label, site.execute index label (.simple d.returnOpcode) t = .ok u := by
    obtain ⟨entry, this⟩ := paramValues_entry c'.name m.access d named maxLocals
    obtain ⟨passes, values, fits, run⟩ := generates.runs site _ this (entry ▸ held)
    exact ⟨passes, _, run, fun _ => ⟨rfl, fits⟩, site.execute_return fits⟩
  obtain ⟨p, done, code', prepared, settled, framed, ⟨maxLocals, entry⟩, states⟩ :=
    straight.exists_settled parsed (fun site maxLocals => (entered site maxLocals).2) h withFrames
  exact ⟨m, d, body, _, p, done, code', found, parsed, isCode, rfl, prepared, settled, framed,
    entry ▸ (entered p.analysis.method maxLocals).1, states⟩

end

/-- An invoker with a wide argument, a cast on the way in and out, and a constant in the end. -/
def bridge : Edit :=
  .addInvoker "call" "(JLjava/lang/Object;)Ljava/lang/String;"
    ⟨"a", "work", "(JLjava/lang/String;I)Ljava/lang/Object;"⟩ (some 7)

theorem frames_of_made_bridge : ∃ c' m code code',
    (bridge.apply noContext).run (ClassFile.new "a" (some objectClass)) = (.ok true, c') ∧
      c'.method? "call" "(JLjava/lang/Object;)Ljava/lang/String;" = some m ∧
      m.code = some code ∧ reframe Hierarchy.empty c'.name m code true = .ok code' := by
  have run : (bridge.apply noContext).run (ClassFile.new "a" (some objectClass)) =
      (.ok true, ((bridge.apply noContext).run (ClassFile.new "a" (some objectClass))).2) :=
    Prod.ext (by decide +kernel) rfl
  have parsed : MethodDescriptor.parse "(JLjava/lang/Object;)Ljava/lang/String;" =
      .ok ⟨[.long, .object "java/lang/Object"], some (.object "java/lang/String")⟩ := by
    decide +kernel
  have small (d : MethodDescriptor)
      (described : MethodDescriptor.parse "(JLjava/lang/Object;)Ljava/lang/String;" = .ok d) :
      slotCount d.params < 65535 := by
    obtain rfl := Except.ok.inj (parsed.symm.trans described)
    decide
  obtain ⟨m, _, _, code, _, _, code', found, _, isCode, _, _, _, framed, _⟩ :=
    frames_of_made rfl (by decide) (by decide) small run Hierarchy.empty true
  exact ⟨_, m, code, code', run, found, isCode, framed⟩

end Edit

end ClassWeave
