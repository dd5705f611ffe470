import Mathlib.Data.List.Forall2
import Mathlib.Tactic.Common
import ClassWeave.Analysis.Effect
import ClassWeave.Edit.Callbacks
import ClassWeave.Proofs.Analysis.Locals
import ClassWeave.Proofs.Analysis.References
import ClassWeave.Proofs.Execution
import ClassWeave.Proofs.Slots

/-!
# Operands of synthesized sequences

A sequence runs from one typed state to another, and each of its accesses, calls and returns finds
its operands. Loads of parameters push what the slots hold, a conversion leaves a value of the type
that is wanted, and what lies below on the stack is never touched.
-/

set_option autoImplicit false

namespace ClassWeave

/-- The instructions lead from one state to another wherever they stand, and each of them is ready
for the state that it meets. -/
inductive MethodSite.Runs (m : MethodSite) (Ready : Insn → State → Prop) :
    List Insn → State → State → Prop
  | nil (s : State) : Runs m Ready [] s s
  | cons {insn : Insn} {rest : List Insn} {s t u : State} (ready : Ready insn s)
      (step : ∀ index site, m.execute index site insn s = .ok t) (more : Runs m Ready rest t u) :
      Runs m Ready (insn :: rest) s u

/-- What it takes to say that values are of a type: the value of a primitive type is the one that
the analysis has for it, and every reference is an object. -/
structure Typing (Has : FieldType → VType → Prop) : Prop where
  exact : ∀ t, Has t (.ofFieldType t)
  primitive : ∀ t v, t.isReference = false → Has t v → v = .ofFieldType t
  upcast : ∀ t v, t.isReference = true → Has t v → Has (.object objectClass) v

/-- A value of the type or of one that is assignable to it. -/
def Hierarchy.Admits (h : Hierarchy) (t : FieldType) (v : VType) : Prop :=
  v = .ofFieldType t ∨ t.isReference = true ∧
    (v = .null ∨ ∃ name, v = .object name ∧ h.isAssignable t.internalName name = true)

/-- Exactly a value of the type, or any object where an object is wanted. -/
def FieldType.Describes (t : FieldType) (v : VType) : Prop :=
  v = .ofFieldType t ∨ t = .object objectClass ∧ ∃ name, v = .object name

theorem VType.ofFieldType_reference {t : FieldType} (reference : t.isReference = true) :
    VType.ofFieldType t = .object t.internalName := by
  cases t <;> first | rfl | cases reference

theorem FieldType.ofFieldType_livesAsInt {t : FieldType} (isInt : t.livesAsInt = true) :
    t.isReference = false ∧ VType.ofFieldType t = .int := by
  cases t <;> first | exact ⟨rfl, rfl⟩ | cases isInt

theorem Hierarchy.typing (h : Hierarchy) : Typing h.Admits where
  exact _ := .inl rfl
  primitive t v primitive has := by
    rcases has with exact | ⟨reference, _⟩
    · exact exact
    · cases primitive.symm.trans reference
  upcast t v reference has := by
    have object (name : String) : h.Admits (.object objectClass) (.object name) := by
      exact .inr ⟨rfl, .inr ⟨name, rfl, h.assignable_object _⟩⟩
    rcases has with rfl | ⟨_, rfl | ⟨name, rfl, _⟩⟩
    · rw [VType.ofFieldType_reference reference]
      exact object _
    · exact .inr ⟨rfl, .inl rfl⟩
    · exact object name

theorem FieldType.typing : Typing FieldType.Describes where
  exact _ := .inl rfl
  primitive t v primitive has := by
    rcases has with exact | ⟨rfl, _⟩
    · exact exact
    · cases primitive
  upcast t v reference has := by
    refine .inr ⟨rfl, ?_⟩
    rcases has with rfl | ⟨_, object⟩
    · exact ⟨_, VType.ofFieldType_reference reference⟩
    · exact object

def Insn.takesReceiver : Insn → Bool
  | .field op _ => op == Opcode.getfield || op == Opcode.putfield
  | .method op _ _ => op != Opcode.invokestatic
  | _ => false

/-- An access or call finds its operands on the stack, in order and of the types of its descriptor,
above the receiver if it takes one; a return is that of the result and finds nothing else. -/
def Insn.Finds (Has : FieldType → VType → Prop) (receiver : VType) (result : Option FieldType)
    (insn : Insn) (s : State) : Prop :=
  let object := if insn.takesReceiver then [receiver] else []
  match insn with
  | .field op member => ∃ t args rest, FieldType.parse member.desc = .ok t ∧
      List.Forall₂ Has (if op = Opcode.putfield ∨ op = Opcode.putstatic then [t] else []) args ∧
      s.stack = args ++ object ++ rest
  | .method _ member _ => ∃ d args rest, MethodDescriptor.parse member.desc = .ok d ∧
      List.Forall₂ Has d.params args ∧ s.stack = args.reverse ++ object ++ rest
  | .simple op => op.isReturn = true →
      .simple op = Synthesis.returnOf result ∧ List.Forall₂ Has result.toList s.stack
  | _ => True

section

variable {P : Insn → Prop}

theorem Opcode.neverPasses_of_small {op : Opcode}
    (small : op ∈ ([2, 3, 4, 5, 6, 7, 8] : List Opcode)) : op.neverPasses = false := by
  simp only [List.mem_cons, List.not_mem_nil, or_false] at small
  rcases small with rfl | rfl | rfl | rfl | rfl | rfl | rfl <;> rfl

theorem Insn.intConstant_cases
    (small : ∀ op ∈ ([2, 3, 4, 5, 6, 7, 8] : List Opcode), P (.simple op))
    (byte : ∀ n, P (.intOp Opcode.bipush n)) (short : ∀ n, P (.intOp Opcode.sipush n))
    (other : ∀ v, P (.ldc (.int v))) (v : Int32) : P (Insn.intConstant v) := by
  unfold intConstant
  split
  · rename_i bounds
    refine small _ ?_
    have listed := Machine.eq_of_small bounds.1 bounds.2
    simp only [List.mem_cons, List.not_mem_nil, or_false] at listed
    rcases listed with rfl | rfl | rfl | rfl | rfl | rfl | rfl <;> decide
  · split
    · exact byte v
    · split
      · exact short v
      · exact other v

theorem Insn.longConstant_cases (zero : P (.simple Opcode.lconst0))
    (one : P (.simple Opcode.lconst1)) (other : ∀ v, P (.ldc (.long v))) (v : Int64) :
    P (Insn.longConstant v) := by
  unfold longConstant
  split
  · exact zero
  · split
    · exact one
    · exact other v

end

/-- What the slots of the parameters hold, from `slot` on. -/
def paramValues (locals : List VType) : List FieldType → Nat → List VType
  | [], _ => []
  | t :: rest, slot =>
    (locals[slot]?).getD .top :: paramValues locals rest (slot + t.size.toNat)

/-- The instructions leave the value on top as it is, or cast it. -/
def Casts (insns : List Insn) (v w : VType) : Prop :=
  insns = [] ∧ w = v ∨ ∃ name, insns = [.typeOp Opcode.checkcast name] ∧ w = .object name

/-- The instructions push a value for each parameter from `slot` on, in order: each is loaded from
the slot of its own parameter and at most cast. -/
inductive Forwards (locals : List VType) :
    List FieldType → UInt16 → List Insn → List VType → Prop
  | nil (slot : UInt16) : Forwards locals [] slot [] []
  | cons {t : FieldType} {params : List FieldType} {slot : UInt16} {cast insns : List Insn}
      {v : VType} {values : List VType} (casts : Casts cast ((locals[slot.toNat]?).getD .top) v)
      (rest : Forwards locals params (slot + t.size) insns values) :
      Forwards locals (t :: params) slot (.var t.loadOpcode slot :: cast ++ insns) (v :: values)

namespace State

variable {s : State} {slot : Nat} {v : VType}

theorem getD_grown (s : State) (slot : Nat) (v : VType) (k : Nat) :
    ((s.grown slot v)[k]?).getD .top = (s.locals[k]?).getD .top := by
  rw [grown, List.getElem?_append]
  split
  · rfl
  · rename_i past
    rw [List.getElem?_replicate, List.getElem?_eq_none (Nat.le_of_not_lt past)]
    split <;> rfl

theorem lt_length_grown (s : State) (slot : Nat) (v : VType) : slot < (s.grown slot v).length := by
  have taken : 0 < v.slots := by
    unfold VType.slots
    split <;> decide
  rw [length_grown]
  omega

theorem locals_store (narrow : ∀ before, before + 1 = slot →
      ((s.locals[before]?).getD .top).isWide = false) :
    (s.store slot v).locals = if v.isWide then ((s.grown slot v).set slot v).set (slot + 1) .top
      else (s.grown slot v).set slot v := by
  have unspoiled : spoil (s.grown slot v) slot = s.grown slot v := by
    cases slot with
    | zero => rfl
    | succ before =>
      have here := narrow before rfl
      rw [← getD_grown s (before + 1) v] at here
      refine if_neg ?_
      cases found : (s.grown (before + 1) v)[before]? with
      | none => decide
      | some w =>
        rw [found] at here
        exact ne_true_of_eq_false here
  rw [locals_store_eq, unspoiled]

theorem getD_store (narrow : ∀ before, before + 1 = slot →
      ((s.locals[before]?).getD .top).isWide = false) {k : Nat} (behind : k ≠ slot + 1) :
    ((s.store slot v).locals[k]?).getD .top =
      if k = slot then v else (s.locals[k]?).getD .top := by
  have stored : ((s.store slot v).locals[k]?).getD .top =
      (((s.grown slot v).set slot v)[k]?).getD .top := by
    rw [locals_store narrow]
    split
    · rw [List.getElem?_set_ne behind.symm]
    · rfl
  rw [stored]
  split
  · rename_i here
    rw [here, List.getElem?_set_self (lt_length_grown s slot v), Option.getD_some]
  · rename_i other
    rw [List.getElem?_set_ne (Ne.symm other), getD_grown]

end State
namespace MethodSite

section

variable {m : MethodSite} {Ready Ready' : Insn → State → Prop} {insns front back : List Insn}
  {s t u : State}

theorem Runs.single {insn : Insn} (ready : Ready insn s)
    (step : ∀ index site, m.execute index site insn s = .ok t) : m.Runs Ready [insn] s t :=
  .cons ready step (.nil t)

theorem Runs.append (first : m.Runs Ready front s t) (second : m.Runs Ready back t u) :
    m.Runs Ready (front ++ back) s u := by
  induction first with
  | nil => exact second
  | cons ready step _ ih => exact .cons ready step (ih second)

end

section

variable {locals base : List VType}

theorem replaceTop_eq (m : MethodSite) (index : Nat) (locals popped pushes base : List VType) :
    m.replaceTop index popped.length pushes ⟨locals, popped ++ base⟩ =
      .ok ⟨locals, pushes ++ base⟩ := by
  rw [replaceTop, if_neg (by simp)]
  simp

variable (m : MethodSite) (index : Nat) (site : Option Label)

theorem execute_load (t : FieldType) (slot : UInt16) :
    m.execute index site (.var t.loadOpcode slot) ⟨locals, base⟩ =
      .ok ⟨locals, (if t.isReference then (locals[slot.toNat]?).getD .top
        else .ofFieldType t) :: base⟩ := by
  cases t <;> exact m.replaceTop_eq index locals [] [_] base

theorem execute_store (t : FieldType) (slot : UInt16) (v : VType) :
    m.execute index site (.var t.storeOpcode slot) ⟨locals, v :: base⟩ =
      .ok (State.store ⟨locals, base⟩ slot.toNat v) := by
  cases t <;> rfl

theorem execute_checkcast (name : String) (v : VType) :
    m.execute index site (.typeOp Opcode.checkcast name) ⟨locals, v :: base⟩ =
      .ok ⟨locals, .object name :: base⟩ :=
  m.replaceTop_eq index locals [v] [.object name] base

theorem execute_drop (t : FieldType) :
    m.execute index site (.simple (if t.isWide then Opcode.pop2 else Opcode.pop))
      ⟨locals, .ofFieldType t :: base⟩ = .ok ⟨locals, base⟩ := by
  cases t <;> rfl

theorem execute_intConstant (v : Int32) :
    m.execute index site (Insn.intConstant v) ⟨locals, base⟩ = .ok ⟨locals, .int :: base⟩ := by
  have pushed : m.replaceTop index 0 [.int] ⟨locals, base⟩ = .ok ⟨locals, .int :: base⟩ :=
    m.replaceTop_eq index locals [] [.int] base
  refine Insn.intConstant_cases (P := fun insn => m.execute index site insn ⟨locals, base⟩ = _)
    (fun op mem => ?_) (fun _ => pushed) (fun _ => pushed) (fun _ => pushed) v
  simp only [List.mem_cons, List.not_mem_nil, or_false] at mem
  rcases mem with rfl | rfl | rfl | rfl | rfl | rfl | rfl <;> exact pushed

theorem execute_longConstant (v : Int64) :
    m.execute index site (Insn.longConstant v) ⟨locals, base⟩ = .ok ⟨locals, .long :: base⟩ := by
  have pushed : m.replaceTop index 0 [.long] ⟨locals, base⟩ = .ok ⟨locals, .long :: base⟩ :=
    m.replaceTop_eq index locals [] [.long] base
  exact Insn.longConstant_cases (P := fun insn => m.execute index site insn ⟨locals, base⟩ = _)
    pushed pushed (fun _ => pushed) v

theorem execute_method {op : Opcode} {member : MemberRef} {ofInterface : Bool}
    {d : MethodDescriptor} (parsed : MethodDescriptor.parse member.desc = .ok d)
    (named : member.name ≠ "<init>") {args : List VType} (count : args.length = d.params.length)
    (receiver : VType) :
    m.execute index site (.method op member ofInterface)
      ⟨locals, args.reverse ++ (if op != Opcode.invokestatic then [receiver] else []) ++ base⟩ =
      .ok ⟨locals, (d.result.map VType.ofFieldType).toList ++ base⟩ := by
  have popped (below : List VType) : m.replaceTop index d.params.length []
      ⟨locals, args.reverse ++ below⟩ = .ok ⟨locals, below⟩ := by
    rw [← count, ← List.length_reverse]
    exact m.replaceTop_eq index locals args.reverse [] below
  rw [execute, call, parsed, List.append_assoc]
  dsimp only [orMalformed, Except.mapError, bind, Except.bind]
  rw [popped]
  by_cases static : op = Opcode.invokestatic
  · subst static
    cases d.result <;> simp [pure, Except.pure]
  · cases d.result <;> simp [static, named, pure, Except.pure]

end

end MethodSite

open Edit Synthesis

section

variable {Has : FieldType → VType → Prop} (m : MethodSite)
  {receiver : VType} {result : Option FieldType} {locals : List VType} (stack : List VType)

theorem Typing.loaded_eq (typing : Typing Has) {t : FieldType} {v : VType} (has : Has t v) :
    (if t.isReference then v else .ofFieldType t) = v := by
  cases reference : t.isReference with
  | true => rfl
  | false => exact (typing.primitive t v reference has).symm

theorem MethodSite.runs_load (typing : Typing Has) {t : FieldType} {slot : UInt16}
    (has : Has t ((locals[slot.toNat]?).getD .top)) :
    m.Runs (Insn.Finds Has receiver result) [.var t.loadOpcode slot] ⟨locals, stack⟩
      ⟨locals, (locals[slot.toNat]?).getD .top :: stack⟩ := by
  refine .single trivial fun index site => ?_
  rw [m.execute_load, typing.loaded_eq has]

theorem MethodSite.runs_cast {insns : List Insn} {v w : VType} (casts : Casts insns v w) :
    m.Runs (Insn.Finds Has receiver result) insns ⟨locals, v :: stack⟩ ⟨locals, w :: stack⟩ := by
  rcases casts with ⟨rfl, rfl⟩ | ⟨name, rfl, rfl⟩
  · exact .nil _
  · exact .single trivial fun index site => m.execute_checkcast index site name v

theorem Forwards.runs (typing : Typing Has) {params : List FieldType} {slot : UInt16}
    {insns : List Insn} {values : List VType} (forwards : Forwards locals params slot insns values)
    (held : List.Forall₂ Has params (paramValues locals params slot.toNat))
    (small : slot.toNat + slotCount params < 65536) :
    m.Runs (Insn.Finds Has receiver result) insns ⟨locals, stack⟩
      ⟨locals, values.reverse ++ stack⟩ := by
  induction forwards generalizing stack with
  | nil slot => exact .nil _
  | @cons t params slot cast insns v values casts _ ih =>
    obtain ⟨has, held⟩ := List.forall₂_cons.1 held
    rw [← toNat_add_size small] at held
    have behind : (slot + t.size).toNat + slotCount params < 65536 := by
      rw [toNat_add_size small]
      rw [slotCount_cons] at small
      omega
    rw [List.reverse_cons, List.append_assoc]
    exact ((m.runs_load stack typing has).append (m.runs_cast stack casts)).append
      (ih (v :: stack) held behind)

theorem Typing.exists_casts (typing : Typing Has) {given wanted : FieldType} {context : String}
    {insns : List Insn} (made : convert given wanted context = .ok insns) {v : VType}
    (has : Has given v) : ∃ w, Has wanted w ∧ Casts insns v w := by
  unfold convert at made
  split at made
  · rename_i direct
    cases made
    refine ⟨v, ?_, .inl ⟨rfl, rfl⟩⟩
    rcases direct with rfl | ⟨fromInt, toInt⟩
    · exact has
    · obtain ⟨primitive, isInt⟩ := FieldType.ofFieldType_livesAsInt fromInt
      rw [typing.primitive given v primitive has, isInt,
        ← (FieldType.ofFieldType_livesAsInt toInt).2]
      exact typing.exact wanted
  · split at made
    · rename_i references
      split at made
      · rename_i object
        cases made
        rw [object]
        exact ⟨v, typing.upcast given v references.1 has, .inl ⟨rfl, rfl⟩⟩
      · cases made
        refine ⟨.object wanted.internalName, ?_, .inr ⟨_, rfl, rfl⟩⟩
        rw [← VType.ofFieldType_reference references.2]
        exact typing.exact wanted
    · cases made

theorem paramValues_take (params : List FieldType) (slot k : Nat) :
    (paramValues locals params slot).take k = paramValues locals (params.take k) slot := by
  induction params generalizing slot k with
  | nil => simp [paramValues]
  | cons t rest ih => cases k <;> simp [paramValues, ih]

theorem paramValues_congr {locals' : List VType} {params : List FieldType} {slot : Nat}
    (same : ∀ k < slot + slotCount params, (locals[k]?).getD .top = (locals'[k]?).getD .top) :
    paramValues locals params slot = paramValues locals' params slot := by
  induction params generalizing slot with
  | nil => rfl
  | cons t rest ih =>
    have taken : 0 < t.size.toNat := by
      unfold FieldType.size
      split <;> decide
    rw [slotCount_cons] at same
    rw [paramValues, paramValues, same slot (by omega), ih fun k before => same k (by omega)]

theorem forwards_loadParams (params : List FieldType) (slot : UInt16)
    (small : slot.toNat + slotCount params < 65536) :
    Forwards locals params slot (loadParams params slot)
      (paramValues locals params slot.toNat) := by
  induction params generalizing slot with
  | nil => exact .nil slot
  | cons t rest ih =>
    have next := toNat_add_size small
    rw [slotCount_cons] at small
    have more := ih (slot + t.size) (by omega)
    rw [next] at more
    exact .cons (.inl ⟨rfl, rfl⟩) more

theorem Typing.exists_forwards (typing : Typing Has) {context : String}
    {given wanted : List FieldType} {slot : UInt16} {insns : List Insn}
    (count : given.length ≤ wanted.length)
    (made : convertArgs context (given.zip wanted) slot = .ok insns)
    (held : List.Forall₂ Has given (paramValues locals given slot.toNat))
    (small : slot.toNat + slotCount given < 65536) :
    ∃ values, Forwards locals given slot insns values ∧
      List.Forall₂ Has (wanted.take given.length) values := by
  induction given generalizing wanted slot insns with
  | nil =>
    cases made
    exact ⟨[], .nil slot, .nil⟩
  | cons t given ih =>
    cases wanted with
    | nil => cases count
    | cons u wanted =>
      obtain ⟨cast, converted, made⟩ := bind_ok_iff.1 made
      obtain ⟨rest, more, made⟩ := bind_ok_iff.1 made
      cases made
      obtain ⟨has, held⟩ := List.forall₂_cons.1 held
      have next := toNat_add_size small
      rw [slotCount_cons] at small
      rw [← next] at held
      obtain ⟨values, forwards, fit⟩ :=
        ih (Nat.le_of_succ_le_succ count) more held (by omega)
      obtain ⟨w, fits, casts⟩ := typing.exists_casts converted has
      exact ⟨w :: values, .cons casts forwards, .cons fits fit⟩

theorem MethodSite.runs_receiver (isStatic : Bool)
    (this : isStatic = false → (locals[0]?).getD .top = receiver) :
    m.Runs (Insn.Finds Has receiver result) (Edit.receiver isStatic) ⟨locals, stack⟩
      ⟨locals, (if isStatic then [] else [receiver]) ++ stack⟩ := by
  cases isStatic with
  | true => exact .nil _
  | false =>
    refine .single trivial fun index site => ?_
    rw [← this rfl]
    exact m.execute_load index site (.object "") 0

theorem MethodSite.runs_dropValue (t : Option FieldType) :
    m.Runs (Insn.Finds Has receiver result) (dropValue t).toList
      ⟨locals, (t.map VType.ofFieldType).toList ++ stack⟩ ⟨locals, stack⟩ := by
  cases t with
  | none => exact .nil _
  | some t =>
    refine .single (fun isReturn => ?_) fun index site => m.execute_drop index site t
    cases wide : t.isWide <;> rw [wide] at isReturn <;> cases isReturn

theorem MethodSite.runs_method {op : Opcode} {member : MemberRef} {ofInterface : Bool}
    {d : MethodDescriptor} (parsed : MethodDescriptor.parse member.desc = .ok d)
    (named : member.name ≠ "<init>") {args : List VType} (fit : List.Forall₂ Has d.params args) :
    m.Runs (Insn.Finds Has receiver result) [.method op member ofInterface]
      ⟨locals, args.reverse ++ (if op == Opcode.invokestatic then [] else [receiver]) ++ stack⟩
      ⟨locals, (d.result.map VType.ofFieldType).toList ++ stack⟩ := by
  have object : (if op == Opcode.invokestatic then [] else [receiver]) =
      if op != Opcode.invokestatic then [receiver] else [] := by
    rw [bne]
    cases op == Opcode.invokestatic <;> rfl
  rw [object]
  exact .single ⟨d, args, stack, parsed, fit, rfl⟩ fun index site =>
    m.execute_method index site parsed named fit.length_eq.symm receiver

end

end ClassWeave
