import ClassWeave.Proofs.Additions
import ClassWeave.Proofs.Execution
import ClassWeave.Proofs.Multiplier
import ClassWeave.Proofs.Renaming
import ClassWeave.Proofs.Resolution

/-!
# Encoded accessors

The factor of a setter undoes the factor of a getter, whatever multiplier the hook of the field
names, so long as it has an inverse. Behind a setter with a value a getter returns that value.
-/

set_option autoImplicit false

namespace ClassWeave

open Machine

/-! What the bodies of accessors do. -/

namespace Edit

inductive Scalable : FieldType → String → Prop where
  | int : Scalable .int "I"
  | long : Scalable .long "J"

variable {t : FieldType} {desc : String}

theorem Scalable.parse (type : Scalable t desc) : FieldType.parse desc = .ok t := by
  cases type <;> decide +kernel

theorem Scalable.int_or_long (type : Scalable t desc) : ¬ (t ≠ .int ∧ t ≠ .long) := by
  cases type <;> decide

theorem Scalable.parse_getter (type : Scalable t desc) :
    MethodDescriptor.parse ("()" ++ desc) = .ok ⟨[], some t⟩ := by
  cases type <;> decide +kernel

theorem Scalable.parse_setter (type : Scalable t desc) :
    MethodDescriptor.parse ("(" ++ desc ++ ")V") = .ok ⟨[t], none⟩ := by
  cases type <;> decide +kernel

theorem convert_self (t : FieldType) (context : String) : Synthesis.convert t t context = .ok [] :=
  if_pos (.inl rfl)

theorem Scalable.of_desc (type : desc = "I" ∨ desc = "J") : ∃ t, Scalable t desc := by
  rcases type with rfl | rfl
  · exact ⟨_, .int⟩
  · exact ⟨_, .long⟩

theorem Scalable.desc_field (type : Scalable t desc) (r : Renaming) : r.desc desc = desc := by
  apply r.desc_of_unmarked
  cases type <;> decide

theorem Scalable.desc_getter (type : Scalable t desc) (r : Renaming) :
    r.desc ("()" ++ desc) = "()" ++ desc := by
  apply r.desc_of_unmarked
  cases type <;> decide

theorem Scalable.desc_setter (type : Scalable t desc) (r : Renaming) :
    r.desc ("(" ++ desc ++ ")V") = "(" ++ desc ++ ")V" := by
  apply r.desc_of_unmarked
  cases type <;> decide

/-- A value that may stand in a field of a scalable type. -/
inductive Holds : FieldType → Value → Prop where
  | int (a : Int32) : Holds .int (.int a)
  | long (a : Int64) : Holds .long (.long a)

theorem Scalable.holds (type : Scalable t desc) {v : Value} (typed : v.HasDesc desc) :
    Holds t v := by
  cases type <;> cases v <;> simp_all [Value.HasDesc, Holds.int, Holds.long]

theorem Holds.times {v : Value} (held : Holds t v) (factor : Option Int64) :
    Holds t (v.times factor) := by
  cases held <;> cases factor <;> constructor

theorem run_scale (type : Scalable t desc) (factor : Option Int64) :
    ∃ insns, (∀ context, scale t factor context = .ok insns) ∧
      ∀ (v : Value) (rest : List Insn) (s : Machine), Holds t v →
        run (insns ++ rest) (s.push v) = run rest (s.push (v.times factor)) := by
  cases factor with
  | none =>
    refine ⟨[], fun _ => rfl, fun v rest s _ => ?_⟩
    cases v <;> rfl
  | some factor =>
    cases type with
    | int =>
      refine ⟨[Insn.intConstant factor.toInt32, .simple Opcode.imul], fun _ => rfl, ?_⟩
      rintro _ rest s ⟨a⟩
      exact (run_intConstant _ _ _).trans (run_step rfl rfl)
    | long =>
      refine ⟨[Insn.longConstant factor, .simple Opcode.lmul], fun _ => rfl, ?_⟩
      rintro _ rest s ⟨a⟩
      exact (run_longConstant _ _ _).trans (run_step rfl rfl)

theorem run_returnOf {v : Value} (held : Holds t v) (s : Machine) :
    run [Synthesis.returnOf t] (s.push v) = some (some v, s.store) := by
  cases held <;> rfl

theorem run_load {v : Value} (held : Holds t v) {slot : UInt16} {s : Machine}
    (placed : s.locals.lookup slot = some v) (rest : List Insn) :
    run (.var t.loadOpcode slot :: rest) s = run rest (s.push v) := by
  apply run_step rfl
  rw [step, placed]
  cases held <;> rfl

def holder (this : Nat) (isStatic : Bool) : Option Nat := if isStatic then none else some this

def addressed (s : Machine) (this : Nat) (isStatic : Bool) : Machine :=
  if isStatic then s else s.push (.reference this)

theorem run_receiver {this : Nat} {s : Machine}
    (placed : s.locals.lookup 0 = some (.reference this)) (isStatic : Bool) (rest : List Insn) :
    run (receiver isStatic ++ rest) s = run rest (addressed s this isStatic) := by
  cases isStatic with
  | true => rfl
  | false =>
    apply run_step rfl
    rw [step, placed]
    rfl

theorem run_read (s : Machine) (this : Nat) {isStatic : Bool} {field : MemberRef} {v : Value}
    (held : s.store (holder this isStatic) field = some v) (rest : List Insn) :
    run (.field (if isStatic then Opcode.getstatic else Opcode.getfield) field :: rest)
      (addressed s this isStatic) = run rest (s.push v) := by
  apply run_step rfl
  cases isStatic with
  | true => exact congrArg (Option.map s.push) held
  | false => exact congrArg (Option.map s.push) held

theorem run_write (s : Machine) (this : Nat) (isStatic : Bool) (field : MemberRef) (v : Value)
    (rest : List Insn) :
    run (.field (if isStatic then Opcode.putstatic else Opcode.putfield) field :: rest)
      ((addressed s this isStatic).push v) =
        run rest { s with store := s.store.write (holder this isStatic) field v } := by
  cases isStatic <;> exact run_step rfl rfl

theorem call_getterBody (type : Scalable t desc) (field : MemberRef) (typed : field.desc = desc)
    (isStatic : Bool) (factor : Option Int64) :
    ∃ body, (∀ context, getterBody context ("()" ++ desc) field isStatic factor = .ok body) ∧
      ∀ (this : Nat) (store : Store) (v : Value), Holds t v →
        store (holder this isStatic) field = some v →
        call body this [] store = some (some (v.times factor), store) := by
  obtain ⟨insns, scaled, multiplied⟩ := run_scale type factor
  let access := if isStatic then Opcode.getstatic else Opcode.getfield
  refine ⟨receiver isStatic ++ .field access field :: insns ++ [] ++ [Synthesis.returnOf t],
    fun context => ?_, fun this store v fits held => ?_⟩
  · have parsed : FieldType.parse field.desc = .ok t := typed ▸ type.parse
    apply bind_ok_iff.2 ⟨_, congrArg orBadFormat type.parse_getter, ?_⟩
    apply bind_ok_iff.2 ⟨_, congrArg orBadFormat parsed, ?_⟩
    exact bind_ok_iff.2 ⟨_, scaled context, bind_ok_iff.2 ⟨_, convert_self t context, rfl⟩⟩
  · let called : Machine := ⟨[], [(0, .reference this)], store⟩
    simp only [List.append_assoc, List.nil_append, List.cons_append]
    calc run (receiver isStatic ++ .field access field :: (insns ++ [Synthesis.returnOf t])) called
        = run (insns ++ [Synthesis.returnOf t]) (called.push v) := by
          rw [run_receiver rfl, run_read called this held]
      _ = some (some (v.times factor), store) := by
          rw [multiplied v _ _ fits]
          exact run_returnOf (fits.times factor) called

theorem call_setterBody (type : Scalable t desc) (field : MemberRef) (typed : field.desc = desc)
    (isStatic : Bool) (factor : Option Int64) :
    ∃ body, (∀ context, setterBody context ("(" ++ desc ++ ")V") field isStatic factor = .ok body) ∧
      ∀ (this : Nat) (store : Store) (v : Value), Holds t v →
        call body this [v] store =
          some (none, store.write (holder this isStatic) field (v.times factor)) := by
  obtain ⟨insns, scaled, multiplied⟩ := run_scale type factor
  let access := if isStatic then Opcode.putstatic else Opcode.putfield
  refine ⟨receiver isStatic ++ Synthesis.loadParams [t] 1 ++ [] ++ insns ++
    [.field access field, .simple Opcode.returnVoid],
    fun context => ?_, fun this store v fits => ?_⟩
  · have parsed : FieldType.parse field.desc = .ok t := typed ▸ type.parse
    apply bind_ok_iff.2 ⟨_, congrArg orBadFormat type.parse_setter, ?_⟩
    apply bind_ok_iff.2 ⟨_, rfl, ?_⟩
    apply bind_ok_iff.2 ⟨_, congrArg orBadFormat parsed, ?_⟩
    exact bind_ok_iff.2 ⟨_, convert_self t context, bind_ok_iff.2 ⟨_, scaled context, rfl⟩⟩
  · let called : Machine := ⟨[], [(0, .reference this), (1, v)], store⟩
    have placed : (addressed called this isStatic).locals.lookup 1 = some v := by
      cases isStatic <;> rfl
    simp only [List.append_assoc, List.nil_append]
    calc run (receiver isStatic ++ (.var t.loadOpcode 1 :: (insns ++
          [.field access field, .simple Opcode.returnVoid]))) called
        = run (insns ++ [.field access field, .simple Opcode.returnVoid])
            ((addressed called this isStatic).push v) := by
          rw [run_receiver rfl, run_load fits placed]
      _ = run [.field access field, .simple Opcode.returnVoid]
            ((addressed called this isStatic).push (v.times factor)) := multiplied v _ _ fits
      _ = some (none, store.write (holder this isStatic) field (v.times factor)) := by
          rw [run_write]
          rfl

def Makes (edit : Edit) (name desc : String) (body : List Insn) : Prop :=
  ∀ (ctx : EditContext) (c : ClassFile), c.method? name desc = none →
    (edit.apply ctx).run c =
      (.ok true, { c with methods := c.methods ++ [Synthesis.method name desc body] })

theorem addSynthesized_makes {kind name desc : String}
    {body : ClassFile → String → Except EditError (List Insn)} {insns : List Insn}
    (made : ∀ c context, body c context = .ok insns) {c : ClassFile}
    (free : c.method? name desc = none) : addSynthesized kind name desc body c =
      (.ok true, { c with methods := c.methods ++ [Synthesis.method name desc insns] }) := by
  have absent : ¬ (c.method? name desc).isSome := by simp [free]
  rw [addSynthesized_run, if_neg absent, made]
  exact congrArg (fun c => (_, Prod.snd c)) (if_neg absent)

end Edit

/-- Accessors of the field `h` that agree: the factors cancel, and a getter that is called behind a
setter returns what the setter was given. -/
structure FieldHook.RoundTrips (h : FieldHook) (isStatic : Bool) (getter setter : String)
    (decode encode : Option Int64) : Prop where
  factors : ∀ v : Value, v.HasDesc h.desc → (v.times encode).times decode = v
  bodies : ∃ get set : List Insn,
    (Edit.addGetter getter ("()" ++ h.desc) h.member isStatic decode).Makes getter
      ("()" ++ h.desc) get ∧
    (Edit.addSetter setter ("(" ++ h.desc ++ ")V") h.member isStatic encode).Makes setter
      ("(" ++ h.desc ++ ")V") set ∧
    ∀ (this : Nat) (store : Store) (v : Value), v.HasDesc h.desc → ∃ stored,
      call set this [v] store = some (none, stored) ∧
      call get this [] stored = some (some v, stored)

/-! The factors that resolving hands to the two accessors. -/

namespace FieldHook

variable {h : FieldHook} {t : FieldType}

theorem decodeFactor_of_odd (type : Edit.Scalable t h.desc)
    (odd : ∀ m, h.multiplier = some m → Odd m.toInt) : h.decodeFactor = .ok h.multiplier := by
  unfold decodeFactor
  cases some_m : h.multiplier with
  | none => rfl
  | some m =>
    have nonzero : m ≠ 0 := by
      rintro rfl
      exact absurd (odd 0 some_m) (by decide)
    simp [type.parse, type.int_or_long, nonzero]

theorem decodeFactor_eq {factor : Option Int64} (reads : h.decodeFactor = .ok factor) :
    factor = h.multiplier := by
  unfold decodeFactor at reads
  split at reads
  · cases reads
    exact Eq.symm ‹_›
  · rename_i m some_m
    split at reads
    · cases reads
    · split at reads
      · cases reads
      · split at reads
        · cases reads
        · cases reads
          exact some_m.symm

theorem encodeFactor_cases {factor : Option Int64} (stores : h.encodeFactor = .ok factor) :
    h.multiplier = none ∧ factor = none ∨
      ∃ m inverse, h.multiplier = some m ∧ h.inverseFactor m = some inverse ∧
        factor = some inverse := by
  obtain ⟨decode, reads, stores⟩ := bind_ok_iff.1 stores
  obtain rfl := decodeFactor_eq reads
  cases some_m : h.multiplier with
  | none =>
    rw [some_m] at stores
    cases stores
    exact .inl ⟨rfl, rfl⟩
  | some m =>
    rw [some_m] at stores
    dsimp only at stores
    split at stores
    · rename_i inverse found
      cases stores
      exact .inr ⟨m, inverse, rfl, found, rfl⟩
    · cases stores

theorem isSome_inverseFactor (type : Edit.Scalable t h.desc) (m : Int64) :
    (h.inverseFactor m).isSome ↔ Odd m.toInt := by
  unfold inverseFactor
  generalize h.desc = desc at type
  cases type with
  | int =>
    rw [if_pos rfl, Option.isSome_map, Multiplier.isSome_inverse32]
    exact Multiplier.odd_toInt32 m
  | long =>
    rw [if_neg (by decide)]
    exact Multiplier.isSome_inverse64 m

theorem exists_encodeFactor (type : Edit.Scalable t h.desc) :
    (∃ factor, h.encodeFactor = .ok factor) ↔ ∀ m, h.multiplier = some m → Odd m.toInt := by
  constructor
  · rintro ⟨factor, stores⟩ m some_m
    rcases encodeFactor_cases stores with ⟨absent, _⟩ | ⟨m', inverse, some_m', found, _⟩
    · rw [some_m] at absent
      cases absent
    · rw [some_m] at some_m'
      cases some_m'
      exact (isSome_inverseFactor type m).1 (Option.isSome_of_eq_some found)
  · intro odd
    have reads := decodeFactor_of_odd type odd
    cases some_m : h.multiplier with
    | none =>
      rw [some_m] at reads
      exact ⟨none, bind_ok_iff.2 ⟨none, reads, rfl⟩⟩
    | some m =>
      rw [some_m] at reads
      obtain ⟨inverse, found⟩ :=
        Option.isSome_iff_exists.1 ((isSome_inverseFactor type m).2 (odd m some_m))
      refine ⟨some inverse, bind_ok_iff.2 ⟨some m, reads, ?_⟩⟩
      simp only [found]
      rfl

theorem times_factors (type : Edit.Scalable t h.desc) {encode decode : Option Int64}
    (stores : h.encodeFactor = .ok encode) (reads : h.decodeFactor = .ok decode) {v : Value}
    (held : Edit.Holds t v) : (v.times encode).times decode = v := by
  obtain rfl := decodeFactor_eq reads
  rcases encodeFactor_cases stores with ⟨absent, rfl⟩ | ⟨m, inverse, some_m, found, rfl⟩
  · rw [absent]
    cases held <;> rfl
  · rw [some_m]
    unfold inverseFactor at found
    generalize h.desc = desc at type found
    cases held with
    | int a =>
      cases type
      rw [if_pos rfl] at found
      obtain ⟨i, unit, rfl⟩ := Option.map_eq_some_iff.1 found
      have cancels : i * m.toInt32 = 1 := by rw [Int32.mul_comm, Multiplier.mul_inverse32 unit]
      show Value.int (a * i.toInt64.toInt32 * m.toInt32) = Value.int a
      rw [Int32.toInt32_toInt64, Int32.mul_assoc, cancels, Int32.mul_one]
    | long a =>
      cases type
      rw [if_neg (by decide)] at found
      have cancels : inverse * m = 1 := by rw [Int64.mul_comm, Multiplier.mul_inverse64 found]
      show Value.long (a * inverse * m) = Value.long a
      rw [Int64.mul_assoc, cancels, Int64.mul_one]

theorem roundTrips (type : Edit.Scalable t h.desc) {encode decode : Option Int64}
    (stores : h.encodeFactor = .ok encode) (reads : h.decodeFactor = .ok decode) (isStatic : Bool)
    (getter setter : String) : h.RoundTrips isStatic getter setter decode encode := by
  have cancel (v : Value) (held : Edit.Holds t v) : (v.times encode).times decode = v :=
    times_factors type stores reads held
  obtain ⟨get, gets, returns⟩ := Edit.call_getterBody type h.member rfl isStatic decode
  obtain ⟨set, sets, writes⟩ := Edit.call_setterBody type h.member rfl isStatic encode
  refine ⟨fun v typed => cancel v (type.holds typed), get, set,
    fun _ _ free => Edit.addSynthesized_makes (fun _ => gets) free,
    fun _ _ free => Edit.addSynthesized_makes (fun _ => sets) free, fun this store v typed => ?_⟩
  have held := type.holds typed
  refine ⟨_, writes this store v held, ?_⟩
  rw [returns this _ _ (held.times encode) (store.read_write _ _ _), cancel v held]

end FieldHook

/-! Mixins that ask for accessors. -/

namespace Mixin

/-- The mixin asks for a getter of the field with the field's own descriptor: among its getters, or
on a field that stands for the hooked one. -/
inductive RequestsGetter (t : HookTable) (m : Mixin) (h : FieldHook) (isStatic : Bool) :
    String → Prop where
  | declared {s : HookUse} (mem : s ∈ m.getters) (static : s.isStatic = isStatic)
    (hooked : m.fieldHook t s.hook s.isStatic = .ok h) (desc : s.method.desc = "()" ++ h.desc) :
    RequestsGetter t m h isStatic s.method.name
  | shadow {f : MixinField} {hook name : String} (mem : f ∈ m.fields)
    (static : f.isStatic = isStatic) (stands : f.shadow = some hook)
    (hooked : m.fieldHook t hook f.isStatic = .ok h) (desc : f.desc = h.desc)
    (getter : f.getterName? = some name) : RequestsGetter t m h isStatic name

/-- The mixin asks for a setter of the field that encodes, with the field's own descriptor. -/
inductive RequestsSetter (t : HookTable) (m : Mixin) (h : FieldHook) (isStatic : Bool) :
    String → Prop where
  | declared {s : MixinSetter} (mem : s ∈ m.setters) (static : s.isStatic = isStatic)
    (hooked : m.fieldHook t s.hook s.isStatic = .ok h)
    (desc : s.method.desc = "(" ++ h.desc ++ ")V")
    (encodes : s.encode = true) : RequestsSetter t m h isStatic s.method.name
  | shadow {f : MixinField} {hook name : String} (mem : f ∈ m.fields)
    (static : f.isStatic = isStatic) (stands : f.shadow = some hook)
    (hooked : m.fieldHook t hook f.isStatic = .ok h) (desc : f.desc = h.desc)
    (setter : f.setterName? = some name) : RequestsSetter t m h isStatic name

/-- Every declaration resolves that is no use of the field `h`, and those that use it are declared
as they should be. -/
structure ResolvesBeside (t : HookTable) (m : Mixin) (h : FieldHook) (target : String)
    (r : Renaming) : Prop where
  fields : ∀ f ∈ m.fields,
    (∃ hook, f.shadow = some hook ∧ m.fieldHook t hook f.isStatic = .ok h) ∨
      ∃ edits, m.fieldEdits t target r f = .ok edits
  getters : ∀ s ∈ m.getters,
    (m.requireAbstract s.method .getter = .ok () ∧ m.fieldHook t s.hook s.isStatic = .ok h) ∨
      ∃ edit, m.getterEdit t target r s = .ok edit
  setters : ∀ s ∈ m.setters,
    (m.requireAbstract s.method .setter = .ok () ∧ m.fieldHook t s.hook s.isStatic = .ok h) ∨
      ∃ edit, m.setterEdit t target r s = .ok edit
  invokers : ∀ s ∈ m.invokers, ∃ edit, m.invokerEdit t target r s = .ok edit
  callbacks : ∀ s ∈ m.callbacks, ∃ edit, m.callbackEdit t target r s = .ok edit
  replacements : ∀ s ∈ m.replacements, ∃ edit, m.replacementEdit t target r s = .ok edit
  methods : ∀ d ∈ m.methods, ∃ method, m.requireBody d .method = .ok method
  copies : ∀ s ∈ m.copies, ∃ edit, m.copyEdit t target s = .ok edit

variable {t : HookTable} {m : Mixin} {h : FieldHook} {target : String} {r : Renaming}

theorem getterEdit_ok_iff {s : HookUse} (hooked : m.fieldHook t s.hook s.isStatic = .ok h)
    {e : PlannedEdit} : m.getterEdit t target r s = .ok e ↔
      m.requireAbstract s.method .getter = .ok () ∧ ∃ decode, h.decodeFactor = .ok decode ∧
        e = before target (.addGetter s.method.name (r.desc s.method.desc) h.member s.isStatic
          decode) := by
  simp only [getterEdit, bind_ok_iff, hooked]
  constructor
  · rintro ⟨_, declared, _, ⟨⟩, decode, reads, made⟩
    exact ⟨declared, decode, reads, (Except.ok.inj made).symm⟩
  · rintro ⟨declared, decode, reads, rfl⟩
    exact ⟨(), declared, h, rfl, decode, reads, rfl⟩

theorem setterEdit_ok_iff {s : MixinSetter} (hooked : m.fieldHook t s.hook s.isStatic = .ok h)
    {e : PlannedEdit} : m.setterEdit t target r s = .ok e ↔
      m.requireAbstract s.method .setter = .ok () ∧ (∃ decode, h.decodeFactor = .ok decode) ∧
        ∃ factor, (if s.encode then h.encodeFactor else pure none) = .ok factor ∧
        e = before target (.addSetter s.method.name (r.desc s.method.desc) h.member s.isStatic
          factor) := by
  rw [setterEdit, bind_ok_iff]
  constructor
  · rintro ⟨_, declared, made⟩
    obtain ⟨_, found, made⟩ := bind_ok_iff.1 made
    rw [hooked] at found
    cases found
    obtain ⟨decode, reads, made⟩ := bind_ok_iff.1 made
    refine ⟨declared, ⟨decode, reads⟩, ?_⟩
    cases encodes : s.encode with
    | true =>
      simp only [encodes, if_true, bind_ok_iff] at made
      obtain ⟨factor, stores, made⟩ := made
      exact ⟨factor, stores, (Except.ok.inj made).symm⟩
    | false =>
      simp only [encodes] at made
      exact ⟨none, rfl, (Except.ok.inj made).symm⟩
  · rintro ⟨declared, ⟨decode, reads⟩, factor, stores, rfl⟩
    refine ⟨(), declared, ?_⟩
    refine bind_ok_iff.2 ⟨h, hooked, bind_ok_iff.2 ⟨decode, reads, ?_⟩⟩
    cases encodes : s.encode with
    | true =>
      rw [encodes] at stores
      exact bind_ok_iff.2 ⟨factor, stores, rfl⟩
    | false =>
      rw [encodes] at stores
      cases stores
      rfl

theorem fieldEdits_ok_iff {f : MixinField} {hook : String} (stands : f.shadow = some hook)
    (hooked : m.fieldHook t hook f.isStatic = .ok h) {edits : List PlannedEdit} :
    m.fieldEdits t target r f = .ok edits ↔ ∃ decode, h.decodeFactor = .ok decode ∧
      ∃ setters : List PlannedEdit,
      (match f.setterName? with
        | none => setters = []
        | some name => ∃ encode, h.encodeFactor = .ok encode ∧ setters = [before target
            (.addSetter name ("(" ++ r.desc f.desc ++ ")V") h.member f.isStatic encode)]) ∧
      edits = (f.getterName?.toList.map fun name =>
        before target (.addGetter name ("()" ++ r.desc f.desc) h.member f.isStatic decode)) ++
          setters := by
  have found : some <$> m.fieldHook t hook f.isStatic = .ok (some h) := by
    rw [hooked]
    rfl
  rw [fieldEdits, stands]
  dsimp only
  rw [found]
  constructor
  · intro made
    obtain ⟨_, same, made⟩ := bind_ok_iff.1 made
    cases same
    obtain ⟨decode, reads, made⟩ := bind_ok_iff.1 made
    refine ⟨decode, reads, ?_⟩
    cases setter : f.setterName? with
    | none =>
      rw [setter] at made
      exact ⟨[], rfl, (Except.ok.inj made).symm.trans (List.append_nil _).symm⟩
    | some name =>
      rw [setter] at made
      obtain ⟨encode, stores, made⟩ := bind_ok_iff.1 made
      exact ⟨_, ⟨encode, stores, rfl⟩, (Except.ok.inj made).symm⟩
  · rintro ⟨decode, reads, setters, made, rfl⟩
    refine bind_ok_iff.2 ⟨some h, rfl, bind_ok_iff.2 ⟨decode, reads, ?_⟩⟩
    cases setter : f.setterName? with
    | none =>
      rw [setter] at made
      subst made
      exact congrArg Except.ok (List.append_nil _).symm
    | some name =>
      rw [setter] at made
      obtain ⟨encode, stores, rfl⟩ := made
      exact bind_ok_iff.2 ⟨encode, stores, rfl⟩

section Requested

variable {type : FieldType} {isStatic : Bool} {hook : ClassHook} {edits : List PlannedEdit}

theorem RequestsGetter.mem_edits {getter : String} (scalable : Edit.Scalable type h.desc)
    (found : t.classHook m.target = .ok hook) (resolved : m.resolve t = .ok edits)
    (reads : m.RequestsGetter t h isStatic getter) : ∃ decode, h.decodeFactor = .ok decode ∧
      before hook.obfName (.addGetter getter ("()" ++ h.desc) h.member isStatic decode) ∈
        edits := by
  obtain ⟨hook', r, p, found', _, parts, rfl⟩ := resolve_ok_iff.1 resolved
  obtain rfl := Except.ok.inj (found.symm.trans found')
  cases reads with
  | declared mem static hooked desc =>
    obtain ⟨e, _, made⟩ := exists_right_of_forall₂ parts.getters mem
    obtain ⟨_, decode, reads, rfl⟩ := (getterEdit_ok_iff hooked).1 made
    rw [desc, scalable.desc_getter, static] at made
    exact ⟨decode, reads, parts.mem_edits.2 (.getter mem made)⟩
  | shadow mem static stands hooked desc getter =>
    obtain ⟨es, _, made⟩ := exists_right_of_forall₂ parts.fields mem
    obtain ⟨decode, reads, setters, _, rfl⟩ := (fieldEdits_ok_iff stands hooked).1 made
    refine ⟨decode, reads, parts.mem_edits.2 (.field mem made (List.mem_append_left _ ?_))⟩
    rw [getter, desc, scalable.desc_field, static]
    exact List.mem_singleton.2 rfl

/-- A mixin that resolves has a storing factor for each field that it asks an encoding setter of,
and makes the setter. -/
theorem RequestsSetter.mem_edits {setter : String} (scalable : Edit.Scalable type h.desc)
    (found : t.classHook m.target = .ok hook) (resolved : m.resolve t = .ok edits)
    (stores : m.RequestsSetter t h isStatic setter) : ∃ encode, h.encodeFactor = .ok encode ∧
      before hook.obfName (.addSetter setter ("(" ++ h.desc ++ ")V") h.member isStatic encode) ∈
        edits := by
  obtain ⟨hook', r, p, found', _, parts, rfl⟩ := resolve_ok_iff.1 resolved
  obtain rfl := Except.ok.inj (found.symm.trans found')
  cases stores with
  | declared mem static hooked desc encodes =>
    obtain ⟨e, _, made⟩ := exists_right_of_forall₂ parts.setters mem
    obtain ⟨_, _, encode, stores, rfl⟩ := (setterEdit_ok_iff hooked).1 made
    rw [if_pos encodes] at stores
    rw [desc, scalable.desc_setter, static] at made
    exact ⟨encode, stores, parts.mem_edits.2 (.setter mem made)⟩
  | shadow mem static stands hooked desc setter =>
    obtain ⟨es, _, made⟩ := exists_right_of_forall₂ parts.fields mem
    obtain ⟨decode, _, setters, listed, rfl⟩ := (fieldEdits_ok_iff stands hooked).1 made
    rw [setter] at listed
    obtain ⟨encode, stores, rfl⟩ := listed
    refine ⟨encode, stores, parts.mem_edits.2 (.field mem made (List.mem_append_right _ ?_))⟩
    rw [desc, scalable.desc_field, static]
    exact List.mem_singleton.2 rfl

theorem ResolvesBeside.exists_resolve {r : Renaming} (scalable : Edit.Scalable type h.desc)
    (found : t.classHook m.target = .ok hook) (renamed : m.rules t hook.obfName = .ok r)
    (beside : m.ResolvesBeside t h hook.obfName r)
    (odd : ∀ k, h.multiplier = some k → Odd k.toInt) : ∃ edits, m.resolve t = .ok edits := by
  obtain ⟨encode, stores⟩ := (FieldHook.exists_encodeFactor scalable).2 odd
  have reads := FieldHook.decodeFactor_of_odd scalable odd
  have fields : ∀ f ∈ m.fields, ∃ edits, m.fieldEdits t hook.obfName r f = .ok edits := by
    intro f mem
    rcases beside.fields f mem with ⟨name, stands, hooked⟩ | made
    · cases setter : f.setterName? with
      | none =>
        refine ⟨_, (fieldEdits_ok_iff stands hooked).2 ⟨_, reads, [], ?_, rfl⟩⟩
        rw [setter]
      | some name =>
        refine ⟨_, (fieldEdits_ok_iff stands hooked).2 ⟨_, reads, [before hook.obfName
          (.addSetter name ("(" ++ r.desc f.desc ++ ")V") h.member f.isStatic encode)], ?_, rfl⟩⟩
        rw [setter]
        exact ⟨encode, stores, rfl⟩
    · exact made
  have getters : ∀ s ∈ m.getters, ∃ edit, m.getterEdit t hook.obfName r s = .ok edit := by
    intro s mem
    rcases beside.getters s mem with ⟨declared, hooked⟩ | made
    · exact ⟨_, (getterEdit_ok_iff hooked).2 ⟨declared, _, reads, rfl⟩⟩
    · exact made
  have setters : ∀ s ∈ m.setters, ∃ edit, m.setterEdit t hook.obfName r s = .ok edit := by
    intro s mem
    rcases beside.setters s mem with ⟨declared, hooked⟩ | made
    · cases encodes : s.encode with
      | true =>
        refine ⟨_, (setterEdit_ok_iff hooked).2 ⟨declared, ⟨_, reads⟩, encode, ?_, rfl⟩⟩
        rwa [if_pos encodes]
      | false =>
        refine ⟨_, (setterEdit_ok_iff hooked).2 ⟨declared, ⟨_, reads⟩, none, ?_, rfl⟩⟩
        rw [if_neg (by simp [encodes])]
        rfl
    · exact made
  obtain ⟨p, parts⟩ := exists_resolvesTo fields getters setters beside.invokers beside.callbacks
    beside.replacements beside.methods beside.copies
  exact ⟨_, resolve_ok_iff.2 ⟨hook, r, p, found, renamed, parts, rfl⟩⟩

/-- A mixin that asks for a getter and an encoding setter of a field resolves unless the field's
multiplier is even, and then the accessors agree on every value. -/
theorem resolve_accessors {r : Renaming} {getter setter : String}
    (scalable : h.desc = "I" ∨ h.desc = "J") (found : t.classHook m.target = .ok hook)
    (renamed : m.rules t hook.obfName = .ok r) (beside : m.ResolvesBeside t h hook.obfName r)
    (reads : m.RequestsGetter t h isStatic getter)
    (stores : m.RequestsSetter t h isStatic setter) :
    ((∃ e, m.resolve t = .error e) ↔ ∃ k, h.multiplier = some k ∧ Even k.toInt) ∧
    ∀ edits, m.resolve t = .ok edits → ∃ decode encode,
      before hook.obfName (.addGetter getter ("()" ++ h.desc) h.member isStatic decode) ∈ edits ∧
      before hook.obfName (.addSetter setter ("(" ++ h.desc ++ ")V") h.member isStatic encode) ∈
        edits ∧
      h.RoundTrips isStatic getter setter decode encode := by
  obtain ⟨type, scalable⟩ := Edit.Scalable.of_desc scalable
  refine ⟨⟨?_, ?_⟩, fun edits resolved => ?_⟩
  · rintro ⟨e, failed⟩
    by_contra noneEven
    have odd : ∀ k, h.multiplier = some k → Odd k.toInt := by
      intro k some_k
      rw [← Int.not_even_iff_odd]
      exact fun even => noneEven ⟨k, some_k, even⟩
    obtain ⟨edits, resolved⟩ := beside.exists_resolve scalable found renamed odd
    rw [failed] at resolved
    cases resolved
  · rintro ⟨k, some_k, even⟩
    cases resolved : m.resolve t with
    | error e => exact ⟨e, rfl⟩
    | ok edits =>
      obtain ⟨encode, stores, _⟩ := stores.mem_edits scalable found resolved
      have odd := (FieldHook.exists_encodeFactor scalable).1 ⟨encode, stores⟩ k some_k
      exact absurd even (Int.not_even_iff_odd.2 odd)
  · obtain ⟨decode, reads, gets⟩ := reads.mem_edits scalable found resolved
    obtain ⟨encode, stores, sets⟩ := stores.mem_edits scalable found resolved
    exact ⟨decode, encode, gets, sets,
      FieldHook.roundTrips scalable stores reads isStatic getter setter⟩

def energyHook : FieldHook := ⟨"energy", "a", "b", "I", some 4294967299⟩

def playerHook : ClassHook := ⟨"Player", "a", [energyHook], []⟩

def playerHooks : HookTable := HookTable.ofFile ⟨[playerHook], [], []⟩

def playerMixin : Mixin where
  target := "Player"
  compiled := none
  interfaces := []
  fields := []
  getters := [⟨"energy", ⟨"getEnergy", "()I", some true⟩, false⟩]
  setters := [⟨"energy", ⟨"setEnergy", "(I)V", some true⟩, false, true⟩]
  invokers := []
  callbacks := []
  copies := []
  replacements := []
  methods := []

theorem classHook_player : playerHooks.classHook "Player" = .ok playerHook := by
  have found : playerHooks.classes["Player"]? = some playerHook :=
    Std.TreeMap.getElem?_insert_self
  rw [HookTable.classHook, found]

theorem fieldHook_energy : playerMixin.fieldHook playerHooks "energy" false = .ok energyHook := by
  show playerHooks.field "Player" "energy" = _
  rw [HookTable.field, classHook_player]
  rfl

theorem resolve_accessors_player : ∃ edits decode encode,
    playerMixin.resolve playerHooks = .ok edits ∧
    before "a" (.addGetter "getEnergy" "()I" ⟨"a", "b", "I"⟩ false decode) ∈ edits ∧
    before "a" (.addSetter "setEnergy" "(I)V" ⟨"a", "b", "I"⟩ false encode) ∈ edits ∧
    energyHook.RoundTrips false "getEnergy" "setEnergy" decode encode := by
  have beside : playerMixin.ResolvesBeside playerHooks energyHook "a" Renaming.empty := {
    fields := fun _ mem => nomatch mem
    getters := fun s mem => by
      obtain rfl := List.mem_singleton.1 mem
      exact .inl ⟨rfl, fieldHook_energy⟩
    setters := fun s mem => by
      obtain rfl := List.mem_singleton.1 mem
      exact .inl ⟨rfl, fieldHook_energy⟩
    invokers := fun _ mem => nomatch mem
    callbacks := fun _ mem => nomatch mem
    replacements := fun _ mem => nomatch mem
    methods := fun _ mem => nomatch mem
    copies := fun _ mem => nomatch mem }
  have reads : playerMixin.RequestsGetter playerHooks energyHook false "getEnergy" :=
    .declared (s := ⟨"energy", ⟨"getEnergy", "()I", some true⟩, false⟩) (List.mem_singleton.2 rfl)
      rfl fieldHook_energy rfl
  have stores : playerMixin.RequestsSetter playerHooks energyHook false "setEnergy" :=
    .declared (s := ⟨"energy", ⟨"setEnergy", "(I)V", some true⟩, false, true⟩)
      (List.mem_singleton.2 rfl) rfl fieldHook_energy rfl rfl
  obtain ⟨fails, agree⟩ := resolve_accessors (.inl rfl) classHook_player rfl beside reads stores
  cases resolved : playerMixin.resolve playerHooks with
  | error e =>
    obtain ⟨k, some_k, even⟩ := fails.1 ⟨e, resolved⟩
    obtain rfl := Option.some.inj some_k
    exact absurd even (by decide)
  | ok edits =>
    obtain ⟨decode, encode, gets, sets, trips⟩ := agree edits resolved
    exact ⟨edits, decode, encode, rfl, gets, sets, trips⟩

end Requested

end Mixin

end ClassWeave
