import Mathlib.Data.List.Forall2
import Mathlib.Tactic.Common
import ClassWeave.Proofs.Decoding.Classes
import ClassWeave.Proofs.Body.Moved

/-!
# Written classes are intact

Whatever the model of a class holds, what is written of it can be read and shows the same names,
members, constants and attributes, as long as every count and length fits the field that it is cut
to and every place that has to hold an instruction does. Only a table of bootstrap methods may be
added to the attributes.
-/

set_option autoImplicit false

namespace ClassWeave

theorem Code.within_none (c : Code) : c.Within Limits.none where
  insns i _ := i.within_none
  handlers _ _ _ _ := trivial
  locals _ _ := ⟨trivial, trivial⟩
  frames f _ := f.2.within_none

theorem ClassFile.within_none (c : ClassFile) : c.Within Limits.none where
  name := trivial
  superName _ _ := trivial
  interfaces _ _ := trivial
  fields _ _ := ⟨trivial, trivial, fun _ _ => trivial⟩
  methods _ _ := ⟨trivial, trivial, fun _ _ => trivial, fun _ _ i _ => i.within_none⟩
  attributes _ _ := trivial

def Insn.isConstant : Insn → Bool
  | .ldc _ | .callSite _ _ _ => true
  | _ => false

def Code.constants (c : Code) : List Insn := c.insns.filter Insn.isConstant

def ClassFile.Shaped (c : ClassFile) : Prop :=
  ∀ m ∈ c.methods, ∀ code, m.code = some code → ∀ i ∈ code.insns, i.Shaped

namespace ClassFile

theorem constants_withMarks (decoded : List (Nat × Insn)) (t : BodyTables) (length : Nat) :
    (withMarks decoded t length).filter Insn.isConstant =
      (decoded.map Prod.snd).filter Insn.isConstant := by
  have flat : ∀ i : Insn, ¬ i.isExecuted = true → ¬ i.isConstant = true := by
    intro i mark
    cases i <;> first | exact absurd rfl mark | nofun
  have last : (lastMark t length).filter Insn.isConstant = [] :=
    List.filter_eq_nil_iff.2 fun i hi => flat i (lastMark_flat hi)
  have each : ∀ d ∈ decoded, (marksAt t d.1 ++ [d.2]).filter Insn.isConstant =
      [d.2].filter Insn.isConstant := by
    intro d _
    rw [List.filter_append, List.filter_eq_nil_iff.2 fun i hi => flat i (marksAt_flat hi),
      List.nil_append]
  rw [withMarks_eq, List.filter_append, last, List.append_nil, List.filter_flatMap,
    List.flatMap_congr each, ← List.filter_flatMap, ← List.map_eq_flatMap]

theorem constants_readBack {t : BodyTarget} {c : Code} {l : Layout} (laid : Layout.Laid c.insns l) :
    (t.readBack c l).constants = c.constants := by
  have same : ∀ i : Insn, i.isConstant = true → i.normal.relabel l.positions.moved = i := by
    intro i constant
    cases i <;> first | rfl | cases constant
  have kept : ∀ i : Insn, (i.normal.relabel l.positions.moved).isConstant = i.isConstant := by
    intro i
    cases i <;> rfl
  have all : ∀ ps : List Placed, ((Layout.decodedOf l.positions.moved ps).map Prod.snd).filter
      Insn.isConstant = (ps.map Placed.insn).filter Insn.isConstant := by
    intro ps
    induction ps with
    | nil => rfl
    | cons p ps ih =>
      by_cases executed : p.insn.isExecuted = true
      · rw [Layout.decodedOf_cons executed, List.map_cons, List.map_cons, List.filter_cons,
          List.filter_cons, ih, kept]
        by_cases constant : p.insn.isConstant = true
        · rw [if_pos constant, if_pos constant, same p.insn constant]
        · rw [if_neg constant, if_neg constant]
      · have flat : ¬ p.insn.isConstant = true := by
          cases hi : p.insn <;> simp [hi, Insn.isExecuted, Insn.isConstant] at executed ⊢
        rw [Layout.decodedOf_mark executed, ih, List.map_cons, List.filter_cons_of_neg flat]
  show (withMarks _ _ _).filter _ = c.insns.filter _
  rw [constants_withMarks, all, laid.insns]

theorem lasting_constant (insns : List Insn) :
    Insn.Lasting fun i => i.isConstant = true → i ∈ insns where
  label _ constant := by cases constant
  filler := by constructor <;> nofun
  wide _ _ _ := by constructor <;> nofun
  inverse _ _ _ _ _ _ constant := by cases constant

theorem length_withBootstraps (t : BootstrapTable) (attributes : List Attribute) :
    (withBootstraps t attributes).length = attributes.length ∨
      (∀ a ∈ attributes, a.name ≠ BootstrapTable.attributeName) ∧
        (withBootstraps t attributes).length = attributes.length + 1 := by
  have replaced : ∀ as, (withBootstraps.replace t as).length = as.length ∨
      (∀ a ∈ as, a.name ≠ BootstrapTable.attributeName) ∧
        (withBootstraps.replace t as).length = as.length + 1 := by
    intro as
    induction as with
    | nil => exact .inr ⟨(fun a ha => nomatch ha), rfl⟩
    | cons a as ih =>
      rw [withBootstraps.replace]
      by_cases named : (a.name == BootstrapTable.attributeName) = true
      · rw [if_pos named]
        exact .inl rfl
      · rw [if_neg named, List.length_cons, List.length_cons]
        rcases ih with same | ⟨none, more⟩
        · exact .inl (by omega)
        · have absent : ∀ b ∈ a :: as, b.name ≠ BootstrapTable.attributeName := by
            intro b hb
            rcases List.mem_cons.1 hb with rfl | hb
            · simpa using named
            · exact none b hb
          exact .inr ⟨absent, by omega⟩
  unfold withBootstraps
  by_cases empty : t.size = 0
  · rw [if_pos empty]
    exact .inl rfl
  · rw [if_neg empty]
    exact replaced attributes

/-- A method agrees with what is read of it on all but the body, which takes the same constants as
the body that was written; each of those is one of the method's own. -/
structure MethodIntact (m : Method) (written : Option WrittenBody) (m' : Method) : Prop where
  access : m'.access = m.access
  name : m'.name = m.name
  desc : m'.desc = m.desc
  attributes : m'.attributes = m.attributes
  isSome_eq : m'.code.isSome = m.code.isSome
  constants : m'.code.map Code.constants = written.map fun b => b.code.constants
  known : ∀ c, m.code = some c → ∀ c', m'.code = some c' → ∀ i ∈ c'.constants, i ∈ c.constants

/-- A class agrees with what is read of it once it has been written: names, members, attributes
other than the table of bootstrap methods, and every text and constant at its index. -/
structure Intact (c : ClassFile) (w : Written) (c' : ClassFile) : Prop where
  access : c'.access = c.access
  name : c'.name = c.name
  superName : c'.superName = c.superName
  interfaces : c'.interfaces = c.interfaces
  fields : c'.fields = c.fields
  methodCount : c'.methods.length = c.methods.length
  methods : List.Forall₂ (fun p m' => MethodIntact p.1 p.2 m') (c.methods.zip w.bodies) c'.methods
  attributes : c'.attributes = withBootstraps w.tables.bootstraps c.attributes
  attributeCount : c'.attributes.length = c.attributes.length ∨
    (∀ a ∈ c.attributes, a.name ≠ BootstrapTable.attributeName) ∧
      c'.attributes.length = c.attributes.length + 1
  pool : c'.pool = w.tables.pool
  bootstraps : bootstrapsOf c'.attributes = .ok w.tables.bootstraps
  texts : ∀ i text, c.pool.utf8 i = .ok text → c'.pool.utf8 i = .ok text
  loadables : ∀ t, bootstrapsOf c.attributes = .ok t → ∀ i v,
    BootstrapTable.loadable t c.pool i = .ok v →
      BootstrapTable.loadable w.tables.bootstraps c'.pool i = .ok v

variable {h : Hierarchy} {c : ClassFile}

theorem methodIntact_readBack {m : Method} {body : Option WrittenBody} (settles : Settles m body) :
    MethodIntact m body (readBackMethod h c.name c.major m body) := by
  have same : ∀ b, body = some b → ∀ t : BodyTarget,
      (t.readBack b.code b.layout).constants = b.code.constants := fun b hb t =>
    constants_readBack (settles.laid b hb)
  constructor
  case access => rfl
  case name => rfl
  case desc => rfl
  case attributes => rfl
  case isSome_eq =>
    rw [← settles.isSome_eq, readBackMethod, Option.isSome_map]
  case constants =>
    rw [readBackMethod, Option.map_map]
    cases hb : body with
    | none => rfl
    | some b => exact congrArg some (same b hb _)
  case known =>
    intro code hcode code' hcode' i hi
    cases hb : body with
    | none =>
      rw [readBackMethod, hb] at hcode'
      cases hcode'
    | some b =>
      rw [readBackMethod, hb] at hcode'
      cases hcode'
      rw [same b hb, Code.constants, List.mem_filter] at hi
      have own :=
        settles.lasting _ (lasting_constant code.insns) (fun c' hc' i hi _ => ?_) b hb i hi.1
      · exact List.mem_filter.2 ⟨own hi.2, hi.2⟩
      · rw [hcode] at hc'
        cases hc'
        exact hi

theorem exists_intact {bytes : Bytes} (shaped : c.Shaped) (pool : c.pool.WellFormed Limits.none)
    (written : encode h c = .ok bytes) (fits : ∀ w, write h c = .ok w → Fits h c w) :
    ∃ w c', write h c = .ok w ∧ w.bytes = bytes ∧ parse bytes = .ok c' ∧ c.Intact w c' := by
  obtain ⟨w, run, rfl⟩ := write_of_encode written
  have fit := fits w run
  have settles := settles_write run
  obtain ⟨t, _, _, _, known, _⟩ := write_cases run
  have table : t.WellFormed Limits.none := wellFormed_bootstrapsOf known fun _ _ => trivial
  have ready : List.Forall₂ (BodyReady Limits.none h c.name c.major) c.methods w.bodies := by
    have both := List.Forall₂.mp (fun m body hs hf => And.intro hs hf) settles fit.members.methods
    apply forall₂_imp_mem both
    intro m hm body _ hb
    obtain ⟨hs, hf⟩ := hb
    constructor
    · exact hf
    · exact hs.lasting _ Insn.lasting_shaped (shaped m hm)
    · exact fun b _ => b.code.within_none
  obtain ⟨tables, grown, reads⟩ := reads_write (fun _ _ => trivial) c.within_none pool known table
    run ready
  have found : bootstrapsOf (withBootstraps w.tables.bootstraps c.attributes) =
      .ok w.tables.bootstraps := bootstrapsOf_withBootstraps known grown.bootstraps
    (Nat.lt_succ_of_le tables.bootstraps.size_le) fit.arities
  refine ⟨w, readBack h c w, run, rfl, reads fit, ?_⟩
  constructor
  case access => rfl
  case name => rfl
  case superName => rfl
  case interfaces => rfl
  case fields => rfl
  case methodCount =>
    have same := settles.length_eq
    rw [readBack, readBackMethods, List.length_zipWith]
    omega
  case methods => exact forall₂_zip (settles.imp fun m body hs => methodIntact_readBack hs)
  case attributes => rfl
  case attributeCount => exact length_withBootstraps w.tables.bootstraps c.attributes
  case pool => rfl
  case bootstraps => exact found
  case texts =>
    intro i text hi
    exact Pool.utf8_of_extends grown.pool hi
  case loadables =>
    intro t' known' i v hv
    rw [known] at known'
    cases known'
    exact BootstrapTable.loadable_of_extended grown hv

/-- The counts and lengths of the class itself and of its members fit their fields, and no other
attribute of a method passes for its body. -/
structure Counted (c : ClassFile) (w : Written) : Prop where
  interfaceCount : c.interfaces.length < 65536
  fieldCount : c.fields.length < 65536
  methodCount : c.methods.length < 65536
  fields : ∀ f ∈ c.fields, f.attributes.length < 65536 ∧ ∀ a ∈ f.attributes, a.Fits
  methods : ∀ m ∈ c.methods, m.code.toList.length + m.attributes.length < 65536 ∧
    ∀ a ∈ m.attributes, a.Fits ∧ a.name ≠ "Code"
  attributeCount : (withBootstraps w.tables.bootstraps c.attributes).length < 65536
  lengths : ∀ a ∈ withBootstraps w.tables.bootstraps c.attributes, a.Fits
  arities : ∀ e ∈ w.tables.bootstraps.toList, e.args.length < 65536

theorem Intact.exists_method {w : Written} {c' : ClassFile} (intact : c.Intact w c') {m : Method}
    (hm : m ∈ c.methods) : ∃ body, ∃ m' ∈ c'.methods, MethodIntact m body m' := by
  have length := intact.methods.length_eq
  rw [List.length_zip, intact.methodCount] at length
  have whole : (c.methods.zip w.bodies).map Prod.fst = c.methods := List.map_fst_zip (by omega)
  rw [← whole] at hm
  obtain ⟨⟨_, body⟩, pair, rfl⟩ := List.mem_map.1 hm
  obtain ⟨m', hm', same⟩ := exists_right_of_forall₂ intact.methods pair
  exact ⟨body, m', hm', same⟩

/-- The counts have to fit: no reader finds a class intact that has more of anything than the field
of its count can hold. -/
theorem counted_of_intact {w : Written} {bytes : Bytes} {c' : ClassFile}
    (parsed : parse bytes = .ok c') (intact : c.Intact w c') : c.Counted w := by
  obtain ⟨t, found, _, sane⟩ := sane_parse parsed
  have sane := sane Limits.none (fun _ _ => trivial) (fun _ _ => trivial)
  constructor
  case interfaceCount => exact intact.interfaces ▸ sane.interfaces.1
  case fieldCount => exact intact.fields ▸ sane.fields.1
  case methodCount => exact intact.methodCount ▸ sane.methods.1
  case fields =>
    intro f hf
    have field := sane.fields.2 f (intact.fields ▸ hf)
    exact ⟨field.attributeCount, field.lengths⟩
  case methods =>
    intro m hm
    obtain ⟨body, m', hm', same⟩ := intact.exists_method hm
    have method := sane.methods.2 m' hm'
    have count : m'.code.toList.length = m.code.toList.length := by
      have := same.isSome_eq
      cases hc : m.code <;> cases hc' : m'.code <;> simp_all
    refine ⟨?_, fun a ha => ?_⟩
    · rw [← count, ← same.attributes]
      exact method.attributeCount
    · rw [← same.attributes] at ha
      exact ⟨(method.attributes a ha).2, method.names a ha⟩
  case attributeCount => exact intact.attributes ▸ sane.attributes.1
  case lengths =>
    intro a ha
    exact (sane.attributes.2 a (intact.attributes ▸ ha)).2
  case arities => exact arity_of_bootstrapsOf intact.bootstraps

/-- What is written of a well-shaped class can be read and is intact, when every count and length
fits its field and every place holds an instruction that has to. Those of the class and of its
members have to fit, or what is read is another class, if anything is. -/
theorem intact_encode {bytes : Bytes} (shaped : c.Shaped) (pool : c.pool.WellFormed Limits.none)
    (written : encode h c = .ok bytes) :
    ((∀ w, write h c = .ok w → Fits h c w) →
      ∃ w c', write h c = .ok w ∧ w.bytes = bytes ∧ parse bytes = .ok c' ∧ c.Intact w c') ∧
    ∀ w c', write h c = .ok w → parse bytes = .ok c' → c.Intact w c' → c.Counted w :=
  ⟨exists_intact shaped pool written, fun _ _ _ => counted_of_intact⟩

def dynamicCode : Code where
  maxStack := 1
  maxLocals := 0
  insns := [.ldc (.dynamic "d" "I" ⟨6, ⟨"B", "b", "()I"⟩, false⟩ []), .simple Opcode.pop,
    .simple Opcode.returnVoid]
  handlers := []
  locals := []
  frames := some []
  hints := []
  nextLabel := 0

/-- A class with one method and no attributes, so without a table of bootstrap methods. -/
def dynamicClass : ClassFile :=
  { ClassFile.new "A" none with methods := [⟨⟨9⟩, "m", "()V", some dynamicCode, []⟩] }

theorem shaped_dynamicClass : dynamicClass.Shaped := by
  intro m hm code hcode i hi
  cases List.mem_singleton.1 hm
  cases hcode
  simp only [dynamicCode, List.mem_cons, List.not_mem_nil, or_false] at hi
  rcases hi with rfl | rfl | rfl
  · trivial
  · rfl
  · rfl

def dynamicTarget : BodyTarget :=
  ⟨Hierarchy.empty, "A", 52, ⟨⟨9⟩, "m", "()V", some dynamicCode, []⟩⟩

def dynamicSlots : List (Option Constant) :=
  [none, some (.utf8 "A"), some (.type 1), some (.utf8 "m"), some (.utf8 "()V"), some (.utf8 "B"),
    some (.type 5), some (.utf8 "b"), some (.utf8 "()I"), some (.nameAndType 7 8),
    some (.method 6 9), some (.methodHandle 6 10), some (.utf8 "d"), some (.utf8 "I"),
    some (.nameAndType 12 13), some (.dynamic 0 14), some (.utf8 "Code"),
    some (.utf8 "BootstrapMethods")]

theorem write_dynamicClass : ∃ w l bytes, write Hierarchy.empty dynamicClass = .ok w ∧
    w.bodies = [some ⟨dynamicCode, l, bytes⟩] ∧ l.placed.length = 3 ∧ bytes.length = 16 ∧
    (withBootstraps w.tables.bootstraps []).map (·.data.length) = [6] ∧
    w.tables.pool.toList = dynamicSlots ∧
    w.tables.bootstraps.toList.map (·.args.length) = [0] := by
  have computed : ((write Hierarchy.empty dynamicClass).toOption.any fun w =>
      w.bodies.map (Option.map fun b => (b.code, b.layout.placed.length, b.bytes.length)) =
          [some (dynamicCode, 3, 16)] ∧
        (withBootstraps w.tables.bootstraps []).map (·.data.length) = [6] ∧
        w.tables.pool.toList = dynamicSlots ∧
        w.tables.bootstraps.toList.map (·.args.length) = [0]) = true := by
    decide +kernel
  obtain ⟨w, run, computed⟩ := exists_ok_of_any computed
  obtain ⟨bodies, rest⟩ := of_decide_eq_true computed
  obtain ⟨body, one, hbody⟩ := List.map_eq_singleton_iff.1 bodies
  obtain ⟨⟨code, l, stored⟩, rfl, same⟩ := Option.map_eq_some_iff.1 hbody
  simp only [Prod.mk.injEq] at same
  obtain ⟨rfl, placed, length⟩ := same
  exact ⟨w, l, stored, run, one, placed, length, rest⟩

theorem settledFit_dynamicCode {l : Layout} (placed : l.placed.length = 3) :
    dynamicTarget.SettledFit dynamicCode l := by
  have each : ∀ i ∈ dynamicCode.insns, i.Resolvable ∧ i.targets = [] := by
    intro i hi
    simp only [dynamicCode, List.mem_cons, List.not_mem_nil, or_false] at hi
    rcases hi with rfl | rfl | rfl
    · refine ⟨⟨fun field => ?_, trivial⟩, rfl⟩
      cases field
    · exact ⟨trivial, rfl⟩
    · exact ⟨trivial, rfl⟩
  constructor
  case resolvable => exact fun i hi => (each i hi).1
  case targets =>
    intro i hi x hx
    rw [(each i hi).2] at hx
    cases hx
  case handlers => exact List.forall_mem_nil _
  case handlerCount => exact Nat.zero_lt_succ 65535
  case frames => exact ⟨List.forall_mem_nil _, fun d _ => trivial⟩
  case lineCount =>
    have le : (storedLines l).length ≤ l.placed.length := List.length_filterMap_le ..
    omega
  case plainCount => decide
  case genericCount => decide

theorem membersFit_dynamicClass {l : Layout} {bytes : Bytes} (placed : l.placed.length = 3)
    (length : bytes.length = 16) :
    dynamicClass.MembersFit Hierarchy.empty [some ⟨dynamicCode, l, bytes⟩] := by
  constructor
  case interfaceCount => decide
  case fieldCount => decide
  case methodCount => decide
  case fieldAttributes => exact List.forall_mem_nil _
  case methods =>
    refine .cons ?_ .nil
    constructor
    case attributeCount => exact Nat.succ_lt_succ (Nat.zero_lt_succ 65534)
    case lengths =>
      intro a ha
      rw [List.mem_singleton.1 ha, Attribute.Fits, WrittenBody.attribute, length]
      decide
    case names => exact List.forall_mem_nil _
    case body =>
      intro b same
      cases same
      exact settledFit_dynamicCode placed

theorem fits_dynamicClass : ∃ w, write Hierarchy.empty dynamicClass = .ok w ∧
    Fits Hierarchy.empty dynamicClass w := by
  obtain ⟨w, l, bytes, run, bodies, placed, length, attributes, pool, arities⟩ :=
    write_dynamicClass
  refine ⟨w, run, ?_⟩
  constructor
  case members => exact bodies ▸ membersFit_dynamicClass placed length
  case attributeCount =>
    have length := congrArg List.length attributes
    rw [List.length_map] at length
    exact Nat.lt_of_le_of_lt (Nat.le_of_eq length) (by decide)
  case lengths =>
    intro a ha
    have length := List.mem_map_of_mem (f := fun a : Attribute => a.data.length) ha
    have length : a.data.length = 6 := List.mem_singleton.1 (attributes ▸ length)
    rw [Attribute.Fits, length]
    decide
  case texts =>
    intro text mem
    simp only [pool, dynamicSlots, List.mem_cons, Option.some.injEq, Constant.utf8.injEq,
      reduceCtorEq, List.not_mem_nil, or_false, false_or] at mem
    rcases mem with rfl | rfl | rfl | rfl | rfl | rfl | rfl | rfl | rfl | rfl <;> decide
  case arities =>
    intro e he
    have none := List.mem_map_of_mem (f := fun e : BootstrapEntry => e.args.length) he
    have none : e.args.length = 0 := List.mem_singleton.1 (arities ▸ none)
    omega

theorem intact_dynamicClass : ∃ w c', write Hierarchy.empty dynamicClass = .ok w ∧
    parse w.bytes = .ok c' ∧ dynamicClass.Intact w c' := by
  obtain ⟨w, run, fits⟩ := fits_dynamicClass
  have written : encode Hierarchy.empty dynamicClass = .ok w.bytes := by
    rw [encode_eq, run]
    rfl
  obtain ⟨w', c', run', _, parsed, intact⟩ := (intact_encode shaped_dynamicClass
    Pool.wellFormed_empty written).1 fun w' run' => by
      rw [run] at run'
      cases run'
      exact fits
  rw [run] at run'
  cases run'
  exact ⟨w, c', run, parsed, intact⟩

end ClassFile

end ClassWeave
