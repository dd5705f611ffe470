import Mathlib.Data.List.Forall2
import ClassWeave.Proofs.Descriptor
import ClassWeave.Proofs.Hierarchy

/-!
# Renamed types

A descriptor is renamed as text and read as a type. Both see the same class names, so that the
renamed text is the descriptor of the type with its classes renamed: it has as many parameters, and
values of its types are handled by the same instructions.
-/

set_option autoImplicit false

namespace ClassWeave

namespace FieldType

def mapClasses (f : String → String) : FieldType → FieldType
  | .object name => .object (f name)
  | .array element => .array (element.mapClasses f)
  | t => t

def dims : FieldType → Nat
  | .array element => element.dims + 1
  | _ => 0

/-- Types whose values are handled by the same instructions. Without classes they are equal. -/
structure Alike (t t' : FieldType) : Prop where
  primitive : t.classes = [] → t' = t
  dims : t'.dims = t.dims
  size : t'.size = t.size
  load : t'.loadOpcode = t.loadOpcode
  store : t'.storeOpcode = t.storeOpcode
  returns : t'.returnOpcode = t.returnOpcode

variable (f : String → String)

theorem classes_mapClasses (t : FieldType) : (t.mapClasses f).classes = t.classes.map f := by
  induction t with
  | array element ih => exact ih
  | _ => rfl

theorem mapClasses_of_fixed {t : FieldType} (fixed : ∀ name ∈ t.classes, f name = name) :
    t.mapClasses f = t := by
  induction t with
  | object name => rw [mapClasses, fixed name (List.mem_singleton_self name)]
  | array element ih => rw [mapClasses, ih fixed]
  | _ => rfl

theorem dims_mapClasses (t : FieldType) : (t.mapClasses f).dims = t.dims := by
  induction t with
  | array element ih => exact congrArg (· + 1) ih
  | _ => rfl

theorem alike_mapClasses (t : FieldType) : t.Alike (t.mapClasses f) where
  primitive none := by
    apply mapClasses_of_fixed
    rw [none]
    exact List.forall_mem_nil _
  dims := dims_mapClasses f t
  size := by cases t <;> rfl
  load := by cases t <;> rfl
  store := by cases t <;> rfl
  returns := by cases t <;> rfl

end FieldType

namespace MethodDescriptor

def mapClasses (f : String → String) (d : MethodDescriptor) : MethodDescriptor :=
  ⟨d.params.map (FieldType.mapClasses f), d.result.map (FieldType.mapClasses f)⟩

/-- Descriptors of methods that are called by the same instructions. -/
structure Alike (d d' : MethodDescriptor) : Prop where
  arity : d'.params.length = d.params.length
  params : List.Forall₂ FieldType.Alike d.params d'.params
  result : Option.Rel FieldType.Alike d.result d'.result
  slots : d'.paramSlots = d.paramSlots
  returns : d'.returnOpcode = d.returnOpcode

variable (f : String → String) (d : MethodDescriptor)

theorem types_mapClasses : (d.mapClasses f).types = d.types.map (FieldType.mapClasses f) := by
  cases d with
  | mk params result => cases result <;> simp [types, mapClasses]

theorem mapClasses_of_fixed (fixed : ∀ name ∈ d.classes, f name = name) :
    d.mapClasses f = d := by
  have same : ∀ t ∈ d.types, t.mapClasses f = t := fun t mem =>
    FieldType.mapClasses_of_fixed f fun name inside =>
      fixed name (List.mem_flatMap.2 ⟨t, mem, inside⟩)
  obtain ⟨inParams, inResult⟩ := List.forall_mem_append.1 same
  obtain ⟨params, result⟩ := d
  have params' : params.map (FieldType.mapClasses f) = params :=
    (List.map_congr_left inParams).trans (List.map_id params)
  have result' : result.map (FieldType.mapClasses f) = result := by
    cases result with
    | none => rfl
    | some t => exact congrArg some (inResult t (List.mem_singleton_self t))
  rw [mapClasses, params', result']

theorem alike_mapClasses : d.Alike (d.mapClasses f) where
  arity := List.length_map _
  params := List.forall₂_map_right_iff.2 (List.forall₂_same.2 fun t _ => t.alike_mapClasses f)
  result := by
    cases d with
    | mk params result =>
      cases result with
      | none => exact .none
      | some t => exact .some (t.alike_mapClasses f)
  slots := by
    have sizes : (fun (size : UInt16) (t : FieldType) => size + (t.mapClasses f).size) =
        fun size t => size + t.size := by
      funext size t
      rw [(t.alike_mapClasses f).size]
    rw [paramSlots, mapClasses, List.foldl_map, sizes]
    rfl
  returns := by
    cases d with
    | mk params result =>
      cases result with
      | none => rfl
      | some t => exact (t.alike_mapClasses f).returns

end MethodDescriptor

namespace Renaming

def nameOf (r : Renaming) (name : String) : String := (r.classes.lookup name).getD name

/-- Classes are given names that a descriptor can hold. -/
def TargetsNamed (r : Renaming) : Prop := ∀ name target, r.classes.lookup name = some target →
  target ≠ "" ∧ ';' ∉ target.toList

variable {r : Renaming}

theorem nameOf_of_unknown {name : String} (unknown : r.classes.lookup name = none) :
    r.nameOf name = name := by
  rw [nameOf, unknown, Option.getD_none]

theorem plainName_toList (name : String) : r.plainName name.toList = (r.nameOf name).toList := by
  rw [plainName, nameOf, String.ofList_toList]
  cases r.classes.lookup name <;> rfl

theorem innerName_of_class {name : String} (plain : Hierarchy.IsClass name) :
    r.innerName name.toList = (r.nameOf name).toList := by
  rw [innerName, if_neg, plainName_toList]
  intro array
  obtain ⟨cs, whole⟩ := List.head?_eq_some_iff.1 array
  exact plain.ne_array cs whole

theorem descChars_chars {t : FieldType} (closed : t.Closed)
    (plain : ∀ name ∈ t.classes, Hierarchy.IsClass name) (rest : List Char) :
    r.descChars (t.chars ++ rest) = (t.mapClasses r.nameOf).chars ++ r.descChars rest := by
  induction t with
  | object name =>
    have whole : (FieldType.object name).chars ++ rest = 'L' :: name.toList ++ ';' :: rest := by
      simp [FieldType.chars]
    have self := List.mem_singleton_self name
    rw [whole, descChars_marked r (closed name self), innerName_of_class (plain name self)]
    simp [FieldType.mapClasses, FieldType.chars]
  | array element ih =>
    rw [FieldType.chars, List.cons_append, descChars_cons r (by decide), ih closed plain]
    rfl
  | _ => exact descChars_cons r (by decide) rest

theorem descChars_flatMap {ts : List FieldType} (closed : ∀ t ∈ ts, t.Closed)
    (plain : ∀ t ∈ ts, ∀ name ∈ t.classes, Hierarchy.IsClass name) (rest : List Char) :
    r.descChars (ts.flatMap FieldType.chars ++ rest) =
      (ts.map (FieldType.mapClasses r.nameOf)).flatMap FieldType.chars ++ r.descChars rest := by
  induction ts with
  | nil => rfl
  | cons t ts ih =>
    obtain ⟨closedFirst, closed⟩ := List.forall_mem_cons.1 closed
    obtain ⟨plainFirst, plain⟩ := List.forall_mem_cons.1 plain
    rw [List.flatMap_cons, List.append_assoc, descChars_chars closedFirst plainFirst,
      ih closed plain, List.map_cons, List.flatMap_cons, List.append_assoc]

theorem descChars_method {d : MethodDescriptor} (closed : ∀ t ∈ d.types, t.Closed)
    (plain : ∀ t ∈ d.types, ∀ name ∈ t.classes, Hierarchy.IsClass name) :
    r.descChars d.chars = (d.mapClasses r.nameOf).chars := by
  obtain ⟨params, result⟩ := d
  obtain ⟨closedParams, closedResult⟩ := List.forall_mem_append.1 closed
  obtain ⟨plainParams, plainResult⟩ := List.forall_mem_append.1 plain
  rw [MethodDescriptor.chars, List.cons_append, descChars_cons r (by decide),
    descChars_flatMap closedParams plainParams, descChars_cons r (by decide)]
  cases result with
  | none =>
    have void : r.descChars ['V'] = ['V'] := descChars_of_unmarked r (by decide)
    dsimp only
    rw [void]
    rfl
  | some t =>
    have self : t ∈ (some t).toList := List.mem_singleton_self t
    have text := descChars_chars (r := r) (closedResult t self) (plainResult t self) []
    rw [List.append_nil, descChars_nil, List.append_nil] at text
    dsimp only
    rw [text]
    rfl

theorem desc_text {t : FieldType} (closed : t.Closed)
    (plain : ∀ name ∈ t.classes, Hierarchy.IsClass name) :
    r.desc t.text = (t.mapClasses r.nameOf).text := by
  have whole := descChars_chars (r := r) closed plain []
  rw [descChars_nil, List.append_nil, List.append_nil] at whole
  rw [desc, FieldType.text, String.toList_ofList, whole, FieldType.text]

theorem className_internalName {t : FieldType} (ref : t.isReference = true) (closed : t.Closed)
    (plain : ∀ name ∈ t.classes, Hierarchy.IsClass name) :
    r.className t.internalName = (t.mapClasses r.nameOf).internalName := by
  cases t with
  | object name =>
    have noArray : name.toList.head? ≠ some '[' := by
      intro array
      obtain ⟨cs, whole⟩ := List.head?_eq_some_iff.1 array
      exact (plain name (List.mem_singleton_self name)).ne_array cs whole
    rw [FieldType.internalName, className, if_neg noArray, plainName_toList, String.ofList_toList]
    rfl
  | array element =>
    have array : (FieldType.array element).internalName.toList.head? = some '[' := by
      show (String.ofList ('[' :: element.chars)).toList.head? = some '['
      rw [String.toList_ofList]
      rfl
    rw [className, if_pos array]
    exact desc_text closed plain
  | _ => cases ref

namespace TargetsNamed

variable (targets : r.TargetsNamed)

include targets

theorem named {t : FieldType} (named : t.Named) : (t.mapClasses r.nameOf).Named := by
  intro name mem
  rw [FieldType.classes_mapClasses] at mem
  obtain ⟨old, inside, rfl⟩ := List.mem_map.1 mem
  cases found : r.classes.lookup old with
  | none =>
    rw [nameOf_of_unknown found]
    exact named old inside
  | some target =>
    rw [nameOf, found]
    exact targets old target found

theorem parse_field {text : String} {t : FieldType} (parsed : FieldType.parse text = .ok t)
    (plain : ∀ name ∈ t.classes, Hierarchy.IsClass name) :
    FieldType.parse (r.desc text) = .ok (t.mapClasses r.nameOf) := by
  have named := (FieldType.eq_chars_of_parse parsed).2
  rw [FieldType.eq_text_of_parse parsed, desc_text named.closed plain]
  exact FieldType.parse_text (targets.named named)

theorem parse_method {text : String} {d : MethodDescriptor}
    (parsed : MethodDescriptor.parse text = .ok d)
    (plain : ∀ name ∈ d.classes, Hierarchy.IsClass name) :
    MethodDescriptor.parse (r.desc text) = .ok (d.mapClasses r.nameOf) := by
  obtain ⟨whole, named⟩ := MethodDescriptor.eq_chars_of_parse parsed
  have renamed : r.desc text = (d.mapClasses r.nameOf).text := by
    rw [desc, whole, descChars_method (fun t mem => (named t mem).closed) fun t mem name inside =>
      plain name (List.mem_flatMap.2 ⟨t, mem, inside⟩), MethodDescriptor.text]
  rw [renamed]
  apply MethodDescriptor.parse_text
  intro t mem
  rw [MethodDescriptor.types_mapClasses] at mem
  obtain ⟨old, inside, rfl⟩ := List.mem_map.1 mem
  exact targets.named (named old inside)

end TargetsNamed

/-- A renamed descriptor is read as the same types with their classes renamed one by one. Only
classes that a rule names as a whole get another name. -/
theorem desc_mapClasses (r : Renaming) (targets : r.TargetsNamed) :
    (∀ text t, FieldType.parse text = .ok t → (∀ name ∈ t.classes, Hierarchy.IsClass name) →
      FieldType.parse (r.desc text) = .ok (t.mapClasses r.nameOf) ∧
      t.Alike (t.mapClasses r.nameOf) ∧
      (t.isReference = true →
        r.className t.internalName = (t.mapClasses r.nameOf).internalName) ∧
      ((∀ name ∈ t.classes, r.classes.lookup name = none) → r.desc text = text)) ∧
    ∀ text d, MethodDescriptor.parse text = .ok d →
      (∀ name ∈ d.classes, Hierarchy.IsClass name) →
      MethodDescriptor.parse (r.desc text) = .ok (d.mapClasses r.nameOf) ∧
      d.Alike (d.mapClasses r.nameOf) ∧
      ((∀ name ∈ d.classes, r.classes.lookup name = none) → r.desc text = text) := by
  constructor
  · intro text t parsed plain
    have renamed := targets.parse_field parsed plain
    have closed := (FieldType.eq_chars_of_parse parsed).2.closed
    refine ⟨renamed, t.alike_mapClasses _, fun ref => className_internalName ref closed plain,
      fun unknown => ?_⟩
    have same := FieldType.mapClasses_of_fixed r.nameOf fun name mem =>
      nameOf_of_unknown (unknown name mem)
    rw [same] at renamed
    rw [FieldType.eq_text_of_parse renamed, FieldType.eq_text_of_parse parsed]
  · intro text d parsed plain
    have renamed := targets.parse_method parsed plain
    refine ⟨renamed, d.alike_mapClasses _, fun unknown => ?_⟩
    have same := d.mapClasses_of_fixed r.nameOf fun name mem =>
      nameOf_of_unknown (unknown name mem)
    rw [same] at renamed
    rw [MethodDescriptor.eq_text_of_parse renamed, MethodDescriptor.eq_text_of_parse parsed]

/-- Of the two rules one is about a class that is called like the mark of a class. -/
def counterRules : Renaming :=
  (Renaming.empty.renameClass "mixins/Counter" "a").renameClass "L" "java/lang/Long"

theorem desc_mapClasses_counter :
    MethodDescriptor.parse (counterRules.desc "(I[[Lmixins/Counter;LL;Lmixins/CounterLog;)LL;") =
      .ok ⟨[.int, .array (.array (.object "a")), .object "java/lang/Long",
        .object "mixins/CounterLog"], some (.object "java/lang/Long")⟩ ∧
    counterRules.className "[[Lmixins/Counter;" = "[[La;" ∧
    counterRules.desc "[LLong;" = "[LLong;" := by
  have targets : counterRules.TargetsNamed := by
    intro name target found
    obtain ⟨before, after, whole, _⟩ := List.lookup_eq_some_iff.1 found
    have rule : (name, target) ∈ counterRules.classes := by simp [whole]
    have known : ∀ rule ∈ counterRules.classes, rule.2 ≠ "" ∧ ';' ∉ rule.2.toList := by decide
    exact known _ rule
  obtain ⟨fields, methods⟩ := desc_mapClasses counterRules targets
  have method := methods "(I[[Lmixins/Counter;LL;Lmixins/CounterLog;)LL;"
    ⟨[.int, .array (.array (.object "mixins/Counter")), .object "L",
      .object "mixins/CounterLog"], some (.object "L")⟩ (by decide +kernel)
    (by unfold Hierarchy.IsClass; decide)
  have array := fields "[[Lmixins/Counter;" (.array (.array (.object "mixins/Counter")))
    (by decide +kernel) (by unfold Hierarchy.IsClass; decide)
  have other := fields "[LLong;" (.array (.object "Long")) (by decide +kernel)
    (by unfold Hierarchy.IsClass; decide)
  exact ⟨method.1, array.2.2.1 rfl, other.2.2.2 (by decide)⟩

end Renaming

end ClassWeave
