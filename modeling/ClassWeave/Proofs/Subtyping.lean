import ClassWeave.Analysis.Effect
import ClassWeave.Proofs.Analysis.References

/-!
# Assignability is subtyping

A reference type can be stored where another is expected exactly when it is a subtype: the same
type, a class whose links lead to the other one, an array of a subtype, or an array where a class of
all arrays is expected. The links of the classes of all arrays and all objects could lead anywhere;
where they lead nowhere, subtyping is transitive.
-/

set_option autoImplicit false

namespace ClassWeave

namespace Hierarchy

def arrayClasses : List String := ["java/lang/Cloneable", "java/io/Serializable"]

/-- Subtypes among the names of reference types. Arrays of primitive elements are subtypes of
each other only if they are the same. -/
inductive IsSubtype (h : Hierarchy) : String → String → Prop where
  | refl (a : String) : IsSubtype h a a
  | object (a : String) : IsSubtype h a objectClass
  | reached {a b : String} (ha : IsClassName a) (hb : IsClassName b) (reach : h.Reach a b) :
      IsSubtype h a b
  | arrayClass {a b : String} (ha : isArray a.toList = true) (hb : b ∈ arrayClasses) :
      IsSubtype h a b
  | array {a b : String} (ha : IsReferenceName a) (hb : IsReferenceName b)
      (elements : IsSubtype h a b) : IsSubtype h (arrayOf a) (arrayOf b)

/-- No links lead from a class that arrays belong to, but to the class of all objects. -/
def Rooted (h : Hierarchy) : Prop :=
  ∀ name ∈ objectClass :: arrayClasses, ∀ upper, h.Link name upper → upper = objectClass

variable {h : Hierarchy} {a b c : String} {s t : FieldType}

/-! The names are those of types. -/

theorem toList_internalName_array (t : FieldType) :
    (FieldType.array t).internalName.toList = '[' :: t.chars := String.toList_ofList

theorem isReferenceName_iff : IsReferenceName a ↔
    ∃ t : FieldType, t.isReference = true ∧ t.HasClassNames ∧ t.internalName = a := by
  constructor
  · rintro (name | ⟨element, parsed, names⟩)
    · refine ⟨.object a, rfl, fun c mem => ?_, rfl⟩
      rwa [List.mem_singleton.1 mem]
    · exact ⟨.array element, rfl, names, (FieldType.eq_text_of_parse parsed).symm⟩
  · rintro ⟨t, ref, names, rfl⟩
    cases t with
    | object name => exact .inl (names name (List.mem_singleton_self name))
    | array element => exact .inr ⟨element, FieldType.parse_text names.named, names⟩
    | _ => cases ref

theorem toList_arrayOf (ref : t.isReference = true) (names : t.HasClassNames) :
    (arrayOf t.internalName).toList = '[' :: t.chars := by
  cases t with
  | object name =>
    have plain : IsClass name := (names name (List.mem_singleton_self name)).plain
    have noArray : arrayOf.isArrayName name = false := plain
    simp [arrayOf, FieldType.internalName, FieldType.chars, noArray]
  | array element =>
    have array : arrayOf.isArrayName (FieldType.array element).internalName = true := by
      rw [arrayOf.isArrayName, toList_internalName_array]
      rfl
    rw [arrayOf, if_pos array, String.toList_append, toList_internalName_array]
    rfl
  | _ => cases ref

theorem isArray_arrayOf (a : String) : isArray (arrayOf a).toList = true := by
  unfold arrayOf
  split <;> simp [isArray]

theorem arrayOf_inj (ha : IsReferenceName a) (hb : IsReferenceName b)
    (same : arrayOf a = arrayOf b) : a = b := by
  obtain ⟨s, refS, namesS, rfl⟩ := isReferenceName_iff.1 ha
  obtain ⟨t, refT, namesT, rfl⟩ := isReferenceName_iff.1 hb
  have chars := congrArg String.toList same
  rw [toList_arrayOf refS namesS, toList_arrayOf refT namesT] at chars
  rw [namesS.chars_inj namesT (List.cons.inj chars).2]

/-! What can be stored, by the shape of the types. -/

theorem assignable_elements {x y : List Char} (other : x ≠ y) :
    h.assignable ('[' :: x) ('[' :: y) =
      match objectElement? x, objectElement? y with
      | some wanted, some given => h.assignable wanted given
      | some wanted, none => isArray y && h.assignable wanted y
      | none, none => isArray x && isArray y && h.assignable x y
      | none, some _ => false := by
  have apart : ¬ ('[' :: x = '[' :: y ∨ '[' :: x = objectClass.toList) := by
    rintro (eq | eq)
    · exact other (List.cons.inj eq).2
    · exact isClass_object.ne_array _ eq.symm
  have unlike : (x == y) = false := beq_false_of_ne other
  rw [assignable.eq_def, if_neg apart]
  simp only
  split
  · rename_i hx hy
    rw [hx, hy]
  · rename_i hx hy
    rw [hx, hy]
    cases isArray y <;> rfl
  · rename_i hx hy
    rw [hx, hy]
    cases isArray x <;> cases isArray y <;> simp [unlike]
  · rename_i hx hy
    rw [hx, hy]

theorem kinds (t : FieldType) : (∃ name, t = .object name) ∨ (∃ element, t = .array element) ∨
    (t.isReference = false ∧ objectElement? t.chars = none ∧ isArray t.chars = false) := by
  cases t <;> simp [FieldType.isReference, FieldType.objectElement?_chars, FieldType.isArray_chars]

theorem assignable_array_class (hb : IsClass b) (x : List Char) :
    h.assignable ('[' :: x) b.toList = false := by
  rw [← Bool.not_eq_true]
  intro fits
  have plain : IsClass (String.ofList ('[' :: x)) := by
    apply isClass_of_isAssignable (h := h) hb
    rwa [isAssignable, String.toList_ofList]
  exact plain.ne_array x String.toList_ofList

theorem assignable_array (hs : s.HasClassNames) (ht : t.HasClassNames) :
    h.assignable ('[' :: s.chars) ('[' :: t.chars) = true ↔
      s = t ∨ (s.isReference = true ∧ t.isReference = true ∧
        h.isAssignable s.internalName t.internalName = true) := by
  by_cases same : s = t
  · simp [same, assignable_self]
  · rw [assignable_elements fun eq => same (hs.chars_inj ht eq)]
    rcases kinds s with ⟨a, rfl⟩ | ⟨s, rfl⟩ | ⟨ref, noClass, noArray⟩
    · rcases kinds t with ⟨b, rfl⟩ | ⟨t, rfl⟩ | ⟨ref', noClass', noArray'⟩
      · simp [same, FieldType.isReference, FieldType.objectElement?_chars, FieldType.internalName,
          isAssignable]
      · simp [FieldType.isReference, FieldType.objectElement?_chars, FieldType.isArray_chars,
          FieldType.internalName, FieldType.text, isAssignable]
      · simp [same, ref', noClass', noArray', FieldType.objectElement?_chars]
    · rcases kinds t with ⟨b, rfl⟩ | ⟨t, rfl⟩ | ⟨ref', noClass', noArray'⟩
      · have plain : IsClass b := (ht b (List.mem_singleton_self b)).plain
        have unfit : h.isAssignable (FieldType.array s).internalName b = false := by
          rw [isAssignable, toList_internalName_array, assignable_array_class plain]
        rw [show (FieldType.object b).internalName = b from rfl, unfit]
        simp [same, FieldType.objectElement?_chars]
      · simp [same, FieldType.isReference, FieldType.objectElement?_chars, FieldType.isArray_chars,
          FieldType.internalName, FieldType.text, isAssignable]
      · simp [same, ref', noClass', noArray', FieldType.objectElement?_chars]
    · cases objectElement? t.chars <;> simp [same, ref, noClass, noArray]

theorem assignable_class_array (ha : IsClass a) (x : List Char) :
    h.assignable a.toList ('[' :: x) = true ↔ a = objectClass ∨ a ∈ arrayClasses := by
  have object : a.toList = objectClass.toList ↔ a = objectClass := String.toList_inj
  rw [assignable.eq_def]
  by_cases trivially : a.toList = '[' :: x ∨ a.toList = objectClass.toList
  · rw [if_pos trivially]
    exact iff_of_true rfl (.inl (object.1 (trivially.resolve_left (ha.ne_array x))))
  · rw [if_neg trivially]
    rw [object] at trivially
    split
    · exact absurd ‹a.toList = _› (ha.ne_array _)
    · exact absurd ‹a.toList = _› (ha.ne_array _)
    · have proper : a ≠ objectClass := fun same => trivially (.inr same)
      simp only [Bool.or_eq_true, beq_iff_eq, String.toList_inj, arrayClasses, List.mem_cons,
        List.not_mem_nil, or_false, proper, false_or]
    · exact absurd rfl (‹∀ tail, '[' :: x = '[' :: tail → False› x)

theorem isClass_of_mem_arrayClasses (mem : a ∈ arrayClasses) : IsClass a := by
  rcases List.mem_cons.1 mem with rfl | mem
  · unfold IsClass
    decide
  · rw [List.mem_singleton.1 mem]
    unfold IsClass
    decide

theorem isAssignable_of_isSubtype (fits : h.IsSubtype a b) : h.isAssignable b a = true := by
  induction fits with
  | refl a => exact assignable_self h _
  | object a => exact assignable_object h _
  | reached ha hb reach => exact (isAssignable_iff hb.plain ha.plain).2 (.inr reach)
  | arrayClass ha hb =>
    obtain ⟨x, array⟩ := isArray_iff.1 ha
    rw [isAssignable, array]
    exact (assignable_class_array (isClass_of_mem_arrayClasses hb) x).2 (.inr hb)
  | array ha hb _ ih =>
    obtain ⟨s, refS, namesS, rfl⟩ := isReferenceName_iff.1 ha
    obtain ⟨t, refT, namesT, rfl⟩ := isReferenceName_iff.1 hb
    rw [isAssignable, toList_arrayOf refS namesS, toList_arrayOf refT namesT]
    exact (assignable_array namesT namesS).2 (.inr ⟨refT, refS, ih⟩)

theorem isSubtype_class (ha : IsReferenceName a) (hb : IsClassName b)
    (fits : h.isAssignable b a = true) : h.IsSubtype a b := by
  rcases ha with ha | ⟨element, parsed, _⟩
  · rcases (isAssignable_iff hb.plain ha.plain).1 fits with rfl | reach
    · exact .object a
    · exact .reached ha hb reach
  · have array := toList_of_parse parsed
    rw [isAssignable, array, assignable_class_array hb.plain] at fits
    rcases fits with rfl | mem
    · exact .object a
    · exact .arrayClass (isArray_iff.2 ⟨_, array⟩) mem

theorem internalName_array (ref : t.isReference = true) (names : t.HasClassNames) :
    (FieldType.array t).internalName = arrayOf t.internalName := by
  rw [← String.toList_inj, toList_internalName_array, toList_arrayOf ref names]

theorem isSubtype_of_isAssignable (refS : s.isReference = true) (refT : t.isReference = true)
    (hs : s.HasClassNames) (ht : t.HasClassNames)
    (fits : h.isAssignable t.internalName s.internalName = true) :
    h.IsSubtype s.internalName t.internalName := by
  have reference : IsReferenceName s.internalName := isReferenceName_iff.2 ⟨s, refS, hs, rfl⟩
  induction t generalizing s with
  | object b => exact isSubtype_class reference (ht b (List.mem_singleton_self b)) fits
  | array t ih =>
    cases s with
    | object a =>
      have plain : IsClass a := (hs a (List.mem_singleton_self a)).plain
      rw [isAssignable, toList_internalName_array, FieldType.internalName,
        assignable_array_class plain] at fits
      cases fits
    | array s =>
      rw [isAssignable, toList_internalName_array, toList_internalName_array,
        assignable_array (s := t) (t := s) ht hs] at fits
      rcases fits with rfl | ⟨refT', refS', fits⟩
      · exact .refl _
      · have inner : IsReferenceName s.internalName := isReferenceName_iff.2 ⟨s, refS', hs, rfl⟩
        have outer : IsReferenceName t.internalName := isReferenceName_iff.2 ⟨t, refT', ht, rfl⟩
        rw [internalName_array refS' hs, internalName_array refT' ht]
        exact .array inner outer (ih refS' refT' hs ht fits inner)
    | _ => cases refS
  | _ => cases refT

/-! Subtypes of subtypes -/

theorem not_isArray (ha : IsClass a) : isArray a.toList ≠ true := by
  rw [ha]
  exact Bool.false_ne_true

theorem Rooted.reach (rooted : h.Rooted) (mem : a ∈ objectClass :: arrayClasses)
    (reach : h.Reach a b) : b = a ∨ b = objectClass := by
  induction reach with
  | refl => exact .inl rfl
  | tail _ link ih =>
    rcases ih with rfl | rfl
    · exact .inr (rooted _ mem _ link)
    · exact .inr (rooted _ List.mem_cons_self _ link)

theorem not_isClass_arrayOf (a : String) : ¬ IsClass (arrayOf a) :=
  fun plain => not_isArray plain (isArray_arrayOf a)

theorem isClass_of_root (mem : a ∈ objectClass :: arrayClasses) : IsClass a := by
  rcases List.mem_cons.1 mem with rfl | mem
  · exact isClass_object
  · exact isClass_of_mem_arrayClasses mem

theorem IsSubtype.of_root (fits : h.IsSubtype a b) (rooted : h.Rooted)
    (mem : a ∈ objectClass :: arrayClasses) : b = a ∨ b = objectClass := by
  have plain : IsClass a := isClass_of_root mem
  cases fits with
  | refl => exact .inl rfl
  | object => exact .inr rfl
  | reached _ _ reach => exact rooted.reach mem reach
  | arrayClass ha _ => exact absurd ha (not_isArray plain)
  | array _ _ _ => exact absurd plain (not_isClass_arrayOf _)

theorem IsSubtype.trans (first : h.IsSubtype a b) (second : h.IsSubtype b c)
    (rooted : h.Rooted) : h.IsSubtype a c := by
  induction first generalizing c with
  | refl a => exact second
  | object a =>
    have top : c = objectClass := by simpa using second.of_root rooted List.mem_cons_self
    exact top ▸ .object a
  | @reached a b ha hb reach =>
    cases second with
    | refl => exact .reached ha hb reach
    | object => exact .object a
    | reached _ hc reach' => exact .reached ha hc (reach.trans reach')
    | arrayClass array _ => exact absurd array (not_isArray hb.plain)
    | array _ _ _ => exact absurd hb.plain (not_isClass_arrayOf _)
  | @arrayClass a b ha hb =>
    rcases second.of_root rooted (List.mem_cons_of_mem _ hb) with rfl | rfl
    · exact .arrayClass ha hb
    · exact .object a
  | @array a b ha hb elements ih =>
    generalize middle : arrayOf b = m at second
    cases second with
    | refl => exact middle ▸ .array ha hb elements
    | object => exact .object _
    | reached hm _ _ => exact absurd hm.plain (middle ▸ not_isClass_arrayOf b)
    | arrayClass _ hc => exact .arrayClass (isArray_arrayOf a) hc
    | array hb' hc below => exact .array ha hc (ih (arrayOf_inj hb hb' middle ▸ below))

/-- What can be stored where is what is a subtype of what. If no links lead from the classes that
arrays belong to, that is reflexive and transitive. -/
theorem isAssignable_iff_isSubtype (h : Hierarchy) :
    (∀ a b, IsReferenceName a → IsReferenceName b →
      (h.isAssignable b a = true ↔ h.IsSubtype a b)) ∧
    (h.Rooted → (∀ a, IsReferenceName a → h.isAssignable a a = true) ∧
      ∀ a b c, IsReferenceName a → IsReferenceName b → IsReferenceName c →
        h.isAssignable b a = true → h.isAssignable c b = true → h.isAssignable c a = true) := by
  have subtyping : ∀ a b, IsReferenceName a → IsReferenceName b →
      (h.isAssignable b a = true ↔ h.IsSubtype a b) := by
    intro a b ha hb
    obtain ⟨s, refS, hs, rfl⟩ := isReferenceName_iff.1 ha
    obtain ⟨t, refT, ht, rfl⟩ := isReferenceName_iff.1 hb
    exact ⟨isSubtype_of_isAssignable refS refT hs ht, isAssignable_of_isSubtype⟩
  refine ⟨subtyping, fun rooted => ⟨fun a _ => assignable_self h _, ?_⟩⟩
  intro a b c ha hb hc first second
  rw [subtyping a b ha hb] at first
  rw [subtyping b c hb hc] at second
  rw [subtyping a c ha hc]
  exact first.trans second rooted

/-- Two classes that are each other's superclass; one of them has an interface without a header. -/
def circle : Hierarchy :=
  (empty.insert ⟨"x", some "y", [], false⟩).insert ⟨"y", some "x", ["i"], false⟩

theorem rooted_circle : circle.Rooted := by
  rintro name mem upper ⟨header, found, -⟩
  have unknown : ∀ name ∈ objectClass :: arrayClasses, circle.header? name = none := by
    decide +kernel
  rw [unknown name mem] at found
  cases found

theorem isReferenceName_circle : IsReferenceName "[[Lx;" ∧ IsReferenceName "[[Li;" ∧
    IsReferenceName "[Ljava/lang/Cloneable;" := by
  have named : ∀ name ∈ ["x", "i", "java/lang/Cloneable"],
      (FieldType.object name).HasClassNames := by
    intro name mem c same
    rw [List.mem_singleton.1 same]
    have checked : ∀ name ∈ ["x", "i", "java/lang/Cloneable"],
        name ≠ "" ∧ ';' ∉ name.toList ∧ isArray name.toList = false := by
      decide
    obtain ⟨nonempty, closed, plain⟩ := checked name mem
    exact ⟨nonempty, closed, plain⟩
  exact ⟨isReferenceName_iff.2 ⟨.array (.array (.object "x")), rfl, named _ (by simp), by decide⟩,
    isReferenceName_iff.2 ⟨.array (.array (.object "i")), rfl, named _ (by simp), by decide⟩,
    isReferenceName_iff.2 ⟨.array (.object _), rfl, named "java/lang/Cloneable" (by simp),
      by decide⟩⟩

theorem isAssignable_circle :
    circle.IsSubtype "[[Lx;" "[[Li;" ∧ ¬ circle.IsSubtype "[[Li;" "[[Lx;" ∧
      circle.isAssignable "[Ljava/lang/Cloneable;" "[[Lx;" = true := by
  obtain ⟨rows, above, clones⟩ := isReferenceName_circle
  obtain ⟨subtyping, order⟩ := isAssignable_iff_isSubtype circle
  refine ⟨(subtyping _ _ rows above).1 (by decide +kernel), fun below => ?_, ?_⟩
  · have fits := (subtyping _ _ above rows).2 below
    revert fits
    decide +kernel
  · exact (order rooted_circle).2 _ _ _ rows above clones (by decide +kernel) (by decide +kernel)

example :
    let h := empty.insert ⟨objectClass, some "x", [], false⟩
    h.isAssignable objectClass "y" = true ∧ h.isAssignable "x" objectClass = true ∧
      h.isAssignable "x" "y" = false := by
  decide +kernel

end Hierarchy

end ClassWeave
