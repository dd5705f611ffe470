import ClassWeave.Proofs.Analysis.Joins
import ClassWeave.Proofs.Descriptor

/-!
# Names of reference types that join

A reference type is named by a class, or by the descriptor of an array. Joining two of them gives
the name of a type that both are assignable to, in every hierarchy, with one exception: arrays of
arrays join below a bracket, and where the inner arrays have no better join than
`java/lang/Object` its bare name stands behind the bracket. That is no descriptor, and nothing is
assignable to it.
-/

set_option autoImplicit false

namespace ClassWeave

/-- What may stand for a class where arrays have names too. -/
structure IsClassName (name : String) : Prop where
  nonempty : name ≠ ""
  closed : ';' ∉ name.toList
  plain : Hierarchy.IsClass name

def FieldType.HasClassNames (t : FieldType) : Prop := ∀ c ∈ t.classes, IsClassName c

/-- The name of a class, or the descriptor of an array. -/
def IsReferenceName (name : String) : Prop :=
  IsClassName name ∨
    ∃ element, FieldType.parse name = .ok (.array element) ∧ element.HasClassNames

namespace FieldType

/-- Below their common brackets the elements differ, and are not two classes. -/
def Mismatched : FieldType → FieldType → Prop
  | .array s, .array t => Mismatched s t
  | .object _, .object _ => False
  | s, t => s ≠ t

theorem objectElement?_chars (t : FieldType) : Hierarchy.objectElement? t.chars =
    match t with
    | .object name => some name.toList
    | _ => none := by
  cases t with
  | object name => exact Hierarchy.objectElement?_eq_some.2 rfl
  | _ => rfl

theorem isArray_chars (t : FieldType) : Hierarchy.isArray t.chars =
    match t with
    | .array _ => true
    | _ => false := by
  cases t <;> rfl

theorem Mismatched.cases {s t : FieldType} (mismatched : s.Mismatched t) :
    (∃ s' t', s = .array s' ∧ t = .array t' ∧ s'.Mismatched t') ∨
      (s ≠ t ∧ (Hierarchy.isArray s.chars && Hierarchy.isArray t.chars) = false ∧
        (Hierarchy.objectElement? s.chars = none ∨ Hierarchy.objectElement? t.chars = none)) := by
  cases s <;> cases t <;>
    simp_all [Mismatched, isArray_chars, objectElement?_chars]

theorem HasClassNames.named {t : FieldType} (names : t.HasClassNames) : t.Named :=
  fun c mem => ⟨(names c mem).nonempty, (names c mem).closed⟩

theorem HasClassNames.chars_inj {s t : FieldType} (hs : s.HasClassNames) (ht : t.HasClassNames)
    (same : s.chars = t.chars) : s = t := by
  have read := read_chars hs.named []
  rw [same, read_chars ht.named []] at read
  cases read
  rfl

end FieldType

namespace Hierarchy

def NamesClasses (h : Hierarchy) : Prop :=
  ∀ name header superclass, h.header? name = some header → header.superName = some superclass →
    IsClassName superclass

variable {h : Hierarchy}

/-! The nearest supertype of two classes is one of them, a superclass or `java/lang/Object`. -/

theorem isClassName_object : IsClassName objectClass where
  nonempty := by decide
  closed := by decide
  plain := isClass_object

theorem isClassName_superclassOf (names : h.NamesClasses) {a c : String}
    (up : h.superclassOf a = some c) : IsClassName c := by
  unfold superclassOf at up
  split at up
  · exact names _ _ _ ‹_› up
  · split at up
    · cases up
    · exact Option.some.inj up ▸ isClassName_object

theorem isClassName_firstCommon (names : h.NamesClasses) {b : String} {fuel : Nat}
    {seen : List String} {start : Option String} (named : ∀ c, start = some c → IsClassName c) :
    IsClassName (h.firstCommon b fuel seen start) := by
  induction fuel generalizing seen start with
  | zero => exact isClassName_object
  | succ fuel ih =>
    cases start with
    | none => exact isClassName_object
    | some candidate =>
      rw [firstCommon]
      split
      · exact isClassName_object
      · split
        · exact named candidate rfl
        · exact ih fun c up => isClassName_superclassOf names up

theorem isClassName_nearestSupertype (names : h.NamesClasses) {a b : String} (ha : IsClassName a)
    (hb : IsClassName b) : IsClassName (h.nearestSupertype a b) := by
  unfold nearestSupertype
  split
  · exact ha
  · split
    · exact hb
    · split
      · exact isClassName_object
      · exact isClassName_firstCommon names fun c up => isClassName_superclassOf names up

/-! Both joining and assigning go on below a bracket, from arrays to arrays. -/

theorem assignable_self (h : Hierarchy) (s : List Char) : h.assignable s s = true := by
  rw [assignable.eq_def, if_pos (.inl rfl)]

theorem assignable_object (h : Hierarchy) (s : List Char) :
    h.assignable objectClass.toList s = true := by
  rw [assignable.eq_def, if_pos (.inr rfl)]

theorem assignable_nested (h : Hierarchy) (x y : List Char) :
    h.assignable ('[' :: '[' :: x) ('[' :: '[' :: y) = h.assignable ('[' :: x) ('[' :: y) := by
  by_cases same : x = y
  · rw [same, assignable_self, assignable_self]
  · have other : ¬ ('[' :: '[' :: x = '[' :: '[' :: y ∨ '[' :: '[' :: x = objectClass.toList) := by
      rintro (eq | eq)
      · simp only [List.cons.injEq, true_and] at eq
        exact same eq
      · exact isClass_object.ne_array _ eq.symm
    rw [assignable.eq_def, if_neg other]
    rfl

theorem assignable_arrayOfClass {a b : String} (fits : h.isAssignable a b = true) :
    h.assignable (arrayOfClass a) (arrayOfClass b) = true := by
  by_cases same : a = b
  · rw [same, assignable_self]
  · have other : ¬ (arrayOfClass a = arrayOfClass b ∨ arrayOfClass a = objectClass.toList) := by
      rintro (eq | eq)
      · exact same (arrayOfClass_inj eq)
      · exact isClass_object.ne_array _ eq.symm
    have element := objectElement?_marked
    rw [assignable.eq_def, if_neg other]
    simp only [arrayOfClass, List.cons_append] at element ⊢
    split
    · rename_i wanted given found found'
      cases (element a).symm.trans found
      cases (element b).symm.trans found'
      exact fits
    · rename_i found'
      cases (element b).symm.trans found'
    · rename_i found _
      cases (element a).symm.trans found
    · rename_i found _
      cases (element a).symm.trans found

theorem joinChars_nested (h : Hierarchy) (x y : List Char) :
    h.joinChars ('[' :: '[' :: x) ('[' :: '[' :: y) = '[' :: h.joinChars ('[' :: x) ('[' :: y) := by
  by_cases same : x = y
  · rw [same, joinChars_self, joinChars_self]
  · have other : '[' :: '[' :: x ≠ '[' :: '[' :: y := by
      intro eq
      simp only [List.cons.injEq, true_and] at eq
      exact same eq
    rw [joinChars.eq_def, if_neg other]
    rfl

/-! Two arrays, by their elements. -/

section Elements

variable {s t : FieldType}

/-- Arrays of these elements join in an array that both are assignable to. -/
structure JoinsIn (h : Hierarchy) (s t r : FieldType) : Prop where
  join : h.joinChars ('[' :: s.chars) ('[' :: t.chars) = '[' :: r.chars
  left : h.assignable ('[' :: r.chars) ('[' :: s.chars) = true
  right : h.assignable ('[' :: r.chars) ('[' :: t.chars) = true
  names : h.NamesClasses → r.HasClassNames

theorem joinsIn_self (hs : s.HasClassNames) : h.JoinsIn s s s where
  join := joinChars_self h _
  left := assignable_self h _
  right := assignable_self h _
  names _ := hs

theorem joinsIn_object {c d : String} (hc : IsClassName c) (hd : IsClassName d) :
    h.JoinsIn (.object c) (.object d) (.object (h.nearestSupertype c d)) := by
  obtain ⟨plain, left, right⟩ := above_nearestSupertype (h := h) hc.plain hd.plain
  refine ⟨joinChars_arrayOfClass,
    assignable_arrayOfClass ((isAssignable_iff plain hc.plain).2 left),
    assignable_arrayOfClass ((isAssignable_iff plain hd.plain).2 right), fun names => ?_⟩
  intro name mem
  rw [List.mem_singleton.1 mem]
  exact isClassName_nearestSupertype names hc hd

theorem JoinsIn.array {r : FieldType} (below : h.JoinsIn s t r) :
    h.JoinsIn (.array s) (.array t) (.array r) where
  join := (joinChars_nested h s.chars t.chars).trans (congrArg ('[' :: ·) below.join)
  left := (assignable_nested h r.chars s.chars).trans below.left
  right := (assignable_nested h r.chars t.chars).trans below.right
  names := below.names

theorem exists_joinsIn (hs : s.HasClassNames) (ht : t.HasClassNames)
    (fits : ¬ s.Mismatched t) : ∃ r, h.JoinsIn s t r := by
  by_cases same : s = t
  · exact ⟨s, same ▸ joinsIn_self hs⟩
  · induction s generalizing t with
    | object c =>
      cases t with
      | object d =>
        have hc : IsClassName c := hs c (List.mem_singleton_self c)
        exact ⟨_, joinsIn_object hc (ht d (List.mem_singleton_self d))⟩
      | _ => exact absurd same fits
    | array s ih =>
      cases t with
      | array t =>
        obtain ⟨r, below⟩ := ih (t := t) hs ht fits fun eq => same (congrArg _ eq)
        exact ⟨.array r, below.array⟩
      | _ => exact absurd same fits
    | _ => cases t <;> exact absurd same fits

theorem joinChars_unlike (hs : s.HasClassNames) (ht : t.HasClassNames) (other : s ≠ t)
    (arrays : (isArray s.chars && isArray t.chars) = false)
    (objects : objectElement? s.chars = none ∨ objectElement? t.chars = none) :
    h.joinChars ('[' :: s.chars) ('[' :: t.chars) = objectClass.toList := by
  refine joinChars_mixed (fun same => other ?_) (.inr (.inr ⟨_, _, rfl, rfl, arrays, objects⟩))
  exact hs.chars_inj ht (List.cons.inj same).2

/-- The join of arrays of these elements is the bare name of the class of all objects, behind
brackets that both elements have. -/
def LeavesBare (h : Hierarchy) (s t : FieldType) : Prop :=
  ∃ (n : Nat) (s' t' : FieldType), s.chars = List.replicate n '[' ++ s'.chars ∧
    t.chars = List.replicate n '[' ++ t'.chars ∧
    h.joinChars ('[' :: s.chars) ('[' :: t.chars) = List.replicate n '[' ++ objectClass.toList

theorem leavesBare_of_unlike (hs : s.HasClassNames) (ht : t.HasClassNames) (other : s ≠ t)
    (arrays : (isArray s.chars && isArray t.chars) = false)
    (objects : objectElement? s.chars = none ∨ objectElement? t.chars = none) :
    h.LeavesBare s t :=
  ⟨0, s, t, rfl, rfl, joinChars_unlike hs ht other arrays objects⟩

theorem LeavesBare.array (below : h.LeavesBare s t) : h.LeavesBare (.array s) (.array t) := by
  obtain ⟨n, s', t', left, right, join⟩ := below
  refine ⟨n + 1, s', t', congrArg ('[' :: ·) left, congrArg ('[' :: ·) right, ?_⟩
  exact (joinChars_nested h s.chars t.chars).trans (congrArg ('[' :: ·) join)

theorem leavesBare_of_mismatched (hs : s.HasClassNames) (ht : t.HasClassNames)
    (mismatched : s.Mismatched t) : h.LeavesBare s t := by
  induction s generalizing t with
  | array s ih =>
    rcases mismatched.cases with ⟨_, t, same, rfl, below⟩ | ⟨other, arrays, objects⟩
    · cases same
      exact (ih (t := t) hs ht below).array
    · exact leavesBare_of_unlike hs ht other arrays objects
  | _ =>
    rcases mismatched.cases with ⟨_, _, same, _⟩ | ⟨other, arrays, objects⟩
    · cases same
    · exact leavesBare_of_unlike hs ht other arrays objects

theorem not_assignable_bare (n : Nat) (t : FieldType) :
    h.assignable ('[' :: (List.replicate n '[' ++ objectClass.toList))
      ('[' :: '[' :: (List.replicate n '[' ++ t.chars)) = false := by
  induction n with
  | zero =>
    have other : ¬ ('[' :: objectClass.toList = '[' :: '[' :: t.chars ∨
        '[' :: objectClass.toList = objectClass.toList) := by
      rintro (eq | eq)
      · exact isClass_object.ne_array _ (List.cons.inj eq).2
      · exact isClass_object.ne_array _ eq.symm
    show h.assignable ('[' :: objectClass.toList) ('[' :: '[' :: t.chars) = false
    rw [assignable.eq_def, if_neg other]
    rfl
  | succ n ih => exact (assignable_nested h _ _).trans ih

theorem not_isReferenceName_bare (n : Nat) :
    ¬ IsReferenceName (String.ofList ('[' :: (List.replicate n '[' ++ objectClass.toList))) := by
  have unread : FieldType.read (List.replicate n '[' ++ objectClass.toList) = none := by
    induction n with
    | zero => rfl
    | succ n ih =>
      rw [List.replicate_succ, List.cons_append, FieldType.read_array, ih]
      rfl
  rintro (name | ⟨element, parsed, -⟩)
  · exact name.plain.ne_array _ (String.toList_ofList ..)
  · rw [FieldType.parse, String.toList_ofList, FieldType.read_array, unread] at parsed
    cases parsed

end Elements

/-! Any two names. -/

section Names

variable {a b : String} {s t : FieldType}

/-- Both are assignable to the join, which is a name again. -/
structure JoinsAbove (h : Hierarchy) (a b : String) : Prop where
  left : h.isAssignable (h.joinNames a b) a = true
  right : h.isAssignable (h.joinNames a b) b = true
  named : h.NamesClasses → IsReferenceName (h.joinNames a b)

/-- The join is no name, and neither is assignable to it. -/
structure JoinsNowhere (h : Hierarchy) (a b : String) : Prop where
  left : h.isAssignable (h.joinNames a b) a = false
  right : h.isAssignable (h.joinNames a b) b = false
  unnamed : ¬ IsReferenceName (h.joinNames a b)

/-- Arrays of arrays, where the elements of the inner arrays differ below their common brackets. -/
def Clash (a b : String) : Prop :=
  ∃ s t, FieldType.parse a = .ok (.array (.array s)) ∧
    FieldType.parse b = .ok (.array (.array t)) ∧ s.Mismatched t

theorem toList_of_parse (parsed : FieldType.parse a = .ok (.array s)) : a.toList = '[' :: s.chars :=
  (FieldType.eq_chars_of_parse parsed).1

theorem hasClassNames_of_parse (ha : IsReferenceName a)
    (parsed : FieldType.parse a = .ok (.array s)) : s.HasClassNames := by
  rcases ha with ha | ⟨s', parsed', names⟩
  · exact absurd (toList_of_parse parsed) (ha.plain.ne_array _)
  · cases parsed.symm.trans parsed'
    exact names

theorem joinsAbove_of_chars {r : List Char} (join : h.joinChars a.toList b.toList = r)
    (left : h.assignable r a.toList = true) (right : h.assignable r b.toList = true)
    (named : h.NamesClasses → IsReferenceName (String.ofList r)) : h.JoinsAbove a b := by
  subst join
  refine ⟨?_, ?_, named⟩
  · rwa [isAssignable, joinNames, String.toList_ofList]
  · rwa [isAssignable, joinNames, String.toList_ofList]

theorem joinsAbove_object (join : h.joinChars a.toList b.toList = objectClass.toList) :
    h.JoinsAbove a b :=
  joinsAbove_of_chars join (assignable_object h _) (assignable_object h _) fun _ =>
    String.ofList_toList (s := objectClass) ▸ .inl isClassName_object

theorem joinsAbove_classes (ha : IsClassName a) (hb : IsClassName b) : h.JoinsAbove a b := by
  obtain ⟨plain, left, right⟩ := above_nearestSupertype (h := h) ha.plain hb.plain
  refine joinsAbove_of_chars (joinChars_class ha.plain hb.plain)
    ((isAssignable_iff plain ha.plain).2 left) ((isAssignable_iff plain hb.plain).2 right)
    fun names => ?_
  rw [String.ofList_toList]
  exact .inl (isClassName_nearestSupertype names ha hb)

theorem joinsAbove_arrays (parsedA : FieldType.parse a = .ok (.array s))
    (parsedB : FieldType.parse b = .ok (.array t)) (hs : s.HasClassNames) (ht : t.HasClassNames)
    (free : ¬ Clash a b) : h.JoinsAbove a b := by
  have listA := toList_of_parse parsedA
  have listB := toList_of_parse parsedB
  by_cases mismatched : s.Mismatched t
  · rcases mismatched.cases with ⟨s', t', rfl, rfl, below⟩ | ⟨other, arrays, objects⟩
    · exact absurd ⟨s', t', parsedA, parsedB, below⟩ free
    · apply joinsAbove_object
      rw [listA, listB]
      exact joinChars_unlike hs ht other arrays objects
  · obtain ⟨r, meets⟩ := exists_joinsIn (h := h) hs ht mismatched
    refine joinsAbove_of_chars (r := '[' :: r.chars) ?_ ?_ ?_ fun names => .inr ⟨r, ?_, ?_⟩
    · rw [listA, listB, meets.join]
    · rw [listA, meets.left]
    · rw [listB, meets.right]
    · exact FieldType.parse_text (t := .array r) (meets.names names).named
    · exact meets.names names

theorem joinsNowhere_of_clash (ha : IsReferenceName a) (hb : IsReferenceName b)
    (clash : Clash a b) : h.JoinsNowhere a b := by
  obtain ⟨s, t, parsedA, parsedB, mismatched⟩ := clash
  have hs : s.HasClassNames := hasClassNames_of_parse (s := .array s) ha parsedA
  have ht : t.HasClassNames := hasClassNames_of_parse (s := .array t) hb parsedB
  obtain ⟨n, s', t', left, right, join⟩ := leavesBare_of_mismatched (h := h) hs ht mismatched
  have listA : a.toList = '[' :: '[' :: s.chars := toList_of_parse parsedA
  have listB : b.toList = '[' :: '[' :: t.chars := toList_of_parse parsedB
  have bare : h.joinNames a b =
      String.ofList ('[' :: (List.replicate n '[' ++ objectClass.toList)) := by
    rw [joinNames, listA, listB, joinChars_nested, join]
  refine ⟨?_, ?_, bare ▸ not_isReferenceName_bare n⟩
  · rw [isAssignable, bare, String.toList_ofList, listA, left]
    exact not_assignable_bare n s'
  · rw [isAssignable, bare, String.toList_ofList, listB, right]
    exact not_assignable_bare n t'

/-- Two reference types join in one that both are assignable to, unless they are arrays of arrays
that clash. -/
theorem joinNames_references (h : Hierarchy) (ha : IsReferenceName a) (hb : IsReferenceName b) :
    (¬ Clash a b → h.JoinsAbove a b) ∧ (Clash a b → h.JoinsNowhere a b) := by
  refine ⟨fun free => ?_, joinsNowhere_of_clash ha hb⟩
  rcases ha with ha | ⟨s, parsedA, hs⟩
  · rcases hb with hb | ⟨t, parsedB, ht⟩
    · exact joinsAbove_classes ha hb
    · have listB := toList_of_parse parsedB
      apply joinsAbove_object
      rw [listB]
      exact joinChars_mixed (ha.plain.ne_array _) (.inl ⟨a, _, ha.plain, rfl, rfl⟩)
  · have listA := toList_of_parse parsedA
    rcases hb with hb | ⟨t, parsedB, ht⟩
    · apply joinsAbove_object
      rw [listA]
      exact joinChars_mixed (hb.plain.ne_array _).symm (.inr (.inl ⟨b, _, hb.plain, rfl, rfl⟩))
    · exact joinsAbove_arrays parsedA parsedB hs ht free

theorem isReferenceName_array (parsed : FieldType.parse a = .ok (.array s))
    (primitive : s.classes = []) : IsReferenceName a :=
  .inr ⟨s, parsed, fun c mem => by rw [primitive] at mem; cases mem⟩

theorem isReferenceName_grids : IsReferenceName "[I" ∧ IsReferenceName "[J" ∧
    IsReferenceName "[[I" ∧ IsReferenceName "[[J" :=
  ⟨isReferenceName_array (s := .int) (by rfl) rfl, isReferenceName_array (s := .long) (by rfl) rfl,
    isReferenceName_array (s := .array .int) (by rfl) rfl,
    isReferenceName_array (s := .array .long) (by rfl) rfl⟩

theorem clash_grids : Clash "[[I" "[[J" :=
  ⟨.int, .long, by rfl, by rfl, fun same => nomatch same⟩

theorem joinNames_grids :
    (empty.isAssignable (empty.joinNames "[I" "[J") "[I" = true ∧
      empty.isAssignable (empty.joinNames "[I" "[J") "[J" = true) ∧
    ¬ IsReferenceName (empty.joinNames "[[I" "[[J") := by
  obtain ⟨ints, longs, intGrid, longGrid⟩ := isReferenceName_grids
  have free : ¬ Clash "[I" "[J" := by
    rintro ⟨s, t, parsed, -⟩
    cases parsed
  have rows := (joinNames_references empty ints longs).1 free
  exact ⟨⟨rows.left, rows.right⟩,
    ((joinNames_references empty intGrid longGrid).2 clash_grids).unnamed⟩

/-- Two classes whose headers name the same superclass. -/
def siblings (superclass : String) : Hierarchy :=
  (empty.insert ⟨"x", some superclass, [], false⟩).insert ⟨"y", some superclass, [], false⟩

/-- The join of two grids is no name, although the headers are in order. Where they are not, a
superclass that is no name comes out of a join. -/
theorem bare_grids :
    (¬ ∀ (h : Hierarchy) (a b : String), h.NamesClasses → IsReferenceName a → IsReferenceName b →
      IsReferenceName (h.joinNames a b) ∧ h.isAssignable (h.joinNames a b) a = true ∧
        h.isAssignable (h.joinNames a b) b = true) ∧
    empty.joinNames "[[I" "[[J" = "[java/lang/Object" ∧
    (siblings "p;q").joinNames "x" "y" = "p;q" := by
  refine ⟨fun joins => ?_, by decide +kernel, by decide +kernel⟩
  obtain ⟨-, -, intGrid, longGrid⟩ := isReferenceName_grids
  have names : empty.NamesClasses := by
    intro name header superclass found
    simp [header?, empty] at found
  have nowhere := joinsNowhere_of_clash (h := empty) intGrid longGrid clash_grids
  exact nowhere.unnamed (joins empty _ _ names intGrid longGrid).1

end Names

end Hierarchy

end ClassWeave
