import Mathlib.Algebra.Order.BigOperators.Group.List
import Mathlib.Algebra.Order.Ring.Nat
import Mathlib.Data.Finset.Card
import ClassWeave.Analysis.Fixpoint
import ClassWeave.Proofs.Analysis.Types
import ClassWeave.Proofs.Subtyping

/-!
# Joins climb

The join of two types is the first of them, or it stands strictly higher. How far a class is from
the top is the number of names that its links lead to and that do not lead back, so the classes of
a circle are equally far, and a join does not go around. An array is further from the top than its
elements and than every class. Where an array is named in the place of a class, a join may go from
one to the other, but not if no superclass is named like an array: then it does not come back.
-/

set_option autoImplicit false

namespace ClassWeave

namespace Hierarchy

/-- The name of a type: where the elements of an array are classes, they are not named like arrays
themselves, as in `[L[I;`. -/
inductive TypeName : List Char → Prop where
  | plain {cs : List Char} (h : isArray cs = false) : TypeName cs
  | array {element : List Char} (inner : TypeName element)
      (named : ∀ name, objectElement? element = some name → isArray name = false) :
      TypeName ('[' :: element)

def linked (h : Hierarchy) : Finset String :=
  (h.entries.flatMap fun e => supertypes e.2).toFinset

def strictlyAbove (h : Hierarchy) (name : String) : Finset String :=
  h.linked.filter fun upper =>
    h.reaches upper h.searchBound [] [name] && !h.reaches name h.searchBound [] [upper]

/-- How far a class is from that of all objects. Of the classes of a circle, those that all arrays
belong to are nearer: a join may go to them for the sake of an array. -/
def classHeight (h : Hierarchy) (name : String) : Nat :=
  if name = objectClass then 0
  else 2 * (h.strictlyAbove name).card + if name ∈ arrayClasses then 1 else 2

/-- How far the name of a type is from that of the class of all objects. An array of arrays is
further than one of classes, whatever these are. -/
def height (h : Hierarchy) : List Char → Nat
  | '[' :: element =>
    match _ : objectElement? element with
    | some name => height h name + 2 * h.searchBound
    | none => height h element + 4 * h.searchBound
  | cs => h.classHeight (String.ofList cs)
termination_by cs => cs.length
decreasing_by
  · exact Nat.lt_succ_of_lt (length_lt_of_objectElement ‹_›)
  · exact Nat.lt_succ_self _

variable {h : Hierarchy} {a b c : String} {s t x y : List Char}

/-! What names a type -/

def isTypeName : List Char → Bool
  | '[' :: element =>
    isTypeName element && (objectElement? element).all fun name => !isArray name
  | _ => true

theorem isTypeName_iff {cs : List Char} : isTypeName cs = true ↔ TypeName cs := by
  constructor
  · intro holds
    fun_induction isTypeName cs with
    | case1 element ih =>
      rw [Bool.and_eq_true, Option.all_eq_true] at holds
      exact .array (ih holds.1) fun name found => by simpa using holds.2 name found
    | case2 cs plain =>
      refine .plain ?_
      by_contra array
      obtain ⟨element, same⟩ := isArray_iff.1 (Bool.not_eq_false _ ▸ array)
      exact plain element same
  · intro named
    induction named with
    | plain plain =>
      unfold isTypeName
      split
      · cases plain
      · rfl
    | array inner named ih =>
      rw [isTypeName, Bool.and_eq_true, Option.all_eq_true]
      exact ⟨ih, fun name found => by simpa using named name found⟩

instance : DecidablePred TypeName := fun _ => decidable_of_iff _ isTypeName_iff

theorem TypeName.inner (named : TypeName ('[' :: x)) : TypeName x := by
  cases named with
  | plain plain => cases plain
  | array inner _ => exact inner

theorem TypeName.class (named : TypeName ('[' :: x)) {name : List Char}
    (found : objectElement? x = some name) : isArray name = false := by
  cases named with
  | plain plain => cases plain
  | array _ named => exact named name found

/-! Classes -/

theorem length_flatMap_supertypes (es : List (String × Header)) :
    (es.flatMap fun e => supertypes e.2).length = unseenLinks [] es := by
  induction es with
  | nil => rfl
  | cons e es ih => simp [unseenLinks, ih]

theorem classHeight_lt_searchBound (h : Hierarchy) (name : String) :
    h.classHeight name < 2 * h.searchBound := by
  have links := unseenLinks_lt_searchBound (h := h)
  have names : h.linked.card ≤ unseenLinks [] h.entries := by
    rw [← length_flatMap_supertypes]
    exact List.toFinset_card_le _
  have above : (h.strictlyAbove name).card ≤ h.linked.card := Finset.card_filter_le _ _
  unfold classHeight
  split
  · omega
  · split <;> omega

theorem mem_linked_of_reach (reach : h.Reach a b) (other : a ≠ b) : b ∈ h.linked := by
  rcases Relation.ReflTransGen.cases_tail reach with same | ⟨c, _, header, found, mem⟩
  · exact absurd same.symm other
  · rw [linked, List.mem_toFinset, List.mem_flatMap]
    exact ⟨_, mem_entries found, mem⟩

theorem mem_strictlyAbove :
    b ∈ h.strictlyAbove a ↔ b ∈ h.linked ∧ h.Reach a b ∧ ¬ h.Reach b a := by
  rw [strictlyAbove, Finset.mem_filter, Bool.and_eq_true, reaches_iff, Bool.not_eq_true',
    ← Bool.not_eq_true, reaches_iff]

theorem strictlyAbove_subset (reach : h.Reach a b) : h.strictlyAbove b ⊆ h.strictlyAbove a := by
  intro upper mem
  obtain ⟨known, up, away⟩ := mem_strictlyAbove.1 mem
  exact mem_strictlyAbove.2 ⟨known, reach.trans up, fun down => away (down.trans reach)⟩

theorem classHeight_lt (proper : a ≠ objectClass) (reach : h.Reach a b) (back : ¬ h.Reach b a) :
    h.classHeight b < h.classHeight a := by
  have other : a ≠ b := by
    rintro rfl
    exact back reach
  -- whatever is strictly above `b` is so above `a`, and `b` itself is not above `b`
  have smaller : h.strictlyAbove b ⊂ h.strictlyAbove a := by
    rw [Finset.ssubset_iff_of_subset (strictlyAbove_subset reach)]
    refine ⟨b, mem_strictlyAbove.2 ⟨mem_linked_of_reach reach other, reach, back⟩, fun self => ?_⟩
    exact (mem_strictlyAbove.1 self).2.2 .refl
  have counted := Finset.card_lt_card smaller
  unfold classHeight
  rw [if_neg proper]
  split
  · split <;> omega
  · split <;> split <;> omega

theorem classHeight_lt_of_arrayClass (proper : a ∉ objectClass :: arrayClasses)
    (mem : b ∈ objectClass :: arrayClasses) (above : h.Above a b) :
    h.classHeight b < h.classHeight a := by
  rw [List.mem_cons, not_or] at proper
  have counted : h.Reach a b → (h.strictlyAbove b).card ≤ (h.strictlyAbove a).card :=
    fun reach => Finset.card_le_card (strictlyAbove_subset reach)
  unfold classHeight
  rw [if_neg proper.1, if_neg proper.2]
  by_cases object : b = objectClass
  · rw [if_pos object]
    omega
  · have reach := counted (above.resolve_left object)
    rw [if_neg object, if_pos ((List.mem_cons.1 mem).resolve_left object)]
    omega

theorem classHeight_pos (proper : a ≠ objectClass) : 0 < h.classHeight a := by
  rw [classHeight, if_neg proper]
  split <;> exact Nat.succ_pos _

theorem classHeight_object : h.classHeight objectClass = 0 := if_pos rfl

theorem classHeight_lt_of_above (above : h.Above a b) (refused : ¬ h.Above b a) :
    h.classHeight b < h.classHeight a := by
  have proper : a ≠ objectClass := fun object => refused (.inl object)
  rcases above with rfl | reach
  · rw [classHeight_object]
    exact classHeight_pos proper
  · exact classHeight_lt proper reach fun back => refused (.inr back)

/-! Names -/

theorem height_class (ha : IsClass a) : h.height a.toList = h.classHeight a := by
  rw [height, String.ofList_toList]
  exact ha.ne_array

theorem height_object : h.height objectClass.toList = 0 := by
  rw [height_class isClass_object, classHeight_object]

theorem height_ofClass (found : objectElement? x = some s) :
    h.height ('[' :: x) = h.height s + 2 * h.searchBound := by
  rw [height]
  split
  · rename_i name found'
    cases found.symm.trans found'
    rfl
  · rename_i found'
    cases found.symm.trans found'

theorem height_arrayOfClass (a : String) :
    h.height (arrayOfClass a) = h.height a.toList + 2 * h.searchBound :=
  height_ofClass (objectElement?_marked a)

theorem height_array (bare : objectElement? x = none) :
    h.height ('[' :: x) = h.height x + 4 * h.searchBound := by
  rw [height]
  split
  · rename_i name found
    cases bare.symm.trans found
  · rfl

theorem searchBound_pos (h : Hierarchy) : 0 < h.searchBound := Nat.succ_pos _

theorem le_height_array (x : List Char) : 2 * h.searchBound ≤ h.height ('[' :: x) := by
  cases found : objectElement? x with
  | some name =>
    rw [height_ofClass found]
    exact Nat.le_add_left _ _
  | none =>
    rw [height_array found]
    omega

theorem height_lt_array (ha : IsClass a) (x : List Char) :
    h.height a.toList < h.height ('[' :: x) := by
  rw [height_class ha]
  exact Nat.lt_of_lt_of_le (h.classHeight_lt_searchBound a) (le_height_array x)

theorem height_pos (other : s ≠ objectClass.toList) : 0 < h.height s := by
  cases array : isArray s with
  | false =>
    obtain ⟨a, ha, rfl⟩ := exists_class array
    rw [height_class ha]
    exact classHeight_pos fun object => other (congrArg _ object)
  | true =>
    obtain ⟨x, rfl⟩ := isArray_iff.1 array
    have positive := h.searchBound_pos
    have far := le_height_array (h := h) x
    omega

theorem brackets_plain (plain : isArray s = false) : brackets s = 0 := by
  unfold brackets
  split
  · cases plain
  · cases plain
  · rfl

theorem brackets_append (s : List Char) : brackets (s ++ [';']) = brackets s := by
  fun_induction brackets s with
  | case1 name ih => rw [List.cons_append, List.cons_append, brackets, ih]
  | case2 element other ih =>
    have other' : ∀ name, element ++ [';'] ≠ 'L' :: name := by
      intro name same
      cases element with
      | nil => cases same
      | cons first rest =>
        cases same
        exact other rest rfl
    rw [List.cons_append, brackets, ih]
    exact other'
  | case3 s _ no =>
    cases s with
    | nil => rfl
    | cons first rest =>
      have plain : first ≠ '[' := by
        rintro rfl
        exact no rest rfl
      exact brackets_plain (by simpa [isArray] using plain)

theorem brackets_ofClass (found : objectElement? x = some s) :
    brackets ('[' :: x) = brackets s + 1 := by
  rw [objectElement?_eq_some.1 found, List.cons_append, brackets, brackets_append]

theorem brackets_arrayOfClass (a : String) : brackets (arrayOfClass a) = brackets a.toList + 1 :=
  brackets_ofClass (objectElement?_marked a)

theorem brackets_array (array : isArray x = true) : brackets ('[' :: x) = brackets x + 1 := by
  obtain ⟨y, rfl⟩ := isArray_iff.1 array
  rw [brackets]
  exact nofun

theorem brackets_lt (x : List Char) : brackets x < brackets ('[' :: x) := by
  cases array : isArray x with
  | true =>
    rw [brackets_array array]
    exact Nat.lt_succ_self _
  | false =>
    rw [brackets_plain array]
    unfold brackets
    split
    · exact Nat.succ_pos _
    · exact Nat.succ_pos _
    · exact absurd rfl (‹∀ element, '[' :: x = '[' :: element → False› x)

def ceiling (h : Hierarchy) (most : Nat) : Nat := (4 * most + 2) * h.searchBound

theorem height_le (h : Hierarchy) (s : List Char) : h.height s ≤ h.ceiling (brackets s) := by
  have more {n m : Nat} (less : n < m) : h.ceiling n + 4 * h.searchBound ≤ h.ceiling m := by
    rw [ceiling, ceiling, ← Nat.add_mul]
    exact Nat.mul_le_mul_right _ (by omega)
  fun_induction height h s with
  | case1 element name found ih =>
    have room := more (Nat.lt_of_lt_of_eq (Nat.lt_succ_self _) (brackets_ofClass found).symm)
    omega
  | case2 element _ ih =>
    have room := more (brackets_lt element)
    omega
  | case3 cs plain =>
    have bound := h.classHeight_lt_searchBound (String.ofList cs)
    have least : 2 * h.searchBound ≤ h.ceiling (brackets cs) := Nat.mul_le_mul_right _ (by omega)
    omega

/-! What a name can be stored in -/

/-- No more deeply nested, and nearer to the top unless each can be stored in the other. Links that
lead from the class of all objects may make it further, but by less than a bracket. -/
structure Nears (h : Hierarchy) (t s : List Char) : Prop where
  brackets : brackets s ≤ brackets t
  near : h.height s < h.height t + 2 * h.searchBound
  nearer : h.assignable t s = false → h.height s < h.height t

theorem nears_self (h : Hierarchy) (s : List Char) : h.Nears s s where
  brackets := Nat.le_refl _
  near := Nat.lt_add_of_pos_right (Nat.mul_pos (Nat.succ_pos 1) h.searchBound_pos)
  nearer refused := by
    rw [assignable_self] at refused
    cases refused

theorem nears_class (ha : IsClass a) (fits : h.assignable a.toList t = true) :
    h.Nears t a.toList where
  brackets := by
    rw [brackets_plain ha]
    exact Nat.zero_le _
  near := by
    have low := h.classHeight_lt_searchBound a
    rw [height_class ha]
    omega
  nearer refused := by
    cases array : isArray t with
    | false =>
      obtain ⟨b, hb, rfl⟩ := exists_class array
      rw [height_class ha, height_class hb]
      refine classHeight_lt_of_above ((isAssignable_iff ha hb).1 fits) fun above => ?_
      have back : h.assignable b.toList a.toList = true := (isAssignable_iff hb ha).2 above
      cases refused.symm.trans back
    | true =>
      obtain ⟨y, rfl⟩ := isArray_iff.1 array
      exact height_lt_array ha y

/-- Arrays are stored by their elements. An array that is named in the place of a class takes one
that stands behind a bracket, which is further. -/
theorem nears_array (other : x ≠ y) (fits : h.assignable ('[' :: x) ('[' :: y) = true)
    (below : ∀ s t, s.length ≤ x.length → h.assignable s t = true → h.Nears t s) :
    h.Nears ('[' :: y) ('[' :: x) := by
  have shorter (c : List Char) (found : objectElement? x = some c) : c.length ≤ x.length :=
    Nat.le_of_lt (length_lt_of_objectElement found)
  have back := assignable_elements (h := h) other.symm
  rw [assignable_elements other] at fits
  cases foundX : objectElement? x with
  | some c =>
    cases foundY : objectElement? y with
    | some d =>
      rw [foundX, foundY] at fits back
      obtain ⟨brackets, near, nearer⟩ := below c d (shorter c foundX) fits
      constructor
      · rw [brackets_ofClass foundX, brackets_ofClass foundY]
        exact Nat.succ_le_succ brackets
      · rw [height_ofClass foundX, height_ofClass foundY]
        omega
      · rw [height_ofClass foundX, height_ofClass foundY, back]
        exact fun refused => Nat.add_lt_add_right (nearer refused) _
    | none =>
      rw [foundX, foundY, Bool.and_eq_true] at fits
      obtain ⟨brackets, near, _⟩ := below c y (shorter c foundX) fits.2
      have lower : h.height ('[' :: x) < h.height ('[' :: y) := by
        rw [height_ofClass foundX, height_array foundY]
        omega
      refine ⟨?_, by omega, fun _ => lower⟩
      rw [brackets_ofClass foundX, brackets_array fits.1]
      exact Nat.succ_le_succ brackets
  | none =>
    cases foundY : objectElement? y with
    | some d =>
      rw [foundX, foundY] at fits
      cases fits
    | none =>
      rw [foundX, foundY, Bool.and_eq_true, Bool.and_eq_true] at fits
      obtain ⟨⟨arrayX, arrayY⟩, fits⟩ := fits
      rw [foundX, foundY, arrayX, arrayY] at back
      obtain ⟨brackets, near, nearer⟩ := below x y (Nat.le_refl _) fits
      constructor
      · rw [brackets_array arrayX, brackets_array arrayY]
        exact Nat.succ_le_succ brackets
      · rw [height_array foundX, height_array foundY]
        omega
      · rw [height_array foundX, height_array foundY, back]
        exact fun refused => Nat.add_lt_add_right (nearer refused) _

theorem nears_of_assignable (fits : h.assignable s t = true) : h.Nears t s := by
  induction length : s.length using Nat.strong_induction_on generalizing s t with
  | _ n ih =>
    subst length
    by_cases same : s = t
    · rw [same]
      exact nears_self h t
    cases array : isArray s with
    | false =>
      obtain ⟨a, ha, rfl⟩ := exists_class array
      exact nears_class ha fits
    | true =>
      obtain ⟨x, rfl⟩ := isArray_iff.1 array
      cases array' : isArray t with
      | false =>
        obtain ⟨b, hb, rfl⟩ := exists_class array'
        rw [assignable_array_class hb] at fits
        cases fits
      | true =>
        obtain ⟨y, rfl⟩ := isArray_iff.1 array'
        refine nears_array (fun eq => same (congrArg _ eq)) fits fun c t shorter fits => ?_
        exact ih c.length (Nat.lt_succ_of_le shorter) fits rfl

/-! Joins -/

theorem reach_firstCommon {fuel : Nat} {seen : List String} {start : Option String}
    (above : ∀ c, start = some c → h.Above a c) :
    h.firstCommon b fuel seen start = objectClass ∨
      (h.Reach a (h.firstCommon b fuel seen start) ∧
        h.isAssignable (h.firstCommon b fuel seen start) b = true) := by
  induction fuel generalizing seen start with
  | zero => exact .inl rfl
  | succ fuel ih =>
    cases start with
    | none => exact .inl rfl
    | some candidate =>
      rw [firstCommon]
      split
      · exact .inl rfl
      · split
        · rename_i fits
          exact (above candidate rfl).imp_right fun reach => ⟨reach, fits⟩
        · rename_i refused
          refine ih fun c up => above_superclassOf ?_ (above candidate rfl) up
          rintro rfl
          exact refused (assignable_object h b.toList)

/-- What a join comes to, as seen from its first side. -/
structure Climbs (h : Hierarchy) (s r : List Char) : Prop where
  brackets : brackets r ≤ brackets s
  climbs : r = s ∨ h.height r < h.height s

theorem climbs_self (h : Hierarchy) (s : List Char) : h.Climbs s s := ⟨Nat.le_refl _, .inl rfl⟩

theorem Climbs.of_class (hc : IsClass c) (lower : h.height c.toList < h.height s) :
    h.Climbs s c.toList where
  brackets := by
    rw [brackets_plain hc]
    exact Nat.zero_le _
  climbs := .inr lower

theorem climbs_object (h : Hierarchy) (s : List Char) : h.Climbs s objectClass.toList := by
  by_cases object : s = objectClass.toList
  · rw [object]
    exact climbs_self h _
  · exact .of_class isClass_object (height_object ▸ height_pos object)

theorem climbs_nearest_class (ha : IsClass a) (hb : IsClass b) :
    h.Climbs a.toList (h.nearestSupertype a b).toList := by
  obtain ⟨hc, left, right⟩ := above_nearestSupertype (h := h) ha hb
  by_cases object : h.nearestSupertype a b = objectClass
  · rw [object]
    exact climbs_object h _
  by_cases stays : h.Above b a
  · rw [(nearestSupertype_eq_left ha hb).2 stays]
    exact climbs_self h _
  · refine .of_class hc ?_
    rw [height_class hc, height_class ha]
    exact classHeight_lt_of_above left fun back => stays (right.trans back object)

theorem climbs_firstCommon (names : h.NamesClasses) (arrays : ¬ (IsClass a ∧ IsClass b))
    (refused : ¬ h.isAssignable a b = true) (fuel : Nat) :
    h.Climbs a.toList (h.firstCommon b fuel [] (h.superclassOf a)).toList := by
  have proper : a ≠ objectClass := by
    rintro rfl
    exact refused (assignable_object h b.toList)
  have plain : IsClass (h.firstCommon b fuel [] (h.superclassOf a)) :=
    (isClassName_firstCommon names fun c up => isClassName_superclassOf names up).plain
  rcases reach_firstCommon fun c up => above_superclassOf proper (.refl a) up with
    object | ⟨reach, fits⟩
  · rw [object]
    exact climbs_object h _
  refine .of_class plain ?_
  cases array : isArray a.toList with
  | true =>
    obtain ⟨x, shape⟩ := isArray_iff.1 array
    rw [shape]
    exact height_lt_array plain x
  | false =>
    -- only classes that arrays belong to take the array `b`, and `a` is none of them
    obtain ⟨y, shape⟩ := isArray_iff.1 (Bool.not_eq_false _ ▸ not_and.1 arrays array)
    rw [isAssignable, shape] at refused fits
    rw [assignable_class_array array, ← List.mem_cons] at refused
    rw [assignable_class_array plain, ← List.mem_cons] at fits
    rw [height_class plain, height_class array]
    exact classHeight_lt_of_arrayClass refused fits (.inr reach)

theorem climbs_nearestSupertype (joinable : h.NamesClasses ∨ IsClass a ∧ IsClass b) :
    h.Climbs a.toList (h.nearestSupertype a b).toList := by
  by_cases classes : IsClass a ∧ IsClass b
  · exact climbs_nearest_class classes.1 classes.2
  · unfold nearestSupertype
    split
    · exact climbs_self h _
    · rename_i refused
      split
      · rename_i fits
        have nears := nears_of_assignable fits
        exact ⟨nears.brackets, .inr (nears.nearer (Bool.eq_false_iff.2 refused))⟩
      · split
        · exact climbs_object h _
        · exact climbs_firstCommon (joinable.resolve_right classes) classes refused _

def Joinable (h : Hierarchy) (s : List Char) : Prop := h.NamesClasses ∨ TypeName s

theorem Joinable.inner (joinable : h.Joinable ('[' :: x)) : h.Joinable x :=
  joinable.imp_right TypeName.inner

theorem joinable_class (ha : IsClass a) : h.Joinable a.toList := .inr (.plain ha)

theorem Joinable.classes (left : h.Joinable (arrayOfClass a))
    (right : h.Joinable (arrayOfClass b)) : h.NamesClasses ∨ IsClass a ∧ IsClass b := by
  rcases left with names | left
  · exact .inl names
  · rcases right with names | right
    · exact .inl names
    · exact .inr ⟨left.class (objectElement?_marked a), right.class (objectElement?_marked b)⟩

theorem joinable_arrayOfClass (joinable : h.NamesClasses ∨ IsClass a ∧ IsClass b) :
    h.Joinable (arrayOfClass (h.nearestSupertype a b)) := by
  rcases joinable with names | ⟨ha, hb⟩
  · exact .inl names
  · refine .inr (.array (.plain rfl) fun name found => ?_)
    cases found.symm.trans (objectElement?_marked _)
    exact (above_nearestSupertype ha hb).1

theorem climbs_arrayOfClass (joinable : h.NamesClasses ∨ IsClass a ∧ IsClass b) :
    h.Climbs (arrayOfClass a) (arrayOfClass (h.nearestSupertype a b)) := by
  obtain ⟨fewer, climbs⟩ := climbs_nearestSupertype joinable
  constructor
  · rw [brackets_arrayOfClass, brackets_arrayOfClass]
    exact Nat.succ_le_succ fewer
  · rw [height_arrayOfClass, height_arrayOfClass]
    rcases climbs with same | lower
    · exact .inl (congrArg arrayOfClass (String.toList_inj.1 same))
    · exact .inr (Nat.add_lt_add_right lower _)

theorem joinChars_arrays (x y : List Char) :
    h.joinChars ('[' :: x) ('[' :: y) = objectClass.toList ∨
      isArray (h.joinChars ('[' :: x) ('[' :: y)) = true := by
  rw [joinChars.eq_def]
  split
  · exact .inr rfl
  · split
    · split
      · exact .inr rfl
      · split
        · exact .inr rfl
        · exact .inl rfl
    · exact .inl rfl
    · exact .inl rfl
    · rename_i noArray _ _
      exact absurd rfl (noArray x)

theorem exists_arrayOfClass (found : objectElement? x = some s) :
    ∃ a : String, '[' :: x = arrayOfClass a := by
  refine ⟨String.ofList s, ?_⟩
  rw [arrayOfClass, String.toList_ofList, objectElement?_eq_some.1 found]
  rfl

theorem objectElement?_of_shape (shape : y = objectClass.toList ∨ isArray y = true) :
    objectElement? y = none := by
  rcases shape with rfl | array
  · decide
  · obtain ⟨z, rfl⟩ := isArray_iff.1 array
    rfl

theorem Climbs.array (climbs : h.Climbs ('[' :: x) y)
    (shape : y = objectClass.toList ∨ isArray y = true) :
    h.Climbs ('[' :: '[' :: x) ('[' :: y) := by
  constructor
  · rw [brackets_array (x := '[' :: x) rfl]
    rcases shape with rfl | array
    · exact Nat.succ_le_succ (Nat.zero_le _)
    · rw [brackets_array array]
      exact Nat.succ_le_succ climbs.brackets
  · rw [height_array (x := '[' :: x) rfl, height_array (objectElement?_of_shape shape)]
    rcases climbs.climbs with same | lower
    · exact .inl (congrArg _ same)
    · exact .inr (Nat.add_lt_add_right lower _)

theorem Joinable.array (joinable : h.Joinable y) (bare : objectElement? y = none) :
    h.Joinable ('[' :: y) := by
  refine joinable.imp_right fun named => .array named fun name found => ?_
  rw [bare] at found
  cases found

theorem climbs_of_joins_object (joins : h.joinChars s t = objectClass.toList) :
    h.Joinable (h.joinChars s t) ∧ h.Climbs s (h.joinChars s t) := by
  rw [joins]
  exact ⟨joinable_class isClass_object, climbs_object h s⟩

theorem climbs_joinChars_class (ha : IsClass a) (t : List Char) :
    h.Joinable (h.joinChars a.toList t) ∧ h.Climbs a.toList (h.joinChars a.toList t) := by
  cases array : isArray t with
  | false =>
    obtain ⟨b, hb, rfl⟩ := exists_class array
    rw [joinChars_class ha hb]
    exact ⟨joinable_class (above_nearestSupertype ha hb).1, climbs_nearest_class ha hb⟩
  | true =>
    obtain ⟨y, rfl⟩ := isArray_iff.1 array
    exact climbs_of_joins_object (joinChars_mixed (ha.ne_array y) (.inl ⟨a, y, ha, rfl, rfl⟩))

theorem climbs_joinChars_arrayOfClass (left : h.Joinable (arrayOfClass a))
    (right : h.Joinable (arrayOfClass b)) :
    h.Joinable (h.joinChars (arrayOfClass a) (arrayOfClass b)) ∧
      h.Climbs (arrayOfClass a) (h.joinChars (arrayOfClass a) (arrayOfClass b)) := by
  have classes := left.classes right
  rw [joinChars_arrayOfClass]
  exact ⟨joinable_arrayOfClass classes, climbs_arrayOfClass classes⟩

theorem climbs_joinChars (hs : h.Joinable s) (ht : h.Joinable t) :
    h.Joinable (h.joinChars s t) ∧ h.Climbs s (h.joinChars s t) := by
  induction s generalizing t with
  | nil => exact climbs_joinChars_class (a := "") rfl t
  | cons first x ih =>
    cases array : isArray (first :: x) with
    | false =>
      obtain ⟨a, ha, same⟩ := exists_class array
      rw [same]
      exact climbs_joinChars_class ha t
    | true =>
      obtain ⟨_, same⟩ := isArray_iff.1 array
      obtain rfl : first = '[' := (List.cons.inj same).1
      cases array' : isArray t with
      | false =>
        obtain ⟨b, hb, rfl⟩ := exists_class array'
        exact climbs_of_joins_object
          (joinChars_mixed (hb.ne_array x).symm (.inr (.inl ⟨b, x, hb, rfl, rfl⟩)))
      | true =>
        obtain ⟨y, rfl⟩ := isArray_iff.1 array'
        -- two arrays join in their elements if both are classes or both are arrays
        by_cases equal : x = y
        · rw [equal, joinChars_self]
          exact ⟨equal ▸ hs, climbs_self h _⟩
        have other : '[' :: x ≠ '[' :: y := fun eq => equal (List.cons.inj eq).2
        by_cases nested : (isArray x && isArray y) = true
        · rw [Bool.and_eq_true] at nested
          obtain ⟨joinable, climbs⟩ := ih hs.inner ht.inner
          obtain ⟨x, rfl⟩ := isArray_iff.1 nested.1
          obtain ⟨y, rfl⟩ := isArray_iff.1 nested.2
          have shape := joinChars_arrays (h := h) x y
          rw [joinChars_nested]
          exact ⟨joinable.array (objectElement?_of_shape shape), climbs.array shape⟩
        have unlike := Bool.eq_false_iff.2 nested
        cases hc : objectElement? x with
        | none =>
          exact climbs_of_joins_object
            (joinChars_mixed other (.inr (.inr ⟨x, y, rfl, rfl, unlike, .inl hc⟩)))
        | some c =>
          cases hd : objectElement? y with
          | none =>
            exact climbs_of_joins_object
              (joinChars_mixed other (.inr (.inr ⟨x, y, rfl, rfl, unlike, .inr hd⟩)))
          | some d =>
            obtain ⟨a, left⟩ := exists_arrayOfClass hc
            obtain ⟨b, right⟩ := exists_arrayOfClass hd
            rw [left] at hs ⊢
            rw [right] at ht ⊢
            exact climbs_joinChars_arrayOfClass hs ht

theorem joinable_element (hs : h.Joinable ('[' :: x)) {t : FieldType}
    (parsed : FieldType.parse (String.ofList x) = .ok t) (reference : t.isReference = true) :
    h.Joinable t.internalName.toList ∧ brackets t.internalName.toList ≤ brackets ('[' :: x) := by
  have chars := (FieldType.eq_chars_of_parse parsed).1
  rw [String.toList_ofList] at chars
  cases t with
  | object name =>
    have found : objectElement? x = some name.toList := by
      rw [chars, FieldType.objectElement?_chars]
    rw [FieldType.internalName, brackets_ofClass found]
    exact ⟨hs.imp_right fun named => .plain (named.class found), Nat.le_succ _⟩
  | array element =>
    have text : (FieldType.array element).internalName.toList = x :=
      String.toList_ofList.trans chars.symm
    rw [text]
    exact ⟨hs.inner, Nat.le_of_lt (brackets_lt x)⟩
  | _ => cases reference

end Hierarchy

def VType.Proper (h : Hierarchy) (most : Nat) (t : VType) : Prop :=
  ∀ name, t = .object name → h.Joinable name.toList ∧ Hierarchy.brackets name.toList ≤ most

namespace VType

variable {h : Hierarchy} {most : Nat} {t array : VType}

theorem proper_plain (plain : t.isPlain = true) : t.Proper h most := by
  rintro name rfl
  cases plain

theorem proper_uninit (site : Label) : (VType.uninit site).Proper h most := nofun

theorem proper_elementType (proper : array.Proper h most)
    (found : MethodSite.elementType array = .ok t) : t.Proper h most := by
  unfold MethodSite.elementType at found
  split at found
  · rename_i name
    split at found
    · rename_i element text
      obtain ⟨named, bound⟩ := proper name rfl
      rw [text] at named bound
      cases parsed : FieldType.parse (String.ofList element) with
      | error e =>
        rw [parsed] at found
        cases found
      | ok u =>
        rw [parsed] at found
        cases found
        rcases VType.ofFieldType_cases u with plain | ⟨reference, named'⟩
        · exact proper_plain plain
        · obtain ⟨typed, lower⟩ := Hierarchy.joinable_element named parsed reference
          intro name' same
          cases named'.symm.trans same
          exact ⟨typed, Nat.le_trans lower bound⟩
    · cases found
      exact proper_plain rfl
  · cases found
    exact proper_plain rfl

end VType

namespace Hierarchy

def rank (h : Hierarchy) (most : Nat) : VType → Nat
  | .top => 0
  | .object name => h.height name.toList + 1
  | .null => h.ceiling most + 2
  | _ => 1

def weight (h : Hierarchy) (most : Nat) (s : State) : Nat := (s.entries.map (h.rank most)).sum

variable {h : Hierarchy} {most : Nat} {t u : VType}

theorem height_le_ceiling {name : String} (few : brackets name.toList ≤ most) :
    h.height name.toList ≤ h.ceiling most :=
  Nat.le_trans (h.height_le _) (Nat.mul_le_mul_right _ (by omega))

theorem rank_le (proper : t.Proper h most) : h.rank most t ≤ h.ceiling most + 2 := by
  cases t with
  | object name =>
    have height := height_le_ceiling (h := h) (proper name rfl).2
    rw [rank]
    omega
  | _ =>
    simp only [rank]
    omega

theorem climbs_top (h : Hierarchy) (most : Nat) (t : VType) :
    .top = t ∨ h.rank most .top < h.rank most t := by
  cases t <;> simp [rank]

theorem climbs_joinTypes (ht : t.Proper h most) (hu : u.Proper h most) :
    (h.joinTypes t u).Proper h most ∧
      (h.joinTypes t u = t ∨ h.rank most (h.joinTypes t u) < h.rank most t) := by
  rcases joinTypes_cases h t u with ⟨_, join⟩ | ⟨rfl, ⟨y, rfl⟩, join⟩ | ⟨_, _, join⟩ |
    ⟨x, y, rfl, rfl⟩ | join
  · rw [join]
    exact ⟨ht, .inl rfl⟩
  · rw [join]
    have height := height_le_ceiling (h := h) (hu y rfl).2
    refine ⟨hu, .inr ?_⟩
    rw [rank, rank]
    omega
  · rw [join]
    exact ⟨ht, .inl rfl⟩
  · obtain ⟨hx, bound⟩ := ht x rfl
    obtain ⟨joinable, brackets, climbs⟩ := climbs_joinChars hx (hu y rfl).1
    rw [joinTypes_object]
    constructor
    · intro name same
      cases same
      rw [joinNames, String.toList_ofList]
      exact ⟨joinable, Nat.le_trans brackets bound⟩
    · rw [rank, rank, VType.object.injEq, joinNames, String.toList_ofList, ← String.toList_inj,
        String.toList_ofList]
      exact climbs.imp_right Nat.succ_lt_succ
  · rw [join]
    exact ⟨VType.proper_plain rfl, climbs_top h most t⟩

/-! States -/

theorem climbs_meetEntries {f : VType → VType → VType} {rank : VType → Nat}
    {mine theirs : List VType}
    (each : ∀ a ∈ mine, ∀ b ∈ theirs, f a b = a ∨ rank (f a b) < rank a) :
    meetEntries f mine theirs = mine ∨
      ((meetEntries f mine theirs).map rank).sum < (mine.map rank).sum := by
  induction mine generalizing theirs with
  | nil => cases theirs <;> exact .inl rfl
  | cons a mine ih =>
    cases theirs with
    | nil => exact .inl rfl
    | cons b theirs =>
      have head := each a (List.mem_cons_self ..) b (List.mem_cons_self ..)
      have tail := ih fun a ha b hb =>
        each a (List.mem_cons_of_mem _ ha) b (List.mem_cons_of_mem _ hb)
      have both :
          meetEntries f (a :: mine) (b :: theirs) = f a b :: meetEntries f mine theirs := rfl
      rw [both, List.map_cons, List.map_cons, List.sum_cons, List.sum_cons]
      rcases head with head | head
      · rcases tail with tail | tail
        · rw [head, tail]
          exact .inl rfl
        · rw [head]
          exact .inr (Nat.add_lt_add_left tail _)
      · rcases tail with tail | tail
        · rw [tail]
          exact .inr (Nat.add_lt_add_right head _)
        · exact .inr (Nat.add_lt_add head tail)

end Hierarchy

namespace State

variable {s : State} {types : List VType}

theorem length_entries (s : State) : s.entries.length = s.locals.length + s.stack.length := by
  rw [entries, List.length_append, List.length_reverse]

theorem entries_withEntries : (s.withEntries types).entries = types := by
  rw [entries, withEntries, List.reverse_reverse, List.take_append_drop]

theorem withEntries_entries (s : State) : s.withEntries s.entries = s := by
  rw [withEntries, entries, List.take_left, List.drop_left, List.reverse_reverse]

theorem length_withEntries (same : types.length = s.entries.length) :
    (s.withEntries types).locals.length = s.locals.length ∧
      (s.withEntries types).stack.length = s.stack.length := by
  rw [length_entries] at same
  rw [withEntries, List.length_reverse, List.length_take, List.length_drop]
  omega

end State

namespace Hierarchy

variable {h : Hierarchy} {most : Nat} {s t : State}

theorem weight_le (h : Hierarchy) (proper : s.Each (VType.Proper h most)) :
    h.weight most s ≤ (s.locals.length + s.stack.length) * (h.ceiling most + 2) := by
  have each : ∀ n ∈ s.entries.map (h.rank most), n ≤ h.ceiling most + 2 := by
    intro n listed
    obtain ⟨t, mem, rfl⟩ := List.mem_map.1 listed
    exact rank_le (State.each_iff_entries.1 proper t mem)
  have bound := List.sum_le_card_nsmul _ _ each
  rwa [List.length_map, State.length_entries, Nat.nsmul_eq_mul] at bound

structure Lifts (h : Hierarchy) (most : Nat) (s r : State) : Prop where
  proper : r.Each (VType.Proper h most)
  locals : r.locals.length = s.locals.length
  stack : r.stack.length = s.stack.length
  climbs : r = s ∨ h.weight most r < h.weight most s

theorem lifts_joinStates (hs : s.Each (VType.Proper h most)) (ht : t.Each (VType.Proper h most)) :
    h.Lifts most s (h.joinStates s t) := by
  have mine := State.each_iff_entries.1 hs
  have theirs := State.each_iff_entries.1 ht
  have each (a : VType) (ha : a ∈ s.entries) (b : VType) (hb : b ∈ t.entries) :=
    climbs_joinTypes (h := h) (mine a ha) (theirs b hb)
  obtain ⟨locals, stack⟩ := State.length_withEntries (s := s)
    (length_meetEntries h.joinTypes s.entries t.entries)
  refine ⟨State.each_iff_entries.2 ?_, locals, stack, ?_⟩
  · rw [joinStates, State.entries_withEntries]
    exact mem_meetEntries (fun a ha b hb => (each a ha b hb).1) mine
  · rw [weight, weight, joinStates, State.entries_withEntries]
    rcases climbs_meetEntries fun a ha b hb => (each a ha b hb).2 with same | less
    · rw [same]
      exact .inl (State.withEntries_entries s)
    · exact .inr less

end Hierarchy

end ClassWeave
