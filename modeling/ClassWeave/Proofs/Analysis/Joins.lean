import Mathlib.Data.List.Forall2
import Mathlib.Tactic.Common
import ClassWeave.Analysis.State
import ClassWeave.Proofs.Hierarchy
import ClassWeave.Proofs.Sequences

/-!
# Joins absorb what they join

A state absorbs another when joining them changes nothing. A join absorbs what it was made from and
all that its left side absorbed. The names of arrays of arrays are left out: the join of two of
them may be a name that absorbs neither.
-/

set_option autoImplicit false

namespace ClassWeave

namespace Hierarchy

/-- Not an array of arrays: the element is no array, and neither is the class that it names. -/
def Shallow (cs : List Char) : Prop :=
  ∀ element, cs = '[' :: element →
    isArray element = false ∧ ∀ name, objectElement? element = some name → isArray name = false

def arrayOfClass (name : String) : List Char := '[' :: 'L' :: name.toList ++ [';']

inductive Over (h : Hierarchy) : List Char → List Char → Prop where
  | refl (name : List Char) : Over h name name
  | object (name : List Char) : Over h name objectClass.toList
  | ofClass {a b : String} (ha : IsClass a) (hb : IsClass b) (above : h.Above a b) :
      Over h a.toList b.toList
  | ofClasses {a b : String} (ha : IsClass a) (hb : IsClass b) (above : h.Above a b) :
      Over h (arrayOfClass a) (arrayOfClass b)

variable {h : Hierarchy} {a b : String} {s t u : List Char}

theorem objectElement?_eq_some {cs name : List Char} :
    objectElement? cs = some name ↔ cs = 'L' :: name ++ [';'] := by
  constructor
  · intro found
    unfold objectElement? at found
    split at found
    · rename_i rest
      split at found
      · rename_i last
        cases found
        rw [List.cons_append, List.dropLast_append_getLast? _ last]
      · cases found
    · cases found
  · rintro rfl
    simp [objectElement?]

theorem objectElement?_marked (name : String) :
    objectElement? ('L' :: name.toList ++ [';']) = some name.toList :=
  objectElement?_eq_some.2 rfl

theorem arrayOfClass_inj (same : arrayOfClass a = arrayOfClass b) : a = b := by
  unfold arrayOfClass at same
  injection same with _ same
  injection same with _ same
  exact String.toList_inj.1 (List.append_cancel_right same)

theorem shallow_class (ha : IsClass a) : Shallow a.toList := by
  intro element same
  exact absurd same (ha.ne_array element)

theorem shallow_arrayOfClass (ha : IsClass a) : Shallow (arrayOfClass a) := by
  intro element same
  injection same with _ same
  subst same
  constructor
  · rfl
  · intro name found
    rw [objectElement?_eq_some] at found
    injection found with _ found
    rw [← List.append_cancel_right found]
    exact ha

theorem exists_class (plain : isArray s = false) : ∃ a, IsClass a ∧ s = a.toList := by
  refine ⟨String.ofList s, ?_, String.toList_ofList.symm⟩
  rwa [IsClass, String.toList_ofList]

theorem Shallow.cases (hs : Shallow s) :
    (∃ a, IsClass a ∧ s = a.toList) ∨ (∃ a, IsClass a ∧ s = arrayOfClass a) ∨
      ∃ element, s = '[' :: element ∧ isArray element = false ∧ objectElement? element = none := by
  cases array : isArray s with
  | false => exact .inl (exists_class array)
  | true =>
    obtain ⟨element, rfl⟩ := isArray_iff.1 array
    obtain ⟨plain, named⟩ := hs element rfl
    cases found : objectElement? element with
    | none => exact .inr (.inr ⟨element, rfl, plain, found⟩)
    | some name =>
      obtain ⟨a, ha, rfl⟩ := exists_class (named name found)
      exact .inr (.inl ⟨a, ha, congrArg _ (objectElement?_eq_some.1 found)⟩)

theorem joinChars_self (h : Hierarchy) (s : List Char) : h.joinChars s s = s := by
  rw [joinChars.eq_def, if_pos rfl]

theorem nearestSupertype_self (h : Hierarchy) (a : String) : h.nearestSupertype a a = a := by
  have fits : h.isAssignable a a = true := by
    rw [isAssignable, assignable.eq_def, if_pos (.inl rfl)]
  rw [nearestSupertype, if_pos fits]

theorem joinChars_class (ha : IsClass a) (hb : IsClass b) :
    h.joinChars a.toList b.toList = (h.nearestSupertype a b).toList := by
  by_cases same : a = b
  · rw [← same, joinChars_self, nearestSupertype_self]
  · have other : a.toList ≠ b.toList := fun eq => same (String.toList_inj.1 eq)
    rw [joinChars.eq_def, if_neg other]
    split
    · exact absurd ‹a.toList = _› (ha.ne_array _)
    · exact absurd ‹a.toList = _› (ha.ne_array _)
    · exact absurd ‹b.toList = _› (hb.ne_array _)
    · rw [String.ofList_toList, String.ofList_toList]

theorem joinChars_arrayOfClass :
    h.joinChars (arrayOfClass a) (arrayOfClass b) = arrayOfClass (h.nearestSupertype a b) := by
  by_cases same : a = b
  · rw [← same, joinChars_self, nearestSupertype_self]
  · have other : arrayOfClass a ≠ arrayOfClass b := fun eq => same (arrayOfClass_inj eq)
    have element := objectElement?_marked
    rw [joinChars.eq_def, if_neg other]
    simp only [arrayOfClass, List.cons_append] at element ⊢
    simp only [element, String.ofList_toList]

theorem joinChars_mixed (other : s ≠ t)
    (mixed : (∃ a x, IsClass a ∧ s = a.toList ∧ t = '[' :: x) ∨
      (∃ b x, IsClass b ∧ s = '[' :: x ∧ t = b.toList) ∨
      ∃ x y, s = '[' :: x ∧ t = '[' :: y ∧ (isArray x && isArray y) = false ∧
        (objectElement? x = none ∨ objectElement? y = none)) :
    h.joinChars s t = objectClass.toList := by
  rw [joinChars.eq_def, if_neg other]
  rcases mixed with ⟨a, x, ha, rfl, rfl⟩ | ⟨b, x, hb, rfl, rfl⟩ | ⟨x, y, rfl, rfl, plain, named⟩
  · split
    · exact absurd ‹a.toList = _› (ha.ne_array _)
    · exact absurd ‹a.toList = _› (ha.ne_array _)
    · rfl
    · exact absurd rfl (‹∀ tail, '[' :: x = '[' :: tail → False› x)
  · split
    · exact absurd ‹b.toList = _› (hb.ne_array _)
    · rfl
    · exact absurd ‹b.toList = _› (hb.ne_array _)
    · exact absurd rfl (‹∀ tail, '[' :: x = '[' :: tail → False› x)
  · rcases named with absent | absent
    · simp only [absent, plain, Bool.false_eq_true, if_false]
    · simp only [absent, plain, Bool.false_eq_true, if_false]
      cases objectElement? x <;> rfl

theorem joinChars_cases (h : Hierarchy) (hs : Shallow s) (ht : Shallow t) :
    (∃ a b, IsClass a ∧ IsClass b ∧ s = a.toList ∧ t = b.toList ∧
      h.joinChars s t = (h.nearestSupertype a b).toList) ∨
    (∃ a b, IsClass a ∧ IsClass b ∧ s = arrayOfClass a ∧ t = arrayOfClass b ∧
      h.joinChars s t = arrayOfClass (h.nearestSupertype a b)) ∨
    (s = t ∧ h.joinChars s t = s) ∨ h.joinChars s t = objectClass.toList := by
  by_cases same : s = t
  · subst same
    exact .inr (.inr (.inl ⟨rfl, joinChars_self h s⟩))
  have plainArray : ∀ c : String, isArray ('L' :: c.toList ++ [';']) = false := fun c => rfl
  rcases hs.cases with ⟨a, ha, rfl⟩ | ⟨a, ha, rfl⟩ | ⟨x, rfl, plain, named⟩
  · rcases ht.cases with ⟨b, hb, rfl⟩ | ⟨b, hb, rfl⟩ | ⟨y, rfl, plain', named'⟩
    · exact .inl ⟨a, b, ha, hb, rfl, rfl, joinChars_class ha hb⟩
    · exact .inr (.inr (.inr (joinChars_mixed same (.inl ⟨a, _, ha, rfl, rfl⟩))))
    · exact .inr (.inr (.inr (joinChars_mixed same (.inl ⟨a, y, ha, rfl, rfl⟩))))
  · rcases ht.cases with ⟨b, hb, rfl⟩ | ⟨b, hb, rfl⟩ | ⟨y, rfl, plain', named'⟩
    · exact .inr (.inr (.inr (joinChars_mixed same (.inr (.inl ⟨b, _, hb, rfl, rfl⟩)))))
    · exact .inr (.inl ⟨a, b, ha, hb, rfl, rfl, joinChars_arrayOfClass⟩)
    · have arrays : (isArray ('L' :: a.toList ++ [';']) && isArray y) = false := rfl
      exact .inr (.inr (.inr
        (joinChars_mixed same (.inr (.inr ⟨_, y, rfl, rfl, arrays, .inr named'⟩)))))
  · rcases ht.cases with ⟨b, hb, rfl⟩ | ⟨b, hb, rfl⟩ | ⟨y, rfl, plain', named'⟩
    · exact .inr (.inr (.inr (joinChars_mixed same (.inr (.inl ⟨b, x, hb, rfl, rfl⟩)))))
    · have arrays : (isArray x && isArray ('L' :: b.toList ++ [';'])) = false := by
        rw [plain]
        rfl
      exact .inr (.inr (.inr
        (joinChars_mixed same (.inr (.inr ⟨x, _, rfl, rfl, arrays, .inl named⟩)))))
    · have arrays : (isArray x && isArray y) = false := by
        rw [plain]
        rfl
      exact .inr (.inr (.inr
        (joinChars_mixed same (.inr (.inr ⟨x, y, rfl, rfl, arrays, .inl named⟩)))))

theorem over_joinChars (hs : Shallow s) (ht : Shallow t) :
    h.Over s (h.joinChars s t) ∧ h.Over t (h.joinChars s t) ∧ Shallow (h.joinChars s t) := by
  rcases joinChars_cases h hs ht with ⟨a, b, ha, hb, rfl, rfl, join⟩ |
    ⟨a, b, ha, hb, rfl, rfl, join⟩ | ⟨rfl, join⟩ | join
  · obtain ⟨hc, left, right⟩ := above_nearestSupertype (h := h) ha hb
    rw [join]
    exact ⟨.ofClass ha hc left, .ofClass hb hc right, shallow_class hc⟩
  · obtain ⟨hc, left, right⟩ := above_nearestSupertype (h := h) ha hb
    rw [join]
    exact ⟨.ofClasses ha hc left, .ofClasses hb hc right, shallow_arrayOfClass hc⟩
  · rw [join]
    exact ⟨.refl s, .refl s, hs⟩
  · rw [join]
    exact ⟨.object s, .object t, shallow_class isClass_object⟩

theorem joinChars_object (ht : Shallow t) :
    h.joinChars objectClass.toList t = objectClass.toList := by
  rcases joinChars_cases h (shallow_class isClass_object) ht with ⟨a, b, ha, hb, same, rfl, join⟩ |
    ⟨a, b, _, _, same, _, _⟩ | ⟨_, join⟩ | join
  · have object : a = objectClass := (String.toList_inj.1 same).symm
    rw [join, (nearestSupertype_eq_left ha hb).2 (.inl object), ← same]
  · exact absurd same (isClass_object.ne_array _)
  · exact join
  · exact join

theorem joinChars_eq_left (hs : Shallow s) (ht : Shallow t) :
    h.joinChars s t = s ↔ h.Over t s := by
  constructor
  · intro same
    have covers := (over_joinChars (h := h) hs ht).2.1
    rwa [same] at covers
  · intro covers
    cases covers with
    | refl => exact joinChars_self h _
    | object => exact joinChars_object ht
    | ofClass hb ha above => rw [joinChars_class ha hb, (nearestSupertype_eq_left ha hb).2 above]
    | ofClasses hb ha above =>
      rw [joinChars_arrayOfClass, (nearestSupertype_eq_left ha hb).2 above]

theorem Over.join (covers : h.Over t s) (hs : Shallow s) (hu : Shallow u) :
    h.Over t (h.joinChars s u) := by
  cases covers with
  | refl => exact (over_joinChars hs hu).1
  | object =>
    rw [joinChars_object hu]
    exact .object _
  | @ofClass a b ha hb above =>
    rcases joinChars_cases h hs hu with ⟨b', c, _, hc, same, _, join⟩ | ⟨b', _, _, _, same, _, _⟩ |
      ⟨_, join⟩ | join
    · rw [join, ← String.toList_inj.1 same]
      exact .ofClass ha (above_nearestSupertype hb hc).1 (above.nearestSupertype hb hc)
    · exact absurd same (hb.ne_array _)
    · rw [join]
      exact .ofClass ha hb above
    · rw [join]
      exact .object _
  | @ofClasses a b ha hb above =>
    rcases joinChars_cases h hs hu with ⟨b', _, hb', _, same, _, _⟩ |
      ⟨b', c, _, hc, same, _, join⟩ | ⟨_, join⟩ | join
    · exact absurd same.symm (hb'.ne_array _)
    · rw [join, ← arrayOfClass_inj same]
      exact .ofClasses ha (above_nearestSupertype hb hc).1 (above.nearestSupertype hb hc)
    · rw [join]
      exact .ofClasses ha hb above
    · rw [join]
      exact .object _

end Hierarchy

def VType.Shallow : VType → Prop
  | .object name => Hierarchy.Shallow name.toList
  | _ => True

namespace Hierarchy

variable {h : Hierarchy} {x y z : String} {t u v : VType}

theorem joinTypes_self (h : Hierarchy) (t : VType) : h.joinTypes t t = t := by
  rw [joinTypes.eq_def, if_pos rfl]

theorem joinTypes_object (h : Hierarchy) (x y : String) :
    h.joinTypes (.object x) (.object y) = .object (h.joinNames x y) := by
  rw [joinTypes.eq_def]
  by_cases same : x = y
  · rw [if_pos (congrArg VType.object same), joinNames, same, joinChars_self, String.ofList_toList]
  · rw [if_neg fun eq => same (VType.object.inj eq)]

theorem joinTypes_top (h : Hierarchy) (t : VType) : h.joinTypes .top t = .top := by
  cases t <;> simp [joinTypes]

theorem joinTypes_cases (h : Hierarchy) (t u : VType) :
    (t = u ∧ h.joinTypes t u = t) ∨ (t = .null ∧ (∃ y, u = .object y) ∧ h.joinTypes t u = u) ∨
      ((∃ x, t = .object x) ∧ u = .null ∧ h.joinTypes t u = t) ∨
      (∃ x y, t = .object x ∧ u = .object y) ∨ h.joinTypes t u = .top := by
  by_cases same : t = u
  · subst same
    exact .inl ⟨rfl, joinTypes_self h t⟩
  · rw [joinTypes.eq_def, if_neg same]
    split
    · rename_i y
      exact .inr (.inl ⟨rfl, ⟨y, rfl⟩, rfl⟩)
    · rename_i x
      exact .inr (.inr (.inl ⟨⟨x, rfl⟩, rfl, rfl⟩))
    · rename_i x y
      exact .inr (.inr (.inr (.inl ⟨x, y, rfl, rfl⟩)))
    · exact .inr (.inr (.inr (.inr rfl)))

theorem shallow_joinNames (hx : Shallow x.toList) (hy : Shallow y.toList) :
    Shallow (h.joinNames x y).toList := by
  rw [joinNames, String.toList_ofList]
  exact (over_joinChars hx hy).2.2

theorem shallow_joinTypes (ht : t.Shallow) (hu : u.Shallow) : (h.joinTypes t u).Shallow := by
  rcases joinTypes_cases h t u with ⟨_, join⟩ | ⟨_, _, join⟩ | ⟨_, _, join⟩ |
    ⟨x, y, rfl, rfl⟩ | join
  · rwa [join]
  · rwa [join]
  · rwa [join]
  · rw [joinTypes_object]
    exact shallow_joinNames ht hu
  · rw [join]
    trivial

theorem joinNames_eq_left (hx : Shallow x.toList) (hy : Shallow y.toList) :
    h.joinNames x y = x ↔ h.Over y.toList x.toList := by
  rw [← joinChars_eq_left hx hy, joinNames, ← String.toList_inj, String.toList_ofList]

theorem joinTypes_absorbs (ht : t.Shallow) (hu : u.Shallow) :
    h.joinTypes (h.joinTypes t u) u = h.joinTypes t u := by
  rcases joinTypes_cases h t u with ⟨rfl, join⟩ | ⟨_, _, join⟩ | ⟨⟨x, rfl⟩, rfl, join⟩ |
    ⟨x, y, rfl, rfl⟩ | join
  · rw [join, join]
  · rw [join, joinTypes_self]
  · rw [join, join]
  · rw [joinTypes_object, joinTypes_object]
    refine congrArg VType.object ?_
    rw [joinNames_eq_left (shallow_joinNames ht hu) hu, joinNames, String.toList_ofList]
    exact (over_joinChars ht hu).2.1
  · rw [join, joinTypes_top]

theorem joinTypes_stable (ht : t.Shallow) (hu : u.Shallow) (hv : v.Shallow)
    (absorbs : h.joinTypes t v = t) : h.joinTypes (h.joinTypes t u) v = h.joinTypes t u := by
  rcases joinTypes_cases h t u with ⟨_, join⟩ | ⟨rfl, ⟨y, rfl⟩, join⟩ | ⟨_, _, join⟩ |
    ⟨x, y, rfl, rfl⟩ | join
  · rw [join, absorbs]
  · rw [join]
    rcases joinTypes_cases h .null v with ⟨rfl, _⟩ | ⟨_, ⟨z, rfl⟩, other⟩ | ⟨⟨_, no⟩, _, _⟩ |
      ⟨_, _, no, _⟩ | top
    · rfl
    · rw [absorbs] at other
      cases other
    · cases no
    · cases no
    · rw [absorbs] at top
      cases top
  · rw [join, absorbs]
  · rw [joinTypes_object]
    rcases joinTypes_cases h (.object x) v with ⟨rfl, _⟩ | ⟨no, _, _⟩ | ⟨_, rfl, _⟩ |
      ⟨_, z, _, rfl⟩ | top
    · rw [joinTypes_object]
      refine congrArg VType.object ?_
      rw [joinNames_eq_left (shallow_joinNames ht hu) ht, joinNames, String.toList_ofList]
      exact (over_joinChars ht hu).1
    · cases no
    · rfl
    · rw [joinTypes_object] at absorbs ⊢
      have covers := (joinNames_eq_left ht hv).1 (VType.object.inj absorbs)
      refine congrArg VType.object ?_
      rw [joinNames_eq_left (shallow_joinNames ht hu) hv, joinNames, String.toList_ofList]
      exact covers.join ht hu
    · rw [absorbs] at top
      cases top
  · rw [join, joinTypes_top]

end Hierarchy

def State.Shallow (s : State) : Prop := (∀ t ∈ s.locals, t.Shallow) ∧ ∀ t ∈ s.stack, t.Shallow

namespace Hierarchy

/-- The stacks are equally high, and joining changes no slot of the first state. -/
structure Absorbs (h : Hierarchy) (s t : State) : Prop where
  locals : List.Forall₂ (fun a b => h.joinTypes a b = a) s.locals t.locals
  stack : List.Forall₂ (fun a b => h.joinTypes a b = a) s.stack t.stack

variable {h : Hierarchy} {s t u : State}

theorem meetEntries_eq {f : VType → VType → VType} {mine theirs : List VType}
    (length : mine.length = theirs.length) :
    meetEntries f mine theirs = List.zipWith f mine theirs := by
  rw [meetEntries, List.drop_eq_nil_of_le (Nat.le_of_eq length), List.append_nil]

theorem mem_meetEntries {P : VType → Prop} {f : VType → VType → VType} {mine theirs : List VType}
    (each : ∀ a ∈ mine, ∀ b ∈ theirs, P (f a b)) (old : ∀ a ∈ mine, P a) :
    ∀ t ∈ meetEntries f mine theirs, P t := by
  intro t mem
  rcases List.mem_append.1 mem with mem | mem
  · obtain ⟨a, ha, b, hb, rfl⟩ := mem_zipWith mem
    exact each a ha b hb
  · exact old t (List.mem_of_mem_drop mem)

theorem length_meetEntries (f : VType → VType → VType) (mine theirs : List VType) :
    (meetEntries f mine theirs).length = mine.length := by
  rw [meetEntries, List.length_append, List.length_zipWith, List.length_drop]
  omega

theorem getElem?_meetEntries (f : VType → VType → VType) (mine theirs : List VType) (k : Nat) :
    (meetEntries f mine theirs)[k]? = mine[k]?.map fun m =>
      match theirs[k]? with
      | some t => f m t
      | none => m := by
  induction mine generalizing theirs k with
  | nil => cases theirs <;> rfl
  | cons m mine ih =>
    cases theirs with
    | nil =>
      have alone : meetEntries f (m :: mine) [] = m :: mine := rfl
      rw [alone]
      cases (m :: mine)[k]? <;> rfl
    | cons t theirs =>
      have both :
          meetEntries f (m :: mine) (t :: theirs) = f m t :: meetEntries f mine theirs := rfl
      rw [both]
      cases k with
      | zero => rfl
      | succ k => simpa only [List.getElem?_cons_succ] using ih theirs k

theorem joinStates_eq (locals : s.locals.length = t.locals.length)
    (stack : s.stack.length = t.stack.length) :
    h.joinStates s t = ⟨List.zipWith h.joinTypes s.locals t.locals,
      List.zipWith h.joinTypes s.stack t.stack⟩ := by
  have entries : s.entries.length = t.entries.length := by
    rw [State.entries, State.entries, List.length_append, List.length_append, List.length_reverse,
      List.length_reverse, locals, stack]
  have width : (List.zipWith h.joinTypes s.locals t.locals).length = s.locals.length := by
    rw [List.length_zipWith, ← locals, Nat.min_self]
  rw [joinStates, meetEntries_eq entries, State.entries, State.entries, List.zipWith_append locals,
    State.withEntries, ← width, List.take_left, List.drop_left, ← List.reverse_zipWith stack,
    List.reverse_reverse]

theorem Absorbs.refl (h : Hierarchy) (s : State) : h.Absorbs s s :=
  ⟨List.forall₂_same.2 fun t _ => joinTypes_self h t,
    List.forall₂_same.2 fun t _ => joinTypes_self h t⟩

theorem absorbs_joinStates (hs : s.Shallow) (ht : t.Shallow)
    (locals : s.locals.length = t.locals.length) (stack : s.stack.length = t.stack.length) :
    h.Absorbs (h.joinStates s t) t := by
  rw [joinStates_eq locals stack]
  constructor
  · exact forall₂_zipWith_self locals fun a ha b hb => joinTypes_absorbs (hs.1 a ha) (ht.1 b hb)
  · exact forall₂_zipWith_self stack fun a ha b hb => joinTypes_absorbs (hs.2 a ha) (ht.2 b hb)

theorem Absorbs.join (absorbs : h.Absorbs s u) (hs : s.Shallow) (ht : t.Shallow) (hu : u.Shallow)
    (locals : s.locals.length = t.locals.length) (stack : s.stack.length = t.stack.length) :
    h.Absorbs (h.joinStates s t) u := by
  rw [joinStates_eq locals stack]
  constructor
  · apply forall₂_zipWith_left locals absorbs.locals
    exact fun a ha b hb c hc => joinTypes_stable (hs.1 a ha) (ht.1 c hc) (hu.1 b hb)
  · apply forall₂_zipWith_left stack absorbs.stack
    exact fun a ha b hb c hc => joinTypes_stable (hs.2 a ha) (ht.2 c hc) (hu.2 b hb)

theorem shallow_joinStates (hs : s.Shallow) (ht : t.Shallow)
    (locals : s.locals.length = t.locals.length) (stack : s.stack.length = t.stack.length) :
    (h.joinStates s t).Shallow := by
  rw [joinStates_eq locals stack]
  constructor
  · intro v mem
    obtain ⟨a, ha, b, hb, rfl⟩ := mem_zipWith mem
    exact shallow_joinTypes (hs.1 a ha) (ht.1 b hb)
  · intro v mem
    obtain ⟨a, ha, b, hb, rfl⟩ := mem_zipWith mem
    exact shallow_joinTypes (hs.2 a ha) (ht.2 b hb)

theorem length_locals_joinStates (locals : s.locals.length = t.locals.length)
    (stack : s.stack.length = t.stack.length) :
    (h.joinStates s t).locals.length = s.locals.length := by
  rw [joinStates_eq locals stack, List.length_zipWith, ← locals, Nat.min_self]

end Hierarchy

end ClassWeave
