import Mathlib.Logic.Relation
import Mathlib.Tactic.Common
import ClassWeave.Hierarchy

/-!
# Searching the hierarchy

A search finds a name exactly when superclass and interface links lead to it, whatever circles the
links run in. So one class is assignable to another when it is reached or is `java/lang/Object`,
and the nearest supertype of two classes lies above both.
-/

set_option autoImplicit false

namespace ClassWeave

namespace Hierarchy

def Link (h : Hierarchy) (a b : String) : Prop :=
  ∃ header, h.header? a = some header ∧ b ∈ supertypes header

def Reach (h : Hierarchy) : String → String → Prop := Relation.ReflTransGen h.Link

def unseenLinks (seen : List String) : List (String × Header) → Nat
  | [] => 0
  | e :: es => (if e.1 ∈ seen then 0 else (supertypes e.2).length) + unseenLinks seen es

/-- The headers by name; a library header that is hidden by one of the batch is still there. -/
def entries (h : Hierarchy) : List (String × Header) := h.classes.toList ++ h.library.toList

variable {h : Hierarchy} {name goal : String} {seen queue : List String}

theorem mem_entries {header : Header} (found : h.header? name = some header) :
    (name, header) ∈ h.entries := by
  unfold header? at found
  rw [entries, List.mem_append]
  split at found
  · rename_i header' inBatch
    cases found
    exact .inl (Std.TreeMap.mem_toList_iff_getElem?_eq_some.2 inBatch)
  · exact .inr (Std.TreeMap.mem_toList_iff_getElem?_eq_some.2 found)

theorem unseenLinks_cons_le (name : String) (seen : List String) (es : List (String × Header)) :
    unseenLinks (name :: seen) es ≤ unseenLinks seen es := by
  induction es with
  | nil => exact Nat.le_refl 0
  | cons e es ih =>
    simp only [unseenLinks, List.mem_cons]
    by_cases same : e.1 = name
    · rw [if_pos (Or.inl same)]
      omega
    · simp only [same, false_or]
      omega

theorem unseenLinks_cons {header : Header} {es : List (String × Header)}
    (mem : (name, header) ∈ es) (fresh : name ∉ seen) :
    (supertypes header).length + unseenLinks (name :: seen) es ≤ unseenLinks seen es := by
  induction es with
  | nil => cases mem
  | cons e es ih =>
    rcases List.mem_cons.1 mem with rfl | mem
    · have rest := unseenLinks_cons_le name seen es
      simp only [unseenLinks, List.mem_cons, true_or, if_true, if_neg fresh]
      omega
    · have rest := ih mem
      have first := unseenLinks_cons_le name seen [e]
      simp only [unseenLinks] at first ⊢
      omega

theorem unseenLinks_lt_searchBound : unseenLinks [] h.entries + 1 < h.searchBound := by
  have counted : ∀ (es : List (String × Header)) (n : Nat),
      es.foldl (fun n e => n + 1 + (supertypes e.2).length) n ≥ n + unseenLinks [] es := by
    intro es
    induction es with
    | nil => exact fun n => Nat.le_refl n
    | cons e es ih =>
      intro n
      have rest := ih (n + 1 + (supertypes e.2).length)
      rw [List.foldl_cons, unseenLinks, if_neg (List.not_mem_nil)]
      omega
  have split : ∀ es es' : List (String × Header),
      unseenLinks [] (es ++ es') = unseenLinks [] es + unseenLinks [] es' := by
    intro es es'
    induction es with
    | nil => exact (Nat.zero_add _).symm
    | cons e es ih =>
      rw [List.cons_append, unseenLinks, unseenLinks, ih]
      omega
  have classes := counted h.classes.toList 0
  have library := counted h.library.toList 0
  rw [entries, split, searchBound]
  simp only [Std.TreeMap.foldl_eq_foldl_toList]
  omega

/-- The search, in as many steps as it takes. -/
inductive Search (h : Hierarchy) (goal : String) : List String → List String → Bool → Prop
  | ended {seen : List String} : Search h goal seen [] false
  | met {seen queue : List String} : Search h goal seen (goal :: queue) true
  | known {seen queue : List String} {name : String} {answer : Bool} (other : name ≠ goal)
      (mem : name ∈ seen) (rest : Search h goal seen queue answer) :
      Search h goal seen (name :: queue) answer
  | expanded {seen queue : List String} {name : String} {header : Header} {answer : Bool}
      (other : name ≠ goal) (fresh : name ∉ seen) (found : h.header? name = some header)
      (rest : Search h goal (name :: seen) (queue ++ supertypes header) answer) :
      Search h goal seen (name :: queue) answer
  | leaf {seen queue : List String} {name : String} {answer : Bool} (other : name ≠ goal)
      (fresh : name ∉ seen) (unknown : h.header? name = none)
      (rest : Search h goal (name :: seen) queue answer) :
      Search h goal seen (name :: queue) answer

/-- The search ends by itself before its bound is used up: each step takes a name from the queue and
brings in the links of a name that is seen for the first time. -/
theorem search_reaches {fuel : Nat} (enough : queue.length + unseenLinks seen h.entries < fuel) :
    h.Search goal seen queue (h.reaches goal fuel seen queue) := by
  induction fuel generalizing seen queue with
  | zero => omega
  | succ fuel ih =>
    cases queue with
    | nil => exact .ended
    | cons name queue =>
      rw [List.length_cons] at enough
      rw [reaches]
      by_cases same : (name == goal) = true
      · rw [if_pos same, beq_iff_eq.1 same]
        exact .met
      · rw [if_neg same]
        have other : name ≠ goal := fun eq => same (beq_iff_eq.2 eq)
        by_cases known : seen.contains name = true
        · rw [if_pos known]
          exact .known other (List.contains_iff_mem.1 known) (ih (by omega))
        · rw [if_neg known]
          have fresh : name ∉ seen := fun mem => known (List.contains_iff_mem.2 mem)
          split
          · rename_i header found
            have fewer := unseenLinks_cons (mem_entries found) fresh
            refine .expanded other fresh found (ih ?_)
            rw [List.length_append]
            omega
          · rename_i unknown
            have fewer := unseenLinks_cons_le name seen h.entries
            exact .leaf other fresh unknown (ih (by omega))

theorem Search.exists_reach {answer : Bool} (search : h.Search goal seen queue answer)
    (found : answer = true) : ∃ a ∈ queue, h.Reach a goal := by
  induction search with
  | ended => cases found
  | met => exact ⟨goal, List.mem_cons_self, .refl⟩
  | known _ _ _ ih =>
    obtain ⟨a, mem, reach⟩ := ih found
    exact ⟨a, List.mem_cons_of_mem _ mem, reach⟩
  | @expanded _ queue name header _ _ _ known _ ih =>
    obtain ⟨a, mem, reach⟩ := ih found
    rcases List.mem_append.1 mem with mem | mem
    · exact ⟨a, List.mem_cons_of_mem _ mem, reach⟩
    · exact ⟨name, List.mem_cons_self, .head ⟨header, known, mem⟩ reach⟩
  | leaf _ _ _ _ ih =>
    obtain ⟨a, mem, reach⟩ := ih found
    exact ⟨a, List.mem_cons_of_mem _ mem, reach⟩

/-- What has been seen is not the goal, and its links lead to what has been seen or is to come. -/
structure Explored (h : Hierarchy) (goal : String) (seen queue : List String) : Prop where
  missed : goal ∉ seen
  links : ∀ a ∈ seen, ∀ b, h.Link a b → b ∈ seen ∨ b ∈ queue

theorem Explored.not_reach (explored : h.Explored goal seen []) {a : String} (mem : a ∈ seen) :
    ¬ h.Reach a goal := by
  intro reach
  induction reach using Relation.ReflTransGen.head_induction_on with
  | refl => exact explored.missed mem
  | head link _ ih =>
    rcases explored.links _ mem _ link with mem | mem
    · exact ih mem
    · cases mem

theorem Search.not_reach {answer : Bool} (search : h.Search goal seen queue answer)
    (missed : answer = false) (explored : h.Explored goal seen queue) {a : String}
    (mem : a ∈ seen ∨ a ∈ queue) : ¬ h.Reach a goal := by
  have moved {name b : String} {seen queue : List String} (more : List String)
      (mem : b ∈ seen ∨ b ∈ name :: queue) : b ∈ name :: seen ∨ b ∈ queue ++ more := by
    simp only [List.mem_cons, List.mem_append] at mem ⊢
    tauto
  induction search with
  | ended =>
    rcases mem with mem | mem
    · exact explored.not_reach mem
    · cases mem
  | met => cases missed
  | @known seen queue name _ _ seen_name _ ih =>
    have here {b : String} (mem : b ∈ seen ∨ b ∈ name :: queue) : b ∈ seen ∨ b ∈ queue := by
      rcases mem with mem | mem
      · exact .inl mem
      · rcases List.mem_cons.1 mem with rfl | mem
        · exact .inl seen_name
        · exact .inr mem
    refine ih missed ⟨explored.missed, fun b hb b' link => ?_⟩ (here mem)
    exact here (explored.links b hb b' link)
  | @expanded seen queue name header _ other _ found _ ih =>
    refine ih missed ⟨?_, fun b hb b' link => ?_⟩ (moved _ mem)
    · simp [other.symm, explored.missed]
    · rcases List.mem_cons.1 hb with rfl | hb
      · obtain ⟨header', found', mem'⟩ := link
        rw [found] at found'
        cases found'
        exact .inr (List.mem_append_right _ mem')
      · exact moved _ (explored.links b hb b' link)
  | @leaf seen queue name _ other _ unknown _ ih =>
    have moved {b : String} (mem : b ∈ seen ∨ b ∈ name :: queue) :
        b ∈ name :: seen ∨ b ∈ queue := by
      simpa using moved [] mem
    refine ih missed ⟨?_, fun b hb b' link => ?_⟩ (moved mem)
    · simp [other.symm, explored.missed]
    · rcases List.mem_cons.1 hb with rfl | hb
      · obtain ⟨header', found', _⟩ := link
        rw [unknown] at found'
        cases found'
      · exact moved (explored.links b hb b' link)

theorem reaches_iff {a : String} :
    h.reaches goal h.searchBound [] [a] = true ↔ h.Reach a goal := by
  have bound := unseenLinks_lt_searchBound (h := h)
  have search : h.Search goal [] [a] (h.reaches goal h.searchBound [] [a]) :=
    search_reaches (by rw [List.length_singleton]; omega)
  constructor
  · intro found
    obtain ⟨b, mem, reach⟩ := search.exists_reach found
    exact List.mem_singleton.1 mem ▸ reach
  · intro reach
    by_contra missed
    have explored : h.Explored goal [] [a] := ⟨List.not_mem_nil, fun b hb => nomatch hb⟩
    exact search.not_reach (Bool.eq_false_iff.2 missed) explored
      (.inr (List.mem_singleton_self a)) reach

theorem isArray_iff {cs : List Char} : isArray cs = true ↔ ∃ x, cs = '[' :: x := by
  cases cs <;> simp [isArray]

def IsClass (name : String) : Prop := isArray name.toList = false

def Above (h : Hierarchy) (lower upper : String) : Prop :=
  upper = objectClass ∨ h.Reach lower upper

variable {a b c : String}

theorem isClass_object : IsClass objectClass := by
  unfold IsClass
  decide

theorem IsClass.ne_array (ha : IsClass a) (cs : List Char) : a.toList ≠ '[' :: cs := by
  intro same
  rw [IsClass, same] at ha
  cases ha

theorem Above.refl (a : String) : h.Above a a := .inr .refl

/-- Whatever the links say, nothing but its own name counts as above the class of all objects; the
rest is transitive. -/
theorem Above.trans (lower : h.Above a b) (upper : h.Above b c) (proper : b ≠ objectClass) :
    h.Above a c := by
  rcases lower with same | lower
  · exact absurd same proper
  · rcases upper with same | upper
    · exact .inl same
    · exact .inr (lower.trans upper)

theorem isAssignable_iff (ha : IsClass a) (hb : IsClass b) :
    h.isAssignable a b = true ↔ h.Above b a := by
  have object : a.toList = objectClass.toList ↔ a = objectClass := String.toList_inj
  have same : a.toList = b.toList ↔ a = b := String.toList_inj
  rw [isAssignable, assignable]
  by_cases trivially : a.toList = b.toList ∨ a.toList = objectClass.toList
  · rw [if_pos trivially]
    rw [same, object] at trivially
    constructor
    · intro _
      rcases trivially with rfl | rfl
      · exact .refl a
      · exact .inl rfl
    · exact fun _ => rfl
  · rw [if_neg trivially]
    rw [same, object] at trivially
    have search :
        h.reaches (String.ofList a.toList) h.searchBound [] [String.ofList b.toList] = true ↔
          h.Above b a := by
      rw [String.ofList_toList, String.ofList_toList, reaches_iff]
      constructor
      · exact .inr
      · intro above
        rcases above with object | reach
        · exact absurd (Or.inr object) trivially
        · exact reach
    exact search
  · exact ha.ne_array
  · exact hb.ne_array
  · exact fun cs _ same => absurd same (ha.ne_array cs)

theorem isClass_of_isAssignable (hb : IsClass b) (fits : h.isAssignable a b = true) :
    IsClass a := by
  unfold IsClass
  by_contra array
  obtain ⟨cs, shape⟩ := isArray_iff.1 (Bool.not_eq_false _ ▸ array)
  have other : ¬ (a.toList = b.toList ∨ a.toList = objectClass.toList) := by
    rw [shape]
    rintro (same | same)
    · exact hb.ne_array cs same.symm
    · exact isClass_object.ne_array cs same.symm
  rw [isAssignable, assignable.eq_def, if_neg other] at fits
  split at fits
  · rename_i second
    exact hb.ne_array _ second
  · cases fits
  · exact hb.ne_array _ ‹b.toList = _›
  · rename_i no _ _
    exact no cs shape

theorem above_superclassOf (proper : b ≠ objectClass) (above : h.Above a b)
    (up : h.superclassOf b = some c) : h.Above a c := by
  unfold superclassOf at up
  split at up
  · rename_i header found
    have link : h.Link b c := by
      refine ⟨header, found, ?_⟩
      rw [supertypes, up]
      exact List.mem_cons_self
    exact above.trans (.inr (.single link)) proper
  · split at up
    · cases up
    · exact .inl (Option.some.inj up).symm

theorem above_firstCommon {fuel : Nat} {start : Option String} (hb : IsClass b)
    (above : ∀ c, start = some c → h.Above a c) :
    IsClass (h.firstCommon b fuel seen start) ∧ h.Above a (h.firstCommon b fuel seen start) ∧
      h.Above b (h.firstCommon b fuel seen start) := by
  have object : IsClass objectClass ∧ h.Above a objectClass ∧ h.Above b objectClass :=
    ⟨isClass_object, .inl rfl, .inl rfl⟩
  induction fuel generalizing seen start with
  | zero => exact object
  | succ fuel ih =>
    cases start with
    | none => exact object
    | some candidate =>
      rw [firstCommon]
      split
      · exact object
      · split
        · rename_i fits
          have class' := isClass_of_isAssignable hb fits
          exact ⟨class', above candidate rfl, (isAssignable_iff class' hb).1 fits⟩
        · rename_i refused
          apply ih
          intro c up
          have proper : candidate ≠ objectClass := by
            rintro rfl
            exact refused ((isAssignable_iff isClass_object hb).2 (.inl rfl))
          exact above_superclassOf proper (above candidate rfl) up

theorem above_nearestSupertype (ha : IsClass a) (hb : IsClass b) :
    IsClass (h.nearestSupertype a b) ∧ h.Above a (h.nearestSupertype a b) ∧
      h.Above b (h.nearestSupertype a b) := by
  unfold nearestSupertype
  split
  · rename_i fits
    exact ⟨ha, .refl a, (isAssignable_iff ha hb).1 fits⟩
  · rename_i refused
    split
    · rename_i fits
      exact ⟨hb, (isAssignable_iff hb ha).1 fits, .refl b⟩
    · split
      · exact ⟨isClass_object, .inl rfl, .inl rfl⟩
      · apply above_firstCommon hb
        intro c up
        have proper : a ≠ objectClass := by
          rintro rfl
          exact refused ((isAssignable_iff ha hb).2 (.inl rfl))
        exact above_superclassOf proper (.refl a) up

theorem nearestSupertype_eq_left (ha : IsClass a) (hb : IsClass b) :
    h.nearestSupertype a b = a ↔ h.Above b a := by
  constructor
  · intro same
    have above := (above_nearestSupertype (h := h) ha hb).2.2
    rwa [same] at above
  · intro above
    rw [nearestSupertype, if_pos ((isAssignable_iff ha hb).2 above)]

theorem Above.nearestSupertype (above : h.Above b a) (ha : IsClass a) (hc : IsClass c) :
    h.Above b (h.nearestSupertype a c) := by
  by_cases proper : a = objectClass
  · have stays : h.nearestSupertype a c = a :=
      (nearestSupertype_eq_left ha hc).2 (.inl proper)
    rw [stays]
    exact above
  · exact above.trans (above_nearestSupertype ha hc).2.1 proper

end Hierarchy

end ClassWeave
