import Mathlib.Data.List.Flatten
import Mathlib.Data.List.TakeWhile
import Mathlib.Tactic.Common
import ClassWeave.Frame
import ClassWeave.Proofs.Renaming
import ClassWeave.Text.ModifiedUtf8

/-!
# Types inside descriptors

A descriptor that was read is the text of what was read, and the text of a type whose classes have
names is read back, whatever follows. So a type inside a descriptor is no longer, and takes no more
bytes, than the descriptor, and the classes in it have the names that stand there.
-/

set_option autoImplicit false

namespace ClassWeave

namespace FieldType

def classes : FieldType → List String
  | .object name => [name]
  | .array element => element.classes
  | _ => []

def Closed (t : FieldType) : Prop := ∀ name ∈ t.classes, ';' ∉ name.toList

/-- Every class has a name, which ends at its semicolon. -/
def Named (t : FieldType) : Prop := ∀ name ∈ t.classes, name ≠ "" ∧ ';' ∉ name.toList

theorem Named.closed {t : FieldType} (named : t.Named) : t.Closed :=
  fun name mem => (named name mem).2

theorem read_cases {c : Char} {tail rest : List Char} {t : FieldType}
    (h : read (c :: tail) = some (t, rest)) :
    (t.chars = [c] ∧ t.classes = [] ∧ rest = tail) ∨
    (∃ name, c = 'L' ∧ t = .object (String.ofList name) ∧ name ≠ [] ∧ ';' ∉ name ∧
      tail = name ++ ';' :: rest) ∨
    (∃ element, c = '[' ∧ t = .array element ∧ read tail = some (element, rest)) := by
  rw [read] at h
  iterate 8
    rcases ite_eq_iff.1 h with ⟨letter, found⟩ | ⟨-, h⟩
    · cases found
      exact .inl ⟨congrArg (fun c => [c]) letter.symm, rfl, rfl⟩
  split at h
  · rename_i mark
    dsimp only at h
    split at h
    · cases h
    · rename_i d rest' closed
      split at h
      · cases h
      · rename_i nonempty
        cases h
        refine .inr (.inl ⟨_, mark, rfl, ?_, fun inside => ?_, ?_⟩)
        · exact fun none => nonempty (List.isEmpty_iff.2 none)
        · simpa using List.mem_takeWhile_imp inside
        · have first := List.head?_dropWhile_not (fun d => decide (d ≠ ';')) tail
          rw [closed] at first
          obtain rfl : d = ';' := by simpa using first
          rw [← closed]
          exact (List.takeWhile_append_dropWhile ..).symm
  · split at h
    · rename_i bracket
      obtain ⟨⟨element, rest'⟩, found, same⟩ := Option.map_eq_some_iff.1 h
      cases same
      exact .inr (.inr ⟨element, bracket, rfl, found⟩)
    · cases h

theorem eq_chars_of_read {cs rest : List Char} {t : FieldType} (h : read cs = some (t, rest)) :
    cs = t.chars ++ rest ∧ t.Named := by
  induction cs generalizing t with
  | nil => cases h
  | cons c tail ih =>
    rcases read_cases h with ⟨letter, none, rfl⟩ | ⟨name, rfl, rfl, nonempty, closed, rfl⟩ |
      ⟨element, rfl, rfl, found⟩
    · refine ⟨by rw [letter, List.singleton_append], ?_⟩
      rw [Named, none]
      exact List.forall_mem_nil _
    · refine ⟨by rw [chars, String.toList_ofList]; simp, ?_⟩
      intro inner mem
      rw [List.mem_singleton.1 mem, String.toList_ofList]
      exact ⟨fun none => nonempty (String.ofList_injective none), closed⟩
    · obtain ⟨whole, named⟩ := ih found
      exact ⟨congrArg ('[' :: ·) whole, named⟩

theorem eq_chars_of_parse {text : String} {t : FieldType} (h : parse text = .ok t) :
    text.toList = t.chars ∧ t.Named := by
  unfold parse at h
  split at h
  · rename_i found
    cases h
    obtain ⟨whole, named⟩ := eq_chars_of_read found
    rw [List.append_nil] at whole
    exact ⟨whole, named⟩
  · cases h

theorem eq_text_of_parse {text : String} {t : FieldType} (h : parse text = .ok t) :
    text = t.text := by
  rw [FieldType.text, ← (eq_chars_of_parse h).1, String.ofList_toList]

/-! What a text is read as, by its first character. -/

theorem read_letter {c : Char} (noClass : c ≠ 'L') (noArray : c ≠ '[') :
    ∃ t : Option FieldType, ∀ tail, read (c :: tail) = t.map fun t => (t, tail) := by
  refine ⟨(read [c]).map Prod.fst, fun tail => ?_⟩
  rw [read, read]
  simp only [if_neg noClass, if_neg noArray]
  split_ifs <;> rfl

theorem read_array (tail : List Char) :
    read ('[' :: tail) = (read tail).map fun (element, rest) => (.array element, rest) := by
  rw [read]
  simp

theorem read_mark (tail : List Char) :
    read ('L' :: tail) = match tail.dropWhile (· ≠ ';') with
      | [] => none
      | _ :: rest =>
        if (tail.takeWhile (· ≠ ';')).isEmpty then none
        else some (.object (String.ofList (tail.takeWhile (· ≠ ';'))), rest) := by
  rw [read]
  iterate 8 rw [if_neg (by decide)]
  rfl

theorem read_class {name : List Char} (closed : ';' ∉ name) (rest : List Char) :
    read ('L' :: name ++ ';' :: rest) =
      if name = [] then none else some (.object (String.ofList name), rest) := by
  rw [List.cons_append, read_mark, Renaming.takeWhile_closed closed,
    Renaming.dropWhile_closed closed]
  simp

theorem read_unclosed {tail : List Char} (unclosed : ';' ∉ tail) : read ('L' :: tail) = none := by
  rw [read_mark, Renaming.dropWhile_open unclosed]

theorem read_chars {t : FieldType} (named : t.Named) (rest : List Char) :
    read (t.chars ++ rest) = some (t, rest) := by
  induction t with
  | object name =>
    obtain ⟨present, closed⟩ := named name (List.mem_singleton_self name)
    have shape : (FieldType.object name).chars ++ rest = 'L' :: name.toList ++ ';' :: rest := by
      simp [chars]
    have nonempty : name.toList ≠ [] := fun none => present (String.toList_eq_nil_iff.1 none)
    rw [shape, read_class closed, if_neg nonempty, String.ofList_toList]
  | array element ih =>
    rw [chars, List.cons_append, read_array, ih named]
    rfl
  | _ => rfl

theorem parse_text {t : FieldType} (named : t.Named) : parse t.text = .ok t := by
  have whole := read_chars named []
  rw [List.append_nil] at whole
  rw [parse, text, String.toList_ofList, whole]

theorem chars_eq_cons (t : FieldType) : ∃ c tail, t.chars = c :: tail ∧ c ≠ ')' := by
  cases t <;> exact ⟨_, _, rfl, by decide⟩

theorem chars_ne_void (t : FieldType) : t.chars ≠ ['V'] := by
  cases t <;> simp [chars]

theorem infix_internalName (t : FieldType) : t.internalName.toList <:+: t.chars := by
  have whole : ∀ l : List Char, (String.ofList l).toList <:+: l := by simp
  cases t with
  | object name => exact ⟨['L'], [';'], rfl⟩
  | _ => exact whole _

end FieldType

namespace MethodDescriptor

def types (d : MethodDescriptor) : List FieldType := d.params ++ d.result.toList

def classes (d : MethodDescriptor) : List String := d.types.flatMap FieldType.classes

/-- Every class in the descriptor has a name, which ends at its semicolon. -/
def Named (d : MethodDescriptor) : Prop := ∀ t ∈ d.types, t.Named

theorem readParams_cons {c : Char} (open_ : c ≠ ')') (tail : List Char) (known : List FieldType) :
    readParams (c :: tail) known = match FieldType.read (c :: tail) with
      | some (t, rest) => readParams rest (t :: known)
      | none => none := by
  rw [readParams, if_neg open_]
  split
  · rename_i t rest found
    rw [found]
  · rename_i unread
    rw [unread]

theorem eq_chars_of_readParams (cs : List Char) (known : List FieldType) {rest : List Char}
    {params : List FieldType} (h : readParams cs known = some (params, rest)) :
    ∃ more, params = known.reverse ++ more ∧ (∀ t ∈ more, t.Named) ∧
      cs = more.flatMap FieldType.chars ++ ')' :: rest := by
  induction cs, known using readParams.induct with
  | case1 known => rw [readParams] at h; cases h
  | case2 known rest' =>
    rw [readParams, if_pos rfl] at h
    cases h
    exact ⟨[], (List.append_nil _).symm, List.forall_mem_nil _, rfl⟩
  | case3 known c tail open_ t rest' found ih =>
    rw [readParams_cons open_, found] at h
    obtain ⟨more, hparams, named, hrest⟩ := ih h
    obtain ⟨first, named'⟩ := FieldType.eq_chars_of_read found
    refine ⟨t :: more, ?_, List.forall_mem_cons.2 ⟨named', named⟩, ?_⟩
    · rw [hparams, List.reverse_cons, List.append_assoc]
      rfl
    · rw [first, hrest, List.flatMap_cons, List.append_assoc]
  | case4 known c tail open_ unread =>
    rw [readParams_cons open_, unread] at h
    cases h

theorem eq_chars_of_parse {desc : String} {d : MethodDescriptor} (h : parse desc = .ok d) :
    desc.toList = d.chars ∧ d.Named := by
  unfold parse at h
  split at h
  · rename_i found
    cases h
    unfold parseChars at found
    split at found
    · rename_i rest same
      obtain ⟨⟨params, behind⟩, read, found⟩ := Option.bind_eq_some_iff.1 found
      obtain ⟨more, hparams, named, hrest⟩ := eq_chars_of_readParams _ _ read
      rw [List.reverse_nil, List.nil_append] at hparams
      subst hparams
      dsimp only at found
      split at found
      · rename_i void
        cases found
        rw [same, hrest, void]
        refine ⟨rfl, fun t mem => named t ?_⟩
        simpa [types] using mem
      · split at found
        · rename_i result last
          cases found
          obtain ⟨whole, named'⟩ := FieldType.eq_chars_of_read last
          rw [List.append_nil] at whole
          rw [same, hrest, whole]
          refine ⟨rfl, fun t mem => ?_⟩
          rcases List.mem_append.1 mem with mem | mem
          · exact named t mem
          · rwa [List.mem_singleton.1 mem]
        · cases found
    · cases found
  · cases h

theorem eq_text_of_parse {desc : String} {d : MethodDescriptor} (h : parse desc = .ok d) :
    desc = d.text := by
  rw [text, ← (eq_chars_of_parse h).1, String.ofList_toList]

theorem readParams_chars {params : List FieldType} (named : ∀ t ∈ params, t.Named)
    (rest : List Char) (known : List FieldType) :
    readParams (params.flatMap FieldType.chars ++ ')' :: rest) known =
      some (known.reverse ++ params, rest) := by
  induction params generalizing known with
  | nil => rw [List.flatMap_nil, List.nil_append, readParams, if_pos rfl, List.append_nil]
  | cons t params ih =>
    obtain ⟨first, others⟩ := List.forall_mem_cons.1 named
    obtain ⟨c, tail, shape, open_⟩ := t.chars_eq_cons
    have read := FieldType.read_chars first (params.flatMap FieldType.chars ++ ')' :: rest)
    rw [shape, List.cons_append] at read
    rw [List.flatMap_cons, List.append_assoc, shape, List.cons_append, readParams_cons open_, read]
    dsimp only
    rw [ih others, List.reverse_cons, List.append_assoc]
    rfl

theorem parseChars_open (tail : List Char) : parseChars ('(' :: tail) =
    (readParams tail []).bind fun p =>
      if p.2 = ['V'] then some ⟨p.1, none⟩
      else match FieldType.read p.2 with
        | some (t, []) => some ⟨p.1, some t⟩
        | _ => none := rfl

theorem parseChars_chars {d : MethodDescriptor} (named : d.Named) :
    parseChars d.chars = some d := by
  obtain ⟨params, result⟩ := d
  have inParams : ∀ t ∈ params, t.Named := fun t mem => named t (List.mem_append_left _ mem)
  rw [chars, List.cons_append, parseChars_open, readParams_chars inParams, Option.bind_some]
  dsimp only
  cases result with
  | none => exact if_pos rfl
  | some t =>
    have inResult : t.Named := named t (List.mem_append_right _ (List.mem_singleton_self t))
    have whole := FieldType.read_chars inResult []
    rw [List.append_nil] at whole
    rw [if_neg t.chars_ne_void, whole]
    rfl

theorem parse_text {d : MethodDescriptor} (named : d.Named) : parse d.text = .ok d := by
  rw [parse, text, String.toList_ofList, parseChars_chars named]

theorem infix_param {desc : String} {d : MethodDescriptor} (h : parse desc = .ok d)
    {t : FieldType} (ht : t ∈ d.params) : t.chars <:+: desc.toList := by
  have inner : t.chars <:+: d.params.flatMap FieldType.chars := by
    obtain ⟨before, behind, split⟩ := List.append_of_mem ht
    rw [split, List.flatMap_append, List.flatMap_cons]
    exact List.infix_append' ..
  rw [(eq_chars_of_parse h).1, chars]
  exact (inner.trans (List.prefix_append ..).isInfix).trans (List.suffix_cons ..).isInfix

theorem length_encode_param {desc : String} {d : MethodDescriptor} (h : parse desc = .ok d)
    {t : FieldType} (ht : t ∈ d.params) :
    (ModifiedUtf8.encode t.internalName).length ≤ (ModifiedUtf8.encode desc).length := by
  have sub : t.internalName.toList.Sublist desc.toList :=
    t.infix_internalName.sublist.trans (infix_param h ht).sublist
  exact ((sub.flatMap _).flatMap _).length_le

end MethodDescriptor

end ClassWeave
