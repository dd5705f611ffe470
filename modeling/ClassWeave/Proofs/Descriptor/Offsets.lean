import Mathlib.Tactic.Common
import ClassWeave.Proofs.Descriptor
import ClassWeave.Proofs.Sequences
import ClassWeave.Proofs.Text.Utf8

/-!
# Descriptors by byte offset

The reader of descriptors once more, over the bytes of a text: it looks at single bytes, keeps the
offset it has come to, and cuts class names out of the text by their offsets. A cut where no
character starts would be a fault of its own. There is none: letters and marks are single bytes that
no other character starts with, so every offset that is reached is one between characters, and both
readers give the same.

The texts that are read as a type, or as a method's types, are those the types are written as, with
classes that have a name without a semicolon. Each has one reading, and every other text is refused
by name.
-/

set_option autoImplicit false

namespace ClassWeave

inductive OffsetFault where
  | format (cause : FormatError)
  | badCut (offset : Nat)

abbrev OffsetReading := Except OffsetFault

def OffsetFault.malformed (text : List Char) : OffsetFault :=
  .format (.badDescriptor (String.ofList text))

def cut (text : List Char) (offset : Nat) : OffsetReading (List Char × List Char) :=
  match Utf8.cutAt? offset text with
  | some parts => .ok parts
  | none => .error (.badCut offset)

namespace FieldType

def readClassAt (text : List Char) (offset : Nat) : OffsetReading (FieldType × Nat) := do
  let (_, rest) ← cut text offset
  match Utf8.offsetOf? ';' rest with
  | none => throw (.malformed text)
  | some length =>
    if length = 0 then throw (.malformed text)
    else
      let (name, _) ← cut rest length
      return (.object (String.ofList name), offset + length + 1)

def readAt (text : List Char) (offset : Nat) : OffsetReading (FieldType × Nat) :=
  match _inside : (Utf8.encode text)[offset]? with
  | none => .error (.malformed text)
  | some b =>
    if b = 'B'.toUInt8 then .ok (.byte, offset + 1)
    else if b = 'C'.toUInt8 then .ok (.char, offset + 1)
    else if b = 'D'.toUInt8 then .ok (.double, offset + 1)
    else if b = 'F'.toUInt8 then .ok (.float, offset + 1)
    else if b = 'I'.toUInt8 then .ok (.int, offset + 1)
    else if b = 'J'.toUInt8 then .ok (.long, offset + 1)
    else if b = 'S'.toUInt8 then .ok (.short, offset + 1)
    else if b = 'Z'.toUInt8 then .ok (.boolean, offset + 1)
    else if b = 'L'.toUInt8 then readClassAt text (offset + 1)
    else if b = '['.toUInt8 then
      (readAt text (offset + 1)).map fun (element, behind) => (.array element, behind)
    else .error (.malformed text)
termination_by (Utf8.encode text).length - offset
decreasing_by
  have := (List.getElem?_eq_some_iff.1 _inside).1
  omega

def parseAt (text : List Char) : OffsetReading FieldType := do
  let (t, behind) ← readAt text 0
  if behind = (Utf8.encode text).length then return t else throw (.malformed text)

end FieldType

theorem cut_append (before behind : List Char) :
    cut (before ++ behind) (Utf8.encode before).length = .ok (before, behind) := by
  rw [cut, Utf8.cutAt?_eq_some_iff.2 ⟨rfl, rfl⟩]

theorem malformed_toList (text : String) :
    OffsetFault.malformed text.toList = .format (.badDescriptor text) := by
  rw [OffsetFault.malformed, String.ofList_toList]

theorem exists_byte (before tail : List Char) (c : Char) :
    ∃ b, (Utf8.encode (before ++ c :: tail))[(Utf8.encode before).length]? = some b ∧
      ∀ a : Char, a.toNat < 128 → (b = a.toUInt8 ↔ c = a) := by
  obtain ⟨b, more, shape⟩ := List.exists_cons_of_ne_nil (l := Utf8.encode (c :: tail)) (by
    rw [← List.length_pos_iff, Utf8.length_encode_cons]
    exact Nat.add_pos_left c.utf8Size_pos _)
  refine ⟨b, ?_, fun a ascii => ?_⟩
  · rw [Utf8.encode_append, List.getElem?_append_right (Nat.le_refl _), Nat.sub_self, shape]
    rfl
  · obtain ⟨b', more', shape', tells⟩ := Utf8.exists_encode_cons ascii c tail
    cases shape.symm.trans shape'
    exact tells

namespace FieldType

/-- What the reader over characters finds in a text from an offset on. -/
def placed (text : List Char) (offset : Nat) :
    Option (FieldType × List Char) → OffsetReading (FieldType × Nat)
  | none => .error (.malformed text)
  | some (t, _) => .ok (t, offset + (Utf8.encode t.chars).length)

theorem readClassAt_append (before tail : List Char) :
    readClassAt (before ++ 'L' :: tail) ((Utf8.encode before).length + 1) =
      placed (before ++ 'L' :: tail) (Utf8.encode before).length (read ('L' :: tail)) := by
  have parts : cut (before ++ 'L' :: tail) ((Utf8.encode before).length + 1) =
      .ok (before ++ ['L'], tail) := by
    have whole := cut_append (before ++ ['L']) tail
    rwa [Utf8.length_encode_concat (by decide), List.append_assoc, List.singleton_append] at whole
  rw [readClassAt, parts]
  show (match Utf8.offsetOf? ';' tail with | none => _ | some length => _) = _
  by_cases closed : ';' ∈ tail
  · obtain ⟨name, rest, rfl, fresh⟩ := List.eq_append_cons_of_mem closed
    rw [Utf8.offsetOf?_append fresh, ← List.cons_append, read_class fresh]
    dsimp only
    rw [cut_append]
    by_cases none : name = []
    · rw [if_pos none, if_pos (Utf8.length_encode_eq_zero.2 none)]
      rfl
    · rw [if_neg none, if_neg (mt Utf8.length_encode_eq_zero.1 none)]
      have size : (Utf8.encode (FieldType.object (String.ofList name)).chars).length =
          (Utf8.encode name).length + 2 := by
        rw [chars, String.toList_ofList, List.cons_append, Utf8.length_encode_cons,
          Utf8.length_encode_concat (by decide)]
        show 1 + _ = _
        omega
      show Except.ok (_, _) = Except.ok (_, _)
      rw [size]
      congr 2
      omega
  · rw [Utf8.offsetOf?, if_neg closed, read_unclosed closed]
    rfl

theorem readAt_append (before cs : List Char) :
    readAt (before ++ cs) (Utf8.encode before).length =
      placed (before ++ cs) (Utf8.encode before).length (read cs) := by
  induction cs generalizing before with
  | nil =>
    rw [readAt]
    split
    · rfl
    · rename_i b inside
      rw [List.append_nil, List.getElem?_eq_none (Nat.le_refl _)] at inside
      cases inside
  | cons c tail ih =>
    obtain ⟨b, inside, tells⟩ := exists_byte before tail c
    rw [readAt]
    split
    · rename_i none
      rw [inside] at none
      cases none
    · rename_i b' inside'
      obtain rfl : b = b' := Option.some.inj (inside.symm.trans inside')
      rw [read]
      simp only [tells 'B' (by decide), tells 'C' (by decide), tells 'D' (by decide),
        tells 'F' (by decide), tells 'I' (by decide), tells 'J' (by decide), tells 'S' (by decide),
        tells 'Z' (by decide), tells 'L' (by decide), tells '[' (by decide),
        apply_ite (placed _ _)]
      -- The letters are one byte each; a class and an array need more.
      iterate 8 refine ite_congr rfl (fun _ => rfl) fun _ => ?_
      refine ite_congr rfl (fun mark => ?_) fun _ => ite_congr rfl (fun mark => ?_) fun _ => rfl
      · subst mark
        exact (readClassAt_append before tail).trans (congrArg (placed _ _) (read_mark tail))
      · subst mark
        have element := ih (before ++ ['['])
        rw [Utf8.length_encode_concat (by decide), List.append_assoc, List.singleton_append]
          at element
        rw [element]
        rcases read tail with _ | ⟨t, rest⟩
        · rfl
        · show Except.ok (FieldType.array t, _ + 1 + (Utf8.encode t.chars).length) =
            Except.ok (FieldType.array t, _)
          rw [chars, Utf8.length_encode_cons, Nat.add_assoc]
          rfl

theorem eq_length_iff (before : List Char) {cs rest : List Char} {t : FieldType}
    (found : read cs = some (t, rest)) :
    (Utf8.encode before).length + (Utf8.encode t.chars).length =
      (Utf8.encode (before ++ cs)).length ↔ rest = [] := by
  rw [(eq_chars_of_read found).1, Utf8.length_encode_append, Utf8.length_encode_append,
    ← Utf8.length_encode_eq_zero]
  omega

theorem parseAt_eq (text : String) :
    parseAt text.toList = (parse text).mapError OffsetFault.format := by
  have start : readAt text.toList 0 = placed text.toList 0 (read text.toList) :=
    readAt_append [] text.toList
  rw [parseAt, parse, start]
  rcases found : read text.toList with _ | ⟨t, rest⟩
  · exact congrArg Except.error (malformed_toList text)
  · have atEnd : 0 + (Utf8.encode t.chars).length = (Utf8.encode text.toList).length ↔ rest = [] :=
      eq_length_iff [] found
    show (if _ then _ else _) = _
    cases rest with
    | nil =>
      rw [if_pos (atEnd.2 rfl)]
      rfl
    | cons c rest =>
      rw [if_neg (mt atEnd.1 (List.cons_ne_nil c rest))]
      exact congrArg Except.error (malformed_toList text)

theorem lt_of_readClassAt {text : List Char} {offset behind : Nat} {t : FieldType}
    (found : readClassAt text offset = .ok (t, behind)) : offset < behind := by
  obtain ⟨⟨_, rest⟩, -, found⟩ := bind_ok_iff.1 found
  dsimp only at found
  split at found
  · cases found
  · split at found
    · cases found
    · obtain ⟨⟨name, _⟩, -, found⟩ := bind_ok_iff.1 found
      cases found
      omega

theorem lt_of_readAt {text : List Char} {offset behind : Nat} {t : FieldType}
    (found : readAt text offset = .ok (t, behind)) : offset < behind := by
  fun_induction readAt text offset generalizing t behind with
  | case1 => cases found
  | case10 => exact Nat.lt_of_succ_lt (lt_of_readClassAt found)
  | case11 =>
    rename_i ih
    rcases inner : readAt _ _ with fault | ⟨element, behind'⟩
    · rw [inner] at found
      cases found
    · rw [inner] at found
      cases found
      exact Nat.lt_of_succ_lt (ih inner)
  | case12 => cases found
  | _ =>
    cases found
    exact Nat.lt_succ_self _

end FieldType

namespace MethodDescriptor

def readParamsAt (text : List Char) (offset : Nat) (read : List FieldType) :
    OffsetReading (List FieldType × Nat) :=
  match _inside : (Utf8.encode text)[offset]? with
  | none => .error (.malformed text)
  | some b =>
    if b = ')'.toUInt8 then .ok (read.reverse, offset + 1)
    else match _found : FieldType.readAt text offset with
      | .error fault => .error fault
      | .ok (t, behind) => readParamsAt text behind (t :: read)
termination_by (Utf8.encode text).length - offset
decreasing_by
  have further := FieldType.lt_of_readAt _found
  have := (List.getElem?_eq_some_iff.1 _inside).1
  omega

def parseAt (text : List Char) : OffsetReading MethodDescriptor :=
  if text.head? = some '(' then do
    let (params, behind) ← readParamsAt text 1 []
    let (_, rest) ← cut text behind
    if rest = ['V'] then return ⟨params, none⟩
    else
      let (t, behind) ← FieldType.readAt text behind
      if behind = (Utf8.encode text).length then return ⟨params, some t⟩
      else throw (.malformed text)
  else .error (.malformed text)

theorem readParamsAt_of_byte {text : List Char} {offset : Nat} {b : UInt8}
    (inside : (Utf8.encode text)[offset]? = some b) (known : List FieldType) :
    readParamsAt text offset known =
      if b = ')'.toUInt8 then .ok (known.reverse, offset + 1)
      else match FieldType.readAt text offset with
        | .error fault => .error fault
        | .ok (t, behind) => readParamsAt text behind (t :: known) := by
  rw [readParamsAt]
  split
  · rename_i none
    rw [inside] at none
    cases none
  · rename_i b' inside'
    obtain rfl : b = b' := Option.some.inj (inside.symm.trans inside')
    refine ite_congr rfl (fun _ => rfl) fun _ => ?_
    split <;> rename_i found <;> rw [found]

theorem readParamsAt_of_close (before tail : List Char) (known : List FieldType) :
    readParamsAt (before ++ ')' :: tail) (Utf8.encode before).length known =
      .ok (known.reverse, (Utf8.encode before).length + 1) := by
  obtain ⟨b, inside, tells⟩ := exists_byte before tail ')'
  rw [readParamsAt_of_byte inside, if_pos ((tells ')' (by decide)).2 rfl)]

theorem readParamsAt_of_open {c : Char} (open_ : c ≠ ')') (before tail : List Char)
    (known : List FieldType) :
    readParamsAt (before ++ c :: tail) (Utf8.encode before).length known =
      match FieldType.read (c :: tail) with
      | none => .error (.malformed (before ++ c :: tail))
      | some (t, _) => readParamsAt (before ++ c :: tail)
          ((Utf8.encode before).length + (Utf8.encode t.chars).length) (t :: known) := by
  obtain ⟨b, inside, tells⟩ := exists_byte before tail c
  rw [readParamsAt_of_byte inside, if_neg (mt (tells ')' (by decide)).1 open_),
    FieldType.readAt_append]
  cases FieldType.read (c :: tail) <;> rfl

theorem readParamsAt_append (before cs : List Char) (known : List FieldType) :
    match readParams cs known with
    | none => readParamsAt (before ++ cs) (Utf8.encode before).length known =
        .error (.malformed (before ++ cs))
    | some (params, rest) => ∃ front, before ++ cs = front ++ rest ∧
        readParamsAt (before ++ cs) (Utf8.encode before).length known =
          .ok (params, (Utf8.encode front).length) := by
  induction cs, known using readParams.induct generalizing before with
  | case1 known =>
    rw [readParams]
    show readParamsAt (before ++ []) _ known = _
    rw [readParamsAt]
    split
    · rfl
    · rename_i b inside
      rw [List.append_nil, List.getElem?_eq_none (Nat.le_refl _)] at inside
      cases inside
  | case2 known tail =>
    rw [readParams, if_pos rfl]
    refine ⟨before ++ [')'], by rw [List.append_assoc]; rfl, ?_⟩
    rw [readParamsAt_of_close, Utf8.length_encode_concat (by decide)]
  | case3 known c tail open_ t rest found ih =>
    have further := ih (before ++ t.chars)
    rw [readParams_cons open_, readParamsAt_of_open open_, found]
    rwa [List.append_assoc, ← (FieldType.eq_chars_of_read found).1, Utf8.length_encode_append]
      at further
  | case4 known c tail open_ unread =>
    rw [readParams_cons open_, readParamsAt_of_open open_, unread]

theorem parseAt_open (tail : List Char) :
    parseAt ('(' :: tail) = match parseChars ('(' :: tail) with
      | none => .error (.malformed ('(' :: tail))
      | some d => .ok d := by
  have same := readParamsAt_append ['('] tail []
  rw [parseAt, if_pos List.head?_cons, parseChars_open]
  rcases seen : readParams tail [] with _ | ⟨params, rest⟩ <;> rw [seen] at same
  · rw [show readParamsAt ('(' :: tail) 1 [] = _ from same]
    rfl
  · obtain ⟨front, whole, read⟩ := same
    have whole : '(' :: tail = front ++ rest := whole
    rw [show readParamsAt ('(' :: tail) 1 [] = _ from read, whole]
    show (cut (front ++ rest) _ >>= _) = _
    rw [cut_append]
    show (if rest = ['V'] then _ else _) = _
    rw [Option.bind_some]
    dsimp only
    by_cases void : rest = ['V']
    · rw [if_pos void, if_pos void]
      rfl
    · rw [if_neg void, if_neg void, FieldType.readAt_append]
      rcases found : FieldType.read rest with _ | ⟨t, behind⟩
      · rfl
      · show (if _ then _ else _) = _
        have atEnd := FieldType.eq_length_iff front found
        cases behind with
        | nil =>
          rw [if_pos (atEnd.2 rfl)]
          rfl
        | cons c behind =>
          rw [if_neg (mt atEnd.1 (List.cons_ne_nil c behind))]
          rfl

theorem parseAt_eq (text : String) :
    parseAt text.toList = (parse text).mapError OffsetFault.format := by
  rw [parse]
  by_cases mark : text.toList.head? = some '('
  · obtain ⟨tail, whole⟩ := List.head?_eq_some_iff.1 mark
    rw [whole, parseAt_open]
    rcases parseChars ('(' :: tail) with _ | d
    · rw [← whole]
      exact congrArg Except.error (malformed_toList text)
    · rfl
  · have closed : parseChars text.toList = none := by
      unfold parseChars
      split
      · rename_i rest whole
        rw [whole] at mark
        exact absurd rfl mark
      · rfl
    rw [closed, parseAt, if_neg mark]
    exact congrArg Except.error (malformed_toList text)

end MethodDescriptor

/-- A reader that accepts the texts of proper values and nothing else. -/
structure ReadsExactly {α : Type} (parse : String → Except FormatError α)
    (parseAt : List Char → OffsetReading α) (text : α → String) (Proper : α → Prop) : Prop where
  accepts : ∀ s a, parse s = .ok a ↔ s = text a ∧ Proper a
  refuses : ∀ s, (¬ ∃ a, s = text a ∧ Proper a) → parse s = .error (.badDescriptor s)
  unambiguous : ∀ a b, Proper a → Proper b → text a = text b → a = b
  byOffsets : ∀ s : String, parseAt s.toList = (parse s).mapError OffsetFault.format
  cutsBetween : ∀ (s : String) (offset : Nat), parseAt s.toList ≠ .error (.badCut offset)

/-- It is enough that a reader inverts the writing of proper values, accepts no other text, and has
one way to refuse. -/
theorem ReadsExactly.of_inverse {α : Type} {parse : String → Except FormatError α}
    {parseAt : List Char → OffsetReading α} {text : α → String} {Proper : α → Prop}
    (text_of_parse : ∀ {s a}, parse s = .ok a → s = text a ∧ Proper a)
    (parse_text : ∀ {a}, Proper a → parse (text a) = .ok a)
    (refusal : ∀ {s e}, parse s = .error e → e = .badDescriptor s)
    (byOffsets : ∀ s : String, parseAt s.toList = (parse s).mapError OffsetFault.format) :
    ReadsExactly parse parseAt text Proper where
  accepts s a := ⟨text_of_parse, fun ⟨written, proper⟩ => written ▸ parse_text proper⟩
  refuses s none := by
    rcases read : parse s with e | a
    · rw [refusal read]
    · exact absurd ⟨a, text_of_parse read⟩ none
  unambiguous a b properA properB same := by
    have read := parse_text properA
    rw [same, parse_text properB] at read
    exact (Except.ok.inj read).symm
  byOffsets := byOffsets
  cutsBetween s offset cut := by
    rw [byOffsets] at cut
    rcases read : parse s with e | a <;> rw [read] at cut <;> cases cut

theorem FieldType.refusal_of_parse {s : String} {e : FormatError}
    (refused : FieldType.parse s = .error e) : e = .badDescriptor s := by
  unfold FieldType.parse at refused
  split at refused
  · cases refused
  · exact (Except.error.inj refused).symm

theorem MethodDescriptor.refusal_of_parse {s : String} {e : FormatError}
    (refused : MethodDescriptor.parse s = .error e) : e = .badDescriptor s := by
  unfold MethodDescriptor.parse at refused
  split at refused
  · cases refused
  · exact (Except.error.inj refused).symm

/-- Both readers accept the texts of their grammar and nothing else. -/
theorem descriptors_readExactly :
    ReadsExactly FieldType.parse FieldType.parseAt FieldType.text FieldType.Named ∧
    ReadsExactly MethodDescriptor.parse MethodDescriptor.parseAt MethodDescriptor.text
      MethodDescriptor.Named := by
  constructor
  · exact .of_inverse
      (fun read => ⟨FieldType.eq_text_of_parse read, (FieldType.eq_chars_of_parse read).2⟩)
      FieldType.parse_text FieldType.refusal_of_parse FieldType.parseAt_eq
  · exact .of_inverse (fun read =>
        ⟨MethodDescriptor.eq_text_of_parse read, (MethodDescriptor.eq_chars_of_parse read).2⟩)
      MethodDescriptor.parse_text MethodDescriptor.refusal_of_parse MethodDescriptor.parseAt_eq

example : FieldType.parse "[Lä;" = .ok (.array (.object "ä")) ∧
    FieldType.parse "[L;" = .error (.badDescriptor "[L;") := by decide

end ClassWeave
