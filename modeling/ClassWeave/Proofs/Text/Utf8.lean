import Mathlib.Tactic.Common
import ClassWeave.Bytes

/-!
# Cutting text by byte offsets

A text is cut at a byte offset in front of one of its characters or at its end, and nowhere else.
A character below 128 is one byte, which no other character starts with.
-/

set_option autoImplicit false

namespace ClassWeave.Utf8

def encode (cs : List Char) : Bytes := cs.flatMap String.utf8EncodeChar

/-- The text in front of a byte offset and the text behind it, unless the offset is inside a
character or behind the end. -/
def cutAt? : Nat → List Char → Option (List Char × List Char)
  | 0, cs => some ([], cs)
  | _ + 1, [] => none
  | n + 1, c :: cs =>
    if n + 1 < c.utf8Size then none
    else (cutAt? (n + 1 - c.utf8Size) cs).map fun (before, behind) => (c :: before, behind)

def offsetOf? (c : Char) (cs : List Char) : Option Nat :=
  if c ∈ cs then some (encode (cs.takeWhile (· ≠ c))).length else none

theorem encode_append (cs ds : List Char) : encode (cs ++ ds) = encode cs ++ encode ds :=
  List.flatMap_append

theorem length_encode_cons (c : Char) (cs : List Char) :
    (encode (c :: cs)).length = c.utf8Size + (encode cs).length := by
  rw [encode, List.flatMap_cons, List.length_append, String.length_utf8EncodeChar]
  rfl

theorem length_encode_eq_zero {cs : List Char} : (encode cs).length = 0 ↔ cs = [] := by
  cases cs with
  | nil => simp [encode]
  | cons c cs =>
    have size := c.utf8Size_pos
    rw [length_encode_cons]
    simp only [reduceCtorEq, iff_false]
    omega

theorem length_encode_append (cs ds : List Char) :
    (encode (cs ++ ds)).length = (encode cs).length + (encode ds).length := by
  rw [encode_append, List.length_append]

theorem cutAt?_cons (n : Nat) (c : Char) (cs : List Char) :
    cutAt? (c.utf8Size + n) (c :: cs) =
      (cutAt? n cs).map fun (before, behind) => (c :: before, behind) := by
  have size := c.utf8Size_pos
  obtain ⟨m, succ⟩ : ∃ m, c.utf8Size + n = m + 1 := ⟨c.utf8Size + n - 1, by omega⟩
  rw [succ, cutAt?, ← succ, if_neg (by omega), Nat.add_sub_cancel_left]

theorem cutAt?_eq_some_iff {n : Nat} {cs before behind : List Char} :
    cutAt? n cs = some (before, behind) ↔ cs = before ++ behind ∧ n = (encode before).length := by
  constructor
  · intro found
    induction cs generalizing n before with
    | nil =>
      cases n with
      | zero => cases found; exact ⟨rfl, rfl⟩
      | succ n => cases found
    | cons c cs ih =>
      cases n with
      | zero => cases found; exact ⟨rfl, rfl⟩
      | succ n =>
        rw [cutAt?] at found
        split at found
        · cases found
        · rename_i inside
          obtain ⟨⟨before', behind'⟩, found, same⟩ := Option.map_eq_some_iff.1 found
          cases same
          obtain ⟨rfl, length⟩ := ih found
          refine ⟨rfl, ?_⟩
          rw [length_encode_cons, ← length]
          omega
  · rintro ⟨rfl, rfl⟩
    induction before with
    | nil => cases behind <;> rfl
    | cons c before ih =>
      rw [length_encode_cons, List.cons_append, cutAt?_cons, ih]
      rfl

theorem offsetOf?_append {c : Char} {before : List Char} (absent : c ∉ before)
    (behind : List Char) :
    offsetOf? c (before ++ c :: behind) = some (encode before).length := by
  have present : c ∈ before ++ c :: behind := List.mem_append_right _ List.mem_cons_self
  have first : (before ++ c :: behind).takeWhile (· ≠ c) = before := by
    rw [List.takeWhile_append_of_pos]
    · simp
    · intro d mem
      rw [decide_eq_true_iff]
      rintro rfl
      exact absent mem
  rw [offsetOf?, if_pos present, first]

theorem utf8EncodeChar_ascii {c : Char} (ascii : c.toNat < 128) :
    String.utf8EncodeChar c = [c.toUInt8] := by
  have size : c.utf8Size = 1 := by
    rw [Char.utf8Size_eq_one_iff, UInt32.le_iff_toNat_le]
    exact Nat.le_of_lt_succ ascii
  exact String.utf8EncodeChar_eq_singleton size

theorem length_encode_concat {c : Char} (ascii : c.toNat < 128) (cs : List Char) :
    (encode (cs ++ [c])).length = (encode cs).length + 1 := by
  show _ = _ + [c.toUInt8].length
  rw [← utf8EncodeChar_ascii ascii, length_encode_append, String.length_utf8EncodeChar,
    length_encode_cons]
  rfl

theorem utf8EncodeChar_wide {c : Char} (wide : 128 ≤ c.toNat) :
    ∃ b tail, String.utf8EncodeChar c = b :: tail ∧ 192 ≤ b.toNat := by
  have first : ¬ c.val.toNat ≤ 127 := Nat.not_le_of_lt wide
  rw [String.utf8EncodeChar.eq_1, if_neg first]
  split
  · refine ⟨_, _, rfl, ?_⟩
    rw [UInt8.toNat_ofNat']
    omega
  · split
    · refine ⟨_, _, rfl, ?_⟩
      rw [UInt8.toNat_ofNat']
      omega
    · refine ⟨_, _, rfl, ?_⟩
      rw [UInt8.toNat_ofNat']
      omega

theorem exists_encode_cons {a : Char} (ascii : a.toNat < 128) (c : Char) (cs : List Char) :
    ∃ b tail, encode (c :: cs) = b :: tail ∧ (b = a.toUInt8 ↔ c = a) := by
  have own : a.toUInt8.toNat = a.toNat := by
    show a.val.toNat % 256 = a.val.toNat
    have : a.val.toNat < 128 := ascii
    omega
  by_cases single : c.toNat < 128
  · refine ⟨c.toUInt8, encode cs, ?_, ?_, fun same => same ▸ rfl⟩
    · rw [encode, List.flatMap_cons, utf8EncodeChar_ascii single]
      rfl
    · intro same
      have other : c.toUInt8.toNat = c.toNat := by
        show c.val.toNat % 256 = c.val.toNat
        have : c.val.toNat < 128 := single
        omega
      apply Char.toNat_inj.1
      rw [← own, ← other, same]
  · obtain ⟨b, tail, shape, high⟩ := utf8EncodeChar_wide (Nat.le_of_not_lt single)
    refine ⟨b, tail ++ encode cs, ?_, ?_, ?_⟩
    · rw [encode, List.flatMap_cons, shape]
      rfl
    · intro same
      rw [same, own] at high
      omega
    · intro same
      rw [same] at single
      exact absurd ascii single

end ClassWeave.Utf8
