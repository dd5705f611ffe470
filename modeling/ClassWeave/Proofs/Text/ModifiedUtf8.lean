import Mathlib.Tactic.Common
import ClassWeave.Text.ModifiedUtf8

/-!
# Modified UTF-8 loses nothing

Every unit is read back from the bytes it was written as, and every character from its units, so
what is read from the written form of a text is the text.
-/

set_option autoImplicit false

namespace ClassWeave

namespace Utf16

theorem toNat_valid (c : Char) :
    c.toNat < 0xD800 ∨ 0xDFFF < c.toNat ∧ c.toNat < 0x110000 := by
  have h := c.valid
  simp only [UInt32.isValidChar, Nat.isValidChar] at h
  exact h

theorem ofChar_lt (c : Char) : ∀ u ∈ ofChar c, u < 65536 := by
  have hc := toNat_valid c
  intro u hu
  unfold ofChar at hu
  split at hu
  · simp only [List.mem_singleton] at hu
    omega
  · simp only [List.mem_cons, List.not_mem_nil, or_false] at hu
    omega

theorem encode_lt (cs : List Char) : ∀ u ∈ encode cs, u < 65536 := by
  intro u hu
  obtain ⟨c, _, hc⟩ := List.mem_flatMap.1 hu
  exact ofChar_lt c u hc

theorem decodeAfter_ofChar (c : Char) (us : List Nat) (read : List Char) :
    decodeAfter (ofChar c ++ us) read = decodeAfter us (c :: read) := by
  have valid := toNat_valid c
  unfold ofChar
  split
  · rw [List.singleton_append, decodeAfter.eq_def]
    dsimp only
    rw [if_pos (by omega), Char.ofNat_toNat]
  · have value : 0x10000 + (0xD800 + (c.toNat - 0x10000) / 0x400 - 0xD800) * 0x400 +
        (0xDC00 + (c.toNat - 0x10000) % 0x400 - 0xDC00) = c.toNat := by omega
    rw [List.cons_append, List.singleton_append, decodeAfter.eq_def]
    dsimp only
    rw [if_neg (by omega), if_neg (by omega), if_pos (by omega), value, Char.ofNat_toNat]

theorem decodeAfter_encode (cs : List Char) (read : List Char) :
    decodeAfter (encode cs) read = some (read.reverse ++ cs) := by
  induction cs generalizing read with
  | nil => simp [encode, decodeAfter]
  | cons c cs ih =>
    rw [encode, List.flatMap_cons, decodeAfter_ofChar]
    show decodeAfter (encode cs) (c :: read) = _
    rw [ih, List.reverse_cons, List.append_assoc, List.singleton_append]

theorem decode?_encode (cs : List Char) : decode? (encode cs) = some cs :=
  decodeAfter_encode cs []

end Utf16

namespace ModifiedUtf8

theorem isContinuation_of_toNat {b : UInt8} {n : Nat} (hb : b.toNat = 0x80 + n) (hn : n < 64) :
    isContinuation b = true := by
  have low : (0x80 : UInt8) ≤ b := UInt8.le_iff_toNat_le.2 (by rw [hb]; show 128 ≤ _; omega)
  have high : b < (0xC0 : UInt8) := UInt8.lt_iff_toNat_lt.2 (by rw [hb]; show _ < 192; omega)
  simp [isContinuation, low, high]

theorem unitsAfter_one {b : UInt8} (hb : b.toNat < 0x80) (rest : Bytes) (read : List Nat) :
    unitsAfter (b :: rest) read = unitsAfter rest (b.toNat :: read) := by
  have low : b < (0x80 : UInt8) := UInt8.lt_iff_toNat_lt.2 hb
  rw [unitsAfter.eq_def]
  dsimp only
  rw [if_pos low]

theorem unitsAfter_two {b c : UInt8} {x y : Nat} (hb : b.toNat = 0xC0 + x)
    (hc : c.toNat = 0x80 + y) (hx : x < 32) (hy : y < 64) (rest : Bytes) (read : List Nat) :
    unitsAfter (b :: c :: rest) read = unitsAfter rest ((x * 64 + y) :: read) := by
  have notOne : ¬ b < (0x80 : UInt8) := fun h => by
    have : b.toNat < 128 := UInt8.lt_iff_toNat_lt.1 h
    omega
  have two : (0xC0 : UInt8) ≤ b ∧ b < (0xE0 : UInt8) :=
    ⟨UInt8.le_iff_toNat_le.2 (by rw [hb]; show 192 ≤ _; omega),
      UInt8.lt_iff_toNat_lt.2 (by rw [hb]; show _ < 224; omega)⟩
  have value : b.toNat % 32 * 64 + c.toNat % 64 = x * 64 + y := by omega
  rw [unitsAfter.eq_def]
  dsimp only
  rw [if_neg notOne, if_pos two, if_pos (isContinuation_of_toNat hc hy), value]

theorem unitsAfter_three {b c d : UInt8} {x y z : Nat} (hb : b.toNat = 0xE0 + x)
    (hc : c.toNat = 0x80 + y) (hd : d.toNat = 0x80 + z) (hx : x < 16) (hy : y < 64) (hz : z < 64)
    (rest : Bytes) (read : List Nat) :
    unitsAfter (b :: c :: d :: rest) read =
      unitsAfter rest ((x * 4096 + y * 64 + z) :: read) := by
  have notOne : ¬ b < (0x80 : UInt8) := fun h => by
    have : b.toNat < 128 := UInt8.lt_iff_toNat_lt.1 h
    omega
  have notTwo : ¬ ((0xC0 : UInt8) ≤ b ∧ b < (0xE0 : UInt8)) := fun h => by
    have : b.toNat < 224 := UInt8.lt_iff_toNat_lt.1 h.2
    omega
  have three : (0xE0 : UInt8) ≤ b ∧ b < (0xF0 : UInt8) :=
    ⟨UInt8.le_iff_toNat_le.2 (by rw [hb]; show 224 ≤ _; omega),
      UInt8.lt_iff_toNat_lt.2 (by rw [hb]; show _ < 240; omega)⟩
  have value : b.toNat % 16 * 4096 + c.toNat % 64 * 64 + d.toNat % 64 =
      x * 4096 + y * 64 + z := by omega
  have both : (isContinuation c && isContinuation d) = true := by
    rw [isContinuation_of_toNat hc hy, isContinuation_of_toNat hd hz]
    rfl
  rw [unitsAfter.eq_def]
  dsimp only
  rw [if_neg notOne, if_neg notTwo, if_pos three, if_pos both, value]

theorem toNat_ofNat_lt {n : Nat} (h : n < 256) : (UInt8.ofNat n).toNat = n :=
  UInt8.toNat_ofNat_of_lt' h

theorem unitsAfter_encodeUnit (u : Nat) (hu : u < 65536) (rest : Bytes) (read : List Nat) :
    unitsAfter (encodeUnit u ++ rest) read = unitsAfter rest (u :: read) := by
  unfold encodeUnit
  split
  · have hb := toNat_ofNat_lt (n := u) (by omega)
    rw [List.singleton_append, unitsAfter_one (by omega), hb]
  · split
    · have value : u / 64 * 64 + u % 64 = u := by omega
      rw [List.cons_append, List.singleton_append,
        unitsAfter_two (toNat_ofNat_lt (n := 0xC0 + u / 64) (by omega))
          (toNat_ofNat_lt (n := 0x80 + u % 64) (by omega)) (by omega) (by omega), value]
    · have value : u / 4096 * 4096 + u / 64 % 64 * 64 + u % 64 = u := by omega
      rw [List.cons_append, List.cons_append, List.singleton_append,
        unitsAfter_three (toNat_ofNat_lt (n := 0xE0 + u / 4096) (by omega))
          (toNat_ofNat_lt (n := 0x80 + u / 64 % 64) (by omega))
          (toNat_ofNat_lt (n := 0x80 + u % 64) (by omega)) (by omega) (by omega) (by omega), value]

theorem unitsAfter_encode (us : List Nat) (hu : ∀ u ∈ us, u < 65536) (read : List Nat) :
    unitsAfter (us.flatMap encodeUnit) read = some (read.reverse ++ us) := by
  induction us generalizing read with
  | nil => simp [unitsAfter]
  | cons u us ih =>
    rw [List.flatMap_cons, unitsAfter_encodeUnit u (hu u (by simp)),
      ih (fun v hv => hu v (by simp [hv])), List.reverse_cons, List.append_assoc,
      List.singleton_append]

theorem decode?_encode (text : String) : decode? (encode text) = some text := by
  unfold decode? encode
  rw [unitsAfter_encode _ (Utf16.encode_lt text.toList)]
  show (Utf16.decode? (Utf16.encode text.toList) >>= fun cs => some (String.ofList cs)) = _
  rw [Utf16.decode?_encode]
  show some (String.ofList text.toList) = _
  rw [String.ofList_toList]

end ModifiedUtf8

end ClassWeave
