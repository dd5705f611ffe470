import Mathlib.Data.List.Chain
import Mathlib.Data.List.Forall2
import Mathlib.Tactic.Common
import ClassWeave.Proofs.Sequences
import ClassWeave.Proofs.Text.ModifiedUtf8

/-!
# Canonical modified UTF-8

Every text comes back from the bytes it is written in, none of which is zero or above 0xEF. The
reader goes by the leading bits of a byte alone, and so it also takes a unit in more bytes than it
is written in, and zero in a byte of its own. The bytes that it reads a text from are the ones the
text is written in exactly when they are canonical, which two neighbours at a time show.
-/

set_option autoImplicit false

namespace ClassWeave

namespace Utf16

theorem toNat_ofNat {n : Nat} (valid : n < 0xD800 ∨ 0xDFFF < n ∧ n < 0x110000) :
    (Char.ofNat n).toNat = n := by
  rw [Char.ofNat, dif_pos valid]
  rfl

theorem ofChar_ofNat_single {u : Nat} (plain : u < 0xD800 ∨ 0xDFFF < u) (small : u < 65536) :
    ofChar (Char.ofNat u) = [u] := by
  rw [ofChar, toNat_ofNat (by omega), if_pos small]

theorem ofChar_ofNat_pair {u v : Nat} (high : ¬ (u < 0xD800 ∨ 0xDFFF < u)) (first : ¬ 0xDBFF < u)
    (low : 0xDC00 ≤ v ∧ v ≤ 0xDFFF) :
    ofChar (Char.ofNat (0x10000 + (u - 0xD800) * 0x400 + (v - 0xDC00))) = [u, v] := by
  rw [ofChar, toNat_ofNat (by omega), if_neg (by omega)]
  simp only [List.cons.injEq, and_true]
  omega

theorem encode_of_decodeAfter {us : List Nat} {read cs : List Char} (small : ∀ u ∈ us, u < 65536)
    (decoded : decodeAfter us read = some cs) : encode cs = encode read.reverse ++ us := by
  fun_induction decodeAfter us read with
  | case1 read =>
    obtain rfl := Option.some.inj decoded
    rw [List.append_nil]
  | case2 u us read plain ih =>
    obtain ⟨here, later⟩ := List.forall_mem_cons.1 small
    rw [ih later decoded, List.reverse_cons, encode, List.flatMap_append, List.flatMap_singleton,
      ofChar_ofNat_single plain here, List.append_assoc, List.singleton_append]
    rfl
  | case5 u read high first v vs low ih =>
    obtain ⟨_, _, later⟩ := by simpa only [List.forall_mem_cons] using small
    rw [ih later decoded, List.reverse_cons, encode, List.flatMap_append, List.flatMap_singleton,
      ofChar_ofNat_pair high first low, List.append_assoc]
    rfl
  | case3 | case4 | case6 => cases decoded

theorem encode_of_decode? {us : List Nat} {cs : List Char} (small : ∀ u ∈ us, u < 65536)
    (decoded : decode? us = some cs) : encode cs = us :=
  encode_of_decodeAfter small decoded

end Utf16

namespace ModifiedUtf8

inductive Spells : Bytes → Nat → Prop where
  | one {b : UInt8} (hb : b.toNat < 0x80) : Spells [b] b.toNat
  | two {b c : UInt8} {x y : Nat} (hb : b.toNat = 0xC0 + x) (hc : c.toNat = 0x80 + y)
      (hx : x < 32) (hy : y < 64) : Spells [b, c] (x * 64 + y)
  | three {b c d : UInt8} {x y z : Nat} (hb : b.toNat = 0xE0 + x) (hc : c.toNat = 0x80 + y)
      (hd : d.toNat = 0x80 + z) (hx : x < 16) (hy : y < 64) (hz : z < 64) :
      Spells [b, c, d] (x * 4096 + y * 64 + z)

def Spelled (bytes : Bytes) (text : String) : Prop :=
  ∃ chunks, bytes = chunks.flatten ∧ List.Forall₂ Spells chunks (Utf16.encode text.toList)

namespace Spells

variable {chunk : Bytes} {u : Nat}

theorem lt (h : Spells chunk u) : u < 65536 := by
  cases h with
  | one hb => omega
  | two hb hc hx hy => omega
  | three hb hc hd hx hy hz => omega

theorem byte_lt (h : Spells chunk u) : ∀ b ∈ chunk, b.toNat < 0xF0 := by
  cases h with
  | one hb =>
    rw [List.forall_mem_singleton]
    omega
  | two hb hc hx hy =>
    rw [List.forall_mem_cons, List.forall_mem_singleton]
    omega
  | three hb hc hd hx hy hz =>
    rw [List.forall_mem_cons, List.forall_mem_cons, List.forall_mem_singleton]
    omega

theorem unitsAfter_append (h : Spells chunk u) (rest : Bytes) (read : List Nat) :
    unitsAfter (chunk ++ rest) read = unitsAfter rest (u :: read) := by
  cases h with
  | one hb => exact unitsAfter_one hb rest read
  | two hb hc hx hy => exact unitsAfter_two hb hc hx hy rest read
  | three hb hc hd hx hy hz => exact unitsAfter_three hb hc hd hx hy hz rest read

end Spells

theorem spells_encodeUnit {u : Nat} (hu : u < 65536) : Spells (encodeUnit u) u := by
  unfold encodeUnit
  split
  · have byte : (UInt8.ofNat u).toNat = u := toNat_ofNat_lt (by omega)
    have spelled : Spells [UInt8.ofNat u] (UInt8.ofNat u).toNat := .one (by omega)
    rwa [byte] at spelled
  · split
    · have spelled : Spells [UInt8.ofNat (0xC0 + u / 64), UInt8.ofNat (0x80 + u % 64)] _ :=
        .two (toNat_ofNat_lt (by omega)) (toNat_ofNat_lt (by omega)) (by omega) (by omega)
      rwa [show u / 64 * 64 + u % 64 = u by omega] at spelled
    · have spelled : Spells [UInt8.ofNat (0xE0 + u / 4096), UInt8.ofNat (0x80 + u / 64 % 64),
          UInt8.ofNat (0x80 + u % 64)] _ :=
        .three (toNat_ofNat_lt (by omega)) (toNat_ofNat_lt (by omega)) (toNat_ofNat_lt (by omega))
          (by omega) (by omega) (by omega)
      rwa [show u / 4096 * 4096 + u / 64 % 64 * 64 + u % 64 = u by omega] at spelled

theorem toNat_of_isContinuation {c : UInt8} (h : isContinuation c = true) :
    c.toNat = 0x80 + c.toNat % 64 := by
  obtain ⟨low, high⟩ : 0x80 ≤ c ∧ c < 0xC0 := by simpa [isContinuation] using h
  have low : 128 ≤ c.toNat := UInt8.le_iff_toNat_le.1 low
  have high : c.toNat < 192 := UInt8.lt_iff_toNat_lt.1 high
  omega

theorem exists_chunks {bytes : Bytes} {read us : List Nat}
    (taken : unitsAfter bytes read = some us) : ∃ chunks units, bytes = chunks.flatten ∧
      us = read.reverse ++ units ∧ List.Forall₂ Spells chunks units := by
  -- A chunk in front of chunks, with its unit in front of theirs.
  have more {chunk rest : Bytes} {u : Nat} {read : List Nat} (h : Spells chunk u) :
      (∃ chunks units, rest = chunks.flatten ∧ us = (u :: read).reverse ++ units ∧
        List.Forall₂ Spells chunks units) →
      ∃ chunks units, chunk ++ rest = chunks.flatten ∧ us = read.reverse ++ units ∧
        List.Forall₂ Spells chunks units := by
    rintro ⟨chunks, units, rfl, rfl, spelled⟩
    exact ⟨chunk :: chunks, u :: units, rfl, by simp, .cons h spelled⟩
  fun_induction unitsAfter bytes read with
  | case1 read =>
    obtain rfl := Option.some.inj taken
    exact ⟨[], [], rfl, (List.append_nil _).symm, .nil⟩
  | case2 b rest read low ih => exact more (.one (UInt8.lt_iff_toNat_lt.1 low)) (ih taken)
  | case3 b read _ range c rest continues ih =>
    have low : 192 ≤ b.toNat := UInt8.le_iff_toNat_le.1 range.1
    have high : b.toNat < 224 := UInt8.lt_iff_toNat_lt.1 range.2
    exact more (.two (by omega) (toNat_of_isContinuation continues) (by omega) (by omega))
      (ih taken)
  | case6 b read _ _ range c d rest continues ih =>
    have low : 224 ≤ b.toNat := UInt8.le_iff_toNat_le.1 range.1
    have high : b.toNat < 240 := UInt8.lt_iff_toNat_lt.1 range.2
    obtain ⟨hc, hd⟩ := Bool.and_eq_true_iff.1 continues
    exact more (.three (by omega) (toNat_of_isContinuation hc) (toNat_of_isContinuation hd)
      (by omega) (by omega) (by omega)) (ih taken)
  | case4 | case5 | case7 | case8 | case9 => cases taken

theorem unitsAfter_flatten {chunks : List Bytes} {units : List Nat}
    (h : List.Forall₂ Spells chunks units) (read : List Nat) :
    unitsAfter chunks.flatten read = some (read.reverse ++ units) := by
  induction h generalizing read with
  | nil => simp [unitsAfter]
  | cons first _ ih =>
    rw [List.flatten_cons, first.unitsAfter_append, ih, List.reverse_cons, List.append_assoc,
      List.singleton_append]

theorem decode?_eq_some_iff {bytes : Bytes} {text : String} :
    decode? bytes = some text ↔ Spelled bytes text := by
  unfold decode?
  constructor
  · intro accepted
    obtain ⟨us, taken, accepted⟩ := Option.bind_eq_some_iff.1 accepted
    obtain ⟨cs, decoded, rest⟩ := Option.bind_eq_some_iff.1 accepted
    obtain rfl := Option.some.inj rest
    obtain ⟨chunks, units, rfl, rfl, spelled⟩ := exists_chunks taken
    have small : ∀ u ∈ us, u < 65536 := by
      intro u hu
      obtain ⟨chunk, _, h⟩ := exists_left_of_forall₂ spelled hu
      exact h.lt
    refine ⟨chunks, rfl, ?_⟩
    rw [String.toList_ofList, Utf16.encode_of_decode? small decoded]
    exact spelled
  · rintro ⟨chunks, rfl, spelled⟩
    refine Option.bind_eq_some_iff.2 ⟨_, unitsAfter_flatten spelled [], ?_⟩
    refine Option.bind_eq_some_iff.2 ⟨_, Utf16.decode?_encode text.toList, ?_⟩
    show some (String.ofList text.toList) = _
    rw [String.ofList_toList]

/-- What may stand side by side: 0xC0 starts the two bytes of zero only, 0xC1 nothing, and 0xE0 no
unit that fits in two bytes. -/
def Adjacent (b c : UInt8) : Prop := (b = 0xC0 → c = 0x80) ∧ b ≠ 0xC1 ∧ (b = 0xE0 → 0xA0 ≤ c)

instance (b c : UInt8) : Decidable (Adjacent b c) :=
  inferInstanceAs (Decidable (_ ∧ _ ∧ _))

/-- No zero stands for itself, and no unit is longer than it has to be. -/
def Canonical (bytes : Bytes) : Prop := 0 ∉ bytes ∧ bytes.IsChain Adjacent

instance (bytes : Bytes) : Decidable (Canonical bytes) := inferInstanceAs (Decidable (_ ∧ _))

theorem adjacent_iff {b c : UInt8} : Adjacent b c ↔
    (b.toNat = 0xC0 → c.toNat = 0x80) ∧ b.toNat ≠ 0xC1 ∧ (b.toNat = 0xE0 → 0xA0 ≤ c.toNat) := by
  unfold Adjacent
  rw [ne_eq, ← UInt8.toNat_inj, ← UInt8.toNat_inj, ← UInt8.toNat_inj, ← UInt8.toNat_inj,
    UInt8.le_iff_toNat_le]
  rfl

theorem adjacent_of_lt {b : UInt8} (low : b.toNat < 0xC0) (c : UInt8) : Adjacent b c := by
  rw [adjacent_iff]
  omega

theorem Spells.isChain_append {chunk : Bytes} {u : Nat} (h : Spells chunk u) (rest : Bytes) :
    (chunk ++ rest).IsChain Adjacent ↔ chunk.IsChain Adjacent ∧ rest.IsChain Adjacent := by
  have last : ∃ before b, chunk = before ++ [b] ∧ b.toNat < 0xC0 := by
    cases h with
    | @one b hb => exact ⟨[], b, rfl, by omega⟩
    | @two b c _ _ _ hc _ hy => exact ⟨[b], c, rfl, by omega⟩
    | @three b c d _ _ _ _ _ hd _ _ hz => exact ⟨[b, c], d, rfl, by omega⟩
  obtain ⟨before, b, rfl, low⟩ := last
  have beside : ∀ b' ∈ (before ++ [b]).getLast?, ∀ c ∈ rest.head?, Adjacent b' c := by
    intro b' hb' c _
    rw [List.getLast?_concat] at hb'
    cases hb'
    exact adjacent_of_lt low c
  rw [List.isChain_append, and_iff_left beside]

theorem canonical_flatten {chunks : List Bytes} {units : List Nat}
    (h : List.Forall₂ Spells chunks units) :
    Canonical chunks.flatten ↔ ∀ chunk ∈ chunks, Canonical chunk := by
  induction h with
  | nil => simp [Canonical]
  | cons first _ ih =>
    rw [List.flatten_cons, List.forall_mem_cons, ← ih]
    unfold Canonical
    rw [first.isChain_append, List.mem_append, not_or]
    tauto

theorem ofNat_of_toNat {b : UInt8} {n : Nat} (h : b.toNat = n) : UInt8.ofNat n = b := by
  rw [← h, UInt8.ofNat_toNat]

theorem zero_ne_of_toNat {b : UInt8} {n : Nat} (h : b.toNat = n) (positive : 0 < n) : 0 ≠ b := by
  rintro rfl
  exact absurd h (Nat.ne_of_lt positive)

theorem Spells.canonical_iff {chunk : Bytes} {u : Nat} (h : Spells chunk u) :
    Canonical chunk ↔ encodeUnit u = chunk := by
  cases h with
  | @one b hb =>
    by_cases zero : b = 0
    · subst zero
      decide
    · have written : encodeUnit b.toNat = [b] := by
        have other : b.toNat ≠ 0 := fun same => zero (UInt8.toNat_inj.1 same)
        rw [encodeUnit, if_pos ⟨other, hb⟩, UInt8.ofNat_toNat]
      simp [Canonical, written, Ne.symm zero]
  | @two b c x y hb hc hx hy =>
    have short : Canonical [b, c] ↔ (x = 0 → y = 0) ∧ x ≠ 1 := by
      have first := zero_ne_of_toNat hb (by omega)
      have second := zero_ne_of_toNat hc (by omega)
      simp only [Canonical, List.isChain_pair, List.mem_cons, List.not_mem_nil, first, second,
        or_self, not_false_eq_true, true_and, adjacent_iff]
      omega
    rw [short, encodeUnit]
    split
    · exact iff_of_false (by omega) (by simp)
    · rw [if_pos (by omega), ofNat_of_toNat (b := b) (by omega),
        ofNat_of_toNat (b := c) (by omega)]
      exact iff_of_true (by omega) rfl
  | @three b c d x y z hb hc hd hx hy hz =>
    have short : Canonical [b, c, d] ↔ (x = 0 → 32 ≤ y) := by
      have first := zero_ne_of_toNat hb (by omega)
      have second := zero_ne_of_toNat hc (by omega)
      have third := zero_ne_of_toNat hd (by omega)
      simp only [Canonical, List.isChain_cons_cons, List.isChain_singleton, List.mem_cons,
        List.not_mem_nil, first, second, third, or_self, not_false_eq_true, true_and, and_true,
        adjacent_iff]
      omega
    rw [short, encodeUnit]
    split
    · exact iff_of_false (by omega) (by simp)
    · split
      · exact iff_of_false (by omega) (by simp)
      · rw [ofNat_of_toNat (b := b) (by omega), ofNat_of_toNat (b := c) (by omega),
          ofNat_of_toNat (b := d) (by omega)]
        exact iff_of_true (by omega) rfl

theorem forall₂_encodeUnit {us : List Nat} (small : ∀ u ∈ us, u < 65536) :
    List.Forall₂ Spells (us.map encodeUnit) us :=
  List.forall₂_map_left_iff.2 (List.forall₂_same.2 fun u hu => spells_encodeUnit (small u hu))

theorem canonical_flatten_iff {chunks : List Bytes} {units : List Nat}
    (h : List.Forall₂ Spells chunks units) :
    Canonical chunks.flatten ↔ units.map encodeUnit = chunks := by
  rw [canonical_flatten h]
  induction h with
  | nil => simp
  | cons first _ ih =>
    rw [List.forall_mem_cons, List.map_cons, List.cons.injEq, first.canonical_iff, ih]

theorem canonical_encode (text : String) : Canonical (encode text) := by
  have spelled := forall₂_encodeUnit (Utf16.encode_lt text.toList)
  rw [encode, List.flatMap_def]
  exact (canonical_flatten_iff spelled).2 rfl

theorem encode_eq_iff {bytes : Bytes} {text : String} (accepted : decode? bytes = some text) :
    encode text = bytes ↔ Canonical bytes := by
  constructor
  · rintro rfl
    exact canonical_encode text
  · obtain ⟨chunks, rfl, spelled⟩ := decode?_eq_some_iff.1 accepted
    intro canonical
    rw [encode, List.flatMap_def, (canonical_flatten_iff spelled).1 canonical]

theorem canonical_injective {bytes other : Bytes} {text : String} (here : decode? bytes = some text)
    (there : decode? other = some text) (canonical : Canonical bytes)
    (canonical' : Canonical other) : bytes = other :=
  ((encode_eq_iff here).2 canonical).symm.trans ((encode_eq_iff there).2 canonical')

theorem Spells.length_encodeUnit_le {chunk : Bytes} {u : Nat} (h : Spells chunk u) :
    (encodeUnit u).length ≤ 2 * chunk.length := by
  have short : u < 0x800 → (encodeUnit u).length ≤ 2 := by
    intro small
    rw [encodeUnit, if_pos small]
    split <;> simp
  have long : (encodeUnit u).length ≤ 3 := by
    unfold encodeUnit
    split
    · simp
    · split <;> simp
  cases h with
  | one hb => exact short (by omega)
  | two => exact Nat.le_trans long (Nat.le_succ 3)
  | three => exact Nat.le_trans long (Nat.le_add_left 3 3)

theorem length_encode_le {bytes : Bytes} {text : String} (accepted : decode? bytes = some text) :
    (encode text).length ≤ 2 * bytes.length := by
  obtain ⟨chunks, rfl, spelled⟩ := decode?_eq_some_iff.1 accepted
  clear accepted
  rw [encode]
  generalize Utf16.encode text.toList = units at spelled ⊢
  induction spelled with
  | nil => exact Nat.le_refl 0
  | cons first _ ih =>
    have here := first.length_encodeUnit_le
    rw [List.flatMap_cons, List.flatten_cons, List.length_append, List.length_append]
    omega

/-- Every text is read back from its written form, in which no byte is zero or above 0xEF. -/
theorem lossless_encode (text : String) :
    decode? (encode text) = some text ∧ ∀ b ∈ encode text, b ≠ 0 ∧ b < 0xF0 := by
  refine ⟨decode?_encode text, fun b hb => ⟨?_, ?_⟩⟩
  · rintro rfl
    exact (canonical_encode text).1 hb
  · obtain ⟨u, hu, hb⟩ := List.mem_flatMap.1 hb
    have spelled := spells_encodeUnit (Utf16.encode_lt _ u hu)
    exact UInt8.lt_iff_toNat_lt.2 (spelled.byte_lt b hb)

example : encode "a\x00😀" = [0x61, 0xC0, 0x80, 0xED, 0xA0, 0xBD, 0xED, 0xB8, 0x80] := by
  decide +kernel

end ModifiedUtf8

end ClassWeave
