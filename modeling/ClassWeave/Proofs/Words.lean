import Mathlib.Tactic.Common
import ClassWeave.Layout.Emit
import ClassWeave.Proofs.Reading

/-!
# Words of different widths

A signed operand is stored in as few bytes as hold it and is read back with its sign, and a branch
offset within the range of its field reads back as the distance it was made from.
-/

set_option autoImplicit false

namespace ClassWeave

theorem Bytes.be_mod (width n : Nat) :
    Bytes.be width (n % Nat.pow 256 width) = Bytes.be width n := by
  induction width generalizing n with
  | zero => rfl
  | succ width ih =>
    have last : UInt8.ofNat (n % Nat.pow 256 (width + 1)) = UInt8.ofNat n := by
      rw [← UInt8.toNat_inj]
      show n % (Nat.pow 256 width * 256) % 256 = n % 256
      exact Nat.mod_mod_of_dvd n ⟨_, Nat.mul_comm ..⟩
    have front : n % Nat.pow 256 (width + 1) / 256 = n / 256 % Nat.pow 256 width := by
      show n % (Nat.pow 256 width * 256) / 256 = _
      rw [Nat.mul_comm, Nat.mod_mul_right_div_self]
    rw [Bytes.be, Bytes.be, last, front, ih]

theorem Int32.lowByte (v : Int32) : (UInt8.ofNat (Bytes.ofInt32 v)).toInt8 = v.toInt8 := by
  have same : UInt8.ofNat (Bytes.ofInt32 v) = v.toInt8.toUInt8 := by
    rw [← UInt8.toNat_inj]
    show v.toBitVec.toNat % 256 = (v.toBitVec.signExtend 8).toNat
    rw [BitVec.signExtend_eq_setWidth_of_le _ (by decide), BitVec.toNat_setWidth]
  rw [same, Int8.toInt8_toUInt8]

theorem Int16.lowByte (v : Int16) : (UInt8.ofNat (Bytes.ofInt16 v)).toInt8 = v.toInt8 := by
  have same : UInt8.ofNat (Bytes.ofInt16 v) = v.toInt8.toUInt8 := by
    rw [← UInt8.toNat_inj]
    show v.toBitVec.toNat % 256 = (v.toBitVec.signExtend 8).toNat
    rw [BitVec.signExtend_eq_setWidth_of_le _ (by decide), BitVec.toNat_setWidth]
  rw [same, Int8.toInt8_toUInt8]

theorem Int32.lowWord (v : Int32) :
    Bytes.be 2 (Bytes.ofInt32 v) = Bytes.be 2 (Bytes.ofInt16 v.toInt16) := by
  have same : Bytes.ofInt16 v.toInt16 = Bytes.ofInt32 v % Nat.pow 256 2 := by
    show (v.toBitVec.signExtend 16).toNat = v.toBitVec.toNat % 65536
    rw [BitVec.signExtend_eq_setWidth_of_le _ (by decide), BitVec.toNat_setWidth]
  rw [same, Bytes.be_mod]

theorem Int32.toInt32_toInt8 {v : Int32} (low : -128 ≤ v.toInt) (high : v.toInt ≤ 127) :
    v.toInt8.toInt32 = v := by
  rw [← Int32.toInt_inj, Int8.toInt_toInt32, Int32.toInt_toInt8,
    Int.bmod_eq_of_le (by omega) (by omega)]

theorem Int32.toInt32_toInt16 {v : Int32} (low : -32768 ≤ v.toInt) (high : v.toInt ≤ 32767) :
    v.toInt16.toInt32 = v := by
  rw [← Int32.toInt_inj, Int16.toInt_toInt32, Int32.toInt_toInt16,
    Int.bmod_eq_of_le (by omega) (by omega)]

theorem Int16.toInt16_toInt8 {v : Int16} (low : -128 ≤ v.toInt) (high : v.toInt ≤ 127) :
    v.toInt8.toInt16 = v := by
  rw [← Int16.toInt_inj, Int8.toInt_toInt16, Int16.toInt_toInt8,
    Int.bmod_eq_of_le (by omega) (by omega)]

theorem Int32.ofNat_lowByte {v : Int32} (low : 0 ≤ v.toInt) (high : v.toInt ≤ 255) :
    Int32.ofNat (UInt8.ofNat (Bytes.ofInt32 v)).toNat = v := by
  have bits : v.toInt = (Bytes.ofInt32 v : Int) := by
    have sign := BitVec.toInt_eq_toNat_cond v.toBitVec
    have small := v.toBitVec.isLt
    show v.toBitVec.toInt = (v.toBitVec.toNat : Int)
    change 0 ≤ v.toBitVec.toInt at low
    split at sign <;> omega
  have byte : (UInt8.ofNat (Bytes.ofInt32 v)).toNat = Bytes.ofInt32 v := by
    rw [UInt8.toNat_ofNat']
    exact Nat.mod_eq_of_lt (by omega)
  rw [byte, ← Int32.toInt_inj, Int32.toInt_ofNat_of_lt (by omega), bits]

namespace ReadsAt

variable {o : Nat}

theorem i16_ofInt {d : Int} (low : -32768 ≤ d) (high : d ≤ 32767) :
    ∃ v : Int16, v.toInt = d ∧ ∀ o, ReadsAt o Reader.i16 (Bytes.be 2 (d % 65536).toNat) v := by
  refine ⟨Int16.ofInt d, Int16.toInt_ofInt_of_le low (by omega), fun o => ?_⟩
  have bits : (d % 65536).toNat = Bytes.ofInt16 (Int16.ofInt d) := by
    show _ = (BitVec.ofInt 16 d).toNat
    rw [BitVec.toNat_ofInt]
    rfl
  rw [bits]
  exact i16 _

theorem i32_ofInt {d : Int} (low : -2147483648 ≤ d) (high : d ≤ 2147483647) :
    ∃ v : Int32, v.toInt = d ∧ ∀ o, ReadsAt o Reader.i32 (Bytes.be 4 (d % 4294967296).toNat) v := by
  refine ⟨Int32.ofInt d, Int32.toInt_ofInt_of_le low (by omega), fun o => ?_⟩
  have bits : (d % 4294967296).toNat = Bytes.ofInt32 (Int32.ofInt d) := by
    show _ = (BitVec.ofInt 32 d).toNat
    rw [BitVec.toNat_ofInt]
    rfl
  rw [bits]
  exact i32 _

theorem i8_lowByte (v : Int32) : ReadsAt o Reader.i8 [UInt8.ofNat (Bytes.ofInt32 v)] v.toInt8 := by
  rw [← Int32.lowByte]
  exact bind_last (u8 _) (pure _)

theorem i8_lowByte16 (v : Int16) :
    ReadsAt o Reader.i8 [UInt8.ofNat (Bytes.ofInt16 v)] v.toInt8 := by
  rw [← Int16.lowByte]
  exact bind_last (u8 _) (pure _)

end ReadsAt

end ClassWeave
