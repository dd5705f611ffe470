/-!
# Big-endian bytes

Class files store every number with its most significant byte first. `be width n` writes the
lowest `width` bytes of `n`, so a count that does not fit is cut to its low bytes, and `ofBE`
reads a run of bytes back as a number.
-/

set_option autoImplicit false

namespace ClassWeave

abbrev Bytes := List UInt8

namespace Bytes

def be : Nat → Nat → Bytes
  | 0, _ => []
  | width + 1, n => be width (n / 256) ++ [UInt8.ofNat n]

def ofBE (bytes : Bytes) : Nat := bytes.foldl (fun acc b => acc * 256 + b.toNat) 0

@[simp] theorem length_be (width n : Nat) : (be width n).length = width := by
  induction width generalizing n with
  | zero => rfl
  | succ width ih => simp [be, ih]

@[simp] theorem ofBE_nil : ofBE [] = 0 := rfl

@[simp] theorem ofBE_append_singleton (bytes : Bytes) (b : UInt8) :
    ofBE (bytes ++ [b]) = ofBE bytes * 256 + b.toNat := by
  simp [ofBE, List.foldl_append]

theorem ofBE_be (width n : Nat) : ofBE (be width n) = n % Nat.pow 256 width := by
  induction width generalizing n with
  | zero => exact (Nat.mod_one n).symm
  | succ width ih =>
    have hb : (UInt8.ofNat n).toNat = n % 256 := by simp
    rw [be, ofBE_append_singleton, ih, hb]
    show n / 256 % Nat.pow 256 width * 256 + n % 256 = n % (Nat.pow 256 width * 256)
    rw [Nat.mul_comm (Nat.pow 256 width) 256, Nat.mod_mul, Nat.mul_comm, Nat.add_comm]

def ofInt8 (v : Int8) : Nat := v.toUInt8.toNat
def ofInt16 (v : Int16) : Nat := v.toUInt16.toNat
def ofInt32 (v : Int32) : Nat := v.toUInt32.toNat
def ofInt64 (v : Int64) : Nat := v.toUInt64.toNat

end Bytes

end ClassWeave
