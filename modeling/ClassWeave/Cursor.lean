import ClassWeave.FormatError

/-!
# Reading bytes in order

A `Cursor` stands before the bytes that are still to be read and knows its own offset. A `Reader`
moves the cursor forward or fails; a read that finds too few bytes reports the offset at which it
began. `Tape` adds a movable position over a whole buffer, and a failed read leaves it where
it was.
-/

set_option autoImplicit false

namespace ClassWeave

structure Cursor where
  offset : Nat
  rest : Bytes
  deriving DecidableEq, Repr

def Cursor.start (bytes : Bytes) : Cursor := ⟨0, bytes⟩

abbrev Reader := StateT Cursor (Except FormatError)

namespace Reader

def runOn {α : Type} (r : Reader α) (bytes : Bytes) : Except FormatError α :=
  r.run' (Cursor.start bytes)

def take (n : Nat) : Reader Bytes := fun c =>
  let taken := c.rest.take n
  if taken.length = n then .ok (taken, ⟨c.offset + n, c.rest.drop n⟩)
  else .error (.unexpectedEnd c.offset)

def u8 : Reader UInt8 := fun c =>
  match c.rest with
  | [] => .error (.unexpectedEnd c.offset)
  | b :: rest => .ok (b, ⟨c.offset + 1, rest⟩)

theorem take_append (offset : Nat) (bytes rest : Bytes) :
    (take bytes.length).run ⟨offset, bytes ++ rest⟩ =
      .ok (bytes, ⟨offset + bytes.length, rest⟩) := by
  simp [take, StateT.run]

def word (width : Nat) : Reader Nat := do
  let bytes ← take width
  return Bytes.ofBE bytes

theorem word_be (offset width n : Nat) (rest : Bytes) :
    (word width).run ⟨offset, Bytes.be width n ++ rest⟩ =
      .ok (n % Nat.pow 256 width, ⟨offset + width, rest⟩) := by
  have read := take_append offset (Bytes.be width n) rest
  rw [Bytes.length_be] at read
  rw [word, StateT.run_bind, read, ← Bytes.ofBE_be]
  rfl

def i8 : Reader Int8 := do return (← u8).toInt8
def u16 : Reader UInt16 := do return UInt16.ofNat (← word 2)
def i16 : Reader Int16 := do return (← u16).toInt16
def u32 : Reader UInt32 := do return UInt32.ofNat (← word 4)
def i32 : Reader Int32 := do return (← u32).toInt32
def u64 : Reader UInt64 := do return UInt64.ofNat (← word 8)
def i64 : Reader Int64 := do return (← u64).toInt64

def offset : Reader Nat := do return (← get).offset

def remaining : Reader Nat := do return (← get).rest.length

def skipTo (target : Nat) : Reader Unit := fun c =>
  let gap := target - c.offset
  if (c.rest.take gap).length = gap then .ok ((), ⟨c.offset + gap, c.rest.drop gap⟩)
  else .error (.unexpectedEnd target)

def timesAfter {α : Type} (r : Reader α) : Nat → List α → Reader (List α)
  | 0, done => pure done.reverse
  | n + 1, done => do
    let a ← r
    timesAfter r n (a :: done)

def times {α : Type} (n : Nat) (r : Reader α) : Reader (List α) := timesAfter r n []

def counted {α : Type} (r : Reader α) : Reader (List α) := do
  let n ← u16
  times n.toNat r

end Reader

structure Tape where
  bytes : Bytes
  position : Nat
  position_le : position ≤ bytes.length

namespace Tape

def ofBytes (bytes : Bytes) : Tape := ⟨bytes, 0, Nat.zero_le _⟩

def length (t : Tape) : Nat := t.bytes.length
def remaining (t : Tape) : Nat := t.bytes.length - t.position
def isEmpty (t : Tape) : Bool := t.bytes.isEmpty

def seek (t : Tape) (target : Nat) : Except FormatError Tape :=
  if h : target ≤ t.bytes.length then .ok ⟨t.bytes, target, h⟩
  else .error (.unexpectedEnd target)

def read {α : Type} (t : Tape) (r : Reader α) : Except FormatError (α × Tape) := do
  let (a, c) ← r.run ⟨t.position, t.bytes.drop t.position⟩
  let moved ← t.seek c.offset
  return (a, moved)

end Tape

end ClassWeave
