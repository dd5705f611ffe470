import ClassWeave.Bytes

/-!
# Fields of an archive

Numbers stand with their lowest byte first. A record begins with a mark of four bytes by which it is
found, and its numbers have fixed places behind that.
-/

set_option autoImplicit false

namespace ClassWeave.Archive

def ofLE : Bytes → Nat
  | [] => 0
  | b :: rest => b.toNat + 256 * ofLE rest

def number (record : Bytes) (place width : Nat) : Nat := ofLE ((record.drop place).take width)

def fileMark : Bytes := [0x50, 0x4B, 0x03, 0x04]
def entryMark : Bytes := [0x50, 0x4B, 0x01, 0x02]
def endMark : Bytes := [0x50, 0x4B, 0x05, 0x06]
def largeEndMark : Bytes := [0x50, 0x4B, 0x06, 0x06]
def locatorMark : Bytes := [0x50, 0x4B, 0x06, 0x07]

def record? (bytes : Bytes) (mark : Bytes) (position size : Nat) : Option Bytes :=
  let record := bytes.drop position
  if mark.isPrefixOf record && (record.take size).length == size then some record else none

/-- The positions of a mark in bytes that start at `i`, in front of those in `found`. The last one
comes first. -/
def marksFrom (mark : Bytes) (i : Nat) (found : List Nat) : Bytes → List Nat
  | [] => found
  | b :: rest =>
    marksFrom mark (i + 1) (if mark.isPrefixOf (b :: rest) then i :: found else found) rest

def marks (mark bytes : Bytes) : List Nat := marksFrom mark 0 [] bytes

/-- The positions of a mark that lies wholly between two positions, the first one first. -/
def marksWithin (mark bytes : Bytes) (low high : Nat) : List Nat :=
  (marksFrom mark low [] ((bytes.take high).drop low)).reverse

end ClassWeave.Archive
