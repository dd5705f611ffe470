import ClassWeave.Archive.Field
import ClassWeave.Text.CodePage
import ClassWeave.Text.Utf8

/-!
# Entries of an archive's directory

An entry says what a file is called, where it stands and how it is packed. Extra fields behind the
name replace what does not fit in the entry itself: large numbers, a name in Unicode, the method of
a file that is encrypted. Extra fields that break off are left at that.
-/

set_option autoImplicit false

namespace ClassWeave.Archive

def crcShift (crc : UInt32) : UInt32 :=
  if crc &&& 1 = 1 then (crc >>> 1) ^^^ 0xEDB88320 else crc >>> 1

def crcByte (crc : UInt32) (b : UInt8) : UInt32 :=
  Nat.repeat crcShift 8 (crc ^^^ b.toUInt32)

/-- A cyclic redundancy check of 32 bits, lowest bit first. All bits are turned over before the
first byte and behind the last one. -/
def crc32 (bytes : Bytes) : UInt32 := bytes.foldl crcByte 0xFFFFFFFF ^^^ 0xFFFFFFFF

structure Entry where
  name : String
  rawName : Bytes
  comment : String
  method : Nat
  crc : Nat
  packedSize : Nat
  size : Nat
  position : Nat
  encrypted : Bool
  /-- An extra field says how the file is encrypted. -/
  hasCipher : Bool
  deriving Repr

inductive ExtraFault where
  | brokenOff
  | wrong

/-- Reads extra fields and enters what they say; a fault keeps what has been entered. -/
abbrev ExtraReader := ExceptT ExtraFault (StateM (Entry × Bytes))

namespace ExtraReader

def take (n : Nat) : ExtraReader Bytes := do
  let (e, bytes) ← get
  if bytes.length < n then throw .brokenOff
  set (e, bytes.drop n)
  return bytes.take n

def word (width : Nat) : ExtraReader Nat := do return ofLE (← take width)

def skip (n : Nat) : ExtraReader Unit := do let _ ← take n

def require (holds : Bool) : ExtraReader Unit := if holds then pure () else throw .wrong

def entry : ExtraReader Entry := do return (← get).1

def enter (change : Entry → Entry) : ExtraReader Unit := modify fun (e, bytes) => (change e, bytes)

def largest32 : Nat := 0xFFFFFFFF

/-- A number of 64 bits for one that is given, or does not fit; tells how many bytes it took. -/
def largeNumber (given : Bool) (old : Entry → Nat) (change : Nat → Entry → Entry) :
    ExtraReader Nat := do
  if given || old (← entry) == largest32 then
    let n ← word 8
    enter (change n)
    return 8
  else return 0

def largeNumbers (length : Nat) : ExtraReader Unit := do
  let all := 24 ≤ length
  let a ← largeNumber all Entry.size fun n e => { e with size := n }
  let b ← largeNumber all Entry.packedSize fun n e => { e with packedSize := n }
  let c ← largeNumber all Entry.position fun n e => { e with position := n }
  require (a + b + c ≤ length)
  skip (length - (a + b + c))

def fileTimes (length : Nat) : ExtraReader Unit := do
  require (length == 32)
  skip 4
  require ((← word 2) == 1)
  require ((← word 2) == 24)
  skip 24

def bitCount (n width : Nat) : Nat := ((List.range width).filter n.testBit).length

/-- Times counted in seconds, one for each of the lowest three bits of the first byte. A field of
five bytes holds the first of them only. -/
def secondTimes (length : Nat) : ExtraReader Unit := do
  let flags ← word 1
  require (length == 5 || length == 1 + 4 * bitCount flags 8)
  skip (if length == 5 then 4 else 4 * bitCount flags 3)

def unicode (length : Nat) (old : Bytes) : ExtraReader (Bytes × String) := do
  skip 1
  let crc ← word 4
  require (5 ≤ length)
  let bytes ← take (length - 5)
  require (crc == (crc32 old).toNat)
  match String.fromUTF8? (ByteArray.mk bytes.toArray) with
  | some text => return (bytes, text)
  | none => throw .wrong

def unicodeName (length : Nat) : ExtraReader Unit := do
  let (raw, text) ← unicode length (← entry).rawName
  enter fun e => { e with rawName := raw, name := text }

def unicodeComment (length : Nat) : ExtraReader Unit := do
  let (_, text) ← unicode length (← entry).comment.toUTF8.toList
  enter fun e => { e with comment := text }

def cipher (length : Nat) : ExtraReader Unit := do
  require (length == 7)
  let version ← word 2
  let vendor ← word 2
  let strength ← word 1
  let method ← word 2
  require (vendor == 0x4541 && (version == 1 || version == 2) && 1 ≤ strength && strength ≤ 3)
  enter fun e => { e with method := method, hasCipher := true }

def field (kind length : Nat) : ExtraReader Unit :=
  match kind with
  | 0x0001 => largeNumbers length
  | 0x000A => fileTimes length
  | 0x5455 => secondTimes length
  | 0x6375 => unicodeComment length
  | 0x7075 => unicodeName length
  | 0x9901 => cipher length
  | _ => skip length

def fields : Nat → ExtraReader Unit
  | 0 => pure ()
  | fuel + 1 => do
    if (← get).2.isEmpty then return
    let kind ← word 2
    let length ← word 2
    field kind length
    fields fuel

end ExtraReader

def Entry.withExtra? (e : Entry) (extra : Bytes) : Option Entry :=
  match (ExtraReader.fields extra.length).run.run (e, extra) with
  | (.ok (), e, _) | (.error .brokenOff, e, _) => some e
  | (.error .wrong, _, _) => none

/-- Names and comments are text in Unicode or of the code page, by a bit of the flags. -/
def entryText (flags : Nat) (bytes : Bytes) : String :=
  if flags / 0x800 % 2 = 1 then Utf8.mend bytes else CodePage.decode bytes

/-- The method that stands for a cipher, which then has to say how the file is packed. -/
def cipherMethod : Nat := 99

/-- The entry at a position, and the position of the next one; `shift` bytes stand in front of the
archive. -/
def Entry.at? (bytes : Bytes) (shift position : Nat) : Option (Entry × Nat) := do
  let record ← record? bytes entryMark position 46
  let nameSize := number record 28 2
  let extraSize := number record 30 2
  let commentSize := number record 32 2
  let size := 46 + nameSize + extraSize + commentSize
  let record ← record? bytes entryMark position size
  let flags := number record 8 2
  let name := (record.drop 46).take nameSize
  let comment := (record.drop (46 + nameSize + extraSize)).take commentSize
  let e ← Entry.withExtra? {
    name := entryText flags name
    rawName := name
    comment := entryText flags comment
    method := number record 10 2
    crc := number record 16 4
    packedSize := number record 20 4
    size := number record 24 4
    position := number record 42 4
    encrypted := flags % 2 = 1
    hasCipher := false } ((record.drop (46 + nameSize)).take extraSize)
  if e.method = cipherMethod && !e.hasCipher then none
  return ({ e with position := e.position + shift }, position + size)

end ClassWeave.Archive
