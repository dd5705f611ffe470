import ClassWeave.Archive.Entry

/-!
# The directory of an archive

An archive is read from its end. The last end record that leads to a directory counts: it says how
many entries there are and where they begin, and bytes in front of the archive shift all positions
alike. Of an archive that is too large for the numbers of the end record, a second record holds
them, and a locator in front of the end record leads there.
-/

set_option autoImplicit false

namespace ClassWeave.Archive

structure EndRecord where
  position : Nat
  disk : Nat
  directoryDisk : Nat
  entriesHere : Nat
  entries : Nat
  directory : Nat

def EndRecord.at? (bytes : Bytes) (position : Nat) : Option EndRecord := do
  let record ← record? bytes endMark position 22
  let _ ← record? bytes endMark position (22 + number record 20 2)
  return {
    position := position
    disk := number record 4 2
    directoryDisk := number record 6 2
    entriesHere := number record 8 2
    entries := number record 10 2
    directory := number record 16 4 }

/-- Where the entries of an archive begin and how many there are. -/
structure Directory where
  /-- How many bytes stand in front of the archive. -/
  shift : Nat
  start : Nat
  entries : Nat
  disk : Nat
  directoryDisk : Nat

/-- The first entry behind the stated position tells what stands in front of the archive. -/
def EndRecord.toDirectory? (e : EndRecord) (bytes : Bytes) : Option Directory := do
  let shift ←
    if e.entries = 0 then some (e.position - e.directory)
    else if e.position ≤ e.directory then none
    else (marksWithin entryMark bytes e.directory e.position).head?.map (· - e.directory)
  return ⟨shift, e.directory + shift, e.entriesHere, e.disk, e.directoryDisk⟩

structure Locator where
  position : Nat
  directoryDisk : Nat
  record : Nat
  disks : Nat

def Locator.before? (bytes : Bytes) (e : EndRecord) : Option Locator := do
  if e.position < 20 then none
  let record ← record? bytes locatorMark (e.position - 20) 20
  return ⟨e.position - 20, number record 4 4, number record 8 8, number record 16 4⟩

/-- The large end record at a position, if it fits to the locator, stands right in front of it and
leaves room for the entries. -/
def Locator.record? (l : Locator) (bytes : Bytes) (position : Nat) : Option Bytes := do
  let record ← Archive.record? bytes largeEndMark position 56
  let size := number record 4 8 + 12
  let room := number record 32 8 * 46 + number record 48 8
  if 56 ≤ size && size == l.position - position && number record 20 4 == l.directoryDisk &&
      room ≤ position then some record
  else none

def Locator.toDirectory? (l : Locator) (bytes : Bytes) : Option Directory := do
  if l.position ≤ l.record || 1 < l.disks then none
  let (position, record) ←
    (marksWithin largeEndMark bytes l.record l.position).findSome? fun p =>
      (l.record? bytes p).map (p, ·)
  let shift := position - l.record
  let entries := number record 32 8
  if entries < number record 24 8 || number record 12 2 < number record 14 2 then none
  return ⟨shift, number record 48 8 + shift, entries, number record 16 4, number record 20 4⟩

def EndRecord.mayBeLarge (e : EndRecord) : Bool :=
  e.entries == 0xFFFF || e.directory == 0xFFFFFFFF

def Directory.ofEnd? (bytes : Bytes) (e : EndRecord) : Option Directory :=
  match if e.mayBeLarge then Locator.before? bytes e else none with
  | some l => l.toDirectory? bytes
  | none => e.toDirectory? bytes

/-- The entries from a position on; every file has to stand in front of the directory. -/
def Directory.entriesFrom (d : Directory) (bytes : Bytes) : Nat → Nat → Option (List Entry)
  | 0, _ => some []
  | left + 1, position => do
    let (e, next) ← Entry.at? bytes d.shift position
    if d.start ≤ e.position then none
    let rest ← d.entriesFrom bytes left next
    return e :: rest

def Directory.entries? (d : Directory) (bytes : Bytes) : Option (List Entry) :=
  if d.disk = d.directoryDisk then d.entriesFrom bytes d.entries d.start else none

def enter (entries : List Entry) (e : Entry) : List Entry :=
  if entries.any fun f => f.name == e.name then
    entries.map fun f => if f.name == e.name then e else f
  else entries ++ [e]

def entries? (bytes : Bytes) : Option (List Entry) := do
  let found ← (marks endMark bytes).findSome? fun position => do
    let e ← EndRecord.at? bytes position
    let d ← Directory.ofEnd? bytes e
    d.entries? bytes
  return found.foldl enter []

end ClassWeave.Archive
