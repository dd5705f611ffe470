import ClassWeave.Archive.Directory
import ClassWeave.Archive.Inflate
import ClassWeave.FileTree

/-!
# Archives

The files of a zip archive. An archive is opened by its directory; each file is opened by its own
header, and its checksum is looked at only when it is unpacked.
-/

set_option autoImplicit false

namespace ClassWeave.Archive

def directory (bytes : Bytes) : Except ReadFault (List Entry) :=
  match entries? bytes with
  | some entries => .ok entries
  | none => .error .notAnArchive

inductive Packing where
  | stored
  | deflated

def Entry.packing? (e : Entry) : Option Packing :=
  match e.method with
  | 0 => some .stored
  | 8 => some .deflated
  | _ => none

structure Packed where
  packing : Packing
  data : Bytes
  crc : Nat

def Entry.open? (e : Entry) (bytes : Bytes) : Option Packed := do
  if e.encrypted || e.hasCipher then none
  let record ← record? bytes fileMark e.position 30
  let data := (record.drop (30 + number record 26 2 + number record 28 2)).take e.packedSize
  return ⟨← e.packing?, data, e.crc⟩

def Packed.unpack? (p : Packed) : Option Bytes := do
  let file ← match p.packing with
    | .stored => some p.data
    | .deflated => inflate? p.data
  if (crc32 file).toNat = p.crc then some file else none

end ClassWeave.Archive
