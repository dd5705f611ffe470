import ClassWeave.Archive
import ClassWeave.Hierarchy

/-!
# The class path

Headers of library classes out of class files, archives and directories of them. An earlier class
of a name counts, a later one is passed over.
-/

set_option autoImplicit false

namespace ClassWeave

inductive ClassPathError where
  | unreadable (path : String) (fault : ReadFault)
  /-- A class file in `path`: itself, or an entry of an archive. -/
  | malformed (path entry : String) (cause : FormatError)
  deriving DecidableEq, Repr

def ClassPathError.message : ClassPathError → String
  | .unreadable path fault => s!"cannot read {path}: " ++ fault.message
  | .malformed path entry cause => s!"{path}: entry {entry} is malformed: " ++ cause.message

namespace ClassPath

abbrev Loading := Except ClassPathError

def moduleMark : Bytes := [0x4A, 0x4D, 0x01, 0x00]

def insert (m : HeaderMap) (h : Header) : HeaderMap := m.insertIfNew h.name h

def isFollowed (name : String) : Bool :=
  match Path.extension? name with
  | some e => e == "class" || e == "jar" || e == "jmod"
  | none => false

def startsWith (part text : String) : Bool := part.toList.isPrefixOf text.toList

def endsWith (part text : String) : Bool := part.toList.isSuffixOf text.toList

def isLibraryClass (name : String) : Bool :=
  endsWith ".class" name && !startsWith "META-INF/" name && !endsWith "module-info.class" name

def addClass (path entry : String) (bytes : Bytes) (m : HeaderMap) : Loading HeaderMap :=
  match Header.parse bytes with
  | .ok h => .ok (insert m h)
  | .error cause => .error (.malformed path entry cause)

/-- Adds the class in an archive's entry. Every file has to be open to reading; only classes of the
library are unpacked. -/
def addEntry (path : String) (archive : Bytes) (m : HeaderMap) (e : Archive.Entry) :
    Loading HeaderMap :=
  match e.open? archive with
  | none => .error (.unreadable path .damagedArchive)
  | some packed =>
    if !isLibraryClass e.name then .ok m
    else match packed.unpack? with
      | none => .error (.unreadable path .damagedArchive)
      | some bytes => addClass path e.name bytes m

def addArchive (path : String) (bytes : Bytes) (m : HeaderMap) : Loading HeaderMap :=
  let archive := if moduleMark.isPrefixOf bytes then bytes.drop moduleMark.length else bytes
  match Archive.directory archive with
  | .error fault => .error (.unreadable path fault)
  | .ok entries => entries.foldlM (addEntry path archive) m

def addFile (path : String) (bytes : Bytes) (m : HeaderMap) : Loading HeaderMap :=
  if Path.extensionOf path = some "class" then addClass path path bytes m
  else addArchive path bytes m

mutual

def addTree (path : String) : FileTree → HeaderMap → Loading HeaderMap
  | .file bytes, m => addFile path bytes m
  | .dir entries, m => addEntries path entries m

def addEntries (path : String) : List (String × FileTree) → HeaderMap → Loading HeaderMap
  | [], m => .ok m
  | (name, t) :: rest, m =>
    if t.isDir || isFollowed name then
      match addTree (Path.join path name) t m with
      | .ok m => addEntries path rest m
      | .error e => .error e
    else addEntries path rest m

end

def addPath (files : Files) (m : HeaderMap) (path : String) : Loading HeaderMap :=
  match files.at? path with
  | .ok t => addTree path t m
  | .error fault => .error (.unreadable path fault)

def load (files : Files) (paths : List String) : Loading HeaderMap :=
  paths.foldlM (addPath files) ∅

end ClassPath

end ClassWeave
