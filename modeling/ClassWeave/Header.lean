import ClassWeave.ClassFile

/-!
# The head of a class file

Everything in front of the fields: magic number, versions, pool, flags and names. `Header` keeps
what the type hierarchy needs of it.
-/

set_option autoImplicit false

namespace ClassWeave

structure Header where
  name : String
  superName : Option String
  interfaces : List String
  isInterface : Bool
  deriving DecidableEq, Repr, Inhabited

namespace Header

def magic : UInt32 := 0xCAFEBABE

def readOpening : Reader (UInt16 × UInt16 × Pool) := do
  let found ← Reader.u32
  if found ≠ magic then throw (.badMagic found)
  let minor ← Reader.u16
  let major ← Reader.u16
  return (minor, major, ← Pool.read)

def readClassName (p : Pool) : Reader String := do
  let index ← Reader.u16
  p.className index

def readNames (p : Pool) : Reader (Access × Header) := do
  let access : Access := ⟨← Reader.u16⟩
  let name ← readClassName p
  let superIndex ← Reader.u16
  let superName ← if superIndex = 0 then pure none else some <$> p.className superIndex
  let interfaces ← Reader.counted (readClassName p)
  return (access, ⟨name, superName, interfaces, access.has Access.interfaceBit⟩)

def read : Reader Header := do
  let (_, _, pool) ← readOpening
  let (_, header) ← readNames pool
  return header

/-- Reads only the head; what follows may be anything. -/
def parse (bytes : Bytes) : Except FormatError Header := read.runOn bytes

end Header

end ClassWeave
