import ClassWeave.Constant
import ClassWeave.Indexed
import ClassWeave.WriteError

/-!
# The constant pool

Slot 0 holds nothing, and so does the slot after a long or a double, and one more if the unusable
constant was interned. A pool is kept slot for slot as it was read and only ever grows, so an index
once given out keeps its meaning. Interning looks a constant up and appends it if it is new; when a
compound constant does not fit, the parts already appended stay.
-/

set_option autoImplicit false

namespace ClassWeave

def slotKey (slot : Option Constant) : Option (List Nat) := slot.map Constant.key

abbrev Pool := Indexed (Option Constant) slotKey

namespace Pool

def empty : Pool := Indexed.empty.push none

def entries (p : Pool) : List (Nat × Constant) :=
  p.toList.zipIdx.filterMap fun (slot, i) => slot.map (i, ·)

def get (p : Pool) (index : UInt16) : Except FormatError Constant :=
  match p.get? index.toNat with
  | some (some c) => .ok c
  | _ => .error (.invalidIndex index)

def utf8 (p : Pool) (index : UInt16) : Except FormatError String := do
  match ← p.get index with
  | .utf8 text => return text
  | _ => throw (.wrongConstant index .utf8)

def className (p : Pool) (index : UInt16) : Except FormatError String := do
  match ← p.get index with
  | .type name => p.utf8 name
  | _ => throw (.wrongConstant index .className)

def nameAndType (p : Pool) (index : UInt16) : Except FormatError (String × String) := do
  match ← p.get index with
  | .nameAndType name desc =>
    let name ← p.utf8 name
    return (name, ← p.utf8 desc)
  | _ => throw (.wrongConstant index .nameAndType)

inductive MemberKind where
  | field
  | method
  | interfaceMethod
  deriving DecidableEq, Repr

/-- A field or method reference resolved to text. Name and type are resolved before the owner. -/
def member (p : Pool) (index : UInt16) : Except FormatError (MemberKind × MemberRef) := do
  let (kind, owner, nameAndType) ← match ← p.get index with
    | .field owner nameAndType => pure (MemberKind.field, owner, nameAndType)
    | .method owner nameAndType => pure (MemberKind.method, owner, nameAndType)
    | .interfaceMethod owner nameAndType => pure (MemberKind.interfaceMethod, owner, nameAndType)
    | _ => throw (.wrongConstant index .member)
  let (name, desc) ← p.nameAndType nameAndType
  let owner ← p.className owner
  return (kind, ⟨owner, name, desc⟩)

def handle (p : Pool) (index : UInt16) : Except FormatError Handle := do
  match ← p.get index with
  | .methodHandle kind reference =>
    let (memberKind, member) ← p.member reference
    return ⟨kind, member, memberKind == .interfaceMethod⟩
  | _ => throw (.wrongConstant index .methodHandle)

/-- Appends a constant with the slots that it takes, whether or not it is there already. -/
def append (p : Pool) (c : Constant) : Pool :=
  if c.isWide then (p.push (some c)).push none else p.push (some c)

def slots (c : Constant) : Nat := if c.isWide then 2 else 1

/-- Steps that extend a pool; a failed step keeps what it has added. -/
abbrev Growth := ExceptT WriteError (StateM Pool)

def intern (c : Constant) : Growth UInt16 := fun p =>
  match p.find? c.key with
  | some i => (.ok (UInt16.ofNat i), p)
  | none =>
    let size := p.size
    if 65535 < size + slots c then (.error .poolOverflow, p)
    else (.ok (UInt16.ofNat size), p.append c)

/-- The first of the slots behind `before` that is empty without being the second of two. -/
def looseBehind : Option Constant → List (Option Constant) → Option Nat
  | _, [] => none
  | before, slot :: rest =>
    if slot.isNone && !before.any Constant.isWide then some 0
    else (looseBehind slot rest).map (· + 1)

def unusable? (p : Pool) : Option Nat :=
  match p.toList with
  | [] => none
  | first :: rest => (looseBehind first rest).map (· + 1)

/-- The unusable constant is given a slot like any other, which then holds nothing. -/
def internUnusable : Growth UInt16 := fun p =>
  match p.unusable? with
  | some i => (.ok (UInt16.ofNat i), p)
  | none =>
    let size := p.size
    if 65535 < size + 1 then (.error .poolOverflow, p)
    else (.ok (UInt16.ofNat size), p.push none)

def internSlot : Option Constant → Growth UInt16
  | some c => intern c
  | none => internUnusable

def internUtf8 (text : String) : Growth UInt16 := intern (.utf8 text)

def internClass (name : String) : Growth UInt16 := do
  let name ← internUtf8 name
  intern (.type name)

def internString (text : String) : Growth UInt16 := do
  let text ← internUtf8 text
  intern (.string text)

def internNameAndType (name desc : String) : Growth UInt16 := do
  let name ← internUtf8 name
  let desc ← internUtf8 desc
  intern (.nameAndType name desc)

def internField (m : MemberRef) : Growth UInt16 := do
  let owner ← internClass m.owner
  let nameAndType ← internNameAndType m.name m.desc
  intern (.field owner nameAndType)

def internMethod (m : MemberRef) (ofInterface : Bool) : Growth UInt16 := do
  let owner ← internClass m.owner
  let nameAndType ← internNameAndType m.name m.desc
  intern (if ofInterface then .interfaceMethod owner nameAndType else .method owner nameAndType)

def internHandle (h : Handle) : Growth UInt16 := do
  let reference ← if h.isField then internField h.member else internMethod h.member h.ofInterface
  intern (.methodHandle h.kind reference)

def occursIn (needle : List Char) : List Char → Bool
  | [] => needle.isEmpty
  | c :: cs => needle.isPrefixOf (c :: cs) || occursIn needle cs

def hasTextWith (p : Pool) (needle : String) : Bool :=
  p.toList.any fun
    | some (.utf8 text) => occursIn needle.toList text.toList
    | _ => false

/-- Reads constants until the pool has `count` slots. Each takes a slot at least, so `count` steps
are enough. -/
def readEntries (count : Nat) : Nat → Pool → Reader Pool
  | 0, p => pure p
  | fuel + 1, p =>
    if p.size < count then do
      let c ← Constant.read (UInt16.ofNat p.size)
      readEntries count fuel (p.append c)
    else pure p

/-- Reads a pool behind its slot count; a wide constant must not reach past the count. -/
def read : Reader Pool := do
  let count ← Reader.u16
  let p ← readEntries count.toNat count.toNat empty
  if p.size ≠ count.toNat then throw (.invalidIndex count)
  return p

def encode (p : Pool) : Bytes :=
  Bytes.be 2 p.size ++ p.toList.flatMap fun
    | some c => c.encode
    | none => []

end Pool

end ClassWeave
