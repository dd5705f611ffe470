import ClassWeave.Pool

/-!
# Bootstrap methods

A class keeps its bootstrap methods in one table, as pool indices. Reading resolves a table index
into the method handle and the static arguments; an argument may be a dynamic constant with a
bootstrap method of its own, nested at most sixteen deep. Writing interns them again. Entries keep
their positions, so constants that are never resolved stay valid.
-/

set_option autoImplicit false

namespace ClassWeave

structure BootstrapEntry where
  handle : UInt16
  args : List UInt16
  deriving DecidableEq, Repr, Inhabited

def BootstrapEntry.key (e : BootstrapEntry) : Option (List Nat) :=
  some (e.handle.toNat :: e.args.map UInt16.toNat)

abbrev BootstrapTable := Indexed BootstrapEntry BootstrapEntry.key

namespace BootstrapTable

def attributeName : String := "BootstrapMethods"

def empty : BootstrapTable := Indexed.empty

def readEntry : Reader BootstrapEntry := do
  let handle ← Reader.u16
  let args ← Reader.counted Reader.u16
  return ⟨handle, args⟩

def ofEntries (entries : List BootstrapEntry) : BootstrapTable :=
  entries.foldl (fun t e => t.push e) empty

def read : Reader BootstrapTable := do
  let entries ← Reader.counted readEntry
  let left ← Reader.remaining
  if left ≠ 0 then throw (.badAttribute (.bootstrapTrailing left))
  return ofEntries entries

def parse (bytes : Bytes) : Except FormatError BootstrapTable := read.runOn bytes

def encode (t : BootstrapTable) : Bytes :=
  Bytes.be 2 t.size ++ t.toList.flatMap fun e =>
    Bytes.be 2 e.handle.toNat ++ Bytes.be 2 e.args.length ++
      e.args.flatMap fun a => Bytes.be 2 a.toNat

def nestingLimit : Nat := 16

def loadableWith (p : Pool) (bootstrap : UInt16 → Except FormatError Bootstrap)
    (index : UInt16) : Except FormatError Loadable := do
  match ← p.get index with
  | .integer v => return .int v
  | .float bits => return .float bits
  | .long v => return .long v
  | .double bits => return .double bits
  | .string text => return .string (← p.utf8 text)
  | .type name => return .type (← p.utf8 name)
  | .methodType desc => return .methodType (← p.utf8 desc)
  | .methodHandle _ _ => return .handle (← p.handle index)
  | .dynamic entry nameAndType =>
    let (name, desc) ← p.nameAndType nameAndType
    let b ← bootstrap entry
    return .dynamic name desc b.handle b.args
  | _ => throw (.wrongConstant index .loadable)

/-- The bootstrap method at `index`, when `levels` more may nest. -/
def bootstrapAt (t : BootstrapTable) (p : Pool) : Nat → UInt16 → Except FormatError Bootstrap
  | 0, _ => .error (.badAttribute (.nestedTooDeep nestingLimit))
  | levels + 1, index => do
    match t.get? index.toNat with
    | none => throw (.badAttribute (.noBootstrap index))
    | some entry =>
      let args ← entry.args.mapM (loadableWith p (bootstrapAt t p levels))
      let handle ← p.handle entry.handle
      return ⟨handle, args⟩

def bootstrap (t : BootstrapTable) (p : Pool) : UInt16 → Except FormatError Bootstrap :=
  bootstrapAt t p (nestingLimit + 1)

def loadable (t : BootstrapTable) (p : Pool) (index : UInt16) : Except FormatError Loadable :=
  loadableWith p (bootstrap t p) index

def callSite (t : BootstrapTable) (p : Pool) (index : UInt16) : Except FormatError Insn := do
  match ← p.get index with
  | .callSite entry nameAndType =>
    let (name, desc) ← p.nameAndType nameAndType
    return .callSite name desc (← bootstrap t p entry)
  | _ => throw (.wrongConstant index .callSite)

end BootstrapTable

/-- The two tables of a class that grow while it is written. -/
structure Tables where
  pool : Pool
  bootstraps : BootstrapTable
  deriving Inhabited

namespace Tables

/-- Steps that extend the tables; a failed step keeps what it has added. -/
abbrev Growth := ExceptT WriteError (StateM Tables)

def onPool {α : Type} (step : Pool.Growth α) : Growth α := fun tables =>
  match tables with
  | ⟨pool, bootstraps⟩ =>
    let (answer, pool) := step pool
    (answer, ⟨pool, bootstraps⟩)

def utf8 (text : String) : Growth UInt16 := onPool (Pool.internUtf8 text)

def className (name : String) : Growth UInt16 := onPool (Pool.internClass name)

def internEntry (e : BootstrapEntry) : Growth UInt16 := fun tables =>
  match tables with
  | ⟨pool, bootstraps⟩ =>
    match bootstraps.find? (e.handle.toNat :: e.args.map UInt16.toNat) with
    | some i => (.ok (UInt16.ofNat i), ⟨pool, bootstraps⟩)
    | none =>
      let size := bootstraps.size
      if 65535 ≤ size then (.error .poolOverflow, ⟨pool, bootstraps⟩)
      else (.ok (UInt16.ofNat size), ⟨pool, bootstraps.push e⟩)

mutual

def internLoadable : Loadable → Growth UInt16
  | .int v => onPool (Pool.intern (.integer v))
  | .float bits => onPool (Pool.intern (.float bits))
  | .long v => onPool (Pool.intern (.long v))
  | .double bits => onPool (Pool.intern (.double bits))
  | .string text => onPool (Pool.internString text)
  | .type name => className name
  | .methodType desc => do
    let desc ← utf8 desc
    onPool (Pool.intern (.methodType desc))
  | .handle h => onPool (Pool.internHandle h)
  | .dynamic name desc h args => do
    let handle ← onPool (Pool.internHandle h)
    let args ← internLoadables args
    let entry ← internEntry ⟨handle, args⟩
    let nameAndType ← onPool (Pool.internNameAndType name desc)
    onPool (Pool.intern (.dynamic entry nameAndType))

def internLoadables : List Loadable → Growth (List UInt16)
  | [] => pure []
  | value :: rest => do
    let index ← internLoadable value
    return index :: (← internLoadables rest)

end

def internBootstrap (b : Bootstrap) : Growth UInt16 := do
  let handle ← onPool (Pool.internHandle b.handle)
  let args ← internLoadables b.args
  internEntry ⟨handle, args⟩

def internCallSite (name desc : String) (b : Bootstrap) : Growth UInt16 := do
  let entry ← internBootstrap b
  let nameAndType ← onPool (Pool.internNameAndType name desc)
  onPool (Pool.intern (.callSite entry nameAndType))

end Tables

end ClassWeave
