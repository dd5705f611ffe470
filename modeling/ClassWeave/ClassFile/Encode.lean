import ClassWeave.Analysis.Reframe
import ClassWeave.ClassFile.Decode
import ClassWeave.Layout.Emit
import ClassWeave.Layout.Widen

/-!
# Writing class files

A class is written against its own pool, which grows where a name or constant is new, so raw
attributes keep their meaning. Bodies without frames are analysed first. Counts and lengths are cut
to the width of their field.
-/

set_option autoImplicit false

namespace ClassWeave

namespace ClassFile

structure BodyTarget where
  hierarchy : Hierarchy
  owner : String
  major : UInt16
  method : Method

namespace BodyTarget

/-- Frames are stored from version 50 on. -/
def withFrames (t : BodyTarget) : Bool := 50 ≤ t.major

def reframe (t : BodyTarget) (c : Code) : Except WriteError Code :=
  ClassWeave.reframe t.hierarchy t.owner t.method c t.withFrames

end BodyTarget

/-- Lays a body out and widens far branches until none is left, in at most the given number of
rounds. -/
def settleBranches (t : BodyTarget) : Nat → Code → Tables.Growth (Code × Layout)
  | rounds, c => do
    let l ← Layout.ofInsns c.insns
    let far ← l.farDistances
    if far.all Option.isNone then return (c, l)
    match rounds with
    | 0 => throw (.verify (t.owner ++ "." ++ t.method.name ++ t.method.desc) .branchesUnsettled)
    | rounds + 1 =>
      let (widened, split) ← c.widen far
      let c ← if split then t.reframe widened else pure widened
      settleBranches t rounds c

/-- An entry of the exception table, unless its range is empty. -/
def encodeHandler (positions : Positions) (h : Handler) : Tables.Growth (Option Bytes) := do
  let start ← positions.place h.start
  let finish ← positions.place h.finish
  if finish ≤ start then return none
  let target ← positions.place h.target
  let catchType ← match h.catchType with
    | some name => Tables.className name
    | none => pure 0
  return some (Bytes.be 2 start ++ Bytes.be 2 finish ++ Bytes.be 2 target ++
    Bytes.be 2 catchType.toNat)

/-- The frames at their offsets, in ascending order; of several at one offset the first stays. -/
def placedFrames (positions : Positions) (frames : List LabelledFrame) :
    Except WriteError (List (Nat × Frame)) := do
  let placed ← frames.mapM fun (label, frame) => do return (← positions.place label, frame)
  return dedupOn (fun f => (f.1 : Int)) (sortOn (fun f => (f.1 : Int)) placed)

def encodeFrames (t : BodyTarget) (positions : Positions) (c : Code) :
    Tables.Growth (List Attribute) := do
  let frames := c.frames.getD []
  if !t.withFrames || frames.isEmpty then return []
  let placed ← placedFrames positions frames
  let d ← orMalformed t.method.descriptor
  let initial := entryLocals t.owner t.method.access t.method.name d
  let data ← Tables.onPool (StackMap.encode positions initial placed)
  return [⟨"StackMapTable", data⟩]

/-- Source lines; one at the very end belongs to no instruction and is left out. -/
def encodeLines (l : Layout) : List Attribute :=
  let entries := l.placed.filterMap fun p =>
    match p.insn with
    | .line number =>
      if p.offset < l.length then some (Bytes.be 2 p.offset ++ Bytes.be 2 number.toNat) else none
    | _ => none
  if entries.isEmpty then []
  else [⟨"LineNumberTable", Bytes.be 2 entries.length ++ entries.flatten⟩]

def encodeLocal (positions : Positions) (v : LocalVariable) : Tables.Growth Bytes := do
  let start ← positions.place v.start
  let finish ← positions.place v.finish
  let name ← Tables.utf8 v.name
  let desc ← Tables.utf8 v.desc
  return Bytes.be 2 start ++ Bytes.be 2 (finish - start) ++ Bytes.be 2 name.toNat ++
    Bytes.be 2 desc.toNat ++ Bytes.be 2 v.slot.toNat

def encodeLocals (positions : Positions) (name : String) (locals : List LocalVariable) :
    Tables.Growth (List Attribute) := do
  if locals.isEmpty then return []
  let entries ← locals.mapM (encodeLocal positions)
  return [⟨name, Bytes.be 2 locals.length ++ entries.flatten⟩]

def encodeAttribute (a : Attribute) : Tables.Growth Bytes := do
  let name ← Tables.utf8 a.name
  return Bytes.be 2 name.toNat ++ Bytes.be 4 a.data.length ++ a.data

def encodeAttributes (attributes : List Attribute) : Tables.Growth Bytes := do
  let written ← attributes.mapM encodeAttribute
  return Bytes.be 2 attributes.length ++ written.flatten

def encodeCode (t : BodyTarget) (code : Code) : Tables.Growth Bytes := do
  let c ← if code.frames.isNone then t.reframe code else pure code
  let (c, l) ← settleBranches t (c.insns.length + 1) c
  if 65535 < l.length then
    throw (.codeTooLarge (t.owner ++ "." ++ t.method.name ++ t.method.desc) l.length)
  let bytes ← l.emit
  let handlers ← c.handlers.mapM (encodeHandler l.positions)
  let table := handlers.filterMap id
  let frames ← encodeFrames t l.positions c
  let lines := encodeLines l
  let plain ← encodeLocals l.positions "LocalVariableTable" (c.locals.filter fun v => !v.generic)
  let generic ← encodeLocals l.positions "LocalVariableTypeTable" (c.locals.filter (·.generic))
  let attributes ← encodeAttributes (frames ++ lines ++ plain ++ generic)
  return Bytes.be 2 c.maxStack.toNat ++ Bytes.be 2 c.maxLocals.toNat ++
    Bytes.be 4 bytes.length ++ bytes ++ Bytes.be 2 table.length ++ table.flatten ++ attributes

def encodeField (f : Field) : Tables.Growth Bytes := do
  let name ← Tables.utf8 f.name
  let desc ← Tables.utf8 f.desc
  let attributes ← encodeAttributes f.attributes
  return Bytes.be 2 f.access.bits.toNat ++ Bytes.be 2 name.toNat ++ Bytes.be 2 desc.toNat ++
    attributes

def encodeMethod (h : Hierarchy) (owner : String) (major : UInt16) (m : Method) :
    Tables.Growth Bytes := do
  let name ← Tables.utf8 m.name
  let desc ← Tables.utf8 m.desc
  let body ← match m.code with
    | some c => do
      let data ← encodeCode ⟨h, owner, major, m⟩ c
      pure [(⟨"Code", data⟩ : Attribute)]
    | none => pure []
  let attributes ← encodeAttributes (body ++ m.attributes)
  return Bytes.be 2 m.access.bits.toNat ++ Bytes.be 2 name.toNat ++ Bytes.be 2 desc.toNat ++
    attributes

/-- The attributes with a table of bootstrap methods in the place of the first one there, or at the
end. -/
def withBootstraps (t : BootstrapTable) (attributes : List Attribute) : List Attribute :=
  let rec replace : List Attribute → List Attribute
    | [] => [⟨BootstrapTable.attributeName, t.encode⟩]
    | a :: rest =>
      if a.name == BootstrapTable.attributeName then { a with data := t.encode } :: rest
      else a :: replace rest
  if t.size = 0 then attributes else replace attributes

def encodeBody (h : Hierarchy) (c : ClassFile) : Tables.Growth Bytes := do
  let name ← Tables.className c.name
  let superName ← match c.superName with
    | some name => Tables.className name
    | none => pure 0
  let interfaces ← c.interfaces.mapM Tables.className
  let fields ← c.fields.mapM encodeField
  let methods ← c.methods.mapM (encodeMethod h c.name c.major)
  let tables ← get
  let attributes ← encodeAttributes (withBootstraps tables.bootstraps c.attributes)
  return Bytes.be 2 c.access.bits.toNat ++ Bytes.be 2 name.toNat ++ Bytes.be 2 superName.toNat ++
    Bytes.be 2 c.interfaces.length ++ interfaces.flatMap (fun i => Bytes.be 2 i.toNat) ++
    Bytes.be 2 c.fields.length ++ fields.flatten ++
    Bytes.be 2 c.methods.length ++ methods.flatten ++ attributes

def encode (h : Hierarchy) (c : ClassFile) : Except WriteError Bytes := do
  let bootstraps ← orMalformed (bootstrapsOf c.attributes)
  let (body, tables) := (encodeBody h c).run ⟨c.pool, bootstraps⟩
  let body ← body
  return Bytes.be 4 Header.magic.toNat ++ Bytes.be 2 c.minor.toNat ++ Bytes.be 2 c.major.toNat ++
    tables.pool.encode ++ body

end ClassFile

end ClassWeave
