import Std.Data.TreeSet
import ClassWeave.ClassFile.InsnDecode
import ClassWeave.Header
import ClassWeave.StackMap

/-!
# Reading class files

A class file is read front to back in one pass; the method bodies are decoded afterwards, since
they refer to the bootstrap table behind them. In a body every label is the offset it stands at,
and a label is bound wherever a branch, an exception range, a frame or a local variable names one.
-/

set_option autoImplicit false

namespace ClassWeave

namespace ClassFile

def readAttribute (p : Pool) : Reader Attribute := do
  let index ← Reader.u16
  let name ← p.utf8 index
  let length ← Reader.u32
  return ⟨name, ← Reader.take length.toNat⟩

def readAttributes (p : Pool) : Reader (List Attribute) := Reader.counted (readAttribute p)

def readUtf8 (p : Pool) : Reader String := do
  let index ← Reader.u16
  p.utf8 index

def readField (p : Pool) : Reader Field := do
  let access : Access := ⟨← Reader.u16⟩
  let name ← readUtf8 p
  let desc ← readUtf8 p
  return ⟨access, name, desc, ← readAttributes p⟩

structure StoredMethod where
  access : Access
  name : String
  desc : String
  attributes : List Attribute

def readMethod (p : Pool) : Reader StoredMethod := do
  let access : Access := ⟨← Reader.u16⟩
  let name ← readUtf8 p
  let desc ← readUtf8 p
  return ⟨access, name, desc, ← readAttributes p⟩

abbrev Offsets := Std.TreeSet Nat

structure BodyTables where
  marks : Offsets
  lines : Std.TreeMap Nat (List UInt16)
  locals : List LocalVariable
  frames : List (Nat × Frame)

structure BodyContext where
  pool : Pool
  bootstraps : BootstrapTable
  owner : String
  access : Access
  name : String
  desc : String

def readHandler (p : Pool) (length : Nat) : Reader Handler := do
  let start := (← Reader.u16).toNat
  let finish := (← Reader.u16).toNat
  let target := (← Reader.u16).toNat
  let catchIndex ← Reader.u16
  if finish ≤ start ∨ length < finish ∨ length ≤ target then
    throw (.badAttribute (.exceptionRange start finish target length))
  let catchType ← if catchIndex = 0 then pure none else some <$> p.className catchIndex
  return ⟨Label.ofNat start, Label.ofNat finish, Label.ofNat target, catchType⟩

def readLine : Reader (Nat × UInt16) := do
  let pc ← Reader.u16
  return (pc.toNat, ← Reader.u16)

def readLocal (p : Pool) (length : Nat) (generic : Bool) : Reader (Option LocalVariable) := do
  let start := (← Reader.u16).toNat
  let finish := start + (← Reader.u16).toNat
  let name ← readUtf8 p
  let desc ← readUtf8 p
  let slot ← Reader.u16
  if length < finish then return none
  return some ⟨Label.ofNat start, Label.ofNat finish, name, desc, slot, generic⟩

def markAll (marks : Offsets) (labels : List Label) : Offsets :=
  labels.foldl (fun marks l => marks.insert l.number.toNat) marks

def uninitSites (f : Frame) : List Label :=
  (f.locals ++ f.stack).filterMap fun
    | .uninit site => some site
    | _ => none

def decodeFrames (ctx : BodyContext) (length : Nat) (body : Bytes) :
    Except FormatError (List (Nat × Frame)) := do
  let d ← MethodDescriptor.parse ctx.desc
  let frames ← StackMap.decode ctx.pool (entryLocals ctx.owner ctx.access ctx.name d) body
  match frames.find? fun f => length ≤ f.1 with
  | some (pc, _) => throw (.badAttribute (.frameOutside pc length))
  | none => return frames

/-- Adds what one attribute of a body says. -/
def addTable (ctx : BodyContext) (length : Nat) (t : BodyTables) (a : Attribute) :
    Except FormatError BodyTables := do
  match a.name with
  | "StackMapTable" =>
    let frames ← decodeFrames ctx length a.data
    let marks := frames.foldl (fun marks f => (markAll marks (uninitSites f.2)).insert f.1) t.marks
    return { t with marks := marks, frames := frames }
  | "LineNumberTable" =>
    let entries ← (Reader.counted readLine).runOn a.data
    let kept := entries.filter fun e => e.1 < length
    return { t with
      lines := kept.foldl (fun lines e => lines.alter e.1 fun known =>
        some (e.2 :: known.getD [])) t.lines }
  | "LocalVariableTable" | "LocalVariableTypeTable" =>
    let generic := a.name == "LocalVariableTypeTable"
    let entries ← (Reader.counted (readLocal ctx.pool length generic)).runOn a.data
    let kept := entries.filterMap id
    return { t with
      marks := kept.foldl (fun marks v => markAll marks [v.start, v.finish]) t.marks
      locals := t.locals ++ kept }
  | _ => return t

def readTables (ctx : BodyContext) (length : Nat) : Nat → BodyTables → Reader BodyTables
  | 0, t => pure t
  | n + 1, t => do
    let a ← readAttribute ctx.pool
    let t ← addTable ctx length t a
    readTables ctx length n t

def withMarks (decoded : List (Nat × Insn)) (t : BodyTables) (length : Nat) : List Insn :=
  let body := decoded.flatMap fun (pc, insn) =>
    let label := if t.marks.contains pc then [Insn.label (Label.ofNat pc)] else []
    label ++ ((t.lines[pc]?).getD []).reverse.map Insn.line ++ [insn]
  if t.marks.contains length then body ++ [.label (Label.ofNat length)] else body

def readCode (ctx : BodyContext) : Reader Code := do
  let maxStack ← Reader.u16
  let maxLocals ← Reader.u16
  let length := (← Reader.u32).toNat
  let bytes ← Reader.take length
  let decoded ← InsnDecode.decode ctx.pool ctx.bootstraps bytes
  let handlers ← Reader.counted (readHandler ctx.pool length)
  let branchMarks := decoded.foldl (fun marks d => markAll marks d.2.targets) (∅ : Offsets)
  let marks := handlers.foldl
    (fun marks h => markAll marks [h.start, h.finish, h.target]) branchMarks
  let count ← Reader.u16
  let t ← readTables ctx length count.toNat ⟨marks, ∅, [], []⟩
  let starts : Offsets := decoded.foldl (fun starts d => starts.insert d.1) ∅
  match t.marks.toList.find? fun pc => pc != length && !starts.contains pc with
  | some pc => throw (.badAttribute (.notABoundary pc))
  | none =>
    return {
      maxStack := maxStack
      maxLocals := maxLocals
      insns := withMarks decoded t length
      handlers := handlers
      locals := t.locals
      frames := some (t.frames.map fun (pc, frame) => (Label.ofNat pc, frame))
      hints := []
      nextLabel := UInt32.ofNat length + 1 }

/-- Decodes the body of a stored method; of several `Code` attributes the last one counts. -/
def decodeMethod (pool : Pool) (bootstraps : BootstrapTable) (owner : String)
    (m : StoredMethod) : Except FormatError Method := do
  let bodies := m.attributes.filter (·.name == "Code")
  let code ← match bodies.getLast? with
    | some body =>
      some <$> (readCode ⟨pool, bootstraps, owner, m.access, m.name, m.desc⟩).runOn body.data
    | none => pure none
  return ⟨m.access, m.name, m.desc, code, m.attributes.filter (·.name != "Code")⟩

def attribute? (attributes : List Attribute) (name : String) : Option Attribute :=
  attributes.find? (·.name == name)

def bootstrapsOf (attributes : List Attribute) : Except FormatError BootstrapTable :=
  match attribute? attributes BootstrapTable.attributeName with
  | some a => BootstrapTable.parse a.data
  | none => .ok BootstrapTable.empty

def read : Reader ClassFile := do
  let (minor, major, pool) ← Header.readOpening
  let (access, header) ← Header.readNames pool
  let fields ← Reader.counted (readField pool)
  let stored ← Reader.counted (readMethod pool)
  let attributes ← readAttributes pool
  let left ← Reader.remaining
  if left ≠ 0 then throw (.badAttribute (.fileTrailing left))
  let bootstraps ← bootstrapsOf attributes
  let methods ← stored.mapM fun m => decodeMethod pool bootstraps header.name m
  return {
    minor := minor
    major := major
    pool := pool
    access := access
    name := header.name
    superName := header.superName
    interfaces := header.interfaces
    fields := fields
    methods := methods
    attributes := attributes }

def parse (bytes : Bytes) : Except FormatError ClassFile := read.runOn bytes

end ClassFile

end ClassWeave
