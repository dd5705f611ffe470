import ClassWeave.Bootstraps
import ClassWeave.Frame
import ClassWeave.Positions

/-!
# The stored form of frames

Frames are stored in order of their offsets, each as a change to the one before it: the same
locals, up to three locals less or more, or everything anew. The first frame changes the locals
on entry to the method. An offset is stored as the distance from the frame before, less one.
-/

set_option autoImplicit false

namespace ClassWeave.StackMap

def readType (p : Pool) : Reader VType := do
  match ← Reader.u8 with
  | 0 => return .top
  | 1 => return .int
  | 2 => return .float
  | 3 => return .double
  | 4 => return .long
  | 5 => return .null
  | 6 => return .uninitThis
  | 7 =>
    let index ← Reader.u16
    return .object (← p.className index)
  | 8 => return .uninit (Label.ofNat (← Reader.u16).toNat)
  | tag => throw (.badAttribute (.unknownTypeTag tag))

def readChange (p : Pool) (locals : List VType) : Reader (Nat × Frame) := do
  let tag ← Reader.u8
  let n := tag.toNat
  if n ≤ 63 then return (n, ⟨locals, []⟩)
  else if n ≤ 127 then
    let t ← readType p
    return (n - 64, ⟨locals, [t]⟩)
  else if n < 247 then throw (.badAttribute (.reservedFrame tag))
  else
    let distance := (← Reader.u16).toNat
    if n = 247 then
      let t ← readType p
      return (distance, ⟨locals, [t]⟩)
    else if n ≤ 250 then
      let chop := 251 - n
      if locals.length < chop then
        throw (.badAttribute (.chopTooLong chop locals.length))
      return (distance, ⟨locals.take (locals.length - chop), []⟩)
    else if n = 251 then return (distance, ⟨locals, []⟩)
    else if n ≤ 254 then
      let more ← Reader.times (n - 251) (readType p)
      return (distance, ⟨locals ++ more, []⟩)
    else
      let locals ← Reader.counted (readType p)
      let stack ← Reader.counted (readType p)
      return (distance, ⟨locals, stack⟩)

def advance (before : Option Nat) (distance : Nat) : Nat :=
  match before with
  | none => distance
  | some offset => offset + distance + 1

def readFrames (p : Pool) : Nat → Option Nat → List VType → List (Nat × Frame) →
    Reader (List (Nat × Frame))
  | 0, _, _, done => pure done.reverse
  | n + 1, before, locals, done => do
    let (distance, frame) ← readChange p locals
    let offset := advance before distance
    readFrames p n (some offset) frame.locals ((offset, frame) :: done)

/-- Reads a table into frames at absolute offsets; labels are named by their offsets. -/
def decode (p : Pool) (initial : List VType) (bytes : Bytes) :
    Except FormatError (List (Nat × Frame)) :=
  (do
    let n ← Reader.u16
    readFrames p n.toNat none initial [] : Reader _).runOn bytes

def writeType (positions : Positions) : VType → Pool.Growth Bytes
  | .top => pure [0]
  | .int => pure [1]
  | .float => pure [2]
  | .double => pure [3]
  | .long => pure [4]
  | .null => pure [5]
  | .uninitThis => pure [6]
  | .object name => do
    let index ← Pool.internClass name
    return 7 :: Bytes.be 2 index.toNat
  | .uninit site => do
    let pc ← positions.place site
    return 8 :: Bytes.be 2 pc

def writeVTypes (positions : Positions) (types : List VType) : Pool.Growth Bytes := do
  let written ← types.mapM (writeType positions)
  return written.flatten

/-- The most compact stored form of a frame at `distance` behind a frame with locals `before`. -/
def writeChange (positions : Positions) (distance : Nat) (before : List VType) (frame : Frame) :
    Pool.Growth Bytes := do
  let far := Bytes.be 2 distance
  let locals := frame.locals
  let full : Pool.Growth Bytes := do
    let localTypes ← writeVTypes positions locals
    let stackTypes ← writeVTypes positions frame.stack
    return 255 :: far ++ Bytes.be 2 locals.length ++ localTypes ++
      Bytes.be 2 frame.stack.length ++ stackTypes
  match frame.stack with
  | [] =>
    if locals = before then
      return if distance < 64 then [UInt8.ofNat distance] else 251 :: far
    else if locals.length < before.length ∧ before.length - locals.length ≤ 3 ∧
        locals.isPrefixOf before then
      return UInt8.ofNat (251 - (before.length - locals.length)) :: far
    else if before.length < locals.length ∧ locals.length - before.length ≤ 3 ∧
        before.isPrefixOf locals then
      let more ← writeVTypes positions (locals.drop before.length)
      return UInt8.ofNat (251 + (locals.length - before.length)) :: far ++ more
    else full
  | [t] =>
    if locals = before then
      let top ← writeType positions t
      return (if distance < 64 then [UInt8.ofNat (64 + distance)] else 247 :: far) ++ top
    else full
  | _ => full

def writeFrames (positions : Positions) : Option Nat → List VType → List (Nat × Frame) →
    List Bytes → Pool.Growth Bytes
  | _, _, [], done => pure done.reverse.flatten
  | before, locals, (offset, frame) :: rest, done => do
    let distance := match before with
      | none => offset
      | some earlier => offset - earlier - 1
    let change ← writeChange positions distance locals frame
    writeFrames positions (some offset) frame.locals rest (change :: done)

def encode (positions : Positions) (initial : List VType) (frames : List (Nat × Frame)) :
    Pool.Growth Bytes := do
  let changes ← writeFrames positions none initial frames []
  return Bytes.be 2 frames.length ++ changes

end ClassWeave.StackMap
