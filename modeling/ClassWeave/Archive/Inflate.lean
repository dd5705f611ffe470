import ClassWeave.Bytes

/-!
# Inflating

Packed data is a row of blocks, read bit by bit from the lowest bit of each byte. A block holds
bytes as they are, or symbols of two codes: one for single bytes, the end of the block and the
lengths of copies, one for how far back a copy begins. A code is given by the number of bits of each
of its symbols. What is read before the data breaks off counts.
-/

set_option autoImplicit false

namespace ClassWeave.Archive

inductive InflateFault where
  | brokenOff
  | corrupt

/-- The bits that are left, and the bytes that have been unpacked. -/
structure InflateState where
  bits : List Bool
  unpacked : Array UInt8

abbrev Inflater := ExceptT InflateFault (StateM InflateState)

namespace Inflater

def corrupt {α : Type} : Inflater α := throw .corrupt

def bits (n : Nat) : Inflater Nat := do
  let s ← get
  let taken := s.bits.take n
  if taken.length < n then throw .brokenOff
  set { s with bits := s.bits.drop n }
  return taken.foldr (fun b value => value * 2 + b.toNat) 0

def emit (b : UInt8) : Inflater Unit := modify fun s => { s with unpacked := s.unpacked.push b }

/-- Copies bytes from `distance` back, which may be bytes of the copy itself. -/
def copy (distance : Nat) : Nat → Inflater Unit
  | 0 => pure ()
  | n + 1 => do
    let unpacked := (← get).unpacked
    match unpacked[unpacked.size - distance]? with
    | some b =>
      emit b
      copy distance n
    | none => corrupt

/-- How many symbols have one bit, two bits and so on, and the symbols in that order. -/
structure Code where
  counts : List Nat
  symbols : Array Nat

def maxBits : Nat := 15

/-- The code with the given number of bits for each symbol, from zero on; no bits, no symbol. -/
def Code.ofLengths (lengths : List Nat) : Code :=
  let sizes := (List.range maxBits).map (· + 1)
  { counts := sizes.map fun size => lengths.count size
    symbols := (sizes.flatMap fun size =>
      (lengths.zipIdx.filter fun l => l.1 == size).map Prod.snd).toArray }

def Code.room (c : Code) : Nat := c.counts.foldl (fun room count => room * 2 + count) 0

/-- A code has to take all the room. One of a single symbol may leave room, if `sparse` says so. -/
def Code.isSound (c : Code) (sparse : Bool) : Bool :=
  c.room == Nat.pow 2 maxBits || (sparse && c.symbols.size ≤ 1)

/-- The symbol of the next bits. `first` is the first word of the present size, `skipped` the number
of symbols with fewer bits. -/
def symbolFrom (symbols : Array Nat) : List Nat → Nat → Nat → Nat → Inflater Nat
  | [], _, _, _ => corrupt
  | count :: counts, word, first, skipped => do
    let word := word * 2 + (← bits 1)
    let first := first * 2
    if word < first + count then
      match symbols[skipped + (word - first)]? with
      | some s => return s
      | none => corrupt
    else symbolFrom symbols counts word (first + count) (skipped + count)

def symbol (c : Code) : Inflater Nat := symbolFrom c.symbols c.counts 0 0 0

/-- The least length of each copy symbol and the number of bits that are added to it. -/
def lengthSteps : List (Nat × Nat) := [(3, 0), (4, 0), (5, 0), (6, 0), (7, 0), (8, 0), (9, 0),
  (10, 0), (11, 1), (13, 1), (15, 1), (17, 1), (19, 2), (23, 2), (27, 2), (31, 2), (35, 3), (43, 3),
  (51, 3), (59, 3), (67, 4), (83, 4), (99, 4), (115, 4), (131, 5), (163, 5), (195, 5), (227, 5),
  (258, 0)]

/-- The least distance of each distance symbol and the number of bits that are added to it. -/
def distanceSteps : List (Nat × Nat) := [(1, 0), (2, 0), (3, 0), (4, 0), (5, 1), (7, 1), (9, 2),
  (13, 2), (17, 3), (25, 3), (33, 4), (49, 4), (65, 5), (97, 5), (129, 6), (193, 6), (257, 7),
  (385, 7), (513, 8), (769, 8), (1025, 9), (1537, 9), (2049, 10), (3073, 10), (4097, 11),
  (6145, 11), (8193, 12), (12289, 12), (16385, 13), (24577, 13)]

def stepped (steps : List (Nat × Nat)) (symbol : Nat) : Inflater Nat :=
  match steps[symbol]? with
  | some (least, extra) => do return least + (← bits extra)
  | none => corrupt

def endOfBlock : Nat := 256

/-- The symbols of a block. Each takes a bit at least, so the bits that are left bound them. -/
def block (bytes distances : Code) : Nat → Inflater Unit
  | 0 => corrupt
  | fuel + 1 => do
    let s ← symbol bytes
    if s < endOfBlock then
      emit (UInt8.ofNat s)
      block bytes distances fuel
    else if s = endOfBlock then return
    else
      let length ← stepped lengthSteps (s - endOfBlock - 1)
      let distance ← stepped distanceSteps (← symbol distances)
      if (← get).unpacked.size < distance then corrupt
      copy distance length
      block bytes distances fuel

def bitsLeft : Inflater Nat := do return (← get).bits.length

def standardBytes : Code := Code.ofLengths (List.replicate 144 8 ++ List.replicate 112 9 ++
  List.replicate 24 7 ++ List.replicate 8 8)

def standardDistances : Code := Code.ofLengths (List.replicate 32 5)

def sizeOrder : List Nat := [16, 17, 18, 0, 8, 7, 9, 6, 10, 5, 11, 4, 12, 3, 13, 2, 14, 1, 15]

def times {α : Type} (r : Inflater α) : Nat → Inflater (List α)
  | 0 => return []
  | n + 1 => do
    let a ← r
    let rest ← times r n
    return a :: rest

def sizes (c : Code) (wanted : Nat) : Nat → List Nat → Inflater (List Nat)
  | 0, _ => corrupt
  | fuel + 1, done => do
    if wanted < done.length then corrupt
    if wanted = done.length then return done.reverse
    let s ← symbol c
    if s < 16 then sizes c wanted fuel (s :: done)
    else if s = 16 then
      match done with
      | [] => corrupt
      | last :: _ => sizes c wanted fuel (List.replicate (3 + (← bits 2)) last ++ done)
    else if s = 17 then sizes c wanted fuel (List.replicate (3 + (← bits 3)) 0 ++ done)
    else sizes c wanted fuel (List.replicate (11 + (← bits 7)) 0 ++ done)

def ownCodes : Inflater (Code × Code) := do
  let byteCount := 257 + (← bits 5)
  let distanceCount := 1 + (← bits 5)
  let given ← times (bits 3) (4 + (← bits 4))
  let ordered := (List.range 19).map fun s => ((sizeOrder.zip given).lookup s).getD 0
  let sizeCode := Code.ofLengths ordered
  if !sizeCode.isSound false then corrupt
  let all ← sizes sizeCode (byteCount + distanceCount) (byteCount + distanceCount + 1) []
  let bytes := Code.ofLengths (all.take byteCount)
  let distances := Code.ofLengths (all.drop byteCount)
  if !bytes.isSound true || !distances.isSound true then corrupt
  return (bytes, distances)

def plainBlock : Inflater Unit := do
  let _ ← bits ((← bitsLeft) % 8)
  let length ← bits 16
  let complement ← bits 16
  if length + complement ≠ 0xFFFF then corrupt
  let _ ← times (do emit (UInt8.ofNat (← bits 8))) length

def blocks : Nat → Inflater Unit
  | 0 => corrupt
  | fuel + 1 => do
    let last ← bits 1
    let kind ← bits 2
    match kind with
    | 0 => plainBlock
    | 1 => block standardBytes standardDistances ((← bitsLeft) + 1)
    | 2 =>
      let (bytes, distances) ← ownCodes
      block bytes distances ((← bitsLeft) + 1)
    | _ => corrupt
    if last = 1 then return
    blocks fuel

end Inflater

def bitsOf (b : UInt8) : List Bool := (List.range 8).map b.toNat.testBit

def inflate? (packed : Bytes) : Option Bytes :=
  let bits := packed.flatMap bitsOf
  match (Inflater.blocks (bits.length + 1)).run.run ⟨bits, #[]⟩ with
  | (.error .corrupt, _) => none
  | (_, s) => some s.unpacked.toList

end ClassWeave.Archive
