import ClassWeave.Bytes

/-!
# UTF-8 with gaps

Reads bytes as text whatever they are. Each longest start of a character that does not go on as it
should, and each byte that starts no character, becomes one replacement character.
-/

set_option autoImplicit false

namespace ClassWeave.Utf8

/-- A character that has begun: how many bytes are missing, the range of the next, and the bits read
so far. -/
structure Pending where
  missing : Nat
  low : UInt8
  high : UInt8
  value : Nat

def replacement : Char := '\uFFFD'

/-- The character that begins with a byte; the ranges leave out long forms, surrogates and what lies
above the last code point. -/
def pendingOf? (b : UInt8) : Option Pending :=
  let value := b.toNat
  if 0xC2 ≤ b && b ≤ 0xDF then some ⟨1, 0x80, 0xBF, value % 32⟩
  else if b = 0xE0 then some ⟨2, 0xA0, 0xBF, value % 16⟩
  else if b = 0xED then some ⟨2, 0x80, 0x9F, value % 16⟩
  else if 0xE1 ≤ b && b ≤ 0xEF then some ⟨2, 0x80, 0xBF, value % 16⟩
  else if b = 0xF0 then some ⟨3, 0x90, 0xBF, value % 8⟩
  else if 0xF1 ≤ b && b ≤ 0xF3 then some ⟨3, 0x80, 0xBF, value % 8⟩
  else if b = 0xF4 then some ⟨3, 0x80, 0x8F, value % 8⟩
  else none

def start (b : UInt8) : List Char × Option Pending :=
  if b < 0x80 then ([Char.ofNat b.toNat], none)
  else match pendingOf? b with
    | some p => ([], some p)
    | none => ([replacement], none)

def Pending.next (p : Pending) (b : UInt8) : List Char × Option Pending :=
  if p.low ≤ b && b ≤ p.high then
    let value := p.value * 64 + b.toNat % 64
    if p.missing ≤ 1 then ([Char.ofNat value], none)
    else ([], some ⟨p.missing - 1, 0x80, 0xBF, value⟩)
  else
    let (read, pending) := start b
    (replacement :: read, pending)

def charsAfter : Option Pending → Bytes → List Char
  | none, [] => []
  | some _, [] => [replacement]
  | none, b :: rest =>
    let (read, pending) := start b
    read ++ charsAfter pending rest
  | some p, b :: rest =>
    let (read, pending) := p.next b
    read ++ charsAfter pending rest

def mend (bytes : Bytes) : String := String.ofList (charsAfter none bytes)

end ClassWeave.Utf8
