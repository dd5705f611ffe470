import ClassWeave.Bytes.Hex
import ClassWeave.Json.Range

/-!
# Reading JSON

Each step takes at least one character, so the length of the text bounds the steps. A text holds
one value with blanks around it.
-/

set_option autoImplicit false

namespace ClassWeave.Json

def isSpace (c : Char) : Bool := c == ' ' || c == '\n' || c == '\r' || c == '\t'

def skipSpace (cs : List Char) : List Char := cs.dropWhile isSpace

def isDigit (c : Char) : Bool := '0' ≤ c && c ≤ '9'

def readUnit (cs : List Char) : Option (Nat × List Char) :=
  match cs with
  | a :: b :: c :: d :: rest => (Hex.toNat? [a, b, c, d]).map (·, rest)
  | _ => none

def readSecondHalf (u : Nat) : List Char → Option (Char × List Char)
  | '\\' :: 'u' :: rest => do
    let (v, rest) ← readUnit rest
    match Utf16.decode? [u, v] with
    | some [c] => return (c, rest)
    | _ => none
  | _ => none

/-- What stands behind `\u`: a character, of one unit or two, or half a surrogate pair. -/
def readEscapedUnit (cs : List Char) : Option (Option Char × List Char) := do
  let (u, rest) ← readUnit cs
  match Utf16.decode? [u] with
  | some [c] => return (some c, rest)
  | _ =>
    match readSecondHalf u rest with
    | some (c, rest) => return (some c, rest)
    | none => return (none, rest)

def escapedChars : List (Char × Char) :=
  [('"', '"'), ('\\', '\\'), ('/', '/'), ('b', '\x08'), ('f', '\x0c'), ('n', '\n'), ('r', '\r'),
    ('t', '\t')]

/-- The characters of a string up to its closing quote, behind those in `done`, last first; without
`done` the string holds half a surrogate pair. -/
def readString : Nat → List Char → Option (List Char) → Option (Option String × List Char)
  | 0, _, _ => none
  | fuel + 1, cs, done =>
    match cs with
    | [] => none
    | '"' :: rest => some (done.map fun done => String.ofList done.reverse, rest)
    | '\\' :: 'u' :: rest =>
      match readEscapedUnit rest with
      | some (c, rest) => readString fuel rest (do return (← c) :: (← done))
      | none => none
    | '\\' :: c :: rest =>
      match escapedChars.lookup c with
      | some c => readString fuel rest (done.map (c :: ·))
      | none => none
    | c :: rest => if c.toNat < 0x20 then none else readString fuel rest (done.map (c :: ·))

def ofText : Option String → Json
  | some text => .str text
  | none => .void

def readDigits (cs : List Char) : Option (List Char × List Char) :=
  let digits := cs.takeWhile isDigit
  if digits.isEmpty then none else some (digits, cs.dropWhile isDigit)

def readWhole (cs : List Char) : Option (List Char × List Char) :=
  match cs with
  | '0' :: rest => some (['0'], rest)
  | _ => readDigits cs

def readFraction (cs : List Char) : Option (List Char × List Char) :=
  match cs with
  | '.' :: rest => (readDigits rest).map fun (digits, rest) => ('.' :: digits, rest)
  | _ => some ([], cs)

def readExponent (cs : List Char) : Option ((List Char × Int) × List Char) :=
  match cs with
  | [] => some (([], 0), [])
  | e :: rest =>
    if e = 'e' ∨ e = 'E' then
      match rest with
      | s :: rest' =>
        if s = '+' ∨ s = '-' then
          (readDigits rest').map fun (digits, rest) =>
            let value : Int := digitsValue digits
            ((e :: s :: digits, if s = '-' then -value else value), rest)
        else (readDigits rest).map fun (digits, rest) => ((e :: digits, digitsValue digits), rest)
      | [] => none
    else some (([], 0), cs)

def readNumber (cs : List Char) : Option (Json × List Char) := do
  let (negative, unsigned) := match cs with
    | '-' :: rest => (true, rest)
    | _ => (false, cs)
  let (whole, rest) ← readWhole unsigned
  let (fraction, rest) ← readFraction rest
  let ((exponent, power), rest) ← readExponent rest
  let value := digitsValue whole
  if isOutOfRange whole (fraction.drop 1) power then return (.void, rest)
  if fraction.isEmpty && exponent.isEmpty && !(negative && value == 0) then
    return (.int (if negative then -(value : Int) else value), rest)
  let sign := if negative then ['-'] else []
  return (.real (String.ofList (sign ++ whole ++ fraction ++ exponent)), rest)

def ofMembers (members : List (Option String × Json)) : Json :=
  match members.mapM fun m => m.1.map (·, m.2) with
  | some members => .obj members
  | none => .void

def readWord (word : String) (value : Json) (cs : List Char) : Option (Json × List Char) :=
  if word.toList.isPrefixOf cs then some (value, cs.drop word.length) else none

mutual

def readValue : Nat → List Char → Option (Json × List Char)
  | 0, _ => none
  | fuel + 1, cs =>
    match skipSpace cs with
    | [] => none
    | '"' :: rest => (readString fuel rest (some [])).map fun (s, rest) => (ofText s, rest)
    | '[' :: rest =>
      match skipSpace rest with
      | ']' :: rest => some (.arr [], rest)
      | rest => readItems fuel rest []
    | '\x7b' :: rest =>
      match skipSpace rest with
      | '\x7d' :: rest => some (.obj [], rest)
      | rest => readMembers fuel rest []
    | 'n' :: rest => readWord "null" .null ('n' :: rest)
    | 't' :: rest => readWord "true" (.bool true) ('t' :: rest)
    | 'f' :: rest => readWord "false" (.bool false) ('f' :: rest)
    | cs => readNumber cs

def readItems : Nat → List Char → List Json → Option (Json × List Char)
  | 0, _, _ => none
  | fuel + 1, cs, done =>
    match readValue fuel cs with
    | none => none
    | some (v, rest) =>
      match skipSpace rest with
      | ',' :: rest => readItems fuel rest (v :: done)
      | ']' :: rest => some (.arr (v :: done).reverse, rest)
      | _ => none

def readMembers : Nat → List Char → List (Option String × Json) → Option (Json × List Char)
  | 0, _, _ => none
  | fuel + 1, cs, done =>
    match skipSpace cs with
    | '"' :: rest =>
      match readString fuel rest (some []) with
      | none => none
      | some (name, rest) =>
        match skipSpace rest with
        | ':' :: rest =>
          match readValue fuel rest with
          | none => none
          | some (v, rest) =>
            match skipSpace rest with
            | ',' :: rest => readMembers fuel rest ((name, v) :: done)
            | '\x7d' :: rest => some (ofMembers ((name, v) :: done).reverse, rest)
            | _ => none
        | _ => none
    | _ => none

end

def parse (text : String) : Option Json :=
  let cs := text.toList
  match readValue (cs.length + 1) cs with
  | some (v, rest) => if (skipSpace rest).isEmpty then some v else none
  | none => none

end ClassWeave.Json
