import ClassWeave.Bytes.Hex
import ClassWeave.Json

/-!
# Writing JSON

Without blanks, and with every character as it is except quotes, backslashes and controls. Half a
surrogate pair is written for what is void.
-/

set_option autoImplicit false

namespace ClassWeave.Json

def writeChar (out : String) (c : Char) : String :=
  if c = '"' ∨ c = '\\' then (out.push '\\').push c
  else if c.toNat < 0x20 then out ++ "\\u" ++ Hex.ofNatPadded 4 c.toNat
  else out.push c

def writeString (out : String) (text : String) : String :=
  (text.toList.foldl writeChar (out.push '"')).push '"'

mutual

def write (out : String) : Json → String
  | .null => out ++ "null"
  | .bool b => out ++ (if b then "true" else "false")
  | .int n => out ++ toString n
  | .real text => out ++ text
  | .str text => writeString out text
  | .void => out ++ "\"\\ud800\""
  | .arr [] => out ++ "[]"
  | .arr (v :: rest) => (writeItems (write (out.push '[') v) rest).push ']'
  | .obj [] => out ++ "\x7b\x7d"
  | .obj ((name, v) :: rest) =>
    (writeMembers (write ((writeString (out.push '\x7b') name).push ':') v) rest).push '\x7d'

def writeItems (out : String) : List Json → String
  | [] => out
  | v :: rest => writeItems (write (out.push ',') v) rest

def writeMembers (out : String) : List (String × Json) → String
  | [] => out
  | (name, v) :: rest =>
    writeMembers (write ((writeString (out.push ',') name).push ':') v) rest

end

def text (v : Json) : String := write "" v

end ClassWeave.Json
