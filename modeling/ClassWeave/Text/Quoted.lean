import ClassWeave.Bytes.Hex
import ClassWeave.Text.Printable

/-!
# Quoted text

Text between double quotes: quotes and backslashes behind a backslash, tab, newline, carriage
return and NUL by their letters, and any other character that cannot be shown by its code point in
hexadecimal between braces.
-/

set_option autoImplicit false

namespace ClassWeave.Quoted

def encodeChar (c : Char) : List Char :=
  if c = '"' ∨ c = '\\' then ['\\', c]
  else if c = '\t' then ['\\', 't']
  else if c = '\n' then ['\\', 'n']
  else if c = '\r' then ['\\', 'r']
  else if c.toNat = 0 then ['\\', '0']
  else if isPrintable c then [c]
  else ['\\', 'u', '\x7b'] ++ Nat.toDigits 16 c.toNat ++ ['\x7d']

def encode (text : String) : String :=
  String.ofList ('"' :: text.toList.flatMap encodeChar ++ ['"'])

end ClassWeave.Quoted
