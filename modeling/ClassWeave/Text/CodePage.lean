import ClassWeave.Bytes

/-!
# Code page 437

One character a byte. The lower half is ASCII; the upper half holds letters with accents, line
drawing and mathematical signs.
-/

set_option autoImplicit false

namespace ClassWeave.CodePage

def upperHalf : List Char :=
  "ÇüéâäàåçêëèïîìÄÅÉæÆôöòûùÿÖÜ¢£¥₧ƒáíóúñÑªº¿⌐¬½¼¡«»░▒▓│┤╡╢╖╕╣║╗╝╜╛┐".toList ++
    "└┴┬├─┼╞╟╚╔╩╦╠═╬╧╨╤╥╙╘╒╓╫╪┘┌█▄▌▐▀αßΓπΣσµτΦΘΩδ∞φε∩≡±≥≤⌠⌡÷≈°∙·√ⁿ²■\u00A0".toList

def char (b : UInt8) : Char :=
  if b < 0x80 then Char.ofNat b.toNat else upperHalf.getD (b.toNat - 0x80) ' '

def decode (bytes : Bytes) : String := String.ofList (bytes.map char)

end ClassWeave.CodePage
