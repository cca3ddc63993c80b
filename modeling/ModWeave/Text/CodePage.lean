/-! The code page that names in zip containers are written in when nothing else is stated. -/
namespace ModWeave.Text

/-- The characters of code page 437 from 0x80 on. -/
def codePage437 : List Char :=
  ("ÇüéâäàåçêëèïîìÄÅÉæÆôöòûùÿÖÜ¢£¥₧ƒáíóúñÑªº¿⌐¬½¼¡«»░▒▓│┤╡╢╖╕╣║╗╝╜╛┐└┴┬├─┼╞╟╚╔╩╦╠═╬╧╨╤╥╙╘╒╓╫╪┘┌█▄▌▐▀" ++
    "αßΓπΣσµτΦΘΩδ∞φε∩≡±≥≤⌠⌡÷≈°∙·√ⁿ²■\u00A0").toList

/-- The character of a byte; the lower half is that of ASCII. -/
def ofCodePage437 (b : UInt8) : Char :=
  if b < 0x80 then Char.ofNat b.toNat else codePage437.getD (b.toNat - 0x80) '\uFFFD'

end ModWeave.Text
