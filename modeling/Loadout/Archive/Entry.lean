/-
# Entries of an archive

An entry has a name, a comment and some numbers that tell how and where its bytes
are stored.  Flag 11 marks texts in UTF-8; bytes that are none are replaced.  Other
texts have one character for every byte, in the order of code page 437.
-/

import Loadout.Text.Utf8

namespace Loadout

/-- One entry of an archive. -/
structure ZipEntry where
  name : String
  /-- the bytes that the name was read from -/
  rawName : List UInt8
  comment : String
  flags : Nat
  /-- how the bytes are packed, 0 if they are not -/
  method : Nat
  /-- whether the bytes are encrypted in a way that needs a field of its own -/
  isSealed : Bool
  checksum : Nat
  /-- the number of bytes as stored -/
  size : Nat
  /-- the number of bytes when unpacked -/
  fullSize : Nat
  /-- the place of its local record -/
  header : Nat
  deriving DecidableEq, Repr

namespace ZipEntry

/-- The method of entries that are encrypted in a way that needs a field of its own. -/
def sealedMethod : Nat := 99

/-- The characters of the bytes from 128 on in code page 437. -/
def highCharacters : List Char :=
  ("ÇüéâäàåçêëèïîìÄÅÉæÆôöòûùÿÖÜ¢£¥₧ƒáíóúñÑªº¿⌐¬½¼¡«»░▒▓│┤╡╢╖╕╣║╗╝╜╛┐└┴┬├─┼╞╟╚╔╩╦╠═╬╧╨╤╥╙╘╒╓╫╪┘┌█▄▌▐▀" ++
    "αßΓπΣσµτΦΘΩδ∞φε∩≡±≥≤⌠⌡÷≈°∙·√ⁿ²■\u00a0").toList

/-- The character of a byte in code page 437. -/
def character (b : UInt8) : Char :=
  if b.toNat < 128 then Char.ofNat b.toNat else highCharacters.getD (b.toNat - 128) ' '

/-- The text of bytes in an entry with some flags. -/
def decodeText (flags : Nat) (raw : List UInt8) : String :=
  if flags.testBit 11 then Utf8.decode raw else String.ofList (raw.map character)

/-- Whether the bytes of an entry are stored as they are: neither packed nor encrypted. -/
def isPlain (e : ZipEntry) : Bool := e.method == 0 && !e.flags.testBit 0 && !e.isSealed

end ZipEntry
end Loadout
