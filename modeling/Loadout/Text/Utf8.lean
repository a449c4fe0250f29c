/-
# Reading UTF-8 leniently

A character is one byte below 128, or a leading byte with one to three bytes behind
it, the first of which may be restricted further.

    leading    behind it   the next one
    C2 to DF       1       80 to BF
    E0             2       A0 to BF
    E1 to EF       2       80 to BF, after ED to 9F only
    F0             3       90 to BF
    F1 to F3       3       80 to BF
    F4             3       80 to 8F

Bytes that start a character and do not end it are replaced by one U+FFFD together,
and so is each other byte that has no place.
-/

namespace Loadout
namespace Utf8

/-- A character of which some bytes are still to come. -/
structure Pending where
  /-- how many bytes are to come behind the next one -/
  behind : Nat
  /-- the least next byte -/
  low : Nat
  /-- the greatest next byte -/
  high : Nat
  /-- the bits of the bytes so far -/
  bits : Nat
  deriving DecidableEq, Repr

/-- What stands for bytes that are no character. -/
def replacement : Char := '\ufffd'

/-- The character that a leading byte starts. -/
def leading? (b : Nat) : Option Pending :=
  if b < 0xC2 then none
  else if b < 0xE0 then some ⟨0, 0x80, 0xBF, b - 0xC0⟩
  else if b < 0xF0 then
    some ⟨1, if b = 0xE0 then 0xA0 else 0x80, if b = 0xED then 0x9F else 0xBF, b - 0xE0⟩
  else if b < 0xF5 then
    some ⟨2, if b = 0xF0 then 0x90 else 0x80, if b = 0xF4 then 0x8F else 0xBF, b - 0xF0⟩
  else none

/-- Reads a byte at the start of a character. -/
def first (b : Nat) : List Char × Option Pending :=
  if b < 0x80 then ([Char.ofNat b], none)
  else
    match leading? b with
    | some p => ([], some p)
    | none => ([replacement], none)

/-- Reads a byte inside of a character.  A byte that does not belong there starts the
next character. -/
def next (p : Pending) (b : Nat) : List Char × Option Pending :=
  if p.low ≤ b && b ≤ p.high then
    let bits := p.bits * 64 + (b - 0x80)
    match p.behind with
    | 0 => ([Char.ofNat bits], none)
    | n + 1 => ([], some ⟨n, 0x80, 0xBF, bits⟩)
  else ((replacement :: (first b).1), (first b).2)

/-- The characters of bytes, given the character that is not complete. -/
def decodeFrom : Option Pending → List UInt8 → List Char
  | none, [] => []
  | some _, [] => [replacement]
  | none, b :: rest => (first b.toNat).1 ++ decodeFrom (first b.toNat).2 rest
  | some p, b :: rest => (next p b.toNat).1 ++ decodeFrom (next p b.toNat).2 rest

/-- The text of bytes. -/
def decode (bytes : List UInt8) : String := String.ofList (decodeFrom none bytes)

/-- The euro sign takes three bytes; one that breaks off is replaced as a whole. -/
example : decodeFrom none [0xE2, 0x82, 0xAC, 0xE2, 0x82, 0x61] = ['€', '\ufffd', 'a'] := by
  decide

/-- A surrogate is no character, so none of its bytes has a place. -/
example : decodeFrom none [0xED, 0xA0, 0x80] = ['\ufffd', '\ufffd', '\ufffd'] := by
  decide

end Utf8
end Loadout
