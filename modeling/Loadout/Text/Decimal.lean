/-
# Decimal numbers of 64 bits

Components of versions are written in decimal digits.  A number is read from the
left; reading stops at the first character that is no ASCII digit, or as soon as
the value leaves the range of 64 bits, whichever comes first, and the two are
different faults.

The wildcard forms of a version term (`1.x`) admit every digit that has the
Unicode property `Nd` where they look for a number, so that `١.x` has the shape of
a wildcard and then fails as a number.  `isDigit` is that property: its
characters come in runs of ten, and `digitZeros` lists the zero of each run.
-/

namespace Loadout
namespace Text

/-- Why a text is no decimal number of 64 bits. -/
inductive DecimalFault where
  /-- the text is empty -/
  | empty
  /-- a character is not one of the ten ASCII digits -/
  | invalidDigit
  /-- the value does not fit 64 bits -/
  | tooLarge
  deriving DecidableEq, Repr

namespace DecimalFault

/-- The wording of each fault. -/
def message : DecimalFault → String
  | empty => "cannot parse integer from empty string"
  | invalidDigit => "invalid digit found in string"
  | tooLarge => "number too large to fit in target type"

end DecimalFault

/-- The value of an ASCII digit. -/
def digitValue? (c : Char) : Option Nat :=
  if '0' ≤ c ∧ c ≤ '9' then some (c.toNat - '0'.toNat) else none

/-- Reads on from the value `acc` of the digits seen so far. -/
def readDigits (acc : Nat) : List Char → Except DecimalFault Nat
  | [] => .ok acc
  | c :: rest =>
    match digitValue? c with
    | none => .error .invalidDigit
    | some d => if acc * 10 + d < UInt64.size then readDigits (acc * 10 + d) rest else .error .tooLarge

/-- The 64-bit number written in decimal. -/
def readUInt64 (s : List Char) : Except DecimalFault UInt64 :=
  if s.isEmpty then .error .empty else (readDigits 0 s).map UInt64.ofNat

/-- The successor, which stops at the largest number of 64 bits. -/
def succSaturating (n : UInt64) : UInt64 :=
  if n.toNat + 1 < UInt64.size then n + 1 else n

/-- The code point of the zero of every run of ten decimal digits in Unicode 16. -/
def digitZeros : List Nat :=
  [0x0030, 0x0660, 0x06F0, 0x07C0, 0x0966, 0x09E6, 0x0A66, 0x0AE6, 0x0B66, 0x0BE6, 0x0C66, 0x0CE6,
   0x0D66, 0x0DE6, 0x0E50, 0x0ED0, 0x0F20, 0x1040, 0x1090, 0x17E0, 0x1810, 0x1946, 0x19D0, 0x1A80,
   0x1A90, 0x1B50, 0x1BB0, 0x1C40, 0x1C50, 0xA620, 0xA8D0, 0xA900, 0xA9D0, 0xA9F0, 0xAA50, 0xABF0,
   0xFF10, 0x104A0, 0x10D30, 0x10D40, 0x11066, 0x110F0, 0x11136, 0x111D0, 0x112F0, 0x11450, 0x114D0,
   0x11650, 0x116C0, 0x116D0, 0x116DA, 0x11730, 0x118E0, 0x11950, 0x11BF0, 0x11C50, 0x11D50, 0x11DA0,
   0x11F50, 0x16130, 0x16A60, 0x16AC0, 0x16B50, 0x16D70, 0x1CCF0, 0x1D7CE, 0x1D7D8, 0x1D7E2, 0x1D7EC,
   0x1D7F6, 0x1E140, 0x1E2F0, 0x1E4F0, 0x1E5F1, 0x1E950, 0x1FBF0]

/-- Whether a character is a decimal digit of any script. -/
def isDigit (c : Char) : Bool :=
  digitZeros.any fun z => z ≤ c.toNat && c.toNat < z + 10

/-- There are 760 of them. -/
example : digitZeros.length * 10 = 760 := by decide

end Text
end Loadout
