/-
# Numbers, dates and truth values in TOML

Whatever is not in quotes or brackets is a run of letters, digits and the signs
`+ - _ : .`, and the run as a whole has to be a number, a date, a time or a truth
value.  A date and a time may also stand in two runs with a space between.

Digits may have single underscores between them.  Integers have 64 bits with a sign,
and the sign stands before decimal digits alone.  Of a fraction or a date it only
matters that it is one, so neither has a value here.
-/

import Loadout.Json.Reader

namespace Loadout
namespace Toml

/-- Whether a character may stand in a run. -/
def isRunChar (c : Char) : Bool := c.isAlphanum || "+-_:.".toList.contains c

/-- The digits of a text in which single underscores stand between digits. -/
def digits? (isDigit : Char → Bool) : List Char → Option (List Char)
  | [] => none
  | [c] => if isDigit c then some [c] else none
  | c :: '_' :: rest => if isDigit c then (digits? isDigit rest).map (c :: ·) else none
  | c :: rest => if isDigit c then (digits? isDigit rest).map (c :: ·) else none

/-- A text without its sign, and whether the sign is a minus. -/
def splitSign : List Char → Bool × List Char
  | '+' :: rest => (false, rest)
  | '-' :: rest => (true, rest)
  | s => (false, s)

/-- The value of digits in a base. -/
def valueOf (base : Nat) (digits : List Char) : Nat :=
  digits.foldl (fun n c => n * base + (Json.hexValue? c).getD 0) 0

/-- The digits of a decimal number, which has no zero before other digits. -/
def decimalDigits? (s : List Char) : Option (List Char) := do
  let digits ← digits? Char.isDigit s
  if digits.length > 1 && digits.head? == some '0' then none else return digits

/-- The largest integer of 64 bits with a sign. -/
def largest : Nat := 0x7FFFFFFFFFFFFFFF

/-- An integer; one below zero has no value as a natural number. -/
def integer? (s : List Char) : Option Json := do
  let inBase (base : Nat) (digits : List Char) : Option Json := do
    let n := valueOf base (← digits? (fun c => (Json.hexValue? c).any (· < base)) digits)
    if n ≤ largest then return .number (some n) else none
  match s with
  | '0' :: 'x' :: rest => inBase 16 rest
  | '0' :: 'o' :: rest => inBase 8 rest
  | '0' :: 'b' :: rest => inBase 2 rest
  | s =>
    let (negative, rest) := splitSign s
    let n := valueOf 10 (← decimalDigits? rest)
    if negative then if n ≤ largest + 1 then return .number (if n = 0 then some 0 else none) else none
    else if n ≤ largest then return .number (some n) else none

/-- Whether `n * 10 ^ exponent` is too large for a fraction of 64 bits: it is no less
than the middle between the largest one and the next power of two. -/
def overflows (n : Nat) (exponent : Int) : Bool :=
  let length : Int := (Nat.repr n).length
  if n = 0 || length + exponent < 309 then false
  else if 309 < length + exponent then true
  else Nat.pow 10 (-exponent).toNat * (Nat.pow 2 1024 - Nat.pow 2 970) ≤ n * Nat.pow 10 exponent.toNat

/-- The exponent of a fraction, from behind its letter. -/
def exponent? (s : List Char) : Option Int := do
  let (negative, rest) := splitSign s
  let n := valueOf 10 (← digits? Char.isDigit rest)
  return if negative then -n else n

/-- A fraction: digits, a point with digits behind it, and an exponent; one of the
last two may be missing. -/
def fraction? (s : List Char) : Option Json := do
  let (negative, s) := splitSign s
  let (mantissa, exponent) := s.span fun c => c != 'e' && c != 'E'
  let (whole, point) := mantissa.span (· != '.')
  if exponent.isEmpty && point.isEmpty then none
  else
    let e ← if exponent.isEmpty then some 0 else exponent? (exponent.drop 1)
    let front ← decimalDigits? whole
    let behind ← if point.isEmpty then some [] else digits? Char.isDigit (point.drop 1)
    let n := valueOf 10 (front ++ behind)
    if !negative && overflows n (e - behind.length) then none else return .number none

/-- A fraction that no digits can write. -/
def special? (s : List Char) : Option Json :=
  let (_, rest) := splitSign s
  if rest = "inf".toList || rest = "nan".toList then some (.number none) else none

/-- The number in two digits, within bounds. -/
def pair? (a b : Char) (low high : Nat) : Option Nat := do
  guard (a.isDigit && b.isDigit)
  let n := valueOf 10 [a, b]
  if low ≤ n ∧ n ≤ high then return n else none

/-- The number of days in a month. -/
def daysIn (year month : Nat) : Nat :=
  if month = 2 then
    if year % 4 = 0 ∧ (year % 100 ≠ 0 ∨ year % 400 = 0) then 29 else 28
  else if [4, 6, 9, 11].contains month then 30 else 31

/-- Whether a text is a day of the calendar. -/
def isDate : List Char → Bool
  | [y₁, y₂, y₃, y₄, '-', m₁, m₂, '-', d₁, d₂] =>
    [y₁, y₂, y₃, y₄].all Char.isDigit &&
      (pair? m₁ m₂ 1 12).any fun month =>
        (pair? d₁ d₂ 1 (daysIn (valueOf 10 [y₁, y₂, y₃, y₄]) month)).isSome
  | _ => false

/-- Whether a text is empty or parts of a second. -/
def isSecondPart : List Char → Bool
  | [] => true
  | c :: rest => c == '.' && !rest.isEmpty && rest.all Char.isDigit

/-- Whether a text is a time of the day. -/
def isTime : List Char → Bool
  | h₁ :: h₂ :: ':' :: m₁ :: m₂ :: ':' :: s₁ :: s₂ :: part =>
    (pair? h₁ h₂ 0 23).isSome && (pair? m₁ m₂ 0 59).isSome && (pair? s₁ s₂ 0 60).isSome &&
      isSecondPart part
  | _ => false

/-- Whether a text is a distance from universal time. -/
def isOffset : List Char → Bool
  | [z] => z == 'Z' || z == 'z'
  | [sign, h₁, h₂, ':', m₁, m₂] =>
    (sign == '+' || sign == '-') && (pair? h₁ h₂ 0 23).isSome && (pair? m₁ m₂ 0 59).isSome
  | _ => false

/-- Whether a text is a time of the day, maybe with an offset. -/
def isOffsetTime (s : List Char) : Bool :=
  let (time, offset) := s.span fun c => c.isDigit || c == ':' || c == '.'
  isTime time && (offset.isEmpty || isOffset offset)

/-- Whether a text is a date with a time behind it. -/
def isDateTime (s : List Char) : Bool :=
  isDate (s.take 10) && ((s.drop 10).head?.any fun c => c == 'T' || c == 't' || c == ' ') &&
    isOffsetTime (s.drop 11)

/-- A date or a time, which has no value here. -/
def date? (s : List Char) : Option Json :=
  if isDate s || isTime s || isDateTime s then some (.object []) else none

/-- A truth value. -/
def truth? (s : List Char) : Option Json :=
  if s = "true".toList then some (.bool true)
  else if s = "false".toList then some (.bool false)
  else none

/-- What a run stands for. -/
def run? (s : List Char) : Option Json :=
  ((((date? s).or (fraction? s)).or (integer? s)).or (special? s)).or (truth? s)

/-- A number, a date or a truth value, with the text behind it. -/
def scalar? (s : List Char) : Option (Json × List Char) :=
  let (run, rest) := s.span isRunChar
  let (time, after) := (rest.drop 1).span isRunChar
  if isDate run && rest.head? == some ' ' && !time.isEmpty
  then (run? (run ++ ' ' :: time)).map (·, after)
  else (run? run).map (·, rest)

end Toml
end Loadout
