/-
# Reading JSON text

The grammar is that of RFC 8259, without any leniency: blanks are space, tab, line
feed and carriage return; a number has no leading zeros and digits on both sides of
its point; control characters stand in no string; nothing follows the value but
blanks.

Nested values are read by recursion on a bound that the length of the text gives:
a value takes at least one character, so twice the length and two is enough.
-/

import Loadout.Json.Basic

namespace Loadout
namespace Json

/-- Whether a character may stand between tokens. -/
def isBlank (c : Char) : Bool := c == ' ' || c == '\t' || c == '\n' || c == '\r'

/-- The text from its first character that is no blank. -/
def skipBlanks (s : List Char) : List Char := s.dropWhile isBlank

/-- The value of a hexadecimal digit. -/
def hexValue? (c : Char) : Option Nat :=
  if '0' ≤ c ∧ c ≤ '9' then some (c.toNat - '0'.toNat)
  else if 'a' ≤ c ∧ c ≤ 'f' then some (c.toNat - 'a'.toNat + 10)
  else if 'A' ≤ c ∧ c ≤ 'F' then some (c.toNat - 'A'.toNat + 10)
  else none

/-- The code unit that four hexadecimal digits spell. -/
def unit? (a b c d : Char) : Option Nat := do
  return (((← hexValue? a) * 16 + (← hexValue? b)) * 16 + (← hexValue? c)) * 16 + (← hexValue? d)

/-- Whether a code unit starts a surrogate pair. -/
def isHighSurrogate (u : Nat) : Bool := 0xD800 ≤ u && u < 0xDC00

/-- Whether a code unit ends a surrogate pair. -/
def isLowSurrogate (u : Nat) : Bool := 0xDC00 ≤ u && u < 0xE000

/-- The character of a surrogate pair. -/
def pairChar (high low : Nat) : Char :=
  Char.ofNat (0x10000 + (high - 0xD800) * 0x400 + (low - 0xDC00))

/-- The character that a backslash and one more character stand for. -/
def escaped? : Char → Option Char
  | '"' => some '"'
  | '\\' => some '\\'
  | '/' => some '/'
  | 'b' => some '\x08'
  | 'f' => some '\x0c'
  | 'n' => some '\n'
  | 'r' => some '\r'
  | 't' => some '\t'
  | _ => none

/-- A string literal from behind its opening quote: its characters, none where half
of a surrogate pair stands in it, and the text behind its closing quote. -/
def stringBody : List Char → Option (Option (List Char) × List Char)
  | [] => none
  | '"' :: rest => some (some [], rest)
  | '\\' :: 'u' :: a :: b :: c :: d :: '\\' :: 'u' :: e :: f :: g :: h :: rest => do
    let first ← unit? a b c d
    let second ← unit? e f g h
    if isHighSurrogate first && isLowSurrogate second then
      let (chars, after) ← stringBody rest
      return (chars.map (pairChar first second :: ·), after)
    else
      let (chars, after) ← stringBody ('\\' :: 'u' :: e :: f :: g :: h :: rest)
      return (if isHighSurrogate first || isLowSurrogate first then none
        else chars.map (Char.ofNat first :: ·), after)
  | '\\' :: 'u' :: a :: b :: c :: d :: rest => do
    let only ← unit? a b c d
    let (chars, after) ← stringBody rest
    return (if isHighSurrogate only || isLowSurrogate only then none
      else chars.map (Char.ofNat only :: ·), after)
  | '\\' :: x :: rest => do
    let c ← escaped? x
    let (chars, after) ← stringBody rest
    return (chars.map (c :: ·), after)
  | c :: rest =>
    if c.toNat < 0x20 || c == '\\' then none
    else do
      let (chars, after) ← stringBody rest
      return (chars.map (c :: ·), after)

/-- A string literal from behind its opening quote. -/
def stringText (s : List Char) : Option (Option String × List Char) :=
  (stringBody s).map fun (chars?, rest) => (chars?.map String.ofList, rest)

/-- The value of a run of ASCII digits. -/
def digitsValue (digits : List Char) : Nat :=
  digits.foldl (fun n c => n * 10 + (c.toNat - '0'.toNat)) 0

/-- What follows the digits before the point: a fraction and an exponent, each of
which may be missing.  The flag tells whether either was there. -/
def numberTail (s : List Char) : Option (Bool × List Char) := do
  let (fraction, s) ← match s with
    | '.' :: rest =>
      let (digits, after) := rest.span Char.isDigit
      if digits.isEmpty then none else some (true, after)
    | s => some (false, s)
  match s with
  | c :: rest =>
    if c == 'e' || c == 'E' then
      let rest := match rest with
        | '+' :: r => r
        | '-' :: r => r
        | r => r
      let (digits, after) := rest.span Char.isDigit
      if digits.isEmpty then none else some (true, after)
    else some (fraction, c :: rest)
  | [] => some (fraction, [])

/-- A number. -/
def number? (s : List Char) : Option (Json × List Char) := do
  let (negative, s) := match s with
    | '-' :: rest => (true, rest)
    | s => (false, s)
  let (digits, rest) := s.span Char.isDigit
  if digits.isEmpty || (digits.length > 1 && digits.head? == some '0') then none
  else
    let (decorated, after) ← numberTail rest
    let value := digitsValue digits
    return (.number (if negative || decorated || UInt64.size ≤ value then none else some value), after)

mutual

/-- A value with the text behind it. -/
def readValue : Nat → List Char → Option (Json × List Char)
  | 0, _ => none
  | fuel + 1, s =>
    match skipBlanks s with
    | 'n' :: 'u' :: 'l' :: 'l' :: rest => some (.null, rest)
    | 't' :: 'r' :: 'u' :: 'e' :: rest => some (.bool true, rest)
    | 'f' :: 'a' :: 'l' :: 's' :: 'e' :: rest => some (.bool false, rest)
    | '"' :: rest => (stringText rest).map fun (t, after) => (.string t, after)
    | '[' :: rest =>
      match skipBlanks rest with
      | ']' :: after => some (.array [], after)
      | rest => (readItems fuel rest).map fun (l, after) => (.array l, after)
    | '\x7b' :: rest =>
      match skipBlanks rest with
      | '\x7d' :: after => some (.object [], after)
      | rest => (readMembers fuel rest).map fun (l, after) => (.object l, after)
    | rest => number? rest

/-- The items of an array up to its closing bracket. -/
def readItems : Nat → List Char → Option (List Json × List Char)
  | 0, _ => none
  | fuel + 1, s => do
    let (item, rest) ← readValue fuel s
    match skipBlanks rest with
    | ',' :: rest =>
      let (others, after) ← readItems fuel rest
      return (item :: others, after)
    | ']' :: after => return ([item], after)
    | _ => none

/-- The members of an object up to its closing brace. -/
def readMembers : Nat → List Char → Option (List (Option String × Json) × List Char)
  | 0, _ => none
  | fuel + 1, s =>
    match skipBlanks s with
    | '"' :: rest => do
      let (key, rest) ← stringText rest
      match skipBlanks rest with
      | ':' :: rest =>
        let (item, rest) ← readValue fuel rest
        match skipBlanks rest with
        | ',' :: rest =>
          let (others, after) ← readMembers fuel rest
          return ((key, item) :: others, after)
        | '\x7d' :: after => return ([(key, item)], after)
        | _ => none
      | _ => none
    | _ => none

end

/-- The value that a text is the written form of. -/
def parse? (s : String) : Option Json := do
  let chars := s.toList
  let (j, rest) ← readValue (2 * chars.length + 2) chars
  if (skipBlanks rest).isEmpty then some j else none

end Json
end Loadout
