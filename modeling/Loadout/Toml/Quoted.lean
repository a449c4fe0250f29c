/-
# Quoted text in TOML

There are four kinds of quotes.  Double quotes know escapes, single ones do not; one
quote holds text within a line, three hold text over several lines, and of these a
line break right behind the opening ones does not count.  Inside three quotes one or
two may stand, also right before the closing ones.  A backslash at the end of a line
takes the break and all blanks after it away.

No control character but the tab stands in a text.
-/

import Loadout.Json.Reader

namespace Loadout
namespace Toml

/-- A blank inside a line. -/
def isSpace (c : Char) : Bool := c == ' ' || c == '\t'

/-- Whether a character may stand in a comment or in quotes. -/
def isPlain (c : Char) : Bool := c == '\t' || (0x20 ≤ c.toNat && c.toNat ≠ 0x7F)

/-- The text behind a line break, if it starts with one. -/
def lineBreak? : List Char → Option (List Char)
  | '\n' :: rest => some rest
  | '\r' :: '\n' :: rest => some rest
  | _ => none

/-- The text without a line break at its start. -/
def dropBreak (s : List Char) : List Char := (lineBreak? s).getD s

/-- The text from its first character that is no blank and no part of a line break. -/
def dropBlankLines : List Char → List Char
  | ' ' :: rest => dropBlankLines rest
  | '\t' :: rest => dropBlankLines rest
  | '\n' :: rest => dropBlankLines rest
  | '\r' :: '\n' :: rest => dropBlankLines rest
  | s => s

/-- The character of a code point in hexadecimal digits. -/
def codePoint? (digits : List Char) : Option Char := do
  let n := (← digits.mapM Json.hexValue?).foldl (fun n d => n * 16 + d) 0
  if n.isValidChar then return Char.ofNat n else none

/-- The character that an escape stands for, from behind its backslash. -/
def escape? : List Char → Option (Char × List Char)
  | 'b' :: rest => some ('\x08', rest)
  | 't' :: rest => some ('\t', rest)
  | 'n' :: rest => some ('\n', rest)
  | 'f' :: rest => some ('\x0c', rest)
  | 'r' :: rest => some ('\r', rest)
  | '"' :: rest => some ('"', rest)
  | '\\' :: rest => some ('\\', rest)
  | 'u' :: rest => if rest.length < 4 then none else (codePoint? (rest.take 4)).map (·, rest.drop 4)
  | 'U' :: rest => if rest.length < 8 then none else (codePoint? (rest.take 8)).map (·, rest.drop 8)
  | _ => none

/-- The text within a line up to the closing quote, with what is behind it.  Every
step takes a character, so the length of the text is fuel enough. -/
def lineBody (quote : Char) : Nat → List Char → Option (List Char × List Char)
  | 0, _ => none
  | _ + 1, [] => none
  | fuel + 1, c :: rest => do
    if c == quote then return ([], rest)
    let (c, rest) ← if c == '\\' && quote == '"' then escape? rest
      else if isPlain c then some (c, rest) else none
    let (body, after) ← lineBody quote fuel rest
    return (c :: body, after)

/-- The text behind a backslash at the end of a line. -/
def joinedLine? (s : List Char) : Option (List Char) :=
  (lineBreak? (s.dropWhile isSpace)).map dropBlankLines

/-- The text over several lines up to the closing quotes. -/
def linesBody (quote : Char) : Nat → List Char → Option (List Char × List Char)
  | 0, _ => none
  | _ + 1, [] => none
  | fuel + 1, c :: rest => do
    let more (c : Char) (rest : List Char) : Option (List Char × List Char) := do
      let (body, after) ← linesBody quote fuel rest
      return (c :: body, after)
    if c == quote then
      let run := 1 + (rest.takeWhile (· == quote)).length
      if run < 3 then more c rest
      else
        let inside := min (run - 3) 2
        return (List.replicate inside quote, (c :: rest).drop (inside + 3))
    else if c == '\\' && quote == '"' then
      match joinedLine? rest with
      | some after => linesBody quote fuel after
      | none =>
        let (c, rest) ← escape? rest
        more c rest
    else
      match lineBreak? (c :: rest) with
      | some after => more '\n' after
      | none => if isPlain c then more c rest else none

/-- The text in quotes of one line, at the start of `s`. -/
def quotedLine? : List Char → Option (List Char × List Char)
  | c :: rest => if c == '"' || c == '\'' then lineBody c (rest.length + 1) rest else none
  | [] => none

/-- The text in quotes of any kind, at the start of `s`. -/
def quoted? (s : List Char) : Option (List Char × List Char) :=
  match s with
  | a :: b :: c :: rest =>
    if (a == '"' || a == '\'') && a == b && b == c then linesBody a (rest.length + 1) (dropBreak rest)
    else quotedLine? s
  | s => quotedLine? s

end Toml
end Loadout
