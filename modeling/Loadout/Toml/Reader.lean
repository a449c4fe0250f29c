/-
# Reading TOML

A document is a sequence of lines: headers of tables, keys with their values, and
comments.  A value belongs to the last header before it.  Arrays may go over several
lines, tables in braces may not.  Keys have fewer parts than `nestingLimit`, and arrays
and tables in braces stand inside of fewer than that many, themselves included.

The value of a document is given as a JSON value, in which dates are objects without
members and fractions have no value as numbers.
-/

import Loadout.Toml.Quoted
import Loadout.Toml.Scalar
import Loadout.Toml.Table

namespace Loadout
namespace Toml

/-- The text from its first character that is no blank. -/
def skipSpaces (s : List Char) : List Char := s.dropWhile isSpace

/-- The text behind a comment, if it starts with one; none if the comment is bad. -/
def skipComment : List Char → Option (List Char)
  | '#' :: rest =>
    let after := rest.dropWhile isPlain
    if after.isEmpty || (lineBreak? after).isSome then some after else none
  | s => some s

/-- The text behind the end of a line. -/
def endLine (s : List Char) : Option (List Char) := do
  let rest ← skipComment (skipSpaces s)
  if rest.isEmpty then return [] else lineBreak? rest

/-- Skips blanks, line breaks and comments. -/
def skipLines : Nat → List Char → Option (List Char)
  | 0, _ => none
  | fuel + 1, s =>
    match skipSpaces s with
    | '#' :: rest => (skipComment ('#' :: rest)).bind (skipLines fuel)
    | s =>
      match lineBreak? s with
      | some rest => skipLines fuel rest
      | none => some s

/-- Whether a character may stand in a key without quotes. -/
def isKeyChar (c : Char) : Bool := c.isAlphanum || c == '-' || c == '_'

/-- A key without dots. -/
def simpleKey? (s : List Char) : Option (String × List Char) :=
  match s.head? with
  | some '"' | some '\'' => (quotedLine? s).map fun (key, rest) => (String.ofList key, rest)
  | _ =>
    let (key, rest) := s.span isKeyChar
    if key.isEmpty then none else some (String.ofList key, rest)

/-- The number of levels that keys and values do not reach. -/
def nestingLimit : Nat := 80

/-- The parts of a key with dots, with the text from behind it and the blanks after. -/
def keyParts? : Nat → List Char → Option (List String × List Char)
  | 0, _ => none
  | fuel + 1, s => do
    let (key, rest) ← simpleKey? (skipSpaces s)
    match skipSpaces rest with
    | '.' :: rest =>
      let (path, after) ← keyParts? fuel rest
      return (key :: path, after)
    | rest => return ([key], rest)

/-- A key that has not too many parts, with the text from behind it and the blanks after. -/
def key? (s : List Char) : Option (List String × List Char) :=
  (keyParts? (s.length + 1) s).filter fun (path, _) => path.length < nestingLimit

mutual

/-- A value with the text behind it.  It may be nested up to `room` levels deep. -/
def value? : Nat → Nat → List Char → Option (Json × List Char)
  | 0, _, _ => none
  | fuel + 1, room, s =>
    match s with
    | '[' :: rest =>
      match room with
      | 0 => none
      | room + 1 => (items? fuel room rest).map fun (l, after) => (.array l, after)
    | '\x7b' :: rest =>
      match room with
      | 0 => none
      | room + 1 =>
        match skipSpaces rest with
        | '\x7d' :: after => some (.object [], after)
        | rest =>
          (pairs? fuel room [] rest).map fun (m, after) => (.object (membersToJson m), after)
    | c :: rest =>
      if c == '"' || c == '\'' then
        (quoted? (c :: rest)).map fun (t, after) => (.string (some (String.ofList t)), after)
      else scalar? (c :: rest)
    | [] => none

/-- The items of an array up to its closing bracket; a comma may stand before it. -/
def items? : Nat → Nat → List Char → Option (List Json × List Char)
  | 0, _, _ => none
  | fuel + 1, room, s => do
    match ← skipLines (s.length + 1) s with
    | ']' :: after => return ([], after)
    | s =>
      let (item, rest) ← value? fuel room s
      match ← skipLines (rest.length + 1) rest with
      | ',' :: rest =>
        let (others, after) ← items? fuel room rest
        return (item :: others, after)
      | ']' :: after => return ([item], after)
      | _ => none

/-- The pairs of a table in braces up to its closing brace. -/
def pairs? : Nat → Nat → Members → List Char → Option (Members × List Char)
  | 0, _, _, _ => none
  | fuel + 1, room, m, s => do
    let (path, rest) ← key? s
    match rest with
    | '=' :: rest =>
      let (value, rest) ← value? fuel room (skipSpaces rest)
      let m ← m.put value path
      match skipSpaces rest with
      | ',' :: rest => pairs? fuel room m rest
      | '\x7d' :: after => return (m, after)
      | _ => none
    | _ => none

end

/-- A header in brackets, with the text behind it. -/
def header? (s : List Char) : Option (Bool × List String × List Char) := do
  match s with
  | '[' :: '[' :: rest =>
    match ← key? rest with
    | (path, ']' :: ']' :: after) => return (true, path, after)
    | _ => none
  | '[' :: rest =>
    match ← key? rest with
    | (path, ']' :: after) => return (false, path, after)
    | _ => none
  | _ => none

/-- The rest of a document, given the path of the last header. -/
def lines? : Nat → List String → Members → List Char → Option Members
  | 0, _, _, _ => none
  | fuel + 1, current, m, s => do
    match ← skipLines (s.length + 1) s with
    | [] => return m
    | '[' :: rest =>
      let (isArray, path, rest) ← header? ('[' :: rest)
      lines? fuel path (← m.openHeader isArray path) (← endLine rest)
    | s =>
      match ← key? s with
      | (path, '=' :: rest) =>
        let (value, rest) ← value? (2 * rest.length + 2) (nestingLimit - 1) (skipSpaces rest)
        lines? fuel current (← m.along (Members.put value path) current) (← endLine rest)
      | _ => none

/-- The value of a document.  A byte order mark at its start does not count. -/
def parse? (text : String) : Option Json := do
  let s := match text.toList with
    | '\ufeff' :: rest => rest
    | s => s
  let m ← lines? (s.length + 1) [] [] s
  return .object (membersToJson m)

end Toml
end Loadout
