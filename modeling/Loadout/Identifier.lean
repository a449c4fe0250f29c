/-
# Mod identifiers

An identifier names a mod, or something that a mod provides.  It starts with a
small ASCII letter, goes on with small ASCII letters, digits, `-` and `_`, and has
2 to 64 characters.
-/

namespace Loadout
namespace Identifier

/-- Whether a character may start an identifier. -/
def isStart (c : Char) : Bool := 'a' ≤ c && c ≤ 'z'

/-- Whether a character may follow in an identifier. -/
def isPart (c : Char) : Bool := isStart c || ('0' ≤ c && c ≤ '9') || c == '-' || c == '_'

/-- Whether a list of characters spells an identifier. -/
def validChars : List Char → Bool
  | [] => false
  | c :: rest => isStart c && rest.all isPart && 1 ≤ rest.length && rest.length ≤ 63

/-- Whether a text is an identifier. -/
def isValid (s : String) : Bool := validChars s.toList

end Identifier
end Loadout
