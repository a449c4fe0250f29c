/-
# The written form of versions

    version    ::= numbers [ "-" identifiers ] [ "+" identifiers ]
    numbers    ::= number { "." number }
    identifiers::= identifier { "." identifier }
    identifier ::= one or more of 0-9 A-Z a-z -

A number is written in ASCII digits and fits 64 bits.  A text outside this grammar
is still a version, a verbatim one; only the empty text is none.  Blanks around a
version do not count.

`+` occurs nowhere before the build metadata and `-` nowhere in the numbers, so
the grammar is read by cutting the text at the first `-` or `+` and the remainder
at its first `+`.
-/

import Loadout.Text.Blank
import Loadout.Version.Basic

namespace Loadout

/-- Why a text is no term of a version predicate, or no predicate. -/
inductive TermFault where
  /-- nothing stands between two bars -/
  | emptyTerm
  /-- a list of alternatives without a member -/
  | noTerms
  /-- a number of a wildcard form cannot be read -/
  | number (fault : Text.DecimalFault)
  /-- the version after an operator is missing -/
  | missingVersion
  /-- an operator other than `=` stands before a verbatim version -/
  | unordered
  deriving DecidableEq, Repr

/-- Why a version or a predicate cannot be read. -/
inductive VersionError where
  | invalidVersion (text : String)
  | invalidPredicate (predicate : String) (fault : TermFault)
  deriving DecidableEq, Repr

namespace VersionError

/-- The wording for a version that cannot be read. -/
def invalidVersionMessage (text : String) : String :=
  "Invalid version string \"" ++ text ++ "\""

end VersionError

namespace TermFault

/-- The wording of each fault. -/
def message : TermFault → String
  | emptyTerm => "empty term"
  | noTerms => "no terms"
  | number fault => fault.message
  | missingVersion => VersionError.invalidVersionMessage ""
  | unordered => "non-semantic versions only support exact matching"

end TermFault

namespace VersionError

/-- The wording of each error. -/
def message : VersionError → String
  | invalidVersion text => invalidVersionMessage text
  | invalidPredicate predicate fault =>
    "Could not parse version predicate \"" ++ predicate ++ "\": " ++ fault.message

end VersionError

namespace SemanticVersion

/-- The characters of pre-release and build identifiers. -/
def isIdentifierChar (c : Char) : Bool :=
  ('0' ≤ c && c ≤ '9') || ('A' ≤ c && c ≤ 'Z') || ('a' ≤ c && c ≤ 'z') || c == '-'

/-- One identifier: at least one character, all of them admitted. -/
def identifier? (s : List Char) : Option String :=
  if s.isEmpty || !s.all isIdentifierChar then none else some (String.ofList s)

/-- A list of identifiers with dots between them. -/
def identifiers? (s : List Char) : Option (List String) := (s.splitOn '.').mapM identifier?

/-- A list of numbers with dots between them. -/
def numbers? (s : List Char) : Option (List UInt64) :=
  (s.splitOn '.').mapM fun part => (Text.readUInt64 part).toOption

/-- What follows the numbers and pre-release identifiers: nothing, or `+` and identifiers. -/
def build? : List Char → Option (Option String)
  | [] => some none
  | '+' :: rest => (identifiers? rest).map fun _ => some (String.ofList rest)
  | _ => none

/-- The semantic version that a text is the written form of. -/
def ofChars? (s : List Char) : Option SemanticVersion := do
  let (numbers, rest) := s.span fun c => c != '-' && c != '+'
  let components ← numbers? numbers
  match rest with
  | '-' :: tail =>
    let (pre, after) := tail.span (· != '+')
    let preRelease ← identifiers? pre
    let build ← build? after
    return ⟨components, preRelease, build⟩
  | _ =>
    let build ← build? rest
    return ⟨components, [], build⟩

/-- The semantic version that a text is the written form of; blanks count. -/
def parse? (s : String) : Option SemanticVersion := ofChars? s.toList

/-- The written form. -/
protected def toString (v : SemanticVersion) : String :=
  String.intercalate "." (v.components.map fun c => Nat.repr c.toNat)
    ++ (if v.preRelease.isEmpty then "" else "-" ++ String.intercalate "." v.preRelease)
    ++ match v.build with
      | none => ""
      | some b => "+" ++ b

instance : ToString SemanticVersion := ⟨SemanticVersion.toString⟩

end SemanticVersion

namespace Version

/-- The version that a text without blanks around it stands for. -/
def ofTrimmed (s : List Char) : Except VersionError Version :=
  if s.isEmpty then .error (.invalidVersion "")
  else match SemanticVersion.ofChars? s with
    | some v => .ok (.semantic v)
    | none => .ok (.verbatim (String.ofList s))

/-- Reads a version; blanks around it do not count. -/
def parse (s : String) : Except VersionError Version := ofTrimmed (Text.trim s.toList)

/-- The written form. -/
protected def toString : Version → String
  | .semantic v => v.toString
  | .verbatim t => t

instance : ToString Version := ⟨Version.toString⟩

end Version
end Loadout
