/-
# Version predicates

A predicate is a list of alternatives, at least one, with `||` between them:
`^1.2 || >=3`.  Each alternative is a *term*, and each term stands for exactly one
interval of versions.

    term ::= "*" | [ operator ] version | number [ "." number ] "." ( "x" | "X" | "*" )

`^` admits versions from the given one up to the next major line, `~` up to the
next minor line, and a wildcard form abbreviates the two.  Blanks around terms and
after operators do not count.  A verbatim version has no order worth using, so
only `=` may stand before it.
-/

import Loadout.Version.Interval

namespace Loadout

/-- One alternative of a predicate. -/
inductive Term where
  /-- every version: `*` -/
  | any
  /-- one version: `1.2.3` or `=1.2.3` -/
  | exact (version : Version)
  /-- `>=1.2.3` -/
  | greaterOrEqual (version : Version)
  /-- `<=1.2.3` -/
  | lessOrEqual (version : Version)
  /-- `>1.2.3` -/
  | greater (version : Version)
  /-- `<1.2.3` -/
  | less (version : Version)
  /-- from the version up to the next major line: `^1.2.3` or `1.x` -/
  | sameMajor (version : Version)
  /-- from the version up to the next minor line: `~1.2.3` or `1.2.x` -/
  | sameMinor (version : Version)
  deriving DecidableEq, Repr

namespace Term

/-- The version in a term. -/
def version? : Term → Option Version
  | any => none
  | exact v => some v
  | greaterOrEqual v => some v
  | lessOrEqual v => some v
  | greater v => some v
  | less v => some v
  | sameMajor v => some v
  | sameMinor v => some v

/-- The operators, in the order in which they are looked for. -/
inductive Operator where
  | caret | tilde | greaterOrEqual | lessOrEqual | greater | less | equals
  deriving DecidableEq, Repr

namespace Operator

/-- The term that an operator makes of a version. -/
def apply : Operator → Version → Term
  | caret => .sameMajor
  | tilde => .sameMinor
  | greaterOrEqual => .greaterOrEqual
  | lessOrEqual => .lessOrEqual
  | greater => .greater
  | less => .less
  | equals => .exact

end Operator

/-- The operator at the start of a text, and the rest. -/
def splitOperator : List Char → Option Operator × List Char
  | '^' :: rest => (some .caret, rest)
  | '~' :: rest => (some .tilde, rest)
  | '>' :: '=' :: rest => (some .greaterOrEqual, rest)
  | '<' :: '=' :: rest => (some .lessOrEqual, rest)
  | '>' :: rest => (some .greater, rest)
  | '<' :: rest => (some .less, rest)
  | '=' :: rest => (some .equals, rest)
  | s => (none, s)

/-- The digits of a wildcard form: one number, or two with a dot between them. -/
def wildcard? (s : List Char) : Option (List Char × Option (List Char)) :=
  match s.splitOn '.' with
  | [major, star] => if digits major && isStar star then some (major, none) else none
  | [major, minor, star] =>
    if digits major && digits minor && isStar star then some (major, some minor) else none
  | _ => none
where
  digits (part : List Char) : Bool := !part.isEmpty && part.all Text.isDigit
  isStar (part : List Char) : Bool := part = ['x'] || part = ['X'] || part = ['*']

/-- The term of a wildcard form. -/
def ofWildcard (major : List Char) (minor : Option (List Char)) :
    Except Text.DecimalFault Term := do
  let first ← Text.readUInt64 major
  match minor with
  | none => return .sameMajor (.ofComponents [first])
  | some digits =>
    let second ← Text.readUInt64 digits
    return .sameMinor (.ofComponents [first, second])

/-- The term of an operator, or of none, and the text after it. -/
def ofOperand (operator : Option Operator) (rest : List Char) : Except TermFault Term :=
  match Version.ofTrimmed (Text.trim rest) with
  | .error _ => .error .missingVersion
  | .ok version =>
    match operator with
    | none => .ok (.exact version)
    | some op => if version.isSemantic || op = .equals then .ok (op.apply version)
      else .error .unordered

/-- The term that a text without blanks around it stands for. -/
def ofTrimmed (s : List Char) : Except TermFault Term :=
  if s.isEmpty then .error .emptyTerm
  else if s = ['*'] then .ok .any
  else match wildcard? s with
    | some (major, minor) => (ofWildcard major minor).mapError .number
    | none =>
      let (operator, rest) := splitOperator s
      ofOperand operator rest

/-- Reads a term; the error names the text without the blanks around it. -/
def parse (s : String) : Except VersionError Term :=
  let trimmed := Text.trim s.toList
  (ofTrimmed trimmed).mapError (.invalidPredicate (String.ofList trimmed))

/-- The versions from `v` up to the release that `next` makes of the release of
`v`; a verbatim version admits itself alone. -/
def interval.line (next : SemanticVersion → SemanticVersion) : Version → Interval
  | .semantic s => ⟨.inclusive (.semantic s), .exclusive (.semantic (next s.release))⟩
  | .verbatim t => .exact (.verbatim t)

/-- The interval that a term stands for. -/
def interval : Term → Interval
  | any => .any
  | exact v => .exact v
  | greaterOrEqual v => ⟨.inclusive v, .unbounded⟩
  | lessOrEqual v => ⟨.unbounded, .inclusive v⟩
  | greater v => ⟨.exclusive v, .unbounded⟩
  | less v => ⟨.unbounded, .exclusive v⟩
  | sameMajor v => interval.line SemanticVersion.nextMajor v
  | sameMinor v => interval.line SemanticVersion.nextMinor v

/-- Whether a term admits a version. -/
def admits : Term → Version → Bool
  | any, _ => true
  | exact v, w => v.sameAs w
  | t, w => t.interval.contains w

/-- The term in words. -/
def describe : Term → String
  | any => "any version"
  | exact v => "version " ++ v.toString
  | greaterOrEqual v => "version " ++ v.toString ++ " or later"
  | lessOrEqual v => "version " ++ v.toString ++ " or earlier"
  | sameMajor (.semantic s) => "any " ++ number (s.component 0) ++ ".x version"
  | sameMinor (.semantic s) =>
    "any " ++ number (s.component 0) ++ "." ++ number (s.component 1) ++ ".x version"
  | t => "version " ++ t.interval.toString
where
  number (n : UInt64) : String := Nat.repr n.toNat

/-- The written form. -/
protected def toString : Term → String
  | any => "*"
  | exact v => v.toString
  | greaterOrEqual v => ">=" ++ v.toString
  | lessOrEqual v => "<=" ++ v.toString
  | greater v => ">" ++ v.toString
  | less v => "<" ++ v.toString
  | sameMajor v => "^" ++ v.toString
  | sameMinor v => "~" ++ v.toString

instance : ToString Term := ⟨Term.toString⟩

/-- Whether two terms are of one kind and about one version. -/
def sameAs : Term → Term → Bool
  | any, any => true
  | exact v, exact w => v.sameAs w
  | greaterOrEqual v, greaterOrEqual w => v.sameAs w
  | lessOrEqual v, lessOrEqual w => v.sameAs w
  | greater v, greater w => v.sameAs w
  | less v, less w => v.sameAs w
  | sameMajor v, sameMajor w => v.sameAs w
  | sameMinor v, sameMinor w => v.sameAs w
  | _, _ => false

end Term

/-- A condition on versions: at least one term of a list admits them. -/
structure Predicate where
  terms : List Term
  deriving DecidableEq, Repr

namespace Predicate

/-- The condition that every version meets. -/
def any : Predicate := ⟨[.any]⟩

/-- The predicate of a list of terms, which must not be empty. -/
def ofTerms (terms : List Term) : Except VersionError Predicate :=
  if terms.isEmpty then .error (.invalidPredicate "" .noTerms) else .ok ⟨terms⟩

/-- The terms between the bars. -/
def readTerms (s : List Char) : Except TermFault (List Term) :=
  (Text.splitAlternatives s).mapM fun part => Term.ofTrimmed (Text.trim part)

/-- Reads a predicate; the error names the whole text. -/
def parse (s : String) : Except VersionError Predicate :=
  ((readTerms s.toList).mapError (VersionError.invalidPredicate s)).map Predicate.mk

/-- Reads a list of alternatives, each of which may have bars of its own. -/
def parseAll (alternatives : List String) : Except VersionError Predicate := do
  let parts ← alternatives.mapM parse
  ofTerms (parts.flatMap terms)

/-- Whether some term admits a version. -/
def admits (p : Predicate) (v : Version) : Bool := p.terms.any (·.admits v)

/-- Whether a term is `*`. -/
def isAny (p : Predicate) : Bool := p.terms.any (·.sameAs .any)

/-- One interval for each term. -/
def intervals (p : Predicate) : List Interval := p.terms.map Term.interval

/-- The predicate in words. -/
def describe (p : Predicate) : String := String.intercalate " or " (p.terms.map Term.describe)

/-- The written form. -/
protected def toString (p : Predicate) : String :=
  String.intercalate " || " (p.terms.map Term.toString)

instance : ToString Predicate := ⟨Predicate.toString⟩

/-- Whether two predicates list the same terms in the same order. -/
def sameAs (p q : Predicate) : Bool :=
  p.terms.length == q.terms.length && (p.terms.zip q.terms).all fun (s, t) => s.sameAs t

end Predicate
end Loadout
