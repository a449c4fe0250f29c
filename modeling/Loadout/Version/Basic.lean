/-
# Versions

A version is *semantic* when its text has the shape `1.2.3-rc.1+build`, and
*verbatim* otherwise.  This module holds the two kinds, their order and what they
are keyed by; `Loadout.Version.Grammar` reads and prints them.

The order is a preorder, not a linear order: missing components count as zero, so
`1.2` and `1.2.0` compare equal although they are printed differently, and build
metadata never counts.  Two versions that compare equal are the *same* version
(`Version.sameAs`); `=` on the type is equality of what was written.
-/

import Std.Data.HashMap
import Loadout.Text.Decimal

namespace Loadout

/-- A version with numeric components, pre-release identifiers and build metadata. -/
structure SemanticVersion where
  /-- the numbers between the dots, as many as were written -/
  components : List UInt64
  /-- the identifiers after `-`; none for a release -/
  preRelease : List String
  /-- the text after `+` -/
  build : Option String
  deriving DecidableEq, Repr

namespace SemanticVersion

/-- The release with these components. -/
def ofComponents (components : List UInt64) : SemanticVersion := ⟨components, [], none⟩

/-- The component at a position; missing positions hold zero. -/
def component (v : SemanticVersion) (i : Nat) : UInt64 := v.components.getD i 0

/-- Whether the version precedes its release. -/
def isPreRelease (v : SemanticVersion) : Bool := !v.preRelease.isEmpty

/-- The same version without pre-release identifiers and build metadata. -/
def release (v : SemanticVersion) : SemanticVersion := ofComponents v.components

/-- The first version of the next major line: `1.4.2` gives `2.0.0`. -/
def nextMajor (v : SemanticVersion) : SemanticVersion :=
  ofComponents (Text.succSaturating (v.component 0) :: List.replicate (v.components.length - 1) 0)

/-- The first version of the next minor line: `1.4.2` gives `1.5.0`. -/
def nextMinor (v : SemanticVersion) : SemanticVersion :=
  ofComponents (v.component 0 :: Text.succSaturating (v.component 1) ::
    List.replicate (v.components.length - 2) 0)

/-- Order of a component list against nothing but zeros. -/
def compareZeros : List UInt64 → Ordering
  | [] => .eq
  | a :: as => (compare a 0).then (compareZeros as)

/-- Lexicographic order of component lists, the shorter one filled up with zeros. -/
def compareComponents : List UInt64 → List UInt64 → Ordering
  | as, [] => compareZeros as
  | [], bs => (compareZeros bs).swap
  | a :: as, b :: bs => (compare a b).then (compareComponents as bs)

/-- The value of a pre-release identifier that is a number of 64 bits. -/
def identifierNumber? (s : String) : Option UInt64 := (Text.readUInt64 s.toList).toOption

/-- Order of two pre-release identifiers: numbers by value and below the rest, the rest as texts. -/
def compareIdentifier (a b : String) : Ordering :=
  match identifierNumber? a, identifierNumber? b with
  | some x, some y => compare x y
  | some _, none => .lt
  | none, some _ => .gt
  | none, none => compare a b

/-- Lexicographic order of identifier lists, a proper initial part first. -/
def compareIdentifiers : List String → List String → Ordering
  | [], [] => .eq
  | [], _ :: _ => .lt
  | _ :: _, [] => .gt
  | a :: as, b :: bs => (compareIdentifier a b).then (compareIdentifiers as bs)

/-- Order of pre-release lists: a release follows all of its pre-releases. -/
def comparePreRelease : List String → List String → Ordering
  | [], [] => .eq
  | [], _ :: _ => .gt
  | _ :: _, [] => .lt
  | a :: as, b :: bs => compareIdentifiers (a :: as) (b :: bs)

/-- Precedence of semantic versions; build metadata does not count. -/
protected def compare (a b : SemanticVersion) : Ordering :=
  (compareComponents a.components b.components).then (comparePreRelease a.preRelease b.preRelease)

instance : Ord SemanticVersion := ⟨SemanticVersion.compare⟩

/-- Whether two semantic versions are one version: neither precedes the other. -/
def sameAs (a b : SemanticVersion) : Bool := a.compare b == .eq

/-- The components without the zeros at the end. -/
def significantComponents (v : SemanticVersion) : List UInt64 :=
  (v.components.reverse.dropWhile (· == 0)).reverse

end SemanticVersion

/-- A version of a mod. -/
inductive Version where
  /-- a version with an order inside -/
  | semantic (v : SemanticVersion)
  /-- any other text, kept as written -/
  | verbatim (text : String)
  deriving DecidableEq, Repr

namespace Version

/-- The release with these components. -/
def ofComponents (components : List UInt64) : Version := .semantic (.ofComponents components)

/-- The semantic version inside, if there is one. -/
def semantic? : Version → Option SemanticVersion
  | .semantic v => some v
  | .verbatim _ => none

/-- Whether the version is semantic. -/
def isSemantic (v : Version) : Bool := v.semantic?.isSome

/-- Verbatim versions sort below all semantic ones, and among themselves as texts. -/
protected def compare : Version → Version → Ordering
  | .semantic a, .semantic b => a.compare b
  | .verbatim a, .verbatim b => compare a b
  | .verbatim _, .semantic _ => .lt
  | .semantic _, .verbatim _ => .gt

instance : Ord Version := ⟨Version.compare⟩

/-- Whether two versions are one version, written perhaps in two ways. -/
def sameAs : Version → Version → Bool
  | .semantic a, .semantic b => a.sameAs b
  | .verbatim a, .verbatim b => a == b
  | _, _ => false

/-- Whether `a` comes before `b` or is the same version. -/
def atMost (a b : Version) : Bool := (a.compare b).isLE

/-- Whether `a` comes strictly before `b`. -/
def below (a b : Version) : Bool := (a.compare b).isLT

/-- What a version is keyed by in a hash table. -/
inductive Key where
  | semantic (components : List UInt64) (preRelease : List String)
  | verbatim (text : String)
  deriving DecidableEq, Repr

/-- The key drops zeros at the end of the components, and keeps pre-release identifiers as written. -/
def key : Version → Key
  | .semantic v => .semantic v.significantComponents v.preRelease
  | .verbatim t => .verbatim t

end Version
end Loadout
